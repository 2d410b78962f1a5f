import Mmmbbb.Changes

/-!
# Snapshots

A snapshot is an instant and a list of messages. It is made from when the
messages were published, and applied by when the deliveries were; for a
dead-lettered delivery these are two different instants.
-/

set_option autoImplicit false

namespace Mmmbbb.Snapshots
open KeyedRows Programs Mmmbbb.Schema Mmmbbb.Database Mmmbbb.Delivering Mmmbbb.Consuming
open Mmmbbb.Seeking Mmmbbb.Runs Mmmbbb.Writes Mmmbbb.Changes

def sought (env : Env) (sub : Subscription) (snap : Snapshot) (d : Delivery) : Delivery :=
  setWhere (seekSnapshotDeAcks sub snap) (deAckAll env sub).apply
    (setWhere (seekSnapshotAcksListed env sub snap) (ackAll env).apply
      (setWhere (seekSnapshotAcksBefore env sub snap) (ackAll env).apply d))

def Snapshot.Covers (snap : Snapshot) (d : Delivery) : Prop :=
  d.publishedAt < snap.ackedMessagesBefore ∨ d.messageID ∈ snap.ackedMessageIDs

theorem sought_id (env : Env) (sub : Subscription) (snap : Snapshot) (d : Delivery) :
    (sought env sub snap d).id = d.id := by simp [sought]

theorem sought_completed {env : Env} {sub : Subscription} {snap : Snapshot} {d : Delivery}
    (hs : d.subscriptionID = sub.id) (he : env.now < d.expiresAt) :
    (sought env sub snap d).completedAt ≠ none ↔ Snapshot.Covers snap d := by
  have hle : env.now ≤ d.expiresAt := he.le
  by_cases hb : d.publishedAt < snap.ackedMessagesBefore <;>
    by_cases hm : d.messageID ∈ snap.ackedMessageIDs <;>
    cases hc : d.completedAt <;>
    simp [sought, setWhere, seekSnapshotAcksBefore, seekSnapshotAcksListed, seekSnapshotDeAcks,
      ackAll, deAckAll, DeliveryUpdate.apply, Snapshot.Covers, hs, hle, hb, hm, hc, not_lt.mp,
      not_le.mpr]

theorem seek_rows {env : Env} {p : SeekSubscriptionToSnapshotParams} {tx tx' : Tx} {r : SeekResults}
    (h : seekSubscriptionToSnapshot env p tx = .ok (r, tx')) {sub : Subscription} {snap : Snapshot}
    (hs : sub ∈ tx.db.subscriptions)
    (hmatch : subMatch p.subscriptionName p.subscriptionID sub = true)
    (hn : snap ∈ tx.db.snapshots)
    (hnmatch : snapMatch p.snapshotName p.snapshotID snap = true) :
    tx'.db.deliveries = tx.db.deliveries.map (sought env sub snap) := by
  obtain ⟨sub', hsub, h⟩ := bind_ok.mp h
  obtain ⟨snap', hsnap, h⟩ := bind_ok.mp h
  obtain rfl := only_eq hsub hs hmatch
  obtain rfl := only_eq hsnap hn hnmatch
  obtain ⟨-, rfl⟩ := Prod.mk.inj (pure_ok.mp h)
  rw [wakeIfSeeked_db]
  simp [DB.updateDeliveries, sought, Function.comp_def]

def OwnSince (topicID : UUID) (since : Time) (db : DB) (k : UUID) : Prop :=
  ∃ m ∈ db.messages, m.id = k ∧ m.topicID = topicID ∧ since ≤ m.publishedAt

def AckedMessage (id : UUID) (db : DB) (k : UUID) : Prop :=
  ∃ y ∈ db.deliveries, y.messageID = k ∧ y.subscriptionID = id ∧ y.completedAt ≠ none

instance (topicID : UUID) (since : Time) (db : DB) (k : UUID) :
    Decidable (OwnSince topicID since db k) :=
  inferInstanceAs (Decidable (∃ m ∈ db.messages, _))

instance (id : UUID) (db : DB) (k : UUID) : Decidable (AckedMessage id db k) :=
  inferInstanceAs (Decidable (∃ y ∈ db.deliveries, _))

section
variable {env : Env} {db : DB} {sub : Subscription}

theorem oldestUnAcked_some {o : Delivery} (h : oldestUnAcked env db.toTables sub = some o) :
    o ∈ db.deliveries ∧ OldestOutstanding env.now sub.id db o := by
  obtain ⟨hm, hmin⟩ := orderBy_head h
  simp only [ScanOrder.mem_run, List.mem_filter, Bool.and_eq_true, decide_eq_true_eq,
    Option.isNone_iff_eq_none] at hm hmin
  obtain ⟨ho, ⟨hsub, hc⟩, he⟩ := hm
  exact ⟨ho, hsub, ⟨hc, he⟩, fun x hx hxs hxo => hmin x ⟨hx, ⟨hxs, hxo.1⟩, hxo.2⟩⟩

theorem oldestUnAcked_none (h : oldestUnAcked env db.toTables sub = none) {x : Delivery}
    (hx : x ∈ db.deliveries) (hxs : x.subscriptionID = sub.id) : ¬ x.Outstanding env.now := by
  intro ho
  have hempty := orderBy_head_none h
  have hmem : x ∈ env.deliveries.run (db.deliveries.filter (fun d =>
      decide (d.subscriptionID = sub.id) && d.completedAt.isNone &&
        decide (env.now < d.expiresAt))) := by
    have hlt : env.now < x.expiresAt := ho.2
    simp [hx, hxs, ho.1, hlt]
  rw [hempty] at hmem
  simp at hmem

theorem mem_ackedIDs {since : Time} {k : UUID} :
    k ∈ ackedIDs env db.toTables sub since ↔
      OwnSince sub.topicID since db k ∧ AckedMessage sub.id db k := by
  simp only [ackedIDs, List.mem_flatMap, ScanOrder.mem_run, List.mem_filter, Bool.and_eq_true,
    decide_eq_true_eq, List.mem_map, OwnSince, AckedMessage]
  constructor
  · rintro ⟨m, ⟨hm, ht, hp⟩, y, ⟨hy, ⟨hym, hys⟩, hyc⟩, rfl⟩
    exact ⟨⟨m, hm, rfl, ht, hp⟩, y, hy, hym, hys, by simpa [Option.isSome_iff_ne_none] using hyc⟩
  · rintro ⟨⟨m, hm, rfl, ht, hp⟩, y, hy, hym, hys, hyc⟩
    exact ⟨m, ⟨hm, ht, hp⟩, y, ⟨hy, ⟨hym, hys⟩, by simpa [Option.isSome_iff_ne_none] using hyc⟩,
      rfl⟩

end

theorem createSnapshot_ok {env : Env} {p : CreateSnapshotParams} {tx tx' : Tx}
    {r : CreateSnapshotResults} (h : createSnapshot env p tx = .ok (r, tx')) :
    ∃ sub ∈ tx.db.subscriptions, r.subscriptionID = sub.id ∧
      tx'.db.toTables = { tx.db.toTables with snapshots := tx.db.snapshots ++ [r.snapshot] } ∧
      ((oldestUnAcked env tx.db.toTables sub = none ∧
          r.snapshot.ackedMessagesBefore = env.now ∧ r.snapshot.ackedMessageIDs = []) ∨
        ∃ o, oldestUnAcked env tx.db.toTables sub = some o ∧
          r.snapshot.ackedMessagesBefore = o.publishedAt ∧
          r.snapshot.ackedMessageIDs = ackedIDs env tx.db.toTables sub o.publishedAt) := by
  obtain ⟨-, -, h⟩ := bind_ok.mp h
  obtain ⟨sub, hsub, h⟩ := bind_ok.mp h
  obtain ⟨db, hdb, h⟩ := bind_ok.mp h
  obtain ⟨topic, -, h⟩ := bind_ok.mp h
  obtain ⟨rfl, rfl⟩ := Prod.mk.inj (pure_ok.mp h)
  obtain ⟨-, ht⟩ := DB.insertSnapshot_ok hdb
  refine ⟨sub, (only_ok hsub).1, rfl, ht, ?_⟩
  cases ho : oldestUnAcked env tx.db.toTables sub with
  | none => exact Or.inl ⟨rfl, rfl, rfl⟩
  | some o => exact Or.inr ⟨o, rfl, rfl, rfl⟩

def Unexpired (now now' : Time) (id : UUID) (before : DB) (d : Delivery) : Prop :=
  d.subscriptionID = id ∧ now < d.expiresAt ∧
    ∃ x ∈ before.deliveries, x.id = d.id ∧ now' < x.expiresAt

def Later (now now' : Time) (id : UUID) (x : Delivery) : Prop :=
  x.subscriptionID = id ∧ now < x.publishedAt ∧ now' < x.expiresAt

instance (now now' : Time) (id : UUID) (before : DB) (d : Delivery) :
    Decidable (Unexpired now now' id before d) := inferInstanceAs (Decidable (_ ∧ _))

instance (now now' : Time) (id : UUID) (x : Delivery) : Decidable (Later now now' id x) :=
  inferInstanceAs (Decidable (_ ∧ _))

/-- Applying the snapshot restores what was completed when it was made. -/
structure RoundTrip (now now' : Time) (id : UUID) (db before after : DB) : Prop where
  restored : ∀ d ∈ db.deliveries, Unexpired now now' id before d →
    ∃ y ∈ after.deliveries, y.id = d.id ∧ (y.completedAt ≠ none ↔ d.completedAt ≠ none)
  later : ∀ x ∈ before.deliveries, Later now now' id x →
    ∃ y ∈ after.deliveries, y.id = x.id ∧ y.completedAt = none

/-- Everything completed was delivered before an instant or is a message of the
topic published since, and no such message has next to its completed delivery
another one, now or later. -/
structure DescribedFrom (since now now' : Time) (sub : Subscription) (db before : DB) : Prop where
  completed : ∀ d ∈ db.deliveries, Unexpired now now' sub.id before d → d.completedAt ≠ none →
    d.publishedAt < since ∨ OwnSince sub.topicID since db d.messageID
  outstanding : ∀ d ∈ db.deliveries, Unexpired now now' sub.id before d → d.completedAt = none →
    ¬ (OwnSince sub.topicID since db d.messageID ∧ AckedMessage sub.id db d.messageID)
  later : ∀ x ∈ before.deliveries, Later now now' sub.id x →
    ¬ (OwnSince sub.topicID since db x.messageID ∧ AckedMessage sub.id db x.messageID)

/-- The states that an instant and a list of messages can describe. -/
def Representable (now now' : Time) (sub : Subscription) (db before : DB) : Prop :=
  ∀ o ∈ db.deliveries, OldestOutstanding now sub.id db o →
    DescribedFrom o.publishedAt now now' sub db before

instance (now now' : Time) (id : UUID) (db before after : DB) :
    Decidable (RoundTrip now now' id db before after) :=
  decidable_of_iff (_ ∧ _) ⟨fun h => ⟨h.1, h.2⟩, fun h => ⟨h.restored, h.later⟩⟩

instance (since now now' : Time) (sub : Subscription) (db before : DB) :
    Decidable (DescribedFrom since now now' sub db before) :=
  decidable_of_iff (_ ∧ _ ∧ _)
    ⟨fun h => ⟨h.1, h.2.1, h.2.2⟩, fun h => ⟨h.completed, h.outstanding, h.later⟩⟩

instance (now now' : Time) (sub : Subscription) (db before : DB) :
    Decidable (Representable now now' sub db before) :=
  inferInstanceAs (Decidable (∀ o ∈ db.deliveries, _))

section
variable {env : Env} {sub : Subscription} {snap : Snapshot} {before after : DB}

theorem seek_row (hrows : after.deliveries = before.deliveries.map (sought env sub snap))
    {x : Delivery} (hx : x ∈ before.deliveries) {P : Delivery → Prop} :
    (∃ y ∈ after.deliveries, y.id = x.id ∧ P y) ↔ P (sought env sub snap x) := by
  constructor
  · rintro ⟨y, hy, hid, hp⟩
    rw [hrows] at hy
    obtain ⟨x', hx', rfl⟩ := List.mem_map.mp hy
    have heq : x' = x := before.sound.delivery_pk.eq hx' hx ((sought_id env sub snap x').symm.trans hid)
    exact heq ▸ hp
  · intro hp
    have hy : sought env sub snap x ∈ after.deliveries := hrows ▸ List.mem_map_of_mem hx
    exact ⟨_, hy, sought_id env sub snap x, hp⟩

theorem covers_sameRow {a b : Delivery} (h : SameRow a b) :
    Snapshot.Covers snap b ↔ Snapshot.Covers snap a := by
  simp [Snapshot.Covers, h.publishedAt, h.messageID]

theorem roundTrip_covers {now : Time} {db : DB}
    (hrows : after.deliveries = before.deliveries.map (sought env sub snap))
    (hkept : ∀ d ∈ db.deliveries, ∃ x ∈ before.deliveries, SameRow d x) :
    RoundTrip now env.now sub.id db before after ↔
      (∀ d ∈ db.deliveries, Unexpired now env.now sub.id before d →
        (Snapshot.Covers snap d ↔ d.completedAt ≠ none)) ∧
      ∀ x ∈ before.deliveries, Later now env.now sub.id x → ¬ Snapshot.Covers snap x := by
  have hold : ∀ d ∈ db.deliveries, Unexpired now env.now sub.id before d →
      ((∃ y ∈ after.deliveries, y.id = d.id ∧ (y.completedAt ≠ none ↔ d.completedAt ≠ none)) ↔
        (Snapshot.Covers snap d ↔ d.completedAt ≠ none)) := by
    rintro d hd ⟨hs, -, x', hx', hid', he⟩
    obtain ⟨x, hx, hsame⟩ := hkept d hd
    obtain rfl : x' = x := before.sound.delivery_pk.eq hx' hx (hid'.trans hsame.id.symm)
    have hrow := seek_row hrows hx (P := fun y => y.completedAt ≠ none ↔ d.completedAt ≠ none)
    rw [hsame.id] at hrow
    rw [hrow, sought_completed (hsame.subscriptionID.trans hs) he, covers_sameRow hsame]
  have hnew : ∀ x ∈ before.deliveries, Later now env.now sub.id x →
      ((∃ y ∈ after.deliveries, y.id = x.id ∧ y.completedAt = none) ↔
        ¬ Snapshot.Covers snap x) := by
    rintro x hx ⟨hs, -, he⟩
    have hdone : (sought env sub snap x).completedAt ≠ none ↔ Snapshot.Covers snap x :=
      sought_completed hs he
    rw [seek_row hrows hx (P := fun y => y.completedAt = none), ← hdone, not_not]
  constructor
  · intro h
    exact ⟨fun d hd hu => (hold d hd hu).mp (h.restored d hd hu),
      fun x hx hl => (hnew x hx hl).mp (h.later x hx hl)⟩
  · rintro ⟨hcover, hnone⟩
    exact ⟨fun d hd hu => (hold d hd hu).mpr (hcover d hd hu),
      fun x hx hl => (hnew x hx hl).mpr (hnone x hx hl)⟩

end

theorem covers_before {snap : Snapshot} {now : Time} {d : Delivery}
    (hb : snap.ackedMessagesBefore = now) (hids : snap.ackedMessageIDs = []) :
    Snapshot.Covers snap d ↔ d.publishedAt < now := by
  simp [Snapshot.Covers, hb, hids]

theorem covers_listed {snap : Snapshot} {env : Env} {sub : Subscription} {db : DB} {o d : Delivery}
    (hb : snap.ackedMessagesBefore = o.publishedAt)
    (hids : snap.ackedMessageIDs = ackedIDs env db.toTables sub o.publishedAt) :
    Snapshot.Covers snap d ↔ d.publishedAt < o.publishedAt ∨
      (OwnSince sub.topicID o.publishedAt db d.messageID ∧ AckedMessage sub.id db d.messageID) := by
  simp [Snapshot.Covers, hb, hids, mem_ackedIDs]

/-- Next to an outstanding delivery, the states that a snapshot can hold are
those of which it covers just what was completed. -/
theorem covers_representable {snap : Snapshot} {now now' : Time} {sub : Subscription}
    {db before : DB} {o : Delivery} (hrow : o ∈ db.deliveries)
    (ho : OldestOutstanding now sub.id db o) (hpast : o.publishedAt < now)
    (hcovers : ∀ d : Delivery, Snapshot.Covers snap d ↔ d.publishedAt < o.publishedAt ∨
      (OwnSince sub.topicID o.publishedAt db d.messageID ∧
        AckedMessage sub.id db d.messageID)) :
    ((∀ d ∈ db.deliveries, Unexpired now now' sub.id before d →
        (Snapshot.Covers snap d ↔ d.completedAt ≠ none)) ∧
      ∀ x ∈ before.deliveries, Later now now' sub.id x → ¬ Snapshot.Covers snap x) ↔
      Representable now now' sub db before := by
  constructor
  · rintro ⟨hold, hnew⟩ o' hrow' ho'
    rw [ho'.publishedAt_eq ho hrow' hrow]
    constructor
    · intro d hd hu hc
      exact ((hcovers d).mp ((hold d hd hu).mpr hc)).imp_right And.left
    · intro d hd hu hc hlisted
      exact (hold d hd hu).mp ((hcovers d).mpr (Or.inr hlisted)) hc
    · intro x hx hl hlisted
      exact hnew x hx hl ((hcovers x).mpr (Or.inr hlisted))
  · intro h
    have hfrom := h o hrow ho
    refine ⟨fun d hd hu => ?_, fun x hx hl hc => ?_⟩
    · rw [hcovers d]
      by_cases hc : d.completedAt = none
      · -- it was outstanding, so not published before the oldest of those
        have hnot := hfrom.outstanding d hd hu hc
        have hle : o.publishedAt ≤ d.publishedAt := ho.2.2 d hd hu.1 ⟨hc, hu.2.1⟩
        simp [hc, hle.not_gt, hnot]
      · have hacked : AckedMessage sub.id db d.messageID := ⟨d, hd, rfl, hu.1, hc⟩
        have hheld := hfrom.completed d hd hu hc
        exact iff_of_true (hheld.imp_right fun hown => ⟨hown, hacked⟩) hc
    · rcases (hcovers x).mp hc with hlt | hlisted
      · have hlate : now < x.publishedAt := hl.2.1
        exact absurd (hlt.trans hpast) hlate.not_gt
      · exact hfrom.later x hx hl hlisted

structure Since (a b : World) : Prop where
  clock : a.clock ≤ b.clock
  snapshots : b.db.snapshots = a.db.snapshots
  subscriptions : b.db.subscriptions.map Subscription.settled =
    a.db.subscriptions.map Subscription.settled
  persists : Persists a b

def Consumed (w : World) (e : Event) (w' : World) : Prop := Ticking w e w' ∧ OnDeliveries e.action

theorem path_since {a b : World} (h : (bus.within Consumed).Path a b) : Since a b := by
  refine h.invariant (I := Since a) (fun v e v' hv hs => ?_)
    ⟨le_refl _, rfl, rfl, fun x hx => ⟨x, hx, .refl x⟩⟩
  obtain ⟨hstep, htick, hon⟩ := hs
  have hstep : v' = v.after e := hstep
  have hrun := transaction_of_action v hon
  rw [← hstep] at hrun
  have hstatic := Transaction.static hrun
  have hpersists : Persists (v.at e.env.now) v' := transaction_persists hrun
  refine ⟨?_, hstatic.snapshots.trans hv.snapshots,
    hstatic.subscriptions.trans hv.subscriptions, hv.persists.trans hpersists⟩
  have hclock : v'.clock = e.env.now := hstep ▸ after_clock v
  have htick : v.clock < e.env.now := htick
  exact hv.clock.trans (hclock ▸ htick.le)

/-- A snapshot is restored just if it could hold what it was made from. -/
theorem snapshot_roundTrip {w₀ w : World} {e e' : Event} {p : CreateSnapshotParams}
    {p' : SeekSubscriptionToSnapshotParams} {r : CreateSnapshotResults} {r' : SeekResults}
    {tx tx' : Tx} {sub : Subscription} (hw : (bus.within Ticking).Reachable w₀)
    (ht : w₀.clock < e.env.now) (ha : e.action = .createSnapshot p)
    (hmade : createSnapshot e.env p (Tx.begin w₀.db) = .ok (r, tx))
    (hrun : (bus.within Consumed).Path (w₀.after e) w)
    (hsub : sub ∈ w.db.subscriptions) (hid : sub.id = r.subscriptionID)
    (ha' : e'.action = .seekToSnapshot p')
    (happlied : seekSubscriptionToSnapshot e'.env p' (Tx.begin w.db) = .ok (r', tx'))
    (hmatch : subMatch p'.subscriptionName p'.subscriptionID sub = true)
    (hsnap : snapMatch p'.snapshotName p'.snapshotID r.snapshot = true) :
    RoundTrip e.env.now e'.env.now sub.id w₀.db w.db (w.after e').db ↔
      Representable e.env.now e'.env.now sub w₀.db w.db := by
  have hsince := path_since hrun
  have hafter : (w₀.after e).db = tx.db := by simp [World.after, exec, ha, hmade, Except.map]
  have hafter' : (w.after e').db = tx'.db := by simp [World.after, exec, ha', happlied, Except.map]
  obtain ⟨sub₀, hsub₀, hid₀, htables, hheld⟩ := createSnapshot_ok hmade
  have hkept : ∀ d ∈ w₀.db.deliveries, ∃ x ∈ w.db.deliveries, SameRow d x := by
    intro d hd
    refine hsince.persists d ?_
    rw [hafter, htables]
    exact hd
  have hlisted : r.snapshot ∈ w.db.snapshots := by
    rw [hsince.snapshots, hafter, htables]
    simp
  have hrows := seek_rows happlied hsub hmatch hlisted hsnap
  -- the subscription is still of the topic it was of
  have htopic : sub.topicID = sub₀.topicID := by
    have hsettled := hsince.subscriptions
    rw [hafter, htables] at hsettled
    have hmem := List.mem_map_of_mem (f := Subscription.settled) hsub
    rw [hsettled] at hmem
    obtain ⟨s, hs, heq⟩ := List.mem_map.mp hmem
    have hsid : sub.id = s.id := Subscription.settled_eq heq.symm Subscription.id (fun _ => rfl)
    have hs₀ : s = sub₀ := w₀.db.sound.subscription_pk.eq hs hsub₀ (by rw [← hsid, hid, hid₀])
    exact hs₀ ▸ Subscription.settled_eq heq.symm Subscription.topicID (fun _ => rfl)
  have hsame : sub.id = sub₀.id := hid.trans hid₀
  have htimed : Timed w₀ := reachable_timed (fun _ _ _ h => le_of_lt h) hw
  have hpast : ∀ d ∈ w₀.db.deliveries, d.publishedAt < e.env.now := fun d hd =>
    lt_of_le_of_lt (htimed d hd) ht
  rw [hafter']
  refine (roundTrip_covers hrows hkept).trans ?_
  rcases hheld with ⟨hnone, hb, hids⟩ | ⟨o, hsome, hb, hids⟩
  · refine iff_of_true ⟨fun d hd hu => ?_, fun x _ hl => ?_⟩ fun o hrow ho => ?_
    · have hopen := oldestUnAcked_none hnone hd (hu.1.trans hsame)
      have hcovered : Snapshot.Covers r.snapshot d := (covers_before hb hids).mpr (hpast d hd)
      refine iff_of_true hcovered fun hc => hopen ⟨hc, hu.2.1⟩
    · rw [covers_before hb hids]
      exact hl.2.1.not_gt
    · exact absurd ho.2.1 (oldestUnAcked_none hnone hrow (ho.1.trans hsame))
  · obtain ⟨hrow, ho⟩ := oldestUnAcked_some hsome
    rw [← hsame] at ho
    have hcovers : ∀ d : Delivery, Snapshot.Covers r.snapshot d ↔ d.publishedAt < o.publishedAt ∨
        (OwnSince sub.topicID o.publishedAt w₀.db d.messageID ∧
          AckedMessage sub.id w₀.db d.messageID) := by
      intro d
      rw [covers_listed hb hids, htopic, hsame]
      rfl
    exact covers_representable hrow ho (hpast o hrow) hcovers

def forwardedRun : List Event := [
  Sample.ordersTopic 1 10,
  Sample.failedTopic 2 20,
  Sample.failingWorker 3 30,
  ⟨.plain 4 40, .createSubscription ⟨"failed", "watcher", hour, hour, false, [], "", 0, 0, "", 0,
    ""⟩, by decide⟩,
  Sample.publish "1" "" 5 50,
  Sample.publish "2" "" 6 60,
  Sample.getTen 7 70,
  ⟨.plain 8 80, .nack [51], by decide⟩,
  ⟨.plain 9 90, .nack [61], by decide⟩]

def ackedBus (id : UUID) : World :=
  World.initial.run (forwardedRun ++ [⟨.plain 10 100, .ack [id], trivial⟩])

def watcherSubscription : Subscription :=
  ⟨40, 20, "watcher", 4 + hour, none, hour, hour, false, [], none, none, none, none, none, none, 0⟩

def takeParams : CreateSnapshotParams := ⟨"watcher", "then", []⟩
def restoreParams : SeekSubscriptionToSnapshotParams := ⟨"watcher", none, "then", none⟩
def take : Event := ⟨.plain 11 110, .createSnapshot takeParams, by decide⟩
def restore (now : Time) : Event := ⟨.plain now 130, .seekToSnapshot restoreParams, by decide⟩

theorem snapshot_roundTrip_watcher :
    RoundTrip 11 13 40 (ackedBus 80).db
      (((ackedBus 80).after take).after ⟨.plain 12 120, .ack [90], trivial⟩).db
      ((((ackedBus 80).after take).after ⟨.plain 12 120, .ack [90], trivial⟩).after
        (restore 13)).db := by
  have hreach : (bus.within Ticking).Reachable (ackedBus 80) := initial_within (by decide +kernel)
  have hmade : (createSnapshot take.env takeParams (Tx.begin (ackedBus 80).db)).map (·.1) =
      .ok ⟨20, "failed", 40, ⟨110, 20, "then", 11, 11 + defaultSnapshotTTL, [], 9, []⟩⟩ := by
    decide +kernel
  have happlied : (seekSubscriptionToSnapshot (restore 13).env restoreParams (Tx.begin
      (((ackedBus 80).after take).after ⟨.plain 12 120, .ack [90], trivial⟩).db)).map (·.1) =
        .ok ⟨0, 1⟩ := by decide +kernel
  have hrun : (bus.within Consumed).Path ((ackedBus 80).after take)
      (((ackedBus 80).after take).after ⟨.plain 12 120, .ack [90], trivial⟩) :=
    .next ⟨.plain 12 120, .ack [90], trivial⟩ (.refl _) ⟨rfl, by decide +kernel, trivial⟩
  obtain ⟨⟨r, tx⟩, hmade, hr⟩ := map_ok.mp hmade
  obtain ⟨⟨r', tx'⟩, happlied, -⟩ := map_ok.mp happlied
  obtain rfl : r = _ := hr
  have hsub : watcherSubscription ∈ (((ackedBus 80).after take).after
      ⟨.plain 12 120, .ack [90], trivial⟩).db.subscriptions := by
    decide +kernel
  have hall := snapshot_roundTrip hreach (by decide +kernel) rfl hmade hrun hsub rfl
    (rfl : (restore 13).action = _) happlied (by decide) (by decide)
  exact hall.mpr (by decide +kernel)

/-- The second of the two acknowledged, it comes back unacknowledged. -/
theorem roundTrip_lost :
    (bus.within Ticking).Reachable (ackedBus 90) ∧
    (createSnapshot take.env takeParams (Tx.begin (ackedBus 90).db)).map (·.1) =
      .ok ⟨20, "failed", 40, ⟨110, 20, "then", 11, 11 + defaultSnapshotTTL, [], 8, []⟩⟩ ∧
    (seekSubscriptionToSnapshot (restore 12).env restoreParams
      (Tx.begin ((ackedBus 90).after take).db)).map (·.1) = .ok ⟨0, 1⟩ ∧
    ¬ RoundTrip 11 12 40 (ackedBus 90).db ((ackedBus 90).after take).db
      (((ackedBus 90).after take).after (restore 12)).db :=
  ⟨initial_within (by decide +kernel), by decide +kernel, by decide +kernel, by decide +kernel⟩

end Mmmbbb.Snapshots
