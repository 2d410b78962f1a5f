import Mmmbbb.Snapshots
import Mathlib.Data.List.Nodup

/-!
# The list of acknowledged messages in a snapshot

A snapshot ought to name every message of the topic that its subscription has
no use for any more, delivered or not, and each once. The join that collects
them looks for completed deliveries of the one subscription.
-/

set_option autoImplicit false

namespace Mmmbbb.AckedLists
open KeyedRows Programs Mmmbbb.Schema Mmmbbb.Database Mmmbbb.Delivering Mmmbbb.Consuming
open Mmmbbb.Seeking Mmmbbb.Runs Mmmbbb.Changes Mmmbbb.Snapshots

theorem length_le_one {α : Type} {rows : List α} (h : rows.Nodup) :
    rows.length ≤ 1 ↔ ∀ a ∈ rows, ∀ b ∈ rows, a = b := by
  match rows with
  | [] => simp
  | [a] => simp
  | a :: b :: rest =>
    have hne : a ≠ b := by
      intro hab
      simp [hab] at h
    constructor
    · intro hlen
      simp at hlen
    · intro hall
      exact absurd (hall a (by simp) b (by simp)) hne

theorem nodup_const {α β : Type} (b : β) (rows : List α) :
    (rows.map (fun _ => b)).Nodup ↔ rows.length ≤ 1 := by
  rw [List.map_const', List.nodup_replicate]

def Acked (id : UUID) (db : DB) (k : UUID) : Prop :=
  (∀ y ∈ db.deliveries, y.messageID = k → y.subscriptionID ≠ id) ∨ AckedMessage id db k

/-- The snapshot holds the instant of the oldest outstanding delivery, and
since then exactly the acknowledged messages, each once. -/
structure Exact (now : Time) (sub : Subscription) (db : DB) (snap : Snapshot) : Prop where
  before : ∃ o ∈ db.deliveries, OldestOutstanding now sub.id db o ∧
    snap.ackedMessagesBefore = o.publishedAt
  ids : ∀ k, k ∈ snap.ackedMessageIDs ↔
    OwnSince sub.topicID snap.ackedMessagesBefore db k ∧ Acked sub.id db k
  once : snap.ackedMessageIDs.Nodup

structure DeliveredOnce (now : Time) (sub : Subscription) (db : DB) : Prop where
  delivered : ∀ o ∈ db.deliveries, OldestOutstanding now sub.id db o →
    ∀ k, OwnSince sub.topicID o.publishedAt db k →
      ∃ y ∈ db.deliveries, y.messageID = k ∧ y.subscriptionID = sub.id
  once : ∀ o ∈ db.deliveries, OldestOutstanding now sub.id db o →
    ∀ k, OwnSince sub.topicID o.publishedAt db k →
      ∀ y ∈ db.deliveries, ∀ z ∈ db.deliveries, y.messageID = k → y.subscriptionID = sub.id →
        y.completedAt ≠ none → z.messageID = k → z.subscriptionID = sub.id →
          z.completedAt ≠ none → y = z

section
variable {env : Env} {db : DB} {sub : Subscription} {since : Time}

theorem ackedIDs_nodup :
    (ackedIDs env db.toTables sub since).Nodup ↔
      ∀ k, OwnSince sub.topicID since db k → ∀ y ∈ db.deliveries, ∀ z ∈ db.deliveries,
        y.messageID = k → y.subscriptionID = sub.id → y.completedAt ≠ none →
          z.messageID = k → z.subscriptionID = sub.id → z.completedAt ≠ none → y = z := by
  have hmessages : ((env.messages.run (db.messages.filter (fun m =>
      decide (m.topicID = sub.topicID) && decide (since ≤ m.publishedAt)))).map Message.id).Nodup :=
    (((env.messages.perm _).map Message.id).nodup_iff).mpr (db.sound.message_pk.filter _)
  have hapart : (env.messages.run (db.messages.filter (fun m =>
      decide (m.topicID = sub.topicID) && decide (since ≤ m.publishedAt)))).Pairwise
        (Function.onFun List.Disjoint (fun m =>
          (env.deliveries.run (db.deliveries.filter (fun d => decide (d.messageID = m.id) &&
            decide (d.subscriptionID = sub.id) && d.completedAt.isSome))).map (fun _ => m.id))) := by
    refine (List.pairwise_map.mp hmessages).imp fun {a b} hne k ha hb => ?_
    obtain ⟨-, -, hka⟩ := List.mem_map.mp ha
    obtain ⟨-, -, hkb⟩ := List.mem_map.mp hb
    exact hne (hka.trans hkb.symm)
  rw [ackedIDs, List.nodup_flatMap]
  constructor
  · rintro ⟨hone, -⟩ k ⟨m, hm, rfl, htopic, hsince⟩ y hy z hz hym hys hyc hzm hzs hzc
    have hrow := hone m (by simp [hm, htopic, hsince])
    have hnodup : (env.deliveries.run (db.deliveries.filter (fun d =>
        decide (d.messageID = m.id) && decide (d.subscriptionID = sub.id) &&
          d.completedAt.isSome))).Nodup :=
      (env.deliveries.perm _).nodup_iff.mpr (db.sound.delivery_pk.nodup.filter _)
    rw [nodup_const, length_le_one hnodup] at hrow
    exact hrow y (by simp [hy, hym, hys, Option.isSome_iff_ne_none, hyc]) z
      (by simp [hz, hzm, hzs, Option.isSome_iff_ne_none, hzc])
  · intro hone
    refine ⟨fun m hm => ?_, hapart⟩
    simp only [ScanOrder.mem_run, List.mem_filter, Bool.and_eq_true, decide_eq_true_eq] at hm
    have hnodup : (env.deliveries.run (db.deliveries.filter (fun d =>
        decide (d.messageID = m.id) && decide (d.subscriptionID = sub.id) &&
          d.completedAt.isSome))).Nodup :=
      (env.deliveries.perm _).nodup_iff.mpr (db.sound.delivery_pk.nodup.filter _)
    rw [nodup_const, length_le_one hnodup]
    intro y hy z hz
    simp only [ScanOrder.mem_run, List.mem_filter, Bool.and_eq_true, decide_eq_true_eq,
      Option.isSome_iff_ne_none] at hy hz
    exact hone m.id ⟨m, hm.1, rfl, hm.2.1, hm.2.2⟩ y hy.1 z hz.1 hy.2.1.1 hy.2.1.2 hy.2.2
      hz.2.1.1 hz.2.1.2 hz.2.2

theorem ackedIDs_complete :
    (∀ k, k ∈ ackedIDs env db.toTables sub since ↔
        OwnSince sub.topicID since db k ∧ Acked sub.id db k) ↔
      ∀ k, OwnSince sub.topicID since db k →
        ∃ y ∈ db.deliveries, y.messageID = k ∧ y.subscriptionID = sub.id := by
  simp only [mem_ackedIDs]
  constructor
  · intro hall k hown
    by_contra hnone
    have hacked : Acked sub.id db k := by
      left
      intro y hy hym hys
      exact hnone ⟨y, hy, hym, hys⟩
    obtain ⟨-, y, hy, hym, hys, -⟩ := (hall k).mpr ⟨hown, hacked⟩
    exact hnone ⟨y, hy, hym, hys⟩
  · intro hall k
    constructor
    · rintro ⟨hown, hdone⟩
      exact ⟨hown, Or.inr hdone⟩
    · rintro ⟨hown, hnone | hdone⟩
      · obtain ⟨y, hy, hym, hys⟩ := hall k hown
        exact absurd hys (hnone y hy hym)
      · exact ⟨hown, hdone⟩

end

theorem deliveredOnce_iff {now : Time} {sub : Subscription} {db : DB} {o : Delivery}
    (ho : o ∈ db.deliveries) (hold : OldestOutstanding now sub.id db o) :
    DeliveredOnce now sub db ↔
      (∀ k, OwnSince sub.topicID o.publishedAt db k →
        ∃ y ∈ db.deliveries, y.messageID = k ∧ y.subscriptionID = sub.id) ∧
      ∀ k, OwnSince sub.topicID o.publishedAt db k → ∀ y ∈ db.deliveries, ∀ z ∈ db.deliveries,
        y.messageID = k → y.subscriptionID = sub.id → y.completedAt ≠ none →
          z.messageID = k → z.subscriptionID = sub.id → z.completedAt ≠ none → y = z := by
  constructor
  · intro h
    exact ⟨h.delivered o ho hold, h.once o ho hold⟩
  · rintro ⟨hdelivered, honce⟩
    constructor
    · intro x hx hxold
      rw [hxold.publishedAt_eq hold hx ho]
      exact hdelivered
    · intro x hx hxold
      rw [hxold.publishedAt_eq hold hx ho]
      exact honce

theorem live_only {db : DB} {name : String} {sub r : Subscription}
    (h : only (fun s : Subscription => decide (s.name = name) && s.deletedAt.isNone)
      db.subscriptions = .ok r) (hsub : sub ∈ db.subscriptions) (hname : sub.name = name)
    (hlive : sub.deletedAt = none) : r = sub :=
  only_eq h hsub (by simp [hname, hlive])

/-- A snapshot of a subscription with something outstanding always holds the
right instant, and it holds the right list exactly under the condition. -/
theorem ackedMessageIDs_iff {env : Env} {p : CreateSnapshotParams} {tx tx' : Tx}
    {r : CreateSnapshotResults} {sub : Subscription} (hsub : sub ∈ tx.db.subscriptions)
    (hlive : sub.deletedAt = none) (hname : sub.name = p.subscriptionName)
    (hout : ∃ d ∈ tx.db.deliveries, d.subscriptionID = sub.id ∧ d.Outstanding env.now)
    (h : createSnapshot env p tx = .ok (r, tx')) :
    tx'.db.snapshots = tx.db.snapshots ++ [r.snapshot] ∧
      (∃ o ∈ tx.db.deliveries, OldestOutstanding env.now sub.id tx.db o ∧
        r.snapshot.ackedMessagesBefore = o.publishedAt) ∧
      (Exact env.now sub tx.db r.snapshot ↔ DeliveredOnce env.now sub tx.db) := by
  obtain ⟨s, hs, hid, htab, hmade⟩ := createSnapshot_ok h
  have hsame : s = sub := by
    obtain ⟨-, -, h⟩ := bind_ok.mp h
    obtain ⟨x, hx, h⟩ := bind_ok.mp h
    obtain ⟨db, -, h⟩ := bind_ok.mp h
    obtain ⟨topic, -, h⟩ := bind_ok.mp h
    obtain ⟨rfl, -⟩ := Prod.mk.inj (pure_ok.mp h)
    have hxsub := live_only hx hsub hname hlive
    rw [hxsub] at hid
    exact tx.db.sound.subscription_pk.eq hs hsub hid.symm
  subst hsame
  obtain ⟨d, hd, hds, hdo⟩ := hout
  rcases hmade with ⟨hnone, -, -⟩ | ⟨o, hsome, hbefore, hids⟩
  · exact absurd hdo (oldestUnAcked_none hnone hd hds)
  obtain ⟨ho, hold⟩ := oldestUnAcked_some hsome
  refine ⟨by rw [htab], ⟨o, ho, hold, hbefore⟩, ?_⟩
  rw [deliveredOnce_iff ho hold, ← @ackedIDs_complete env, ← @ackedIDs_nodup env]
  constructor
  · intro hexact
    have hlist := hexact.ids
    have honce := hexact.once
    rw [hids] at honce
    rw [hids, hbefore] at hlist
    exact ⟨hlist, honce⟩
  · rintro ⟨hlist, honce⟩
    constructor
    · exact ⟨o, ho, hold, hbefore⟩
    · rw [hids, hbefore]
      exact hlist
    · rw [hids]
      exact honce

def partialRun : List Event := [
  Sample.ordersTopic 1 10,
  Sample.worker 2 20,
  Sample.publish "1" "" 3 30,
  Sample.publish "2" "" 4 40,
  ⟨.plain 5 50, .ack [41], trivial⟩]

def partialBus : World := World.initial.run partialRun

def prunedBus : World := World.initial.run
  (partialRun ++ [⟨.plain 6 60, .pruneCompletedDeliveries ⟨0, 10⟩, by decide⟩])

def workerSubscription : Subscription :=
  ⟨20, 10, "worker", 2 + hour, none, hour, hour, false, [], none, none, none, none, none, none, 0⟩

def workerEnv : Env := .plain 7 70

def workerSnapshot (ids : List UUID) : CreateSnapshotResults :=
  ⟨10, "orders", 20, ⟨70, 10, "then", 7, 7 + defaultSnapshotTTL, [], 3, ids⟩⟩

def workerParams : CreateSnapshotParams := ⟨"worker", "then", []⟩

instance (id : UUID) (db : DB) (k : UUID) : Decidable (Acked id db k) :=
  inferInstanceAs (Decidable ((∀ y ∈ db.deliveries, _) ∨ _))

theorem ownSince_ids {topicID : UUID} {since : Time} {db : DB} {Q : UUID → Prop}
    (h : ∀ m ∈ db.messages, m.topicID = topicID → since ≤ m.publishedAt → Q m.id) :
    ∀ k, OwnSince topicID since db k → Q k := by
  rintro k ⟨m, hm, rfl, htopic, hsince⟩
  exact h m hm htopic hsince

theorem ackedMessageIDs_iff_partial :
    Exact 7 workerSubscription partialBus.db (workerSnapshot [40]).snapshot := by
  have hmade : (createSnapshot workerEnv workerParams (Tx.begin partialBus.db)).map (·.1) =
      .ok (workerSnapshot [40]) := by decide +kernel
  obtain ⟨⟨r, tx⟩, hmade, hr⟩ := map_ok.mp hmade
  obtain rfl : r = _ := hr
  have hold : OldestOutstanding 7 20 partialBus.db
      ⟨31, 30, 20, 3, 3, none, 0, none, 3 + hour, none⟩ := by decide +kernel
  have hrow : (⟨31, 30, 20, 3, 3, none, 0, none, 3 + hour, none⟩ : Delivery) ∈
      partialBus.db.deliveries := by decide +kernel
  have hsub : workerSubscription ∈ (Tx.begin partialBus.db).db.subscriptions := by decide +kernel
  have hall := ackedMessageIDs_iff hsub rfl rfl ⟨_, hrow, rfl, hold.2.1⟩ hmade
  refine hall.2.2.mpr ((deliveredOnce_iff hrow hold).mpr ⟨ownSince_ids ?_, ownSince_ids ?_⟩)
  all_goals decide +kernel

theorem ackedMessageIDs_pruned :
    bus.Reachable prunedBus ∧ workerSubscription ∈ prunedBus.db.subscriptions ∧
      (createSnapshot workerEnv workerParams (Tx.begin prunedBus.db)).map (·.1) =
        .ok (workerSnapshot []) ∧
      OwnSince 10 3 prunedBus.db 40 ∧ Acked 20 prunedBus.db 40 ∧
      ¬ Exact 7 workerSubscription prunedBus.db (workerSnapshot []).snapshot := by
  have hown : OwnSince 10 3 prunedBus.db 40 := by decide +kernel
  have hacked : Acked 20 prunedBus.db 40 := by decide +kernel
  refine ⟨initial_reachable _, ?_, ?_, hown, hacked, ?_⟩
  · decide +kernel
  · decide +kernel
  · intro hexact
    have hmem := (hexact.ids 40).mpr ⟨hown, hacked⟩
    simp [workerSnapshot] at hmem

end Mmmbbb.AckedLists
