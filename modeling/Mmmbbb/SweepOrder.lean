import Mmmbbb.Alterations
import Mmmbbb.Ordering

/-!
# The order of the sweep

The sweep does not look at the order: a delivery that has used up its attempts
has been handed out, so what it waits for was done. A seek can undo that, and
so can an update of the subscription.
-/

set_option autoImplicit false

namespace Mmmbbb.SweepOrder
open KeyedRows LinkedRows Programs Mmmbbb.Schema Mmmbbb.Database Mmmbbb.Delivering
open Mmmbbb.Consuming Mmmbbb.Seeking Mmmbbb.Administering Mmmbbb.Runs Mmmbbb.Writes Mmmbbb.Changes
open Mmmbbb.Links Mmmbbb.Ordering Mmmbbb.Alterations

def Spent (t : Tables) (d : Delivery) : Prop :=
  ∃ s ∈ t.subscriptions, s.id = d.subscriptionID ∧ s.deletedAt = none ∧
    s.orderedDelivery = true ∧ s.deadLetterTopicFor d ≠ none

instance (t : Tables) (d : Delivery) : Decidable (Spent t d) :=
  inferInstanceAs (Decidable (∃ s ∈ t.subscriptions, _))

/-- What has used up its attempts waits for nothing that is still to be done. -/
def Passed (now : Time) (t : Tables) : Prop :=
  ∀ a b, NotBefore t.deliveries a b → Spent t a → a.Outstanding now → Done now b

/-- At no later time does the sweep select a delivery that is blocked. -/
def Respectful (w : World) : Prop := ∀ (env : Env) (n : ℕ), w.clock ≤ env.now →
  ∀ data ∈ deadLetterSelection env w.db.toTables n, ∀ d ∈ w.db.deliveries,
    d.id = data.deliveryID →
    (∃ s ∈ w.db.subscriptions, s.id = d.subscriptionID ∧ s.orderedDelivery = true) →
      d.notBeforeID = none ∨ ∃ b ∈ w.db.deliveries, d.notBeforeID = some b.id ∧ Done env.now b

theorem passed_respectful {w : World} (h : Passed w.clock w.db.toTables) : Respectful w := by
  intro env n hle data hdata d hd hid hordered
  obtain ⟨x, hx, hmap⟩ := List.mem_filterMap.mp hdata
  obtain ⟨k, hk, hxdata⟩ := Option.map_eq_some_iff.mp hmap
  have hxmem : x ∈ w.db.deliveries := by
    have hrun := List.mem_of_mem_take hx
    simp only [ScanOrder.mem_run, List.mem_filter] at hrun
    exact hrun.1
  have hxid : x.id = data.deliveryID := by
    rw [← hxdata]
    rfl
  obtain rfl : x = d := w.db.sound.delivery_pk.eq hxmem hd (hxid.trans hid.symm)
  obtain ⟨s, hs, hlive, ho, -, htopic⟩ := deadLetterTarget_some.mp hk
  obtain ⟨hs, hsid⟩ := fetch_mem hs
  obtain ⟨r, hr, hrid, hrordered⟩ := hordered
  obtain rfl : r = s := w.db.sound.subscription_pk.eq hr hs (hrid.trans hsid.symm)
  have hspent : Spent w.db.toTables x := ⟨r, hr, hsid, hlive, hrordered, by simp [htopic]⟩
  cases hlink : x.notBeforeID with
  | none => exact Or.inl rfl
  | some k =>
    obtain ⟨b, hb, hbid⟩ := w.db.sound.delivery_notBefore x hd k hlink
    have hblocked : NotBefore w.db.deliveries x b := ⟨hd, hb, by rw [hlink, hbid]⟩
    have hbefore : x.Outstanding w.clock := ⟨ho.1, hle.trans_lt ho.2⟩
    have hdone := (h x b hblocked hspent hbefore).mono hle
    exact Or.inr ⟨b, hb, by rw [hbid], hdone⟩

theorem Passed.later {now now' : Time} {t : Tables} (h : Passed now t) (hle : now ≤ now') :
    Passed now' t := by
  intro a b hl hs ho
  have hbefore : a.Outstanding now := ⟨ho.1, hle.trans_lt ho.2⟩
  exact (h a b hl hs hbefore).mono hle

def Lenient (a b : Tables) : Prop := ∀ s ∈ b.subscriptions, s.deletedAt = none →
  s.orderedDelivery = true → ∀ d, s.id = d.subscriptionID → d ∈ a.deliveries →
    s.deadLetterTopicFor d ≠ none → Spent a d

theorem passed_lenient {now : Time} {a b : Tables} (h : Passed now a) (hl : Lenient a b)
    (hd : b.deliveries = a.deliveries) : Passed now b := by
  intro x y hlink hspent ho
  rw [hd] at hlink
  obtain ⟨s, hs, hid, hlive, hordered, hlimit⟩ := hspent
  exact h x y hlink (hl s hs hlive hordered x hid hlink.1 hlimit) ho

theorem lenient_map {a b : Tables} {f : Subscription → Subscription}
    (hb : b.subscriptions = a.subscriptions.map f) (hid : ∀ s, (f s).id = s.id)
    (hf : ∀ s d, (f s).deletedAt = none → (f s).orderedDelivery = true →
      (f s).deadLetterTopicFor d ≠ none →
        s.deletedAt = none ∧ s.orderedDelivery = true ∧ s.deadLetterTopicFor d ≠ none) :
    Lenient a b := by
  intro x hx hlive hordered d hxid _ hlimit
  rw [hb] at hx
  obtain ⟨s, hs, rfl⟩ := List.mem_map.mp hx
  exact ⟨s, hs, (hid s).symm.trans hxid, hf s d hlive hordered hlimit⟩

theorem lenient_sub {a b : Tables} (h : ∀ s ∈ b.subscriptions, s ∈ a.subscriptions) :
    Lenient a b :=
  fun s hs hlive hordered _ hid _ hlimit => ⟨s, h s hs, hid, hlive, hordered, hlimit⟩

theorem plain_keeps {u : SubscriptionUpdate} (hu : Plain u) (s : Subscription) (d : Delivery) :
    (u.apply s).orderedDelivery = s.orderedDelivery ∧
      (u.apply s).deadLetterTopicFor d = s.deadLetterTopicFor d := by
  constructor
  · simp [SubscriptionUpdate.apply, hu.ordered]
  · simp [Subscription.deadLetterTopicFor, Subscription.deadLetterConfig, SubscriptionUpdate.apply,
      hu.attempts, hu.topic]

theorem forgetTopics_limit {gone : List UUID} {s : Subscription} {d : Delivery}
    (h : (Subscription.forgetTopics gone s).deadLetterTopicFor d ≠ none) :
    s.deadLetterTopicFor d ≠ none := by
  obtain ⟨k, hk⟩ := Option.ne_none_iff_exists'.mp h
  obtain ⟨n, hcfg, hn⟩ := Subscription.deadLetterTopicFor_some.mp hk
  obtain ⟨hmax, htopic, hpos⟩ := Subscription.deadLetterConfig_eq.mp hcfg
  have hold : s.deadLetterTopicID = some k := by
    have hfilter : s.deadLetterTopicID.filter (fun k => decide (k ∉ gone)) = some k := htopic
    exact (Option.filter_eq_some_iff.mp hfilter).1
  have hsome : s.deadLetterTopicFor d = some k :=
    Subscription.deadLetterTopicFor_some.mpr
      ⟨n, Subscription.deadLetterConfig_eq.mpr ⟨hmax, hold, hpos⟩, hn⟩
  simp [hsome]

/-- Of two linked deliveries, the first of which has used up its attempts, the
`UPDATE` does not leave both to be done. -/
def Unopened (now : Time) (t : Tables) (q : Delivery → Bool) : Prop :=
  ∀ a ∈ t.deliveries, ∀ b ∈ t.deliveries, a.notBeforeID = some b.id → Spent t a →
    ¬ ((q a = true ∨ a.Outstanding now) ∧ (q b = true ∨ b.Outstanding now))

def Unspent (now : Time) (t : Tables) (s : Subscription) (u : SubscriptionUpdate) : Prop :=
  (u.apply s).orderedDelivery = true → ∀ a ∈ t.deliveries, ∀ b ∈ t.deliveries,
    a.notBeforeID = some b.id → a.subscriptionID = s.id →
      a.Outstanding now → b.Outstanding now → (u.apply s).deadLetterTopicFor a = none

/-- The clock does not go back, and neither a seek nor an update of the
subscription blocks what has used up its attempts. -/
def KeepsOrder (w : World) (e : Event) (_ : World) : Prop :=
  w.clock ≤ e.env.now ∧
  match e.action with
  | .seekToTime p => ∀ sub ∈ w.db.subscriptions, subMatch p.name p.id sub = true →
      Unopened e.env.now w.db.toTables (seekTimeDeAcks e.env sub p.time)
  | .seekToSnapshot p => ∀ sub ∈ w.db.subscriptions,
      subMatch p.subscriptionName p.subscriptionID sub = true → ∀ snap ∈ w.db.snapshots,
        snapMatch p.snapshotName p.snapshotID snap = true →
          Unopened e.env.now w.db.toTables (seekSnapshotDeAcks sub snap)
  | .updateSubscription req =>
    match req.updateMask.foldlM (updatePath e.env w.db.toTables req) {} with
    | .ok u => ∀ s ∈ w.db.subscriptions, liveSubscriptionNamed req.name s = true →
        Unspent e.env.now w.db.toTables s u
    | .error _ => True
  | _ => True

instance (now : Time) (t : Tables) (q : Delivery → Bool) : Decidable (Unopened now t q) := by
  unfold Unopened
  infer_instance

instance (now : Time) (t : Tables) (s : Subscription) (u : SubscriptionUpdate) :
    Decidable (Unspent now t s u) := by
  unfold Unspent
  infer_instance

instance (w : World) (e : Event) (w' : World) : Decidable (KeepsOrder w e w') := by
  unfold KeepsOrder
  refine @instDecidableAnd _ _ inferInstance ?_
  generalize e.action = a
  induction a using Runs.Action.casesOn
  case updateSubscription req =>
    dsimp only
    generalize req.updateMask.foldlM (updatePath e.env w.db.toTables req) {} = r
    induction r using Except.casesOn <;> infer_instance
  all_goals infer_instance

section
variable {now : Time} {w : World} {p q : Delivery → Bool} {u : DeliveryUpdate}

theorem outstanding_edit (hu : Harmless u) {d : Delivery}
    (h : (setWhere p u.apply d).Outstanding now) : d.Outstanding now := by
  refine ⟨?_, ?_⟩
  · by_contra hc
    exact completed_edit hu hc h.1
  · have hexp := h.2
    rwa [setWhere_expiresAt p d hu.1] at hexp

theorem Spent.of_eq {a b : Tables} {x d : Delivery} (h : Spent b x)
    (hs : ∀ s ∈ b.subscriptions, ∃ r ∈ a.subscriptions, r.settled = s.settled)
    (hsub : x.subscriptionID = d.subscriptionID) (hattempts : x.attempts = d.attempts) :
    Spent a d := by
  obtain ⟨s, hmem, hid, hlive, hordered, hlimit⟩ := h
  obtain ⟨r, hr, heq⟩ := hs s hmem
  have hrid := Subscription.settled_eq heq Subscription.id (fun _ => rfl)
  have hrlive := Subscription.settled_eq heq Subscription.deletedAt (fun _ => rfl)
  have hrord := Subscription.settled_eq heq Subscription.orderedDelivery (fun _ => rfl)
  have hrcfg := Subscription.settled_eq heq Subscription.deadLetterConfig (fun _ => rfl)
  refine ⟨r, hr, hrid.trans (hid.trans hsub), hrlive.trans hlive, hrord.trans hordered, ?_⟩
  unfold Subscription.deadLetterTopicFor at hlimit ⊢
  rwa [hrcfg, ← hattempts]

theorem passed_edit (h : Passed now w.db.toTables) (hu : Harmless u)
    (hstart : u.addAttempts = 0 ∨ ∀ a b, NotBefore w.db.deliveries a b → p a = true →
      Spent w.db.toTables (u.apply a) → Done now b) :
    Passed now (w.edit p u).db.toTables := by
  intro x y hl hspent ho
  obtain ⟨a, b, hlink, rfl, rfl⟩ := Follows.of_map (setWhere_id p) (setWhere_notBeforeID p) hl
  refine done_edit hu ?_
  have hopen := outstanding_edit hu ho
  have hsame : ∀ s ∈ w.db.subscriptions, ∃ r ∈ w.db.subscriptions, r.settled = s.settled :=
    fun s hs => ⟨s, hs, rfl⟩
  rcases hstart with hzero | hstart
  · have hspent' : Spent w.db.toTables a :=
      hspent.of_eq hsame (setWhere_subscriptionID p a) (setWhere_attempts p a hzero)
    exact h a b hlink hspent' hopen
  · by_cases hp : p a = true
    · rw [setWhere, if_pos hp] at hspent
      exact hstart a b hlink hp hspent
    · rw [setWhere, if_neg hp] at hspent
      exact h a b hlink hspent hopen

theorem passed_same {a b : Tables} (h : Passed now a)
    (hs : ∀ s ∈ b.subscriptions, ∃ r ∈ a.subscriptions, r.settled = s.settled)
    (hd : b.deliveries = a.deliveries) : Passed now b := by
  intro x y hl hspent ho
  rw [hd] at hl
  exact h x y hl (hspent.of_eq hs rfl rfl) ho

theorem passed_added {e : Event} {r : Delivery} {t : Tables} (h : Passed now w.db.toTables)
    (hr : Added e w r) (hrows : t.deliveries = w.db.deliveries ++ [r])
    (hsubs : t.subscriptions = w.db.subscriptions) : Passed now t := by
  intro a b hl hspent ho
  rw [hrows] at hl
  have hwaits : Waits a.subscriptionID (w.db.deliveries ++ [r]) a b := ⟨hl, rfl⟩
  obtain ⟨hb, rfl | hl⟩ := waits_added hr hwaits
  · obtain ⟨s, -, -, -, -, hlimit⟩ := hspent
    obtain ⟨k, hk⟩ := Option.ne_none_iff_exists'.mp hlimit
    obtain ⟨s', -, m, -, n, -, -, -, rfl⟩ := hr
    exact absurd (Subscription.deadLetterTopicFor_attempts hk) (Nat.lt_irrefl 0)
  · exact h a b hl.1 (hspent.of_eq (fun s hs => ⟨s, hsubs ▸ hs, rfl⟩) rfl rfl) ho

theorem passed_write {e : Event} {o w' : World} (hw : Write e o w w')
    (hseek : (∀ p, e.action ≠ .seekToTime p) ∧ ∀ p, e.action ≠ .seekToSnapshot p)
    (h : Passed e.env.now w.db.toTables) : Passed e.env.now w'.db.toTables := by
  have hstatic := hw.static
  cases hw
  case refresh hdb =>
    have ht := DB.updateSubscriptions_ok hdb
    exact passed_same h (fun s hs => hstatic.subscription_before hs) (by simp [World.set, ht])
  case message hdb =>
    have ht := (DB.insertMessage_ok hdb).2
    exact passed_same h (fun s hs => hstatic.subscription_before hs) (by simp [World.set, ht])
  case deliver s m c k db hs hlive hm hc hdb _ =>
    obtain ⟨hr, hrows⟩ := deliver_added hs hlive hm hc hdb
    have ht := (DB.insertDelivery_ok hdb).2
    exact passed_added h hr hrows (by simp [World.set, ht])
  case deadLetter => exact passed_edit h ⟨rfl, by simp⟩ (Or.inl rfl)
  case reschedule => exact passed_edit h ⟨rfl, by simp⟩ (Or.inl rfl)
  case attempt d s p t ha hd₀ hd ho hs hsid hlive hlimit hord =>
    refine passed_edit h ⟨rfl, by simp⟩ (Or.inr fun a b hl hp hspent => ?_)
    obtain rfl : a = d := w.db.sound.delivery_pk.eq hl.1 hd (of_decide_eq_true hp)
    obtain ⟨r, hr, hrid, -, hordered, -⟩ := hspent
    obtain rfl : r = s := w.db.sound.subscription_pk.eq hr hs (hrid.trans hsid.symm)
    exact link_done (hord hordered) hl
  case ack => exact passed_edit h ⟨rfl, by simp⟩ (Or.inl rfl)
  case delay => exact passed_edit h ⟨rfl, by simp⟩ (Or.inl rfl)
  case seekTimeAcks ha _ _ => exact absurd ha (hseek.1 _)
  case seekTimeDeAcks ha _ _ => exact absurd ha (hseek.1 _)
  case seekSnapshotAcks ha _ _ _ _ _ => exact absurd ha (hseek.2 _)
  case seekSnapshotDeAcks ha _ _ _ _ => exact absurd ha (hseek.2 _)

end

/-- What the statements of a seek before its last one do to a row: they leave
it as it is, or complete it, and then the last one does not match it. -/
structure Acknowledges (q : Delivery → Bool) (g : Delivery → Delivery) : Prop where
  id : ∀ d, (g d).id = d.id
  notBeforeID : ∀ d, (g d).notBeforeID = d.notBeforeID
  subscriptionID : ∀ d, (g d).subscriptionID = d.subscriptionID
  attempts : ∀ d, (g d).attempts = d.attempts
  completes : ∀ d, g d = d ∨ (g d).completedAt ≠ none ∧ q (g d) = false

theorem acknowledges_one {env : Env} {q p : Delivery → Bool}
    (hq : ∀ d, p d = true → q ((ackAll env).apply d) = false) :
    Acknowledges q (setWhere p (ackAll env).apply) where
  id := setWhere_id p
  notBeforeID := setWhere_notBeforeID p
  subscriptionID := setWhere_subscriptionID p
  attempts d := setWhere_attempts p d rfl
  completes := by
    intro d
    unfold setWhere
    by_cases hp : p d = true
    · rw [if_pos hp]
      exact Or.inr ⟨by simp [ackAll, DeliveryUpdate.apply], hq d hp⟩
    · rw [if_neg hp]
      exact Or.inl rfl

theorem Acknowledges.comp {q : Delivery → Bool} {g g' : Delivery → Delivery}
    (h : Acknowledges q g) (h' : Acknowledges q g') : Acknowledges q (fun d => g' (g d)) where
  id d := (h'.id _).trans (h.id d)
  notBeforeID d := (h'.notBeforeID _).trans (h.notBeforeID d)
  subscriptionID d := (h'.subscriptionID _).trans (h.subscriptionID d)
  attempts d := (h'.attempts _).trans (h.attempts d)
  completes := by
    intro d
    rcases h'.completes (g d) with hsame | hdone
    · rw [hsame]
      exact h.completes d
    · exact Or.inr hdone

def sought (env : Env) (sub : Subscription) (q : Delivery → Bool) (g : Delivery → Delivery)
    (t : Tables) : Tables :=
  { t with deliveries := t.deliveries.map (fun d => setWhere q (deAckAll env sub).apply (g d)) }

section
variable {now : Time} {t : Tables} {env : Env} {sub : Subscription} {q : Delivery → Bool}
  {g : Delivery → Delivery}

theorem sought_outstanding (hg : Acknowledges q g) {d : Delivery}
    (h : (setWhere q (deAckAll env sub).apply (g d)).Outstanding now) :
    q d = true ∨ d.Outstanding now := by
  rcases hg.completes d with hsame | ⟨hdone, hmiss⟩
  · rw [hsame] at h
    unfold setWhere at h
    by_cases hq : q d = true
    · exact Or.inl hq
    · rw [if_neg hq] at h
      exact Or.inr h
  · rw [setWhere, if_neg (by simp [hmiss])] at h
    exact absurd h.1 hdone

theorem passed_sought (h : Unopened now t q) (hg : Acknowledges q g) :
    Passed now (sought env sub q g t) := by
  intro x y hl hspent ho
  obtain ⟨a, b, ⟨ha, hb, hlink⟩, rfl, rfl⟩ := Follows.of_map
    (f := fun d => setWhere q (deAckAll env sub).apply (g d))
    (fun d => (setWhere_id q _).trans (hg.id d))
    (fun d => (setWhere_notBeforeID q _).trans (hg.notBeforeID d)) hl
  have hspent' : Spent t a := hspent.of_eq (fun s hs => ⟨s, hs, rfl⟩)
    ((setWhere_subscriptionID q _).trans (hg.subscriptionID a))
    ((setWhere_attempts q _ rfl).trans (hg.attempts a))
  by_contra hopen
  exact h a ha b hb hlink hspent'
    ⟨sought_outstanding hg ho, sought_outstanding hg (not_done.mp hopen)⟩

end

section
variable {w : World} {e : Event}

theorem seekTime_sought {p : SeekSubscriptionToTimeParams} (ha : e.action = .seekToTime p) :
    (w.after e).db = w.db ∨ ∃ sub ∈ w.db.subscriptions, subMatch p.name p.id sub = true ∧
      ∃ g, Acknowledges (seekTimeDeAcks e.env sub p.time) g ∧ (w.after e).db.toTables =
        sought e.env sub (seekTimeDeAcks e.env sub p.time) g w.db.toTables := by
  obtain ⟨env, action, hv⟩ := e
  obtain rfl : action = .seekToTime p := ha
  unfold World.after
  split
  · rename_i given tx hexec
    obtain ⟨-, r, hb⟩ := quiet_ok hexec
    obtain ⟨sub, hsub, hb⟩ := bind_ok.mp hb
    obtain ⟨-, rfl⟩ := Prod.mk.inj (pure_ok.mp hb)
    obtain ⟨hs, hmatch⟩ := only_ok hsub
    have hacks : Acknowledges (seekTimeDeAcks env sub p.time)
        (setWhere (seekTimeAcks env sub p.time) (ackAll env).apply) := by
      refine acknowledges_one fun d hd => ?_
      simp only [seekTimeAcks, Bool.and_eq_true, decide_eq_true_eq] at hd
      have hnot : ¬ p.time < d.publishedAt := not_lt.mpr hd.1.2
      simp [seekTimeDeAcks, ackAll, DeliveryUpdate.apply, hnot]
    refine Or.inr ⟨sub, hs, hmatch, _, hacks, ?_⟩
    rw [wakeIfSeeked_db]
    simp only [DB.updateDeliveries, Tx.begin, sought, List.map_map, Function.comp_def]
  · exact Or.inl rfl

theorem seekSnapshot_sought {p : SeekSubscriptionToSnapshotParams}
    (ha : e.action = .seekToSnapshot p) :
    (w.after e).db = w.db ∨ ∃ sub ∈ w.db.subscriptions,
      subMatch p.subscriptionName p.subscriptionID sub = true ∧ ∃ snap ∈ w.db.snapshots,
        snapMatch p.snapshotName p.snapshotID snap = true ∧
          ∃ g, Acknowledges (seekSnapshotDeAcks sub snap) g ∧ (w.after e).db.toTables =
            sought e.env sub (seekSnapshotDeAcks sub snap) g w.db.toTables := by
  obtain ⟨env, action, hv⟩ := e
  obtain rfl : action = .seekToSnapshot p := ha
  unfold World.after
  split
  · rename_i given tx hexec
    obtain ⟨-, r, hb⟩ := quiet_ok hexec
    obtain ⟨sub, hsub, hb⟩ := bind_ok.mp hb
    obtain ⟨snap, hsnap, hb⟩ := bind_ok.mp hb
    obtain ⟨-, rfl⟩ := Prod.mk.inj (pure_ok.mp hb)
    obtain ⟨hs, hmatch⟩ := only_ok hsub
    obtain ⟨hn, hnmatch⟩ := only_ok hsnap
    have hbefore : Acknowledges (seekSnapshotDeAcks sub snap)
        (setWhere (seekSnapshotAcksBefore env sub snap) (ackAll env).apply) := by
      refine acknowledges_one fun d hd => ?_
      simp only [seekSnapshotAcksBefore, Bool.and_eq_true, decide_eq_true_eq] at hd
      have hnot : ¬ snap.ackedMessagesBefore ≤ d.publishedAt := not_le.mpr hd.1.2
      simp [seekSnapshotDeAcks, ackAll, DeliveryUpdate.apply, hnot]
    have hlisted : Acknowledges (seekSnapshotDeAcks sub snap)
        (setWhere (seekSnapshotAcksListed env sub snap) (ackAll env).apply) := by
      refine acknowledges_one fun d hd => ?_
      simp only [seekSnapshotAcksListed, Bool.and_eq_true, decide_eq_true_eq] at hd
      simp [seekSnapshotDeAcks, ackAll, DeliveryUpdate.apply, hd.1.2]
    refine Or.inr ⟨sub, hs, hmatch, snap, hn, hnmatch, _, hbefore.comp hlisted, ?_⟩
    rw [wakeIfSeeked_db]
    simp only [DB.updateDeliveries, Tx.begin, sought, List.map_map, Function.comp_def]
  · exact Or.inl rfl

end

theorem alteration_passed {env : Env} {t t' : Tables} {a : Action} (ht : Sound t)
    (h : Alteration env t a t')
    (hupdate : ∀ req, a = .updateSubscription req →
      match req.updateMask.foldlM (updatePath env t req) {} with
      | .ok u => ∀ s ∈ t.subscriptions, liveSubscriptionNamed req.name s = true →
          Unspent env.now t s u
      | .error _ => True)
    (hi : Passed env.now t) : Passed env.now t' := by
  have hkept : ∀ s ∈ t.subscriptions, s ∈ t.subscriptions := fun _ hs => hs
  cases h with
  | idle => exact hi
  | createTopic => exact passed_lenient hi (lenient_sub hkept) rfl
  | updateTopic => exact passed_lenient hi (lenient_sub hkept) rfl
  | deleteTopic => exact passed_lenient hi (lenient_sub hkept) rfl
  | @createSubscription p s r _ _ _ _ hfresh =>
    refine passed_lenient hi (fun x hx hlive hordered d hid hd hlimit => ?_) rfl
    rcases List.mem_append.mp hx with hx | hx
    · exact ⟨x, hx, hid, hlive, hordered, hlimit⟩
    · rw [List.mem_singleton.mp hx] at hid
      exact absurd (hid ▸ ht.delivery_subscription d hd) hfresh
  | @updateSubscription req s u hs hnamed hu =>
    have hunspent := hupdate req rfl
    rw [hu] at hunspent
    intro x y hl hspent ho
    obtain ⟨r, hr, hid, hlive, hordered, hlimit⟩ := hspent
    obtain ⟨o, hmem, rfl⟩ := List.mem_map.mp hr
    by_cases ho' : o.id = s.id
    · obtain rfl : o = s := ht.subscription_pk.eq hmem hs ho'
      rw [setWhere, if_pos (by simp)] at hid hordered hlimit
      by_contra hopen
      exact hlimit (hunspent o hs hnamed hordered x hl.1 y hl.2.1 hl.2.2 hid.symm ho
        (not_done.mp hopen))
    · rw [setWhere, if_neg (by simpa using ho')] at hid hlive hordered hlimit
      exact hi x y hl ⟨o, hmem, hid, hlive, hordered, hlimit⟩ ho
  | @setSubscriptions a q u hu =>
    refine passed_lenient hi (lenient_map rfl (setWhere_keeps Subscription.id u.apply_id)
      fun s d hlive hordered hlimit => ?_) rfl
    have hsame := plain_keeps hu s d
    unfold setWhere at hlive hordered hlimit
    by_cases hq : q s = true
    · rw [if_pos hq] at hlive hordered hlimit
      exact ⟨u.apply_live s hlive, hsame.1 ▸ hordered, hsame.2 ▸ hlimit⟩
    · rw [if_neg hq] at hlive hordered hlimit
      exact ⟨hlive, hordered, hlimit⟩
  | createSnapshot => exact passed_lenient hi (lenient_sub hkept) rfl
  | deleteSnapshot => exact passed_lenient hi (lenient_sub hkept) rfl
  | @pruneDeliveries a q =>
    intro x y hl hspent ho
    have hl : Follows Delivery.id Delivery.notBeforeID ((t.deliveries.filter (fun r => !q r)).map
      (Delivery.forget ((t.deliveries.filter q).map Delivery.id))) x y := hl
    obtain ⟨a, b, hlink, -, -, rfl, rfl⟩ := Follows.of_delete (Delivery.forget_id _)
      (fun r k hk => (Delivery.forget_notBefore.mp hk).1) hl
    exact hi a b hlink hspent ho
  | pruneMessages => exact passed_lenient hi (lenient_sub hkept) rfl
  | pruneSubscriptions =>
    exact passed_lenient hi (lenient_sub fun _ hs => List.mem_of_mem_filter hs) rfl
  | pruneTopics =>
    refine passed_lenient hi (lenient_map rfl (fun _ => rfl) fun s d hlive hordered hlimit => ?_) rfl
    exact ⟨hlive, hordered, forgetTopics_limit hlimit⟩

theorem passed_after {w w' : World} {e : Event} (hok : KeepsOrder w e w')
    (h : Passed w.clock w.db.toTables) : Passed e.env.now (w.after e).db.toTables := by
  obtain ⟨hle, haction⟩ := hok
  have hlater := h.later hle
  by_cases ha : OnDeliveries e.action
  · by_cases hseek : (∀ p, e.action ≠ .seekToTime p) ∧ ∀ p, e.action ≠ .seekToSnapshot p
    · exact steps_invariant (I := fun v : World => Passed e.env.now v.db.toTables)
        (fun v v' hv hi => passed_write hv hseek hi) (transaction_of_action w ha) hlater
    · cases hact : e.action with
      | seekToTime p =>
        rw [hact] at haction
        rcases seekTime_sought hact with hsame | ⟨sub, hs, hmatch, g, hg, htables⟩
        · rw [hsame]
          exact hlater
        · rw [htables]
          exact passed_sought (haction sub hs hmatch) hg
      | seekToSnapshot p =>
        rw [hact] at haction
        rcases seekSnapshot_sought hact with
          hsame | ⟨sub, hs, hmatch, snap, hn, hnmatch, g, hg, htables⟩
        · rw [hsame]
          exact hlater
        · rw [htables]
          exact passed_sought (haction sub hs hmatch snap hn hnmatch) hg
      | _ => exact absurd ⟨by simp [hact], by simp [hact]⟩ hseek
  · refine alteration_passed w.db.sound (alteration_after w e ha) (fun req hreq => ?_) hlater
    rw [hreq] at haction
    exact haction

/-- While the clock does not go back, and neither a seek nor an update of a
subscription blocks what has used up its attempts, the sweep selects nothing
that is blocked. -/
theorem sweep_respectful {w : World} (h : (bus.within KeepsOrder).Reachable w) : Respectful w := by
  refine passed_respectful (h.invariant (I := fun v => Passed v.clock v.db.toTables) ?_ ?_)
  · intro v hv
    rw [show v.db = DB.empty from hv.1]
    rintro a b ⟨ha, -⟩
    cases ha
  · intro v e v' hi hs
    rw [show v' = v.after e from hs.1, after_clock]
    exact passed_after hs.2 hi

def attemptedRun : List Event := [
  Sample.ordersTopic 1 10,
  Sample.failedTopic 2 20,
  ⟨.plain 3 30, .createSubscription ⟨"orders", "worker", hour, hour, true, [], "", 0, 0, "", 1,
    "failed"⟩, by decide⟩,
  Sample.publish "1" "key" 4 40,
  Sample.publish "2" "key" 5 50,
  Sample.getOne 6 60,
  ⟨.plain 7 70, .ack [41], trivial⟩,
  Sample.getOne 8 80]

def reopenedRun : List Event := attemptedRun ++ [
  Sample.seekToThree 9 90]

theorem sweep_respectful_attempted : Respectful (World.initial.run attemptedRun) ∧
    (deadLetterSelection (.plain minute 100) (World.initial.run attemptedRun).db.toTables 5).map
      DeadLetterData.deliveryID = [51] :=
  ⟨sweep_respectful (initial_within (by decide +kernel)), by decide +kernel⟩

/-- A seek un-completes the first delivery, and the sweep still selects the
second. -/
theorem sweep_reopened : ¬ ∀ w, bus.Reachable w → Respectful w := by
  intro h
  have hreopened := h _ (initial_reachable reopenedRun) (.plain minute 100) 5 (by decide +kernel)
  have hselected : ∃ data ∈ deadLetterSelection (.plain minute 100)
      (World.initial.run reopenedRun).db.toTables 5,
        ∃ d ∈ (World.initial.run reopenedRun).db.deliveries, d.id = data.deliveryID ∧
          (∃ s ∈ (World.initial.run reopenedRun).db.subscriptions, s.id = d.subscriptionID ∧
            s.orderedDelivery = true) ∧
          d.notBeforeID = some 41 ∧ ∀ b ∈ (World.initial.run reopenedRun).db.deliveries,
            b.id = 41 → ¬ Done minute b := by
    decide +kernel
  obtain ⟨data, hdata, d, hd, hid, hordered, hlink, hblocked⟩ := hselected
  rcases hreopened data hdata d hd hid hordered with hnone | ⟨b, hb, hbid, hdone⟩
  · rw [hlink] at hnone
    cases hnone
  · rw [hlink] at hbid
    exact hblocked b hb (Option.some.inj hbid).symm hdone

end Mmmbbb.SweepOrder
