import Mmmbbb.Links
import Mmmbbb.Attempts

/-!
# What the in-order check keeps

An ordered subscription hands a delivery out only once the delivery that it is
linked to is done: acknowledged, or past its expiration. As long as only what
has been handed out is acknowledged and nothing is sought, whatever has been
handed out has waited only for what is done.
-/

set_option autoImplicit false

namespace Mmmbbb.Ordering
open KeyedRows LinkedRows Programs Relation Mmmbbb.Schema Mmmbbb.Database Mmmbbb.Delivering
open Mmmbbb.Consuming Mmmbbb.Runs Mmmbbb.Writes Mmmbbb.Changes Mmmbbb.Links Mmmbbb.Attempts

def Done (now : Time) (d : Delivery) : Prop := d.completedAt ≠ none ∨ d.expiresAt ≤ now

instance (now : Time) (d : Delivery) : Decidable (Done now d) := inferInstanceAs (Decidable (_ ∨ _))

theorem not_outstanding {now : Time} {d : Delivery} : ¬ d.Outstanding now ↔ Done now d := by
  rw [Delivery.Outstanding, Done, not_and_or, not_lt]

theorem not_done {now : Time} {d : Delivery} : ¬ Done now d ↔ d.Outstanding now := by
  rw [← not_outstanding, not_not]

theorem Done.mono {now now' : Time} {d : Delivery} (h : Done now d) (hle : now ≤ now') :
    Done now' d := h.imp_right fun he => he.trans hle

def Started (d : Delivery) : Prop := 0 < d.attempts ∨ d.completedAt ≠ none

def Waits (id : UUID) (rows : List Delivery) (a b : Delivery) : Prop :=
  NotBefore rows a b ∧ a.subscriptionID = id

/-- The subscription, where it exists, is ordered and keeps its messages for one
and the same time. -/
def InOrder (id : UUID) (ttl : Duration) (db : DB) : Prop :=
  ∀ s ∈ db.subscriptions, s.id = id → s.orderedDelivery = true ∧ s.messageTTL = ttl

instance (id : UUID) (ttl : Duration) (db : DB) : Decidable (InOrder id ttl db) :=
  inferInstanceAs (Decidable (∀ s ∈ db.subscriptions, _))

/-- Acknowledges only what has been handed out, and seeks nothing. -/
def Orderly (w : World) (a : Action) : Prop :=
  match a with
  | .ack ids => ∀ k ∈ ids, k ∈ w.handedOut
  | .seekToTime _ | .seekToSnapshot _ => False
  | _ => True

instance (w : World) (a : Action) : Decidable (Orderly w a) := by
  induction a using Runs.Action.casesOn <;> unfold Orderly <;> infer_instance

structure Regular (id : UUID) (ttl : Duration) (w : World) (e : Event) (w' : World) : Prop where
  ticking : Ticking w e w'
  fresh : Fresh w e
  orderly : Orderly w e.action
  inOrder : InOrder id ttl w'.db

structure Gated (id : UUID) (ttl : Duration) (w : World) : Prop where
  aligned : ∀ d ∈ w.db.deliveries, d.subscriptionID = id → d.expiresAt = d.publishedAt + ttl
  past : ∀ d ∈ w.db.deliveries, d.subscriptionID = id → d.publishedAt ≤ w.clock
  back : ∀ a b, Waits id w.db.deliveries a b →
    b.subscriptionID = id ∧ b.publishedAt ≤ a.publishedAt
  started : ∀ a b, Waits id w.db.deliveries a b → Started a → Done w.clock b
  handed : ∀ d ∈ w.db.deliveries, d.subscriptionID = id → d.id ∈ w.handedOut → 0 < d.attempts

section
variable {id : UUID} {ttl : Duration} {w : World} {now : Time}

theorem Gated.done (h : Gated id ttl w) (hle : w.clock ≤ now) {a b : Delivery}
    (hl : Waits id w.db.deliveries a b) (ha : Done now a) : Done now b := by
  obtain ⟨hsub, hback⟩ := h.back a b hl
  rcases ha with hc | he
  · exact (h.started a b hl (Or.inr hc)).mono hle
  · right
    have hae := h.aligned a hl.1.1 hl.2
    have hbe := h.aligned b hl.1.2.1 hsub
    rw [hbe]
    rw [hae] at he
    exact (Int.add_le_add_right hback ttl).trans he

theorem gated_initial (hdb : w.db = DB.empty) : Gated id ttl w := by
  have hd : w.db.deliveries = [] := by rw [hdb]; rfl
  constructor <;> simp [hd, Waits, Follows]

end

theorem link_done {now : Time} {db : DB} {a b : Delivery}
    (h : orderingCondition now db.toTables a = true) (hl : NotBefore db.deliveries a b) :
    Done now b := by
  unfold orderingCondition at h
  rw [hl.2.2] at h
  simp only [fetch_of_mem db.sound.delivery_pk hl.2.1, Bool.or_eq_true, decide_eq_true_eq,
    Option.isSome_iff_ne_none] at h
  exact h

section
variable {id : UUID} {ttl : Duration} {w : World} {p : Delivery → Bool} {u : DeliveryUpdate}

theorem completed_edit (hu : Harmless u) {d : Delivery} (h : d.completedAt ≠ none) :
    (setWhere p u.apply d).completedAt ≠ none := by
  rw [← Option.isSome_iff_ne_none] at h ⊢
  unfold setWhere
  split
  · exact hu.completedAt h
  · exact h

theorem done_edit (hu : Harmless u) {now : Time} {d : Delivery} (h : Done now d) :
    Done now (setWhere p u.apply d) :=
  h.imp (completed_edit hu) fun he => (setWhere_expiresAt p d hu.1).le.trans he

theorem waits_edit {x y : Delivery} (h : Waits id (w.db.deliveries.map (setWhere p u.apply)) x y) :
    ∃ a b, Waits id w.db.deliveries a b ∧ setWhere p u.apply a = x ∧ setWhere p u.apply b = y := by
  obtain ⟨a, b, hl, rfl, rfl⟩ := Follows.of_map (setWhere_id p) (setWhere_notBeforeID p) h.1
  exact ⟨a, b, ⟨hl, (setWhere_subscriptionID p a).symm.trans h.2⟩, rfl, rfl⟩

theorem gated_edit {given : List UUID} (h : Gated id ttl w) (hu : Harmless u)
    (hstart : ∀ a b, Waits id w.db.deliveries a b → p a = true → Started (u.apply a) →
      Done w.clock b)
    (hgiven : ∀ a ∈ w.db.deliveries, a.subscriptionID = id → a.id ∈ given →
      0 < (setWhere p u.apply a).attempts) :
    Gated id ttl { w.edit p u with handedOut := given } := by
  constructor
  · intro x hx hid
    obtain ⟨d, hd, rfl⟩ := DB.mem_updateDeliveries.mp hx
    rw [setWhere_expiresAt p d hu.1, setWhere_publishedAt]
    exact h.aligned d hd ((setWhere_subscriptionID p d).symm.trans hid)
  · intro x hx hid
    obtain ⟨d, hd, rfl⟩ := DB.mem_updateDeliveries.mp hx
    rw [setWhere_publishedAt]
    exact h.past d hd ((setWhere_subscriptionID p d).symm.trans hid)
  · intro x y hxy
    obtain ⟨a, b, hl, rfl, rfl⟩ := waits_edit hxy
    simpa using h.back a b hl
  · intro x y hxy hx
    obtain ⟨a, b, hl, rfl, rfl⟩ := waits_edit hxy
    refine done_edit hu ?_
    by_cases hp : p a = true
    · exact hstart a b hl hp (by simpa [setWhere, hp] using hx)
    · exact h.started a b hl (by simpa [setWhere, hp] using hx)
  · intro x hx hid hk
    obtain ⟨d, hd, rfl⟩ := DB.mem_updateDeliveries.mp hx
    exact hgiven d hd ((setWhere_subscriptionID p d).symm.trans hid) (setWhere_id p d ▸ hk)

theorem gated_idle (h : Gated id ttl w) (hu : Harmless u) (hc : u.completedAt = none)
    (ha : u.addAttempts = 0) : Gated id ttl (w.edit p u) := by
  refine gated_edit h hu (fun a b hl _ hs => h.started a b hl ?_)
    (fun a hd hid hk => ?_)
  · simpa [Started, DeliveryUpdate.apply, hc, ha] using hs
  · rw [setWhere_attempts p a ha]
    exact h.handed a hd hid hk

theorem gated_complete (h : Gated id ttl w) (hu : Harmless u) (ha : u.addAttempts = 0)
    (hp : ∀ a ∈ w.db.deliveries, a.subscriptionID = id → p a = true → Started a) :
    Gated id ttl (w.edit p u) := by
  refine gated_edit h hu
    (fun a b hl hpa _ => h.started a b hl (hp a hl.1.1 hl.2 hpa)) (fun a hd hid hk => ?_)
  rw [setWhere_attempts p a ha]
  exact h.handed a hd hid hk

theorem waits_added {e : Event} {r a b : Delivery} (hr : Added e w r)
    (h : Waits id (w.db.deliveries ++ [r]) a b) :
    b ∈ w.db.deliveries ∧ (a = r ∨ Waits id w.db.deliveries a b) := by
  have hfresh : ¬ Has Delivery.id r.id w.db.deliveries := by
    obtain ⟨s, -, m, -, n, -, -, hfresh, -⟩ := hr
    exact hfresh
  have hlink : ∀ k, r.notBeforeID = some k → Has Delivery.id k w.db.deliveries := by
    intro k hk
    obtain ⟨p, hp, hid, -⟩ := added_link hr hk
    exact ⟨p, hp, hid⟩
  have hold := h.1.of_append_one hfresh w.db.sound.delivery_notBefore hlink
  exact hold.imp_right (Or.imp_right fun hl => ⟨hl, h.2⟩)

theorem gated_added {e : Event} {r : Delivery} {w' : World} (h : Gated id ttl w)
    (hclock : w.clock = e.env.now) (hin : InOrder id ttl w.db) (hr : Added e w r)
    (hrows : w'.db.deliveries = w.db.deliveries ++ [r]) (hclock' : w'.clock = w.clock)
    (hgiven : w'.handedOut = w.handedOut) (hk : r.id ∉ w.handedOut) : Gated id ttl w' := by
  have hrow : ∀ x ∈ w'.db.deliveries, x ∈ w.db.deliveries ∨ x = r := by
    intro x hx
    simpa [hrows] using hx
  have hnew : r.publishedAt = w.clock ∧ ¬ Started r := by
    obtain ⟨s, -, m, -, n, -, -, -, rfl⟩ := hr
    exact ⟨hclock.symm, by simp [Started, DeliveryCreate.row]⟩
  constructor
  · intro x hx hid
    rcases hrow x hx with hx | rfl
    · exact h.aligned x hx hid
    · obtain ⟨s, hs, m, -, n, -, -, -, rfl⟩ := hr
      have httl := (hin s hs hid).2
      simp [DeliveryCreate.row, setUpDelivery, httl]
  · intro x hx hid
    rw [hclock']
    rcases hrow x hx with hx | rfl
    · exact h.past x hx hid
    · exact hnew.1.le
  · intro a b hl
    rw [hrows] at hl
    obtain ⟨hb, rfl | hl⟩ := waits_added hr hl
    · obtain ⟨p, hp, hpid, hpsub⟩ := added_link hr hl.1.2.2
      obtain rfl : p = b := w.db.sound.delivery_pk.eq hp hb hpid
      have hsub : p.subscriptionID = id := hpsub.trans hl.2
      exact ⟨hsub, hnew.1 ▸ h.past p hb hsub⟩
    · exact h.back a b hl
  · intro a b hl ha
    rw [hrows] at hl
    rw [hclock']
    obtain ⟨hb, rfl | hl⟩ := waits_added hr hl
    · exact absurd ha hnew.2
    · exact h.started a b hl ha
  · intro x hx hid hgave
    rw [hgiven] at hgave
    rcases hrow x hx with hx | rfl
    · exact h.handed x hx hid hgave
    · exact absurd hgave hk

theorem gated_same {w' : World} (h : Gated id ttl w) (hrows : w'.db.deliveries = w.db.deliveries)
    (hclock : w.clock ≤ w'.clock) (hgiven : w'.handedOut = w.handedOut) : Gated id ttl w' := by
  constructor
  · rw [hrows]
    exact h.aligned
  · rw [hrows]
    exact fun d hd hid => (h.past d hd hid).trans hclock
  · rw [hrows]
    exact h.back
  · rw [hrows]
    exact fun a b hl ha => (h.started a b hl ha).mono hclock
  · rw [hrows, hgiven]
    exact h.handed

theorem waits_delete {x y : Delivery} (h : Waits id (deliveriesWithout p w.db.deliveries) x y) :
    ∃ a b, Waits id w.db.deliveries a b ∧
      Delivery.forget ((w.db.deliveries.filter p).map Delivery.id) a = x ∧
      Delivery.forget ((w.db.deliveries.filter p).map Delivery.id) b = y := by
  have hrows : Follows Delivery.id Delivery.notBeforeID ((w.db.deliveries.filter (fun r => !p r)).map
      (Delivery.forget ((w.db.deliveries.filter p).map Delivery.id))) x y := h.1
  obtain ⟨a, b, hl, -, -, rfl, rfl⟩ := Follows.of_delete (Delivery.forget_id _)
    (fun r k hk => (Delivery.forget_notBefore.mp hk).1) hrows
  exact ⟨a, b, ⟨hl, h.2⟩, rfl, rfl⟩

theorem gated_delete (h : Gated id ttl w) : Gated id ttl (w.set (w.db.deleteDeliveries p)) := by
  constructor
  · intro x hx hid
    obtain ⟨d, hd, -, rfl⟩ := mem_deliveriesWithout.mp hx
    exact h.aligned d hd hid
  · intro x hx hid
    obtain ⟨d, hd, -, rfl⟩ := mem_deliveriesWithout.mp hx
    exact h.past d hd hid
  · intro x y hxy
    obtain ⟨a, b, hl, rfl, rfl⟩ := waits_delete hxy
    exact h.back a b hl
  · intro x y hxy hx
    obtain ⟨a, b, hl, rfl, rfl⟩ := waits_delete hxy
    exact h.started a b hl hx
  · intro x hx hid hk
    obtain ⟨d, hd, -, rfl⟩ := mem_deliveriesWithout.mp hx
    exact h.handed d hd hid hk

theorem gated_write {e : Event} {o w' : World} (hw : Write e o w w') (h : Gated id ttl w)
    (horderly : Orderly o e.action) (hfresh : Fresh o e) (hin : InOrder id ttl w.db)
    (hclock : w.clock = e.env.now) (hgiven : ∀ k ∈ o.handedOut, k ∈ w.handedOut) :
    Gated id ttl w' := by
  have hrow : ∀ {a d : Delivery}, a ∈ w.db.deliveries → d ∈ w.db.deliveries → a.id = d.id →
      a = d := fun ha hd hid => w.db.sound.delivery_pk.eq ha hd hid
  cases hw
  case refresh hdb =>
    have ht := DB.updateSubscriptions_ok hdb
    exact gated_same h (by simp [World.set, ht]) (le_refl _) rfl
  case message hdb =>
    obtain ⟨-, ht⟩ := DB.insertMessage_ok hdb
    exact gated_same h (by simp [World.set, ht]) (le_refl _) rfl
  case deliver s m c k db hs hlive hm hc hdb hsame =>
    obtain ⟨hr, hrows⟩ := deliver_added hs hlive hm hc hdb
    exact gated_added h hclock hin hr hrows rfl rfl (hsame ▸ hfresh k)
  case deadLetter d s t hd₀ hd ho hs hsid ht hlists hfwd =>
    refine gated_complete h ⟨rfl, by simp⟩ rfl fun a ha hid hp => ?_
    obtain rfl := hrow ha hd (of_decide_eq_true hp)
    exact Or.inl (Subscription.deadLetterTopicFor_attempts ht)
  case reschedule => exact gated_idle h ⟨rfl, by simp⟩ rfl rfl
  case attempt d s p t ha hd₀ hd ho hs hsid hlive hlimit hord =>
    refine gated_edit h ⟨rfl, by simp⟩ (fun a b hl hp _ => ?_) (fun a ha hid hk => ?_)
    · obtain rfl := hrow hl.1.1 hd (of_decide_eq_true hp)
      have hordered := (hin s hs (hsid.trans hl.2)).1
      exact hclock ▸ link_done (hord hordered) hl.1
    · rcases List.mem_append.mp hk with hk | hk
      · have hpos := h.handed a ha hid hk
        unfold setWhere
        split
        · simp [DeliveryUpdate.apply]
        · exact hpos
      · have hid : a.id = d.id := by simpa using hk
        simp [setWhere, hid, DeliveryUpdate.apply]
  case ack ids ha =>
    refine gated_complete h ⟨rfl, by simp⟩ rfl fun a hd hid hp => ?_
    have hk : a.id ∈ ids := by
      simp only [ackPredicates, Bool.and_eq_true, decide_eq_true_eq] at hp
      exact hp.1
    rw [ha] at horderly
    exact Or.inl (h.handed a hd hid (hgiven _ (horderly _ hk)))
  case delay => exact gated_idle h ⟨rfl, by simp⟩ rfl rfl
  case seekTimeAcks ha _ _ => simp [Orderly, ha] at horderly
  case seekTimeDeAcks ha _ _ => simp [Orderly, ha] at horderly
  case seekSnapshotAcks ha _ _ _ _ _ => simp [Orderly, ha] at horderly
  case seekSnapshotDeAcks ha _ _ _ _ => simp [Orderly, ha] at horderly

end

section
variable {id : UUID} {ttl : Duration} {e : Event} {o w w' : World}

structure Underway (e : Event) (o w : World) : Prop where
  clock : w.clock = e.env.now
  given : ∀ k ∈ o.handedOut, k ∈ w.handedOut
  persists : Persists o w

theorem underway_start : Underway e (w.at e.env.now) (w.at e.env.now) :=
  ⟨rfl, fun _ h => h, fun x hx => ⟨x, hx, .refl x⟩⟩

theorem underway_write (hw : Write e o w w') (h : Underway e o w) : Underway e o w' := by
  refine ⟨hw.static.clock.trans h.clock, fun k hk => ?_, h.persists.trans (write_persists hw)⟩
  have hk := h.given k hk
  cases hw <;> first | exact hk | exact List.mem_append_left _ hk

theorem inOrder_back (hw : Write e o w w') (h : InOrder id ttl w'.db) : InOrder id ttl w.db := by
  intro s hs hid
  obtain ⟨r, hr, heq⟩ := hw.static.subscription hs
  have hrid : r.id = s.id := Subscription.settled_eq heq Subscription.id (fun _ => rfl)
  have hrow := h r hr (hrid.trans hid)
  have hordered := Subscription.settled_eq heq Subscription.orderedDelivery (fun _ => rfl)
  have httl := Subscription.settled_eq heq Subscription.messageTTL (fun _ => rfl)
  exact ⟨hordered ▸ hrow.1, httl ▸ hrow.2⟩

theorem gated_step (hreg : Regular id ttl w e (w.after e)) (h : Gated id ttl w) :
    Gated id ttl (w.after e) := by
  have hchange := change_after (e := e) w
  have hle : w.clock ≤ e.env.now := le_of_lt hreg.ticking
  have hin := hreg.inOrder
  have hstart : Gated id ttl (w.at e.env.now) := gated_same h rfl hle rfl
  generalize w.after e = w' at hchange hin ⊢
  cases hchange
  case write hw =>
    refine (guarded_invariant (G := fun v : World => InOrder id ttl v.db)
      (I := fun v => Underway e (w.at e.env.now) v ∧ Gated id ttl v)
      (fun v v' hv hg => inOrder_back hv hg) ?_ hw hin ⟨underway_start, hstart⟩).2
    rintro v v' hv hg ⟨hu, hgated⟩
    exact ⟨underway_write hv hu, gated_write hv hgated hreg.orderly hreg.fresh (inOrder_back hv hg)
      hu.clock hu.given⟩
  case prune p hp => exact gated_delete hstart
  case quiet db hq => exact gated_same hstart hq.deliveries (le_refl _) rfl

end

def HandsOut (w : World) (e : Event) (d : Delivery) : Prop :=
  d ∈ w.db.deliveries ∧ ∃ given tx, exec e.env e.action (Tx.begin w.db) = .ok (given, tx) ∧
    d.id ∈ given.map (·.id)

theorem handsOut_of {w : World} {e : Event} {d : Delivery} {ids : List UUID}
    (h : (exec e.env e.action (Tx.begin w.db)).map (fun r => r.1.map (·.id)) = .ok ids)
    (hd : d ∈ w.db.deliveries) (hid : d.id ∈ ids) : HandsOut w e d := by
  obtain ⟨⟨given, tx⟩, hok, rfl⟩ := map_ok.mp h
  exact ⟨hd, given, tx, hok, hid⟩

theorem get_given {env : Env} {p : GetSubscriptionMessagesParams}
    {r : GetSubscriptionMessagesResults} {tx tx' : Tx}
    (h : getSubscriptionMessages env p tx = .ok (r, tx')) {x : SubscriptionMessageDelivery}
    (hx : x ∈ r.deliveries) :
    ∃ s ∈ tx.db.subscriptions, s.deletedAt = none ∧ ∃ d ∈ tx.db.deliveries, d.id = x.id ∧
      buildDeliveryQuery env.now tx.db.toTables s (fun d => decide (d.attemptAt ≤ env.now)) d =
        true := by
  obtain ⟨sub, hsub, h⟩ := bind_ok.mp h
  obtain ⟨mid, -, h⟩ := bind_ok.mp h
  obtain ⟨st, hst, h⟩ := bind_ok.mp h
  obtain ⟨last, -, h⟩ := bind_ok.mp h
  obtain ⟨rfl, -⟩ := Prod.mk.inj (pure_ok.mp h)
  rcases applyLoop_given hst x hx with hx | ⟨y, hy, rfl, -⟩
  · simp at hx
  · obtain ⟨hd, hq, -⟩ := queryAndLockDeliveriesOnce_mem hy
    obtain ⟨hs, hmatch⟩ := only_ok hsub
    simp only [subMatch, Bool.and_eq_true, Option.isNone_iff_eq_none] at hmatch
    exact ⟨sub, hs, hmatch.1.1, y.1, hd, rfl, hq⟩

theorem handsOut_passes {w : World} {e : Event} {d : Delivery} (h : HandsOut w e d) :
    d.Outstanding e.env.now ∧ ∃ s ∈ w.db.subscriptions, s.id = d.subscriptionID ∧
      s.deletedAt = none ∧
        (s.orderedDelivery = true → orderingCondition e.env.now w.db.toTables d = true) := by
  obtain ⟨hd, given, tx, hok, hmem⟩ := h
  obtain ⟨x, hx, hid⟩ := List.mem_map.mp hmem
  have hsome := exec_given hok
  obtain ⟨p, r, -, hr, rfl⟩ := hsome.resolve_left (by rintro rfl; simp at hx)
  obtain ⟨s, hs, hlive, y, hy, hyid, hq⟩ := get_given hr hx
  obtain rfl : y = d := w.db.sound.delivery_pk.eq hy hd (hyid.trans hid)
  simp only [buildDeliveryQuery, Bool.and_eq_true, Bool.or_eq_true, Bool.not_eq_true',
    Option.isNone_iff_eq_none, decide_eq_true_eq] at hq
  obtain ⟨⟨⟨⟨hord, -⟩, hc⟩, he⟩, hsid⟩ := hq
  exact ⟨⟨hc, he⟩, s, hs, hsid.symm, hlive, fun ho => hord.resolve_left (by simp [ho])⟩

end Mmmbbb.Ordering
