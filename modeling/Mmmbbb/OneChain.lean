import Mmmbbb.Runs
import Mmmbbb.Publishers

/-!
# One chain for a subscription

The deliveries of an ordered subscription form one chain as long as no two
transactions are between the read of its end and their commit together. The
locks that a publish takes do not see to that.
-/

set_option autoImplicit false

namespace Mmmbbb.OneChain
open KeyedRows Programs ReadCommitted Mmmbbb.Schema Mmmbbb.Database Mmmbbb.Delivering
open Mmmbbb.Consuming Mmmbbb.Runs Mmmbbb.Publishers

/-- No two deliveries of the subscription have the same link, also not none,
and links lead to earlier deliveries. -/
structure Linear (id : UUID) (rows : List Delivery) : Prop where
  once : ∀ a ∈ rows, ∀ b ∈ rows, a.subscriptionID = id → b.subscriptionID = id →
    a.notBeforeID = b.notBeforeID → a = b
  earlier : ∀ a ∈ rows, a.subscriptionID = id → ∀ k, a.notBeforeID = some k →
    Has Delivery.id k rows ∧
      ∀ b ∈ rows, b.subscriptionID = id → b.id = k → b.publishedAt < a.publishedAt

theorem Linear.transfer {id : UUID} {rows rows' : List Delivery} (h : Linear id rows)
    (hown : ∀ d ∈ rows', d.subscriptionID = id → d ∈ rows)
    (hhas : ∀ k, Has Delivery.id k rows → Has Delivery.id k rows') : Linear id rows' where
  once := fun a ha b hb haid hbid => h.once a (hown a ha haid) b (hown b hb hbid) haid hbid
  earlier := by
    intro a ha haid k hk
    obtain ⟨hex, hlt⟩ := h.earlier a (hown a ha haid) haid k hk
    exact ⟨hhas k hex, fun b hb hbid => hlt b (hown b hb hbid) hbid⟩

def OfTopic (id : UUID) (t : Tables) : Prop :=
  ∀ d ∈ t.deliveries, d.subscriptionID = id → ∃ m ∈ t.messages, m.id = d.messageID ∧
    ∀ s ∈ t.subscriptions, s.id = id → m.topicID = s.topicID

structure Appends (id : UUID) (t : Tables) (c : DeliveryCreate) : Prop where
  after : ∀ a ∈ t.deliveries, a.subscriptionID = id →
    a.publishedAt < c.publishedAt ∧ a.notBeforeID ≠ c.notBeforeID
  link : ∀ k, c.notBeforeID = some k → Has Delivery.id k t.deliveries

/-- The most recent unexpired delivery is the end of the chain. -/
theorem appends_last {id : UUID} {env : Env} {t : Tables} {s : Subscription} {m : Message}
    (hchain : Linear id t.deliveries) (hown : OfTopic id t) (hs : s ∈ t.subscriptions)
    (hsid : s.id = id) (hordered : s.orderedDelivery = true) (htopic : s.topicID = m.topicID)
    (hkeyed : m.Keyed)
    (hlive : ∀ d ∈ t.deliveries, d.subscriptionID = id → env.now < d.expiresAt)
    (hlate : ∀ d ∈ t.deliveries, d.subscriptionID = id → d.publishedAt < env.now) :
    Appends id t (setUpDelivery env t s m) := by
  have hpred : ∀ d ∈ t.deliveries, d.subscriptionID = id → predecessorOf env t s m d = true := by
    intro d hd hid
    obtain ⟨x, hx, hxid, hxt⟩ := hown d hd hid
    simp only [predecessorOf, Bool.and_eq_true, decide_eq_true_eq, List.any_eq_true]
    exact ⟨⟨hid.trans hsid.symm, hlive d hd hid⟩, x, hx, hxid, (hxt s hs hsid).trans htopic⟩
  have hlink : (setUpDelivery env t s m).notBeforeID =
      (lastDelivery env t s m).map Delivery.id := by
    simp [setUpDelivery, hordered, hkeyed]
  cases hlast : lastDelivery env t s m with
  | none =>
    have hnone := lastDelivery_none hlast
    rw [hlast] at hlink
    refine ⟨fun a ha haid => ?_, fun k hk => ?_⟩
    · have hcontra := hpred a ha haid
      rw [hnone a ha] at hcontra
      cases hcontra
    · rw [hlink] at hk
      cases hk
  | some z =>
    obtain ⟨hz, hzp, hmax⟩ := lastDelivery_some hlast
    have hzid : z.subscriptionID = id := by
      simp only [predecessorOf, Bool.and_eq_true, decide_eq_true_eq] at hzp
      exact hzp.1.1.trans hsid
    rw [hlast] at hlink
    refine ⟨fun a ha haid => ⟨hlate a ha haid, fun heq => ?_⟩, fun k hk => ?_⟩
    · have hlt := (hchain.earlier a ha haid z.id (heq.trans hlink)).2 z hz hzid rfl
      exact absurd (hmax a ha (hpred a ha haid)) hlt.not_ge
    · rw [hlink] at hk
      exact ⟨z, hz, Option.some.inj hk⟩

/-- The transaction has set up a delivery of the subscription, with an order
key or without, and has not ended. -/
def Pending (id : UUID) (s : Session Insert Point) : Prop :=
  (∃ d ∈ inserted s.log, d.subscriptionID = id) ∨ ∃ c ∈ s.point.creates, c.subscriptionID = id

instance (id : UUID) (s : Session Insert Point) : Decidable (Pending id s) :=
  inferInstanceAs (Decidable ((∃ d ∈ inserted s.log, _) ∨ ∃ c ∈ s.point.creates, _))

theorem not_pending_fresh (id : UUID) : ¬ Pending id publishers.fresh := by
  simp [Pending, Program.fresh, inserted, publishers, Point.creates]

section
variable {n : ℕ} {id : UUID}

/-- The session whose next statement sets up a delivery of the subscription, if
the event is that statement, and when. -/
def tailRead (id : UUID) (st : Calls n) : Event n Statement → Option (Fin n × Time)
  | .run i .setUp =>
    match (st.session i).point with
    | .delivering env _ (s :: _) _ => if s.id = id then some (i, env.now) else none
    | _ => none
  | _ => none

def AllKeyed (_ : Calls n) (e : Event n Statement) (_ : Calls n) : Prop :=
  match e with
  | .run _ (.execute _ p) => p.orderKey ≠ ""
  | _ => True

def Unexpired (id : UUID) (st : Calls n) (e : Event n Statement) (_ : Calls n) : Prop :=
  ∀ x ∈ tailRead id st e, ∀ d ∈ (publishers.view st x.1).deliveries, d.subscriptionID = id →
    x.2 < d.expiresAt

/-- When a delivery is set up, no other transaction has set up one without
having ended, and what is there was published before. -/
def Exclusive (id : UUID) (st : Calls n) (e : Event n Statement) (_ : Calls n) : Prop :=
  ∀ x ∈ tailRead id st e, (∀ j, j ≠ x.1 → ¬ Pending id (st.session j)) ∧
    ∀ d ∈ (publishers.view st x.1).deliveries, d.subscriptionID = id → d.publishedAt < x.2

structure InTurn (id : UUID) (st : Calls n) (e : Event n Statement) (st' : Calls n) : Prop where
  keyed : AllKeyed st e st'
  unexpired : Unexpired id st e st'
  exclusive : Exclusive id st e st'

/-- The database that the publishers start on: the subscription is ordered,
and what it has received so far is of its own topic and one chain. -/
structure Starts (id : UUID) (t : Tables) : Prop where
  subs : UniqueKeys Subscription.id t.subscriptions
  ordered : ∀ s ∈ t.subscriptions, s.id = id → s.orderedDelivery = true
  own : OfTopic id t
  chain : Linear id t.deliveries

instance (st st' : Calls n) (e : Event n Statement) : Decidable (AllKeyed st e st') := by
  unfold AllKeyed
  split <;> infer_instance

instance (st st' : Calls n) (e : Event n Statement) : Decidable (Unexpired id st e st') :=
  inferInstanceAs (Decidable (∀ x ∈ tailRead id st e, _))

instance (st st' : Calls n) (e : Event n Statement) : Decidable (Exclusive id st e st') :=
  inferInstanceAs (Decidable (∀ x ∈ tailRead id st e, _ ∧ _))

instance (st st' : Calls n) (e : Event n Statement) : Decidable (InTurn id st e st') :=
  decidable_of_iff (AllKeyed st e st' ∧ Unexpired id st e st' ∧ Exclusive id st e st')
    ⟨fun h => ⟨h.1, h.2.1, h.2.2⟩, fun h => ⟨h.keyed, h.unexpired, h.exclusive⟩⟩

def AnyOrder (id : UUID) (st : Calls n) (e : Event n Statement) (st' : Calls n) : Prop :=
  AllKeyed st e st' ∧ Unexpired id st e st'

instance (st st' : Calls n) (e : Event n Statement) : Decidable (AnyOrder id st e st') :=
  inferInstanceAs (Decidable (_ ∧ _))

theorem starts_empty (db : DB)
    (hordered : ∀ s ∈ db.subscriptions, s.id = id → s.orderedDelivery = true)
    (hempty : ∀ d ∈ db.deliveries, d.subscriptionID ≠ id) : Starts id db.toTables where
  subs := db.sound.subscription_pk
  ordered := hordered
  own := fun d hd hid => absurd hid (hempty d hd)
  chain := ⟨fun a ha _ _ hid => absurd hid (hempty a ha), fun a ha hid => absurd hid (hempty a ha)⟩

structure Looping (id : UUID) (t : Tables) (m : Message) (subs : List Subscription)
    (dc : List DeliveryCreate) : Prop where
  message : m ∈ t.messages
  keyed : m.Keyed
  loaded : ∀ s ∈ subs, s ∈ t.subscriptions ∧ s.topicID = m.topicID
  once : (dc.map DeliveryCreate.subscriptionID ++ subs.map Subscription.id).Nodup
  creates : ∀ c ∈ dc, c.messageID = m.id ∧ (c.subscriptionID = id → Appends id t c ∧
    ∀ s ∈ t.subscriptions, s.id = id → m.topicID = s.topicID)

def PointOk (id : UUID) (t : Tables) : Point → Prop
  | .ready => True
  | .delivering _ m subs dc => Looping id t m subs dc

structure Extends (id : UUID) (a b : Tables) : Prop where
  subscriptions : b.subscriptions = a.subscriptions
  messages : a.messages ⊆ b.messages
  own : ∀ d ∈ b.deliveries, d.subscriptionID = id → d ∈ a.deliveries
  has : ∀ k, Has Delivery.id k a.deliveries → Has Delivery.id k b.deliveries

theorem Extends.ofTopic {a b : Tables} (h : Extends id a b) (ho : OfTopic id a) :
    OfTopic id b := by
  intro d hd hid
  obtain ⟨m, hm, hmid, ht⟩ := ho d (h.own d hd hid) hid
  exact ⟨m, h.messages hm, hmid, h.subscriptions ▸ ht⟩

theorem Extends.appends {a b : Tables} (h : Extends id a b) {c : DeliveryCreate}
    (hc : Appends id a c) : Appends id b c where
  after := fun d hd hid => hc.after d (h.own d hd hid) hid
  link := fun k hk => h.has k (hc.link k hk)

theorem Extends.point {a b : Tables} (h : Extends id a b) {p : Point} (hp : PointOk id a p) :
    PointOk id b p := by
  cases p with
  | ready => trivial
  | delivering env m subs dc =>
    obtain ⟨hm, hkeyed, hloaded, honce, hcreates⟩ := hp
    refine ⟨h.messages hm, hkeyed, h.subscriptions ▸ hloaded, honce, fun c hc => ?_⟩
    obtain ⟨hmid, happ⟩ := hcreates c hc
    refine ⟨hmid, fun hid => ?_⟩
    obtain ⟨hap, htopic⟩ := happ hid
    exact ⟨h.appends hap, h.subscriptions ▸ htopic⟩

structure View (id : UUID) (t : Tables) : Prop where
  own : OfTopic id t
  chain : Linear id t.deliveries

theorem Extends.view {a b : Tables} (h : Extends id a b) (hv : View id a) : View id b :=
  ⟨h.ofTopic hv.own, hv.chain.transfer h.own h.has⟩

def seen (t : Tables) (s : Session Insert Point) : Tables := s.log.foldl Insert.apply t

structure Chained (id : UUID) (t : Tables) (s : Session Insert Point) : Prop where
  subs : UniqueKeys Subscription.id t.subscriptions
  ordered : ∀ s ∈ t.subscriptions, s.id = id → s.orderedDelivery = true
  committed : View id t
  view : View id (seen t s)
  point : PointOk id (seen t s) s.point

def Alone (id : UUID) (s s' : Session Insert Point) : Prop := Pending id s → ¬ Pending id s'

section
variable {t : Tables} {s s' : Session Insert Point}

theorem seen_subscriptions : (seen t s).subscriptions = t.subscriptions := apply_subscriptions _ _

theorem seen_deliveries : (seen t s).deliveries = t.deliveries ++ inserted s.log :=
  apply_deliveries _ _

theorem seen_append (t : Tables) (s : Session Insert Point) (ws : List Insert) (q : Point) :
    seen t ⟨s.log ++ ws, q⟩ = ws.foldl Insert.apply (seen t s) := List.foldl_append

theorem seen_fresh (t : Tables) : seen t publishers.fresh = t := rfl

theorem Chained.run (h : Chained id t s) {ws : List Insert} {q : Point}
    (hview : View id (ws.foldl Insert.apply (seen t s)))
    (hpoint : PointOk id (ws.foldl Insert.apply (seen t s)) q) :
    Chained id t ⟨s.log ++ ws, q⟩ := by
  rw [← seen_append t s ws q] at hview hpoint
  exact ⟨h.subs, h.ordered, h.committed, hview, hpoint⟩

theorem Chained.fresh (h : Chained id t s) : Chained id t publishers.fresh :=
  ⟨h.subs, h.ordered, h.committed, seen_fresh t ▸ h.committed, trivial⟩

theorem PointOk.idle {a b : Tables} {p : Point} (hp : PointOk id a p)
    (hsubs : b.subscriptions = a.subscriptions) (hmessages : a.messages ⊆ b.messages)
    (hidle : ∀ c ∈ p.creates, c.subscriptionID ≠ id) : PointOk id b p := by
  cases p with
  | ready => trivial
  | delivering env m subs dc =>
    obtain ⟨hm, hkeyed, hloaded, honce, hcreates⟩ := hp
    exact ⟨hmessages hm, hkeyed, hsubs ▸ hloaded, honce,
      fun c hc => ⟨(hcreates c hc).1, fun hid => absurd hid (hidle c hc)⟩⟩

theorem commit_messages : (seen t s').messages ⊆ (seen (seen t s) s').messages :=
  apply_messages _ (apply_keeps _ _)

/-- For the others a commit changes nothing, if the transaction has not come
near the subscription. -/
theorem commit_extends (h : ¬ Pending id s) : Extends id (seen t s') (seen (seen t s) s') where
  subscriptions := by simp only [seen_subscriptions]
  messages := commit_messages
  own := by
    intro d hd hid
    simp only [seen_deliveries, List.mem_append] at hd ⊢
    rcases hd with (hd | hd) | hd
    · exact Or.inl hd
    · exact absurd (Or.inl ⟨d, hd, hid⟩) h
    · exact Or.inr hd
  has := by
    intro k hk
    obtain ⟨d, hd, hid⟩ := hk
    refine ⟨d, ?_, hid⟩
    simp only [seen_deliveries, List.mem_append] at hd ⊢
    rcases hd with hd | hd
    · exact Or.inl (Or.inl hd)
    · exact Or.inr hd

/-- And another one that has not come near it sees what the transaction saw. -/
theorem commit_takesOver (h : ¬ Pending id s') : Extends id (seen t s) (seen (seen t s) s') where
  subscriptions := seen_subscriptions
  messages := apply_keeps _ _
  own := by
    intro d hd hid
    rw [seen_deliveries, List.mem_append] at hd
    rcases hd with hd | hd
    · exact hd
    · exact absurd (Or.inl ⟨d, hd, hid⟩) h
  has := by
    intro k hk
    rw [seen_deliveries]
    exact hk.append_left _

theorem Chained.commit (h : Chained id t s) (h' : Chained id t s') (halone : Alone id s s') :
    Chained id (seen t s) s' := by
  refine ⟨?_, ?_, h.view, ?_, ?_⟩
  · rw [seen_subscriptions]
    exact h.subs
  · rw [seen_subscriptions]
    exact h.ordered
  · by_cases hs : Pending id s
    · exact (commit_takesOver (halone hs)).view h.view
    · exact (commit_extends hs).view h'.view
  · by_cases hs : Pending id s
    · refine h'.point.idle ?_ commit_messages fun c hc hid => halone hs (Or.inr ⟨c, hc, hid⟩)
      simp only [seen_subscriptions]
    · exact (commit_extends hs).point h'.point

end

section
variable {t : Tables} {s : Session Insert Point} {env : Env} {m : Message}

theorem chained_execute (h : Chained id t s) (topic : Topic) (htopic : m.topicID = topic.id)
    (hkeyed : m.Keyed) : Chained id t ⟨s.log ++ [.message m],
      .delivering env m (liveSubscriptions env (seen t s) topic.id) []⟩ := by
  have hmore : Extends id (seen t s) ([Insert.message m].foldl Insert.apply (seen t s)) :=
    ⟨rfl, apply_keeps _ _, fun d hd _ => hd, fun k hk => hk⟩
  have hsubs : UniqueKeys Subscription.id (seen t s).subscriptions := by
    rw [seen_subscriptions]
    exact h.subs
  have hloop : Looping id ([Insert.message m].foldl Insert.apply (seen t s)) m
      (liveSubscriptions env (seen t s) topic.id) [] := by
    refine ⟨by simp [Insert.apply], hkeyed, fun r hr => ?_, ?_, by simp⟩
    · obtain ⟨hmem, hst, -⟩ := mem_liveSubscriptions.mp hr
      exact ⟨hmem, hst.trans htopic.symm⟩
    · have hkeys : UniqueKeys Subscription.id (liveSubscriptions env (seen t s) topic.id) :=
        liveSubscriptions_nodup hsubs
      simpa [UniqueKeys] using hkeys
  exact h.run (hmore.view h.view) hloop

theorem chained_setUp {r : Subscription} {subs : List Subscription} {dc : List DeliveryCreate}
    (h : Chained id t s) (hp : s.point = .delivering env m (r :: subs) dc)
    (hlive : r.id = id → ∀ d ∈ (seen t s).deliveries, d.subscriptionID = id → env.now < d.expiresAt)
    (hlate : r.id = id → ∀ d ∈ (seen t s).deliveries, d.subscriptionID = id →
      d.publishedAt < env.now) :
    Chained id t ⟨s.log ++ [], .delivering env m subs
      (dc ++ (deliverToSubscription env (seen t s) r m).toList)⟩ := by
  have hpoint := h.point
  rw [hp] at hpoint
  obtain ⟨hm, hkeyed, hloaded, honce, hcreates⟩ := hpoint
  obtain ⟨hr, hrt⟩ := hloaded r (by simp)
  have hnew : ∀ c ∈ (deliverToSubscription env (seen t s) r m).toList,
      c = setUpDelivery env (seen t s) r m := by
    intro c hc
    exact (deliverToSubscription_some.mp (Option.mem_toList.mp hc)).2.symm
  have hloop : Looping id (seen t s) m subs
      (dc ++ (deliverToSubscription env (seen t s) r m).toList) := by
    refine ⟨hm, hkeyed, fun r' hr' => hloaded r' (by simp [hr']), ?_, fun c hc => ?_⟩
    · cases hc : deliverToSubscription env (seen t s) r m with
      | none =>
        refine honce.sublist ?_
        simp
      | some c =>
        have hcs : c.subscriptionID = r.id := by rw [hnew c (by simp [hc])]; rfl
        simpa [hcs] using honce
    · rcases List.mem_append.mp hc with hc | hc
      · exact hcreates c hc
      · obtain rfl := hnew c hc
        refine ⟨rfl, fun hid => ?_⟩
        have hid : r.id = id := hid
        have hordered : r.orderedDelivery = true := h.ordered r (seen_subscriptions ▸ hr) hid
        refine ⟨appends_last h.view.chain h.view.own hr hid hordered hrt hkeyed (hlive hid)
          (hlate hid), fun r' hr' hid' => ?_⟩
        have hsubs : UniqueKeys Subscription.id (seen t s).subscriptions := by
          rw [seen_subscriptions]
          exact h.subs
        rw [hsubs.eq hr' hr (hid'.trans hid.symm)]
        exact hrt.symm
  exact h.run h.view hloop

theorem linear_save {dc : List DeliveryCreate} {t : Tables} (hchain : Linear id t.deliveries)
    (honce : (dc.map DeliveryCreate.subscriptionID).Nodup)
    (happ : ∀ c ∈ dc, c.subscriptionID = id → Appends id t c)
    (hfresh : ∀ r ∈ deliveryRows env 1 dc, ¬ Has Delivery.id r.id t.deliveries) :
    Linear id (t.deliveries ++ deliveryRows env 1 dc) := by
  have hrow : ∀ r ∈ deliveryRows env 1 dc, r.subscriptionID = id →
      (∀ a ∈ t.deliveries, a.subscriptionID = id →
        a.publishedAt < r.publishedAt ∧ a.notBeforeID ≠ r.notBeforeID) ∧
      ∀ k, r.notBeforeID = some k → Has Delivery.id k t.deliveries := by
    intro r hr hid
    obtain ⟨k, hk, rfl⟩ := mem_deliveryRows.mp hr
    have hc := happ _ (List.getElem_mem hk) hid
    exact ⟨hc.after, hc.link⟩
  constructor
  · intro a ha b hb haid hbid hab
    rcases List.mem_append.mp ha with ha | ha
    · rcases List.mem_append.mp hb with hb | hb
      · exact hchain.once a ha b hb haid hbid hab
      · exact absurd hab ((hrow b hb hbid).1 a ha haid).2
    · rcases List.mem_append.mp hb with hb | hb
      · exact absurd hab.symm ((hrow a ha haid).1 b hb hbid).2
      · have hkeys : UniqueKeys Delivery.subscriptionID (deliveryRows env 1 dc) := by
          rw [UniqueKeys, deliveryRows_subscriptions]
          exact honce
        exact hkeys.eq ha hb (haid.trans hbid.symm)
  · intro a ha haid k hk
    have hold : Has Delivery.id k t.deliveries := by
      rcases List.mem_append.mp ha with ha | ha
      · exact (hchain.earlier a ha haid k hk).1
      · exact (hrow a ha haid).2 k hk
    refine ⟨hold.append_left _, fun b hb hbid hbk => ?_⟩
    rcases List.mem_append.mp hb with hb | hb
    · rcases List.mem_append.mp ha with ha | ha
      · exact (hchain.earlier a ha haid k hk).2 b hb hbid hbk
      · exact ((hrow a ha haid).1 b hb hbid).1
    · rw [← hbk] at hold
      exact absurd hold (hfresh b hb)

theorem chained_save {dc : List DeliveryCreate} (h : Chained id t s)
    (hp : s.point = .delivering env m [] dc)
    (hfresh : ∀ r ∈ deliveryRows env 1 dc, ¬ Has Delivery.id r.id (seen t s).deliveries) :
    Chained id t ⟨s.log ++ (deliveryRows env 1 dc).map .delivery, .ready⟩ := by
  have hpoint := h.point
  rw [hp] at hpoint
  obtain ⟨hm, -, -, honce, hcreates⟩ := hpoint
  have honce : (dc.map DeliveryCreate.subscriptionID).Nodup := by simpa using honce
  refine h.run ?_ trivial
  rw [apply_rows]
  constructor
  · intro d hd hid
    rcases List.mem_append.mp hd with hd | hd
    · exact h.view.own d hd hid
    · obtain ⟨k, hk, rfl⟩ := mem_deliveryRows.mp hd
      obtain ⟨hmid, happ⟩ := hcreates _ (List.getElem_mem hk)
      exact ⟨m, hm, hmid.symm, (happ hid).2⟩
  · exact linear_save h.view.chain honce (fun c hc hid => ((hcreates c hc).2 hid).1) hfresh

end

section
variable {s : Session Insert Point} {env : Env} {m : Message}

theorem pending_execute {subs : List Subscription} (hp : s.point = .ready)
    (h : Pending id ⟨s.log ++ [.message m], .delivering env m subs []⟩) : Pending id s := by
  simpa [Pending, Point.creates, inserted, hp] using h

theorem pending_setUp {t : Tables} {r : Subscription} {subs : List Subscription}
    {dc : List DeliveryCreate} (hp : s.point = .delivering env m (r :: subs) dc)
    (hid : r.id ≠ id) (h : Pending id ⟨s.log ++ [], .delivering env m subs
      (dc ++ (deliverToSubscription env t r m).toList)⟩) : Pending id s := by
  rcases h with ⟨d, hd, hds⟩ | ⟨c, hc, hcs⟩
  · exact Or.inl ⟨d, by simpa using hd, hds⟩
  · rcases List.mem_append.mp hc with hc | hc
    · exact Or.inr ⟨c, by simpa [hp, Point.creates] using hc, hcs⟩
    · have hnew := (deliverToSubscription_some.mp (Option.mem_toList.mp hc)).2
      rw [← hnew] at hcs
      exact absurd hcs hid

theorem pending_save {dc : List DeliveryCreate} (hp : s.point = .delivering env m [] dc)
    (h : Pending id ⟨s.log ++ (deliveryRows env 1 dc).map .delivery, .ready⟩) : Pending id s := by
  rcases h with ⟨d, hd, hds⟩ | ⟨c, hc, -⟩
  · rw [inserted_append, inserted_rows] at hd
    rcases List.mem_append.mp hd with hd | hd
    · exact Or.inl ⟨d, hd, hds⟩
    · obtain ⟨k, hk, rfl⟩ := mem_deliveryRows.mp hd
      exact Or.inr ⟨dc[k], by simp [hp, Point.creates], hds⟩
  · cases hc

end

/-- One session at a time: each statement keeps the chain that its own session
sees, and no second session comes near its end. -/
theorem chained_rule : Rule n publishers (InTurn id) (Chained id) (Alone id) where
  symm := fun _ _ h hs hs' => h hs' hs
  fresh := fun _ _ h => h.fresh
  apart := fun _ h => absurd h (not_pending_fresh id)
  commit := fun _ _ _ h h' halone _ => h.commit h' halone
  run := by
    intro st i a ws q hall hapart hst _ hturn
    have h := hall i
    have hother : (Pending id ⟨(st.session i).log ++ ws, q⟩ → Pending id (st.session i)) →
        ∀ j, j ≠ i → Alone id ⟨(st.session i).log ++ ws, q⟩ (st.session j) :=
      fun hback j hj hp => hapart i j hj.symm (hback hp)
    have hst : statement a (st.session i).point (seen st.committed (st.session i)) =
      .ok (ws, q) := hst
    cases a with
    | execute env p =>
      obtain ⟨topic, hp, rfl, rfl⟩ := execute_ok hst
      have hkey : p.orderKey ≠ "" := hturn.keyed
      have hkeyed : (newMessage env (env.uuid 0) topic.id p).Keyed :=
        ⟨p.orderKey, by simp [newMessage, hkey], hkey⟩
      exact ⟨chained_execute h topic rfl hkeyed, hother (pending_execute hp)⟩
    | setUp =>
      obtain ⟨env, m, r, subs, dc, hp, rfl, rfl⟩ := setUp_ok hst
      have hread : r.id = id → (i, env.now) ∈ tailRead id st (.run i .setUp) := by
        intro hid
        simp [tailRead, hp, hid]
      refine ⟨chained_setUp h hp (fun hid => hturn.unexpired _ (hread hid))
        (fun hid => (hturn.exclusive _ (hread hid)).2), fun j hj => ?_⟩
      by_cases hid : r.id = id
      · exact fun _ => (hturn.exclusive _ (hread hid)).1 j hj
      · exact hother (pending_setUp hp hid) j hj
    | save =>
      obtain ⟨env, m, dc, hp, rfl, rfl, hfresh⟩ := save_ok hst
      exact ⟨chained_save h hp hfresh, hother (pending_save hp)⟩

theorem chained_start {t : Tables} (h : Starts id t) : Chained id t publishers.fresh :=
  ⟨h.subs, h.ordered, ⟨h.own, h.chain⟩, ⟨h.own, h.chain⟩, trivial⟩

/-- Over every interleaving in which the end of the chain is read in turn, the
deliveries of the subscription are one chain. -/
theorem one_chain {st : Calls n}
    (h : ((publishers.system n (Starts id)).within (InTurn id)).Reachable st) :
    ∀ a ∈ st.committed.deliveries, ∀ b ∈ st.committed.deliveries, a.subscriptionID = id →
      b.subscriptionID = id → a.notBeforeID = b.notBeforeID → a = b :=
  (chained_rule.reachable (fun _ => chained_start) h).committed.committed.chain.once

end

def orderedBus : DB := (Runs.World.initial.run [
  Sample.ordersTopic 1 10,
  Sample.orderedWorker 2 20]).db

def noCalls : Calls 2 := ⟨orderedBus.toTables, fun _ => publishers.fresh⟩

theorem noCalls_init : (publishers.system 2 (Starts 20)).init noCalls :=
  ⟨starts_empty orderedBus (by decide +kernel) (by decide +kernel), fun _ => rfl⟩

def keyed : PublishMessageParams := ⟨"orders", none, [], [], "k"⟩

def inTurn : List (Event 2 Statement) := [
  .run 0 (.execute (.plain 3 30) keyed), .run 1 (.execute (.plain 4 40) keyed),
  .run 0 .setUp, .run 0 .save, .commit 0, .run 1 .setUp, .run 1 .save, .commit 1]

theorem inTurn_runs : (publishers.runs (InTurn 20) noCalls inTurn).isSome := rfl

def afterInTurn : Calls 2 := (publishers.runs (InTurn 20) noCalls inTurn).get inTurn_runs

theorem one_chain_inTurn : afterInTurn.committed.deliveries.length = 2 ∧
    ∀ a ∈ afterInTurn.committed.deliveries, ∀ b ∈ afterInTurn.committed.deliveries,
      a.subscriptionID = 20 → b.subscriptionID = 20 → a.notBeforeID = b.notBeforeID → a = b :=
  ⟨by decide +kernel,
    one_chain (runs_reachable (.start noCalls_init) (Option.some_get inTurn_runs).symm)⟩

def atOnce : List (Event 2 Statement) := [
  .run 0 (.execute (.plain 3 30) keyed), .run 1 (.execute (.plain 4 40) keyed),
  .run 0 .setUp, .run 1 .setUp, .run 0 .save, .run 1 .save, .commit 0, .commit 1]

theorem atOnce_runs : (publishers.runs (AnyOrder 20) noCalls atOnce).isSome := rfl

/-- Two calls at once fork the chain: neither delivery has a link. -/
theorem forked : ¬ ∀ st : Calls 2,
    ((publishers.system 2 (Starts 20)).within (AnyOrder 20)).Reachable st →
      ∀ a ∈ st.committed.deliveries, ∀ b ∈ st.committed.deliveries, a.subscriptionID = 20 →
        b.subscriptionID = 20 → a.notBeforeID = b.notBeforeID → a = b := by
  intro h
  have hreach := h _ (runs_reachable (.start noCalls_init) (Option.some_get atOnce_runs).symm)
  exact absurd hreach (by decide +kernel)

end Mmmbbb.OneChain
