import Mathlib.Data.Finset.Card
import Mmmbbb.Exhaustion
import Mmmbbb.Links
import Mmmbbb.Portions

/-!
# Emptying a subscription

A consumer that pulls and acknowledges what it gets, over and over, comes to a
pull that finds nothing more to hand out: every pull that finds something takes
at least one delivery off what is unsettled, in whatever order deliveries are
to be made.
-/

set_option autoImplicit false

namespace Mmmbbb.Draining
open KeyedRows Programs Exhaustion Mmmbbb.Schema Mmmbbb.Database Mmmbbb.Delivering
open Mmmbbb.Consuming Mmmbbb.Runs Mmmbbb.Writes Mmmbbb.Changes Mmmbbb.Links Mmmbbb.Portions

def pulled (w : World) (env : Env) (p : GetSubscriptionMessagesParams) :
    List SubscriptionMessageDelivery :=
  match exec env (.get p) (Tx.begin w.db) with
  | .ok (given, _) => given
  | .error _ => []

/-- A pull, and the acknowledgement of all that it has handed out. -/
def consume (p : GetSubscriptionMessagesParams) (hp : (Runs.Action.get p).Valid) (w : World)
    (turn : Env × Env) : World :=
  (w.after ⟨turn.1, .get p, hp⟩).after
    ⟨turn.2, .ack ((pulled w turn.1 p).map (·.id)), trivial⟩

def unsettled (k : UUID) (db : DB) : Finset UUID :=
  ((db.deliveries.filter (fun d => decide (d.subscriptionID = k) && d.completedAt.isNone)).map
    Delivery.id).toFinset

def load (k : UUID) (w : World) : ℕ := (unsettled k w.db).card

structure Backlog (p : GetSubscriptionMessagesParams) (k : UUID) (due : Time) (w : World) :
    Prop where
  links : LinksBack w.db.deliveries
  sub : ∃ sub, verifySub p w.db.toTables = .ok sub ∧ sub.id = k ∧
    sub.deadLetterTopicID ≠ some sub.topicID
  due : ∀ d ∈ w.db.deliveries, d.subscriptionID = k → d.completedAt = none → d.attemptAt ≤ due

def Empty (k : UUID) (w : World) (turn : Env × Env) : Prop :=
  ∀ d ∈ w.db.deliveries, d.subscriptionID = k → ¬ d.Outstanding turn.1.now

section
variable {p : GetSubscriptionMessagesParams} {k : UUID} {due : Time} {w : World} {turn : Env × Env}
  {sub : Subscription}

theorem mem_unsettled {id : UUID} {db : DB} : id ∈ unsettled k db ↔
    ∃ d ∈ db.deliveries, d.id = id ∧ d.subscriptionID = k ∧ d.completedAt = none := by
  simp only [unsettled, List.mem_toFinset, List.mem_map, List.mem_filter, Bool.and_eq_true,
    decide_eq_true_eq, Option.isNone_iff_eq_none]
  constructor
  · rintro ⟨d, ⟨hd, hk, hc⟩, hid⟩
    exact ⟨d, hd, hid, hk, hc⟩
  · rintro ⟨d, hd, hid, hk, hc⟩
    exact ⟨d, ⟨hd, hk, hc⟩, hid⟩

theorem empty_of_fetched (h : Backlog p k due w) (hmost : 1 ≤ p.maxMessages) (hk : sub.id = k)
    (hnow : due ≤ turn.1.now)
    (hnone : queryAndLockDeliveriesOnce turn.1 w.db.toTables sub p = []) : Empty k w turn := by
  by_contra hnot
  have hopen : ∃ d ∈ w.db.deliveries, d.subscriptionID = k ∧ d.Outstanding turn.1.now := by
    simpa [Empty] using hnot
  obtain ⟨d, hd, hid, hout, hlink⟩ := LinkedRows.exists_unblocked h.links w.db.sound.delivery_pk
    hopen
  have hcond := orderingCondition_of_link hlink
  have hattempt : d.attemptAt ≤ turn.1.now := (h.due d hd hid hout.1).trans hnow
  have hquery : buildDeliveryQuery turn.1.now w.db.toTables sub
      (fun d => decide (d.attemptAt ≤ turn.1.now)) d = true := by
    simp [buildDeliveryQuery, hcond, hattempt, hout.1, hout.2, hid, hk]
  exact fetched_ne_nil hmost hd hquery hnone

theorem only_settled {rows rows' : List Subscription} {sub : Subscription}
    {q : Subscription → Bool} (hq : ∀ s : Subscription, q s.settled = q s)
    (h : only q rows = .ok sub)
    (hrows : rows'.map Subscription.settled = rows.map Subscription.settled) :
    ∃ sub', only q rows' = .ok sub' ∧ sub'.settled = sub.settled := by
  have hfilter : ∀ rs : List Subscription,
      (rs.filter q).map Subscription.settled = (rs.map Subscription.settled).filter q := by
    intro rs
    rw [List.filter_map]
    exact congrArg (List.map Subscription.settled)
      (List.filter_congr fun s _ => (hq s).symm)
  have hsame : (rows'.filter q).map Subscription.settled =
      (rows.filter q).map Subscription.settled := by
    rw [hfilter, hfilter, hrows]
  unfold only at h ⊢
  cases hf : rows.filter q with
  | nil => simp [hf] at h
  | cons x rest =>
    cases rest with
    | cons y rest => simp [hf] at h
    | nil =>
      rw [hf] at h hsame
      obtain rfl : x = sub := Except.ok.inj h
      obtain ⟨x', hx', heq⟩ := List.map_eq_singleton_iff.mp hsame
      rw [hx']
      exact ⟨x', rfl, heq⟩

theorem first_settled {env : Env} {x : Fetched} {rest : List Fetched} {tx tx' : Tx}
    {res : GetSubscriptionMessagesResults} (hstrict : p.maxBytesStrict = false)
    (h : applyResults env p sub (x :: rest) tx = .ok (res, tx')) :
    res.deliveries ≠ [] ∨ 0 < res.numDeadLettered := by
  obtain ⟨start, -, h⟩ := bind_ok.mp h
  obtain ⟨st, hst, h⟩ := bind_ok.mp h
  obtain ⟨last, -, h⟩ := bind_ok.mp h
  obtain ⟨rfl, -⟩ := Prod.mk.inj (pure_ok.mp h)
  rw [applyLoop_eq] at hst
  obtain ⟨mid, -, rfl⟩ := map_ok.mp hst
  have hstrict : (pullPass p sub).strict = false := hstrict
  rcases Budgets.portion_first 0 x rest hstrict with hx | ⟨t, hx⟩
  · left
    simpa using List.ne_nil_of_mem hx
  · right
    simpa using List.length_pos_of_mem hx

theorem pulled_unsettled {env : Env} {fetched given : List Fetched}
    {retired : List (Fetched × UUID)} {res : GetSubscriptionMessagesResults} {a b : DB}
    (h : Pulled env p sub fetched given retired res a b) (hsub : sub ∈ a.subscriptions)
    (hself : sub.deadLetterTopicID ≠ some sub.topicID) {r : Delivery} (hr : r ∈ b.deliveries)
    (hk : r.subscriptionID = sub.id) (hc : r.completedAt = none) :
    r.id ∈ given.map (fun x => x.1.id) ∨
      r ∈ a.deliveries ∧ r.id ∉ retired.map (fun x => x.1.1.id) := by
  have hunique : ∀ y ∈ b.deliveries, y.id = r.id → y = r :=
    fun y hy hid => b.sound.delivery_pk.eq hy hr hid
  have hretired : ∀ x ∈ retired, x.1.1.id ≠ r.id := by
    intro x hx hid
    have hcompleted := hunique _ (h.completed x hx).1 hid
    rw [← hcompleted] at hc
    cases hc
  rcases h.created r hr with ⟨x, hx, hid⟩ | ⟨x, hx, hcopied⟩
  · by_cases hgiven : x ∈ given.map Prod.fst
    · obtain ⟨y, hy, rfl⟩ := List.mem_map.mp hgiven
      exact Or.inl (List.mem_map.mpr ⟨y, hy, hid⟩)
    · by_cases hspent : x ∈ retired.map (fun x => x.1.1)
      · obtain ⟨y, hy, rfl⟩ := List.mem_map.mp hspent
        exact absurd hid (hretired y hy)
      · have hsame := hunique x (h.kept x hx hgiven hspent) hid
        subst hsame
        refine Or.inr ⟨hx, fun hmem => ?_⟩
        obtain ⟨y, hy, hyid⟩ := List.mem_map.mp hmem
        exact hretired y hy hyid
  · obtain ⟨s, hs, hsid, htopic, -⟩ := hcopied.subscription
    obtain rfl : s = sub := a.sound.subscription_pk.eq hs hsub (hsid.trans hk)
    obtain ⟨n, hconfig, -⟩ := Subscription.deadLetterTopicFor_some.mp (h.spent x hx)
    rw [Subscription.deadLetterConfig_eq] at hconfig
    exact absurd (hconfig.2.1.trans (congrArg some htopic.symm)) hself

theorem consume_rows (hp : (Runs.Action.get p).Valid)
    (hsub : verifySub p w.db.toTables = .ok sub) (hself : sub.deadLetterTopicID ≠ some sub.topicID)
    (hunused : Unused turn.1 (Tx.begin w.db)) :
    ∃ given retired res tx, applyResults turn.1 p sub
        (queryAndLockDeliveriesOnce turn.1 w.db.toTables sub p) (Tx.begin w.db) = .ok (res, tx) ∧
      Pulled turn.1 p sub (queryAndLockDeliveriesOnce turn.1 w.db.toTables sub p) given retired res
        w.db tx.db ∧
      ∀ r ∈ (consume p hp w turn).db.deliveries, r.subscriptionID = sub.id →
        r.completedAt = none → r ∈ w.db.deliveries ∧ r.id ∉ given.map (fun x => x.1.id) ∧
          r.id ∉ retired.map (fun x => x.1.1.id) := by
  have hloaded := queryAndLockDeliveriesOnce_loaded turn.1 w.db sub p
  have hin := (only_ok hsub).1
  obtain ⟨⟨res, tx⟩, happly⟩ := @applyResults_succeeds turn.1 _ p sub _ hloaded hunused
  obtain ⟨given, retired, hpulled⟩ := applyResults_pulled hloaded hp.1 hp.2.1 happly
  refine ⟨given, retired, res, tx, happly, hpulled, fun r hr hk hc => ?_⟩
  have hget : exec turn.1 (.get p) (Tx.begin w.db) = .ok (res.deliveries, tx) := by
    simp only [exec]
    rw [map_ok]
    exact ⟨(res, tx), bind_ok.mpr ⟨sub, hsub, happly⟩, rfl⟩
  have hids : (pulled w turn.1 p).map (·.id) = given.map (fun x => x.1.id) := by
    rw [pulled, hget]
    dsimp only
    rw [hpulled.results, given_ids]
  have hrows : (consume p hp w turn).db.deliveries = tx.db.deliveries.map
      (setWhere (ackPredicates (given.map (fun x => x.1.id))) (completion turn.2).apply) := by
    rw [consume, hids]
    have hfirst : (w.after ⟨turn.1, .get p, hp⟩).db = tx.db := after_ok hget
    have hack := after_ok (w := w.after ⟨turn.1, .get p, hp⟩)
      (e := ⟨turn.2, .ack (given.map (fun x => x.1.id)), trivial⟩) rfl
    rw [hack]
    show (DB.updateDeliveries _ _ _).deliveries = _
    rw [show (Tx.begin (w.after ⟨turn.1, .get p, hp⟩).db).db = tx.db from hfirst]
    rfl
  rw [hrows] at hr
  obtain ⟨y, hy, rfl⟩ := List.mem_map.mp hr
  have hnot : ackPredicates (given.map (fun x => x.1.id)) y = false := by
    by_contra hack
    rw [Bool.not_eq_false] at hack
    rw [setWhere, if_pos hack] at hc
    cases hc
  rw [setWhere, if_neg (by rw [hnot]; decide)] at hk hc ⊢
  have hgiven : y.id ∉ given.map (fun x => x.1.id) := by
    intro hmem
    simp [ackPredicates, hmem, hc] at hnot
  rcases pulled_unsettled hpulled hin hself hy hk hc with hmem | ⟨hmem, hretired⟩
  · exact absurd hmem hgiven
  · exact ⟨hmem, hgiven, hretired⟩

theorem after_settled (w : World) {e : Event} (ha : OnDeliveries e.action) :
    (w.after e).db.subscriptions.map Subscription.settled =
      w.db.subscriptions.map Subscription.settled :=
  (transaction_of_action w ha).static.subscriptions

theorem consume_works {hp : (Runs.Action.get p).Valid} (hstrict : p.maxBytesStrict = false)
    (h : Backlog p k due w) (hunused : Unused turn.1 (Tx.begin w.db)) (hnow : due ≤ turn.1.now) :
    Backlog p k due (consume p hp w turn) ∧ (Empty k w turn ∨
      load k (consume p hp w turn) < load k w) := by
  obtain ⟨sub, hsub, rfl, hself⟩ := h.sub
  obtain ⟨given, retired, res, tx, happly, hpulled, hrows⟩ :=
    consume_rows hp hsub hself hunused
  refine ⟨⟨step_linksBack (step_linksBack h.links), ?_, ?_⟩, ?_⟩
  · have hsettled := (after_settled (w.after ⟨turn.1, .get p, hp⟩) (e := ⟨turn.2, .ack
        ((pulled w turn.1 p).map (·.id)), trivial⟩) trivial).trans
      (after_settled w (e := ⟨turn.1, .get p, hp⟩) trivial)
    obtain ⟨sub', hsub', heq⟩ := only_settled (fun _ => rfl) hsub hsettled
    have hid : sub'.id = sub.id := Subscription.settled_eq heq Subscription.id fun _ => rfl
    have htopic : sub'.topicID = sub.topicID :=
      Subscription.settled_eq heq Subscription.topicID fun _ => rfl
    have hdead : sub'.deadLetterTopicID = sub.deadLetterTopicID :=
      Subscription.settled_eq heq Subscription.deadLetterTopicID fun _ => rfl
    refine ⟨sub', hsub', hid, ?_⟩
    rw [hdead, htopic]
    exact hself
  · intro r hr hk hc
    exact h.due r (hrows r hr hk hc).1 hk hc
  · cases hfetched : queryAndLockDeliveriesOnce turn.1 w.db.toTables sub p with
    | nil => exact Or.inl (empty_of_fetched h hp.1 rfl hnow hfetched)
    | cons x rest =>
      right
      rw [hfetched] at happly
      have hin : ∀ y ∈ queryAndLockDeliveriesOnce turn.1 w.db.toTables sub p,
          y.1.id ∈ unsettled sub.id w.db := by
        intro y hy
        obtain ⟨hmem, hquery, -⟩ := queryAndLockDeliveriesOnce_mem hy
        simp only [buildDeliveryQuery, Bool.and_eq_true, decide_eq_true_eq,
          Option.isNone_iff_eq_none] at hquery
        exact mem_unsettled.mpr ⟨y.1, hmem, rfl, hquery.2, hquery.1.1.2⟩
      -- the delivery that is taken off
      have htaken : ∃ y ∈ queryAndLockDeliveriesOnce turn.1 w.db.toTables sub p,
          y.1.id ∈ given.map (fun x => x.1.id) ∨ y.1.id ∈ retired.map (fun x => x.1.1.id) := by
        rcases first_settled hstrict happly with hgiven | hretired
        · rw [hpulled.results, ne_eq, List.map_eq_nil_iff] at hgiven
          obtain ⟨y, hy⟩ := List.exists_mem_of_ne_nil given hgiven
          exact ⟨y, hpulled.given_fetched.subset hy, Or.inl (List.mem_map.mpr ⟨y, hy, rfl⟩)⟩
        · rw [hpulled.numDeadLettered] at hretired
          obtain ⟨y, hy⟩ := List.exists_mem_of_length_pos hretired
          exact ⟨y.1, hpulled.retired_fetched.subset (List.mem_map_of_mem hy),
            Or.inr (List.mem_map.mpr ⟨y, hy, rfl⟩)⟩
      obtain ⟨y, hy, hout⟩ := htaken
      refine Finset.card_lt_card (Finset.ssubset_iff_subset_ne.mpr
        ⟨fun id hid => ?_, fun heq => ?_⟩)
      · obtain ⟨r, hr, rfl, hk, hc⟩ := mem_unsettled.mp hid
        exact mem_unsettled.mpr ⟨r, (hrows r hr hk hc).1, rfl, hk, hc⟩
      · have hstill := hin y hy
        rw [← heq] at hstill
        obtain ⟨r, hr, hid, hk, hc⟩ := mem_unsettled.mp hstill
        obtain ⟨-, hgiven, hretired⟩ := hrows r hr hk hc
        rw [hid] at hgiven hretired
        exact hout.elim hgiven hretired

end

/-- Among more turns than there are unsettled deliveries one finds the
subscription empty: nothing is left of what was due, be it in order or not,
be it too large for the byte limit or over its attempt limit. -/
theorem drained {w : World} (hw : bus.Reachable w) {p : GetSubscriptionMessagesParams}
    (hp : (Runs.Action.get p).Valid) (hstrict : p.maxBytesStrict = false) {sub : Subscription}
    (hsub : verifySub p w.db.toTables = .ok sub) (hself : sub.deadLetterTopicID ≠ some sub.topicID)
    {due : Time} (hdue : ∀ d ∈ w.db.deliveries, d.subscriptionID = sub.id → d.completedAt = none →
      d.attemptAt ≤ due)
    {turns : List (Env × Env)} (hturns : Throughout (consume p hp)
      (fun w turn _ => Unused turn.1 (Tx.begin w.db) ∧ due ≤ turn.1.now) w turns)
    (hlen : load sub.id w < turns.length) :
    ∃ pre turn post, turns = pre ++ turn :: post ∧
      ∀ d ∈ (pre.foldl (consume p hp) w).db.deliveries, d.subscriptionID = sub.id →
        ¬ d.Outstanding turn.1.now := by
  have hbacklog : Backlog p sub.id due w :=
    ⟨reachable_linksBack hw, ⟨sub, hsub, rfl, hself⟩, hdue⟩
  have hworks : ∀ w turn, Backlog p sub.id due w →
      (Unused turn.1 (Tx.begin w.db) ∧ due ≤ turn.1.now) →
      Backlog p sub.id due (consume p hp w turn) ∧ (Empty sub.id w turn ∨
        load sub.id (consume p hp w turn) < load sub.id w) :=
    fun _ _ hb hok => consume_works hstrict hb hok.1 hok.2
  obtain ⟨pre, turn, post, hsplit, -, hempty⟩ := exists_idle_turn hworks hbacklog hturns hlen
  exact ⟨pre, turn, post, hsplit, hempty⟩

def threeTurns : List (Env × Env) :=
  [(.plain 10 50, .plain 11 51), (.plain 12 52, .plain 13 53), (.plain 14 54, .plain 15 55)]

theorem drained_chain :
    ∃ pre turn post, threeTurns = pre ++ turn :: post ∧
      ∀ d ∈ (pre.foldl (consume ⟨"worker", none, 1, 100, false⟩ (Sample.getOne 0 0).valid)
        chainBus).db.deliveries, d.subscriptionID = chainSubscription.id →
          ¬ d.Outstanding turn.1.now := by
  have hdue : ∀ d ∈ chainBus.db.deliveries, d.subscriptionID = chainSubscription.id →
      d.completedAt = none → d.attemptAt ≤ 10 := by decide +kernel
  refine drained (initial_reachable _) (Sample.getOne 0 0).valid rfl (by decide +kernel) (by decide) hdue ?_
    (by decide +kernel)
  refine ⟨⟨plain_unused ?_, by decide⟩, ⟨plain_unused ?_, by decide⟩,
    ⟨plain_unused ?_, by decide⟩, trivial⟩
  all_goals decide +kernel

end Mmmbbb.Draining
