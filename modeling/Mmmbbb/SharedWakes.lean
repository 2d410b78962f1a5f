import Mmmbbb.Notify
import Mmmbbb.Runs

/-!
# Waking several subscriptions together

One call wakes the listeners of a list of subscriptions. It goes down the list
until it meets one that has no wait set, or has no longer one; what it has
passed by then is woken, and the rest of the list is not looked at.
-/

set_option autoImplicit false

namespace Mmmbbb.SharedWakes
open WaitSets Mmmbbb.Schema Mmmbbb.Database Mmmbbb.Delivering Mmmbbb.Consuming Mmmbbb.Notify

variable {ws : Waiters UUID} {ids : List UUID} {closed : Finset Channel}

/-- A first part of the list: its keys have wait sets and do not repeat, and
what follows it begins with a key that has none, or has been woken by then. -/
structure Reached (ids pre post : List UUID) (ws : Waiters UUID) : Prop where
  split : ids = pre ++ post
  distinct : pre.Nodup
  present : ∀ k ∈ pre, ws.lookup k ≠ none
  ends : post = [] ∨ ∃ id later, post = id :: later ∧ (ws.lookup id = none ∨ id ∈ pre)

theorem Reached.cons {id : UUID} {pre post : List UUID} (h : Reached ids pre post (ws.erase id))
    (hid : ws.lookup id ≠ none) : Reached (id :: ids) (id :: pre) post ws := by
  have hother : ∀ k ∈ pre, k ≠ id := by
    intro k hk heq
    exact h.present k hk (by rw [heq, AList.lookup_erase])
  constructor
  · rw [h.split, List.cons_append]
  · rw [List.nodup_cons]
    exact ⟨fun hmem => hother id hmem rfl, h.distinct⟩
  · intro k hk
    rcases List.mem_cons.mp hk with rfl | hk
    · exact hid
    · have hne := h.present k hk
      rwa [AList.lookup_erase_ne (hother k hk)] at hne
  · rcases h.ends with hnil | ⟨k, later, hcons, hk⟩
    · exact Or.inl hnil
    · refine Or.inr ⟨k, later, hcons, ?_⟩
      by_cases heq : k = id
      · exact Or.inr (by simp [heq])
      · rcases hk with hk | hk
        · rw [AList.lookup_erase_ne heq] at hk
          exact Or.inl hk
        · exact Or.inr (by simp [hk])

theorem wakeEach_reached (ids : List UUID) (ws : Waiters UUID) (closed : Finset Channel)
    (hs : WaitSets.Sound ws closed) :
    ∃ pre post, Reached ids pre post ws ∧ wakeEach ids ws closed = wakeKeys pre ws closed := by
  induction ids generalizing ws closed with
  | nil => exact ⟨[], [], ⟨rfl, List.nodup_nil, by simp, Or.inl rfl⟩, rfl⟩
  | cons id ids ih =>
    by_cases hid : ws.lookup id = none
    · refine ⟨[], id :: ids, ⟨rfl, List.nodup_nil, by simp, Or.inr ⟨id, ids, rfl, Or.inl hid⟩⟩, ?_⟩
      simp [wakeEach, hid, wakeKeys]
    · have hsome : (ws.lookup id).isSome = true := Option.isSome_iff_ne_none.mpr hid
      obtain ⟨pre, post, hreached, hrun⟩ := ih _ _ (hs.wake (k := id))
      refine ⟨id :: pre, post, hreached.cons hid, ?_⟩
      rw [wakeEach, if_pos hsome, wakeKeys, List.foldlM_cons, wakeKey_ok hs]
      exact hrun

structure WokenAll (ids : List UUID) (r r' : Registry) : Prop where
  removed : ∀ id ∈ ids, waiting r'.pubWaiters id = ∅
  ended : ∀ id ∈ ids, ∀ c ∈ waiting r.pubWaiters id, c ∈ r'.closed
  kept : ∀ id ∉ ids, waiting r'.pubWaiters id = waiting r.pubWaiters id
  isOpen : ∀ id ∉ ids, ∀ c ∈ waiting r.pubWaiters id, c ∉ r'.closed

/-- Nothing waits for a key that comes in the list only after one without a
wait set, or after a repeated one. -/
def Unbroken (ids : List UUID) (ws : Waiters UUID) : Prop :=
  ∀ pre id post, ids = pre ++ id :: post → ws.lookup id = none ∨ id ∈ pre →
    ∀ k ∈ post, k ∉ pre → waiting ws k = ∅

theorem waiting_none {id : UUID} (h : ws.lookup id = none) : waiting ws id = ∅ := by
  simp [waiting, h]

theorem Reached.unbroken_iff {pre post : List UUID} (h : Reached ids pre post ws) :
    Unbroken ids ws ↔ ∀ k ∈ ids, k ∉ pre → waiting ws k = ∅ := by
  constructor
  · intro hunbroken k hk hnot
    rcases h.ends with hnil | ⟨id, later, hcons, hid⟩
    · rw [h.split, hnil, List.append_nil] at hk
      exact absurd hk hnot
    · rw [h.split, hcons, List.mem_append, List.mem_cons] at hk
      rcases hk with hk | rfl | hk
      · exact absurd hk hnot
      · exact waiting_none (hid.resolve_right hnot)
      · exact hunbroken pre id later (by rw [h.split, hcons]) hid k hk hnot
  · intro hempty pre' id later heq hid k hk hnot
    have hin : k ∈ ids := by simp [heq, hk]
    by_cases hmem : k ∈ pre
    · -- the loop has gone past `id`, so it had a wait set and was no repetition
      have hsplit := h.split
      rw [heq] at hsplit
      rcases List.append_eq_append_iff.mp hsplit with ⟨mid, hpre, hmid⟩ | ⟨mid, hpre, -⟩
      · cases mid with
        | nil =>
          rw [List.append_nil] at hpre
          exact absurd (hpre ▸ hmem) hnot
        | cons x mid =>
          obtain ⟨rfl, -⟩ := List.cons.inj hmid
          rcases hid with hid | hid
          · exact absurd hid (h.present id (by simp [hpre]))
          · have hdistinct := h.distinct
            rw [hpre, List.nodup_append] at hdistinct
            exact absurd rfl (hdistinct.2.2 id hid id (by simp))
      · rw [hpre, List.mem_append, not_or] at hnot
        exact absurd hmem hnot.1
    · exact hempty k hin hmem

/-- The call wakes everything that it should exactly when the list is unbroken. -/
theorem wakePublishListeners_iff {r : Registry} {onlyInternal : Bool}
    (hs : WaitSets.Sound r.pubWaiters r.closed)
    (hreach : reaches onlyInternal r.pubNotifyHooks = true) (ids : List UUID) :
    ∃ r', wakePublishListeners onlyInternal ids r = some r' ∧
      (WokenAll ids r r' ↔ Unbroken ids r.pubWaiters) := by
  obtain ⟨pre, post, hreached, hrun⟩ := wakeEach_reached ids r.pubWaiters r.closed hs
  obtain ⟨ws, closed, hwake, hin, hout, hclosed⟩ := wakeKeys_ok pre hs
  refine ⟨{ r with pubWaiters := ws, closed := closed }, ?_, ?_⟩
  · rw [wakePublishListeners, if_pos hreach, hrun, hwake]
    rfl
  rw [hreached.unbroken_iff]
  have hsub : ∀ k ∈ pre, k ∈ ids := fun k hk => by
    rw [hreached.split]
    exact List.mem_append_left _ hk
  constructor
  · intro hall k hk hnot
    have hremoved := hall.removed k hk
    rw [← hout k hnot]
    exact hremoved
  · intro hempty
    constructor
    · intro k hk
      by_cases hpre : k ∈ pre
      · exact hin k hpre
      · rw [hout k hpre, hempty k hk hpre]
    · intro k hk c hc
      by_cases hpre : k ∈ pre
      · exact (hclosed c).mpr (Or.inr ⟨k, hpre, hc⟩)
      · rw [hempty k hk hpre] at hc
        cases hc
    · intro k hk
      exact hout k (fun hpre => hk (hsub k hpre))
    · intro k hk c hc hmem
      rcases (hclosed c).mp hmem with hmem | ⟨k', hk', hc'⟩
      · exact hs.isOpen k c hc hmem
      · have heq := hs.single k k' c hc hc'
        exact hk (hsub k (heq ▸ hk'))

def nackedSubscriptions (env : Env) (p : DelayDeliveriesParams) (db : DB) : List UUID :=
  distinctSubscriptions env (db.deliveries.filter (delayPredicates env p))

theorem mem_nackedSubscriptions {env : Env} {p : DelayDeliveriesParams} {db : DB} {id : UUID} :
    id ∈ nackedSubscriptions env p db ↔
      ∃ d ∈ db.deliveries, delayPredicates env p d = true ∧ d.subscriptionID = id := by
  simp [nackedSubscriptions, distinctSubscriptions, and_assoc]

theorem delayDeliveries_wakes {env : Env} {p : DelayDeliveriesParams} (hdelay : p.delay ≤ 0)
    (tx : Tx) : (delayDeliveries env p tx).2.onCommit = tx.onCommit ++
      if nackedSubscriptions env p tx.db = [] then []
      else [.wakePublishListeners false (nackedSubscriptions env p tx.db)] := by
  simp only [delayDeliveries, nackedSubscriptions, if_pos hdelay]
  rfl

/-- What is to be woken together is woken exactly when the list is unbroken;
so it is with the one wake that a nack registers for all it has touched. -/
theorem wokenAll_iff {r : Registry} (hs : WaitSets.Sound r.pubWaiters r.closed) :
    (∀ onlyInternal ids, onlyInternal = true ∨ r.pubNotifyHooks = ∅ →
      ∃ r', wakePublishListeners onlyInternal ids r = some r' ∧
        (WokenAll ids r r' ↔ Unbroken ids r.pubWaiters)) ∧
    ∀ env p tx, p.delay ≤ 0 → r.pubNotifyHooks = ∅ → ∃ ids,
      (∀ id, id ∈ ids ↔
        ∃ d ∈ tx.db.deliveries, delayPredicates env p d = true ∧ d.subscriptionID = id) ∧
      (delayDeliveries env p tx).2.onCommit = tx.onCommit ++
        (if ids = [] then [] else [.wakePublishListeners false ids]) ∧
      ∃ r', wakePublishListeners false ids r = some r' ∧
        (WokenAll ids r r' ↔ Unbroken ids r.pubWaiters) := by
  constructor
  · intro onlyInternal ids hinternal
    exact wakePublishListeners_iff hs (by simpa [reaches] using hinternal) ids
  · intro env p tx hdelay hhooks
    refine ⟨nackedSubscriptions env p tx.db, fun id => mem_nackedSubscriptions,
      delayDeliveries_wakes hdelay tx, ?_⟩
    exact wakePublishListeners_iff hs (by simp [reaches, hhooks]) _

def awaiting (ids : List UUID) : Registry :=
  ids.foldl (fun r id => publishAwaiter id r) .initial

theorem awaiting_sound (ids : List UUID) : Notify.Sound (awaiting ids) := by
  have hfold : ∀ r, Notify.Sound r → Notify.Sound (ids.foldl (fun r id => publishAwaiter id r) r) := by
    induction ids with
    | nil => exact fun _ hr => hr
    | cons id ids ih => exact fun r hr => ih _ (sound_await hr (.publish id))
  exact hfold _ initial_sound

theorem wokenAll_iff_both : ∃ r', wakePublishListeners true [20, 25] (awaiting [20, 25]) = some r' ∧
    WokenAll [20, 25] (awaiting [20, 25]) r' := by
  have hall := wokenAll_iff (awaiting_sound [20, 25]).pub
  obtain ⟨r', hrun, hiff⟩ := hall.1 true [20, 25] (Or.inl rfl)
  refine ⟨r', hrun, hiff.mpr ?_⟩
  intro pre id post hsplit hid k hk hnot
  match pre with
  | [] =>
    obtain ⟨rfl, rfl⟩ := List.cons.inj hsplit
    rcases hid with hid | hid
    · exact absurd hid (by decide)
    · cases hid
  | [a] =>
    obtain ⟨-, hrest⟩ := List.cons.inj hsplit
    obtain ⟨-, rfl⟩ := List.cons.inj hrest
    cases hk
  | a :: b :: rest =>
    have hlen := congrArg List.length hsplit
    simp only [List.length_append, List.length_cons, List.length_nil] at hlen
    omega

def twoBus : Runs.World := .run .initial [
  Runs.Sample.ordersTopic 1 10,
  ⟨.plain 2 20, .createSubscription ⟨"orders", "first", hour, hour, false, [], "", 0, 0, "", 0,
    ""⟩, by decide⟩,
  ⟨.plain 3 25, .createSubscription ⟨"orders", "second", hour, hour, false, [], "", 0, 0, "", 0,
    ""⟩, by decide⟩,
  Runs.Sample.publish "1" "" 4 30]

theorem wokenAll_nack :
    Runs.bus.Reachable twoBus ∧
      (delayDeliveries (.plain 5 40) ⟨[31, 32], 0⟩ (Tx.begin twoBus.db)).2.onCommit =
        [.wakePublishListeners false [20, 25]] ∧
      ∃ r', wakePublishListeners false [20, 25] (awaiting [25]) = some r' ∧
        waiting r'.pubWaiters 25 = {0} ∧ ¬ WokenAll [20, 25] (awaiting [25]) r' := by
  refine ⟨Runs.initial_reachable _, by decide +kernel, awaiting [25], rfl, by decide, ?_⟩
  intro hall
  have hremoved := hall.removed 25 (by simp)
  exact absurd hremoved (by decide)

end Mmmbbb.SharedWakes
