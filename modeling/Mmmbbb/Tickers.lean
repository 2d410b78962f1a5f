import Mmmbbb.Changes
import Mmmbbb.Streaming
import Mmmbbb.Messages

/-!
# The interval of the automatic delays

A stream that delays what its client is still working on checks its window at
an interval that it derives from the minimum backoff of the subscription. A
ticker with an interval that is not positive is a panic. A minimum backoff is
stored as it comes with an update, and only where it is positive when a
subscription is created.
-/

set_option autoImplicit false

namespace Mmmbbb.Tickers
open KeyedRows Programs Mmmbbb.Schema Mmmbbb.Database Mmmbbb.Delivering Mmmbbb.Consuming
open Mmmbbb.Administering Mmmbbb.Runs Mmmbbb.Writes Mmmbbb.Alterations Mmmbbb.Changes
open Mmmbbb.Streaming (delayAmounts)

def newTicker (interval : Duration) : Except Error Unit := failWhen (interval ≤ 0) .panic

def startAutoDelay (subscriptionID : UUID) (t : Tables) : Except Error (Duration × Duration) := do
  let s ← match fetch Subscription.id subscriptionID t.subscriptions with
    | none => .error .errNotFound
    | some s => .ok s
  newTicker (delayAmounts s).2
  pure (delayAmounts s)

def TimersValid (t : Tables) : Prop :=
  ∀ s ∈ t.subscriptions, 0 < (delayAmounts s).2 ∧ startAutoDelay s.id t = .ok (delayAmounts s)

def LongEnough (minBackoff : Duration) : Prop :=
  ∃ k : ℤ, k * 2 ^ 64 + 10 ≤ minBackoff.tdiv 2 * 9 ∧ minBackoff.tdiv 2 * 9 < k * 2 ^ 64 + 2 ^ 63

def Ample (minBackoff : Option Duration) : Prop := ∀ d, minBackoff = some d → LongEnough d

theorem tenth_pos_iff {x : ℤ} : 0 < x.tdiv 10 ↔ 10 ≤ x := by
  by_cases hx : 0 ≤ x
  · rw [Int.tdiv_eq_ediv_of_nonneg hx]
    omega
  · have hsum := Int.mul_tdiv_add_tmod x 10
    have hgt := Int.lt_tmod_of_pos x (show (0 : ℤ) < 10 by decide)
    have hlt := Int.tmod_lt_of_pos x (show (0 : ℤ) < 10 by decide)
    omega

theorem interval_pos_iff {x : ℤ} : 0 < (x.bmod (2 ^ 64)).tdiv 10 ↔
    ∃ k : ℤ, k * 2 ^ 64 + 10 ≤ x ∧ x < k * 2 ^ 64 + 2 ^ 63 := by
  obtain ⟨j, hj, hlow, hhigh⟩ := Messages.bmod_wrap x
  rw [tenth_pos_iff]
  rw [hj] at hlow hhigh ⊢
  constructor
  · intro h
    exact ⟨-j, by omega, by omega⟩
  · rintro ⟨k, hk, hk'⟩
    omega

theorem interval_iff (s : Subscription) : 0 < (delayAmounts s).2 ↔ Ample s.minBackoff := by
  rw [delayAmounts, Ample]
  cases s.minBackoff with
  | none => exact iff_of_true (by decide) (fun d hd => by cases hd)
  | some d =>
    rw [interval_pos_iff]
    constructor
    · intro h d' hd
      cases hd
      exact h
    · intro h
      exact h d rfl

theorem start_ok {db : DB} {s : Subscription} (hs : s ∈ db.subscriptions)
    (hpos : 0 < (delayAmounts s).2) : startAutoDelay s.id db.toTables = .ok (delayAmounts s) := by
  have hfetch := fetch_of_mem db.sound.subscription_pk hs
  rw [startAutoDelay, hfetch]
  have hticks : newTicker (delayAmounts s).2 = .ok () := failWhen_ok.mpr (not_le.mpr hpos)
  simp only [bind, Except.bind, hticks, pure, Except.pure]

def Backed (t : Tables) : Prop := ∀ s ∈ t.subscriptions, Ample s.minBackoff

theorem timersValid_iff (db : DB) : TimersValid db.toTables ↔ Backed db.toTables := by
  constructor
  · intro h s hs
    exact (interval_iff s).mp (h s hs).1
  · intro h s hs
    have hpos := (interval_iff s).mpr (h s hs)
    exact ⟨hpos, start_ok hs hpos⟩

/-- A transaction that commits and stores a minimum backoff stores one that is
long enough. -/
def Stores (w : World) (e : Event) (_ : World) : Prop :=
  (∃ r, exec e.env e.action (Tx.begin w.db) = .ok r) →
    match e.action with
    | .createSubscription p => 0 < p.minBackoff → LongEnough p.minBackoff
    | .updateSubscription req => "retry_policy" ∈ req.updateMask → Ample req.minimumBackoff
    | _ => True

def Inherits (a b : Tables) : Prop :=
  ∀ s ∈ b.subscriptions, ∃ r ∈ a.subscriptions, r.minBackoff = s.minBackoff

theorem Inherits.backed {a b : Tables} (h : Inherits a b) (ha : Backed a) : Backed b := by
  intro s hs
  obtain ⟨r, hr, heq⟩ := h s hs
  exact heq ▸ ha r hr

theorem inherits_same {a b : Tables} (h : b.subscriptions = a.subscriptions) : Inherits a b := by
  intro s hs
  exact ⟨s, h ▸ hs, rfl⟩

theorem inherits_map {a b : Tables} {f : Subscription → Subscription}
    (h : b.subscriptions = a.subscriptions.map f) (hf : ∀ s, (f s).minBackoff = s.minBackoff) :
    Inherits a b := by
  intro s hs
  rw [h] at hs
  obtain ⟨r, hr, rfl⟩ := List.mem_map.mp hs
  exact ⟨r, hr, (hf r).symm⟩

theorem inherits_after (w : World) (e : Event) (hc : ∀ p, e.action ≠ .createSubscription p)
    (hu : ∀ req, e.action ≠ .updateSubscription req) :
    Inherits w.db.toTables (w.after e).db.toTables := by
  by_cases ha : OnDeliveries e.action
  · intro s hs
    have hstatic := (transaction_of_action w ha).static
    obtain ⟨r, hr, heq⟩ := hstatic.subscription_before hs
    exact ⟨r, hr, Subscription.settled_eq heq Subscription.minBackoff (fun _ => rfl)⟩
  · have halt := alteration_after w e ha
    generalize e.action = a at halt hc hu
    generalize (w.after e).db.toTables = t at halt ⊢
    cases halt with
    | createSubscription => exact absurd rfl (hc _)
    | updateSubscription => exact absurd rfl (hu _)
    | @setSubscriptions _ q u hplain =>
      exact inherits_map rfl (setWhere_keeps Subscription.minBackoff
        (fun s => by simp [SubscriptionUpdate.apply, hplain.minBackoff]))
    | pruneSubscriptions => exact fun s hs => ⟨s, List.mem_of_mem_filter hs, rfl⟩
    | pruneTopics => exact inherits_map rfl (fun _ => rfl)
    | idle => exact inherits_same rfl
    | createTopic => exact inherits_same rfl
    | updateTopic => exact inherits_same rfl
    | deleteTopic => exact inherits_same rfl
    | createSnapshot => exact inherits_same rfl
    | deleteSnapshot => exact inherits_same rfl
    | pruneDeliveries => exact inherits_same rfl
    | pruneMessages => exact inherits_same rfl

section
variable {env : Env} {tx tx' : Tx}

theorem createSubscription_stores {p : CreateSubscriptionParams} {s : Subscription}
    (h : createSubscription env p tx = .ok (s, tx')) :
    tx'.db.subscriptions = tx.db.subscriptions ++ [s] ∧ s.minBackoff = positive p.minBackoff := by
  obtain ⟨-, -, h⟩ := bind_ok.mp h
  obtain ⟨topic, -, h⟩ := bind_ok.mp h
  obtain ⟨-, -, h⟩ := bind_ok.mp h
  obtain ⟨deadLetterTopic, -, h⟩ := bind_ok.mp h
  obtain ⟨db, hdb, h⟩ := bind_ok.mp h
  obtain ⟨rfl, rfl⟩ := Prod.mk.inj (pure_ok.mp h)
  obtain ⟨-, htab⟩ := DB.insertSubscription_ok hdb
  exact ⟨congrArg Tables.subscriptions htab, rfl⟩

theorem updatePath_minBackoff {t : Tables} {req : UpdateSubscriptionRequest}
    {u v : SubscriptionUpdate} {path : String} (h : updatePath env t req u path = .ok v) :
    v.minBackoff = if path = "retry_policy" then some req.minimumBackoff else u.minBackoff := by
  unfold updatePath at h
  split at h
  case h_7 =>
    cases h
    rfl
  case h_8 =>
    obtain ⟨_, -, h⟩ := bind_ok.mp h
    cases h
    rfl
  case h_9 =>
    split at h
    · cases h
      rfl
    · split at h <;> cases h
      rfl
  case h_10 =>
    split at h
    · cases h
      rfl
    · split at h
      · cases h
        rfl
      · obtain ⟨_, -, h⟩ := bind_ok.mp h
        cases h
        rfl
  all_goals cases h
  all_goals rfl

theorem updatePaths_minBackoff {t : Tables} {req : UpdateSubscriptionRequest} {mask : List String}
    {u v : SubscriptionUpdate} (h : mask.foldlM (updatePath env t req) u = .ok v) :
    v.minBackoff = if "retry_policy" ∈ mask then some req.minimumBackoff else u.minBackoff := by
  induction mask generalizing u with
  | nil =>
    cases h
    simp
  | cons path mask ih =>
    rw [List.foldlM_cons] at h
    obtain ⟨u', hu', hrest⟩ := bind_ok.mp h
    have hone := updatePath_minBackoff hu'
    rw [ih hrest, hone]
    by_cases hpath : path = "retry_policy"
    · simp [hpath]
    · simp [hpath, Ne.symm hpath]

theorem updateSubscription_stores {req : UpdateSubscriptionRequest} {r : Option Subscription}
    (h : updateSubscription env req tx = .ok (r, tx')) :
    ∃ sub ∈ tx.db.subscriptions, ∃ u, req.updateMask.foldlM (updatePath env tx.db.toTables req) {} =
      .ok u ∧ tx'.db.subscriptions =
        tx.db.subscriptions.map (setWhere (fun s => decide (s.id = sub.id)) u.apply) := by
  obtain ⟨sub, hsub, h⟩ := bind_ok.mp h
  obtain ⟨u, hu, h⟩ := bind_ok.mp h
  refine ⟨sub, (only_ok hsub).1, u, hu, ?_⟩
  split at h
  · rename_i hnone
    obtain ⟨-, rfl⟩ := Prod.mk.inj (pure_ok.mp h)
    have hidle : ∀ s : Subscription, setWhere (fun s => decide (s.id = sub.id)) u.apply s = s := by
      intro s
      rw [hnone, setWhere]
      split <;> rfl
    rw [List.map_congr_left (fun s _ => hidle s), List.map_id']
  · obtain ⟨db, hdb, h⟩ := bind_ok.mp h
    obtain ⟨-, rfl⟩ := Prod.mk.inj (pure_ok.mp h)
    exact congrArg Tables.subscriptions (DB.updateSubscriptions_ok hdb)

theorem ample_positive {d : Duration} : Ample (positive d) ↔ (0 < d → LongEnough d) := by
  rw [Ample, positive]
  split
  · rename_i hpos
    simp [hpos]
  · rename_i hneg
    simp [hneg]

end

theorem backed_append {a b : Tables} {s : Subscription} (ha : Backed a)
    (h : b.subscriptions = a.subscriptions ++ [s]) : Backed b ↔ Ample s.minBackoff := by
  rw [Backed, h]
  constructor
  · intro hall
    exact hall s (by simp)
  · intro hs x hx
    rw [List.mem_append, List.mem_singleton] at hx
    cases hx with
    | inl hx => exact ha x hx
    | inr hx => exact hx ▸ hs

theorem backed_update {a b : Tables} {sub : Subscription} {u : SubscriptionUpdate} (ha : Backed a)
    (hsub : sub ∈ a.subscriptions) (h : b.subscriptions =
      a.subscriptions.map (setWhere (fun s => decide (s.id = sub.id)) u.apply)) :
    Backed b ↔ ∀ d, u.minBackoff = some d → Ample d := by
  rw [Backed, h]
  constructor
  · intro hall d hd
    have hrow := hall _ (List.mem_map_of_mem hsub)
    simpa [setWhere, SubscriptionUpdate.apply, hd] using hrow
  · intro hd x hx
    obtain ⟨r, hr, rfl⟩ := List.mem_map.mp hx
    rw [setWhere]
    split
    · cases hu : u.minBackoff with
      | none => simpa [SubscriptionUpdate.apply, hu] using ha r hr
      | some d => simpa [SubscriptionUpdate.apply, hu] using hd d hu
    · exact ha r hr

theorem backed_after {w : World} (e : Event) (h : Backed w.db.toTables) :
    Backed (w.after e).db.toTables ↔ Stores w e (w.after e) := by
  cases hexec : exec e.env e.action (Tx.begin w.db) with
  | error x =>
    have hnone : Stores w e (w.after e) := by
      rintro ⟨r, hr⟩
      rw [hexec] at hr
      cases hr
    rw [after_failed hexec]
    exact iff_of_true h hnone
  | ok r =>
    obtain ⟨given, tx⟩ := r
    have hinherits := inherits_after w e
    rw [Stores, after_ok hexec] at *
    have hcommits : ∃ r, exec e.env e.action (Tx.begin w.db) = .ok r := ⟨_, hexec⟩
    rw [forall_prop_of_true hcommits]
    generalize e.action = a at hexec hinherits ⊢
    cases a
    case createSubscription p =>
      obtain ⟨⟨s, tx'⟩, hcreate, heq⟩ := map_ok.mp hexec
      obtain ⟨-, rfl⟩ := Prod.mk.inj heq
      obtain ⟨hrows, hmin⟩ := createSubscription_stores hcreate
      rw [backed_append h hrows, hmin]
      exact ample_positive
    case updateSubscription req =>
      obtain ⟨⟨r, tx'⟩, hupdate, heq⟩ := map_ok.mp hexec
      obtain ⟨-, rfl⟩ := Prod.mk.inj heq
      obtain ⟨sub, hsub, u, hu, hrows⟩ := updateSubscription_stores hupdate
      rw [backed_update h hsub hrows, updatePaths_minBackoff hu]
      by_cases hmask : "retry_policy" ∈ req.updateMask <;> simp [hmask]
    all_goals
      exact iff_of_true ((hinherits (fun _ => by simp) (fun _ => by simp)).backed h) trivial

/-- Every state of a run gives valid timers if and only if what is stored on
the way is long enough. -/
theorem timers_valid_iff (es : List Event) :
    (∀ pre, pre <+: es → TimersValid (World.initial.run pre).db.toTables) ↔
      Allowed Stores World.initial es := by
  have hrun := throughout_iff (I := fun w => Backed w.db.toTables)
    (fun w e hi => backed_after e hi) (w := World.initial) (fun s hs => by cases hs) es
  simpa only [timersValid_iff] using hrun

def zeroRetryPolicy : UpdateSubscriptionRequest where
  name := "worker"
  updateMask := ["retry_policy"]
  labels := []
  expirationTTL := 0
  messageRetentionDuration := 0
  enableMessageOrdering := false
  minimumBackoff := some 0
  maximumBackoff := none
  pushConfig := none
  filter := ""
  deadLetterPolicy := none

def zeroRun : List Event := [
  Sample.ordersTopic 1 10,
  ⟨.plain 2 20, .createSubscription ⟨"orders", "worker", hour, hour, false, [],
    "http://localhost/push", 0, 0, "", 0, ""⟩, by decide⟩,
  ⟨.plain 3 30, .updateSubscription zeroRetryPolicy, by decide⟩]

/-- The goroutine of the pusher panics. -/
theorem timer_panics :
    startAutoDelay 20 (World.initial.run zeroRun).db.toTables = .error .panic ∧
      ¬∀ w, bus.Reachable w → TimersValid w.db.toTables := by
  have hpanic : startAutoDelay 20 (World.initial.run zeroRun).db.toTables = .error .panic := by
    decide +kernel
  have hrow : ∃ s ∈ (World.initial.run zeroRun).db.subscriptions, s.id = 20 := by decide +kernel
  constructor
  · exact hpanic
  · intro h
    obtain ⟨s, hs, hid⟩ := hrow
    obtain ⟨-, hstart⟩ := h _ (initial_reachable zeroRun) s hs
    rw [hid, hpanic] at hstart
    cases hstart

end Mmmbbb.Tickers
