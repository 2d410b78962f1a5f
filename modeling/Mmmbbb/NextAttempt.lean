import Mmmbbb.Runs

/-!
# How long a get sleeps

A get that has found nothing sleeps until something may have become due. Both
lookups for that time read the same row: the unblocked one with the earliest
attempt time. A delivery that waits for its predecessor is not looked at.
-/

set_option autoImplicit false

namespace Mmmbbb.NextAttempt
open KeyedRows Programs Mmmbbb.Schema Mmmbbb.Database Mmmbbb.Delivering Mmmbbb.Consuming
open Mmmbbb.Runs

/-- The row that `First` returns of the outstanding deliveries, by attempt
time. -/
def firstByAttempt (env : Env) (t : Tables) (sub : Subscription) : Option Delivery :=
  (orderBy Delivery.attemptAt (env.deliveries.run (t.deliveries.filter
    (buildDeliveryQuery env.now t sub (fun _ => true))))).head?

def nextAttempt (env env' : Env) (t : Tables) (sub : Subscription) : Option Time := do
  let nextAttempt ← firstByAttempt env t sub
  let nextExpires ← firstByAttempt env' t sub
  let next := nextAttempt.attemptAt
  pure (if nextExpires.expiresAt < next then nextExpires.expiresAt else next)

def due (now : Time) (t : Tables) (sub : Subscription) : List Delivery :=
  t.deliveries.filter (buildDeliveryQuery now t sub (fun d => decide (d.attemptAt ≤ now)))

structure Front (now : Time) (t : Tables) (sub : Subscription) (r : Delivery) : Prop where
  row : r ∈ t.deliveries
  matched : buildDeliveryQuery now t sub (fun _ => true) r = true
  first : ∀ x ∈ t.deliveries, buildDeliveryQuery now t sub (fun _ => true) x = true →
    r.attemptAt ≤ x.attemptAt

section
variable {env env' : Env} {t : Tables} {sub : Subscription} {r : Delivery} {now : Time}

theorem firstByAttempt_front (h : firstByAttempt env t sub = some r) :
    Front env.now t sub r := by
  obtain ⟨hr, hfirst⟩ := orderBy_head h
  simp only [ScanOrder.mem_run, List.mem_filter] at hr hfirst
  exact ⟨hr.1, hr.2, fun x hx hq => hfirst x ⟨hx, hq⟩⟩

theorem firstByAttempt_none (h : firstByAttempt env t sub = none) {x : Delivery}
    (hx : x ∈ t.deliveries) : buildDeliveryQuery env.now t sub (fun _ => true) x = false := by
  have hperm := env.deliveries.perm
    (t.deliveries.filter (buildDeliveryQuery env.now t sub (fun _ => true)))
  rw [orderBy_head_none h] at hperm
  simpa using List.filter_eq_nil_iff.mp (List.nil_perm.mp hperm) x hx

end

def scanFrom (r : Delivery) : ScanOrder Delivery where
  run rows := if r ∈ rows then r :: rows.erase r else rows
  perm rows := by
    by_cases h : r ∈ rows
    · rw [if_pos h]
      exact (List.perm_cons_erase h).symm
    · rw [if_neg h]

def scanning (now : Time) (r : Delivery) : Env :=
  { Env.plain now 0 with deliveries := scanFrom r }

section
variable {env env' : Env} {t : Tables} {sub : Subscription} {r : Delivery} {now : Time}

theorem orderBy_cons {rows : List Delivery} (h : ∀ x ∈ rows, r.attemptAt ≤ x.attemptAt) :
    (orderBy Delivery.attemptAt (r :: rows)).head? = some r := by
  unfold orderBy
  rw [List.insertionSort_cons]
  cases hs : rows.insertionSort (fun a b => a.attemptAt ≤ b.attemptAt) with
  | nil => rfl
  | cons x xs =>
    have hx : x ∈ rows := by
      rw [← List.mem_insertionSort (fun a b : Delivery => a.attemptAt ≤ b.attemptAt), hs]
      exact List.mem_cons_self
    rw [List.orderedInsert, if_pos (h x hx)]
    rfl

theorem firstByAttempt_scanning (h : Front now t sub r) :
    firstByAttempt (scanning now r) t sub = some r := by
  have hr : r ∈ t.deliveries.filter (buildDeliveryQuery now t sub (fun _ => true)) :=
    List.mem_filter.mpr ⟨h.row, h.matched⟩
  show (orderBy Delivery.attemptAt ((scanFrom r).run (t.deliveries.filter
    (buildDeliveryQuery now t sub (fun _ => true))))).head? = some r
  rw [show (scanFrom r).run _ = _ from if_pos hr]
  refine orderBy_cons fun x hx => ?_
  obtain ⟨hx, hq⟩ := List.mem_filter.mp (List.mem_of_mem_erase hx)
  exact h.first x hx hq

/-- The time that is found is the earlier of the attempt and the expiry of one
row that may come first. -/
theorem nextAttempt_some {next : Time} (hnow : env.now = now) (hnow' : env'.now = now)
    (h : nextAttempt env env' t sub = some next) :
    ∃ r, Front now t sub r ∧ next = min r.attemptAt r.expiresAt := by
  unfold nextAttempt at h
  cases hr : firstByAttempt env t sub with
  | none => rw [hr] at h; cases h
  | some r =>
    cases hr' : firstByAttempt env' t sub with
    | none => rw [hr, hr'] at h; cases h
    | some r' =>
      rw [hr, hr'] at h
      have hfirst := firstByAttempt_front hr
      have hsecond := firstByAttempt_front hr'
      rw [hnow] at hfirst
      rw [hnow'] at hsecond
      have heq : r.attemptAt = r'.attemptAt := le_antisymm
        (hfirst.first r' hsecond.row hsecond.matched) (hsecond.first r hfirst.row hfirst.matched)
      have hnext : (if r'.expiresAt < r.attemptAt then r'.expiresAt else r.attemptAt) = next :=
        Option.some.inj h
      refine ⟨r', hsecond, ?_⟩
      rw [← hnext, heq]
      split
      · exact (min_eq_right (le_of_lt ‹_›)).symm
      · exact (min_eq_left (not_lt.mp ‹_›)).symm

theorem nextAttempt_none (hnow : env.now = now) (hnow' : env'.now = now)
    (h : nextAttempt env env' t sub = none) {x : Delivery} (hx : x ∈ t.deliveries) :
    buildDeliveryQuery now t sub (fun _ => true) x = false := by
  unfold nextAttempt at h
  cases hr : firstByAttempt env t sub with
  | none => exact hnow ▸ firstByAttempt_none hr hx
  | some r =>
    cases hr' : firstByAttempt env' t sub with
    | none => exact hnow' ▸ firstByAttempt_none hr' hx
    | some r' => rw [hr, hr'] at h; cases h

theorem nextAttempt_scanning (h : Front now t sub r) :
    nextAttempt (scanning now r) (scanning now r) t sub = some (min r.attemptAt r.expiresAt) := by
  have hfirst := firstByAttempt_scanning h
  unfold nextAttempt
  rw [hfirst]
  show some (if r.expiresAt < r.attemptAt then r.expiresAt else r.attemptAt) = _
  congr 1
  split
  · exact (min_eq_right (le_of_lt ‹_›)).symm
  · exact (min_eq_left (not_lt.mp ‹_›)).symm

end

/-- Whatever rows come first, nothing is due as long as the get sleeps. -/
def NeverLate (now : Time) (t : Tables) (sub : Subscription) : Prop :=
  ∀ env env' : Env, env.now = now → env'.now = now → ∀ time, now ≤ time →
    (∀ next ∈ nextAttempt env env' t sub, time < next) → due time t sub = []

structure WaitsFor (now : Time) (t : Tables) (sub : Subscription) (d b : Delivery) : Prop where
  row : d ∈ t.deliveries
  predecessor : b ∈ t.deliveries
  link : d.notBeforeID = some b.id
  subscription : d.subscriptionID = sub.id
  outstanding : d.completedAt = none
  pending : b.completedAt = none
  unexpired : now < b.expiresAt

def release (d b : Delivery) : Time := max b.expiresAt d.attemptAt

/-- Each delivery that is released by an expiry is released no earlier than the
attempt, or the expiry, of the unblocked delivery that is attempted next. -/
def Covered (now : Time) (t : Tables) (sub : Subscription) : Prop :=
  sub.orderedDelivery = true → ∀ d b, WaitsFor now t sub d b → release d b < d.expiresAt →
    (∃ r, Front now t sub r) ∧
      ∀ r, Front now t sub r → min r.attemptAt r.expiresAt ≤ release d b

section
variable {db : DB} {sub : Subscription} {now time : Time} {d b : Delivery}

theorem due_mem {t : Tables} : d ∈ due time t sub ↔ d ∈ t.deliveries ∧
    (sub.orderedDelivery = true → orderingCondition time t d = true) ∧ d.attemptAt ≤ time ∧
      d.completedAt = none ∧ time < d.expiresAt ∧ d.subscriptionID = sub.id := by
  unfold due buildDeliveryQuery
  cases sub.orderedDelivery <;> simp [and_assoc]

theorem candidate_iff {t : Tables} : buildDeliveryQuery now t sub (fun _ => true) d = true ↔
    (sub.orderedDelivery = true → orderingCondition now t d = true) ∧
      d.completedAt = none ∧ now < d.expiresAt ∧ d.subscriptionID = sub.id := by
  unfold buildDeliveryQuery
  cases sub.orderedDelivery <;> simp [and_assoc]

theorem unblocked_later {t : Tables} (hnow : orderingCondition now t d ≠ true)
    (hlater : orderingCondition time t d = true) : ∃ b ∈ t.deliveries,
      d.notBeforeID = some b.id ∧ b.completedAt = none ∧ now < b.expiresAt ∧
        b.expiresAt ≤ time := by
  cases hk : d.notBeforeID with
  | none =>
    unfold orderingCondition at hnow
    simp [hk] at hnow
  | some k =>
    cases hb : fetch Delivery.id k t.deliveries with
    | none =>
      unfold orderingCondition at hlater
      simp [hk, hb] at hlater
    | some b =>
      unfold orderingCondition at hnow hlater
      simp only [hk, hb, Bool.or_eq_true, decide_eq_true_eq, Bool.not_eq_true,
        Bool.or_eq_false_iff, Option.isSome_eq_false_iff, Option.isNone_iff_eq_none,
        decide_eq_false_iff_not, not_le] at hnow hlater
      obtain ⟨hmem, hid⟩ := fetch_mem hb
      refine ⟨b, hmem, by rw [hid], hnow.1, hnow.2, ?_⟩
      rcases hlater with hc | hexp
      · rw [hnow.1] at hc
        cases hc
      · exact hexp

theorem WaitsFor.unblocked (h : WaitsFor now db.toTables sub d b) (htime : b.expiresAt ≤ time) :
    orderingCondition time db.toTables d = true := by
  have hfetch := fetch_of_mem db.sound.delivery_pk h.predecessor
  unfold orderingCondition
  simp [h.link, hfetch, htime]

theorem covered_sleeps (h : Covered now db.toTables sub) : NeverLate now db.toTables sub := by
  intro env env' hnow hnow' time hle hsleep
  rw [List.eq_nil_iff_forall_not_mem]
  intro d hd
  obtain ⟨hrow, hord, hattempt, hc, hexp, hsub⟩ := due_mem.mp hd
  by_cases hcand : buildDeliveryQuery now db.toTables sub (fun _ => true) d = true
  · cases hnext : nextAttempt env env' db.toTables sub with
    | none =>
      rw [nextAttempt_none hnow hnow' hnext hrow] at hcand
      cases hcand
    | some next =>
      obtain ⟨r, hr, rfl⟩ := nextAttempt_some hnow hnow' hnext
      have hlt := (lt_min_iff.mp (hsleep _ hnext)).1
      exact absurd (hr.first d hrow hcand) (not_le.mpr (hattempt.trans_lt hlt))
  · have hblocked : sub.orderedDelivery = true ∧ orderingCondition now db.toTables d ≠ true := by
      by_contra hfree
      refine hcand (candidate_iff.mpr ⟨fun ho => ?_, hc, hle.trans_lt hexp, hsub⟩)
      by_contra hn
      exact hfree ⟨ho, hn⟩
    obtain ⟨ho, hn⟩ := hblocked
    obtain ⟨b, hb, hlink, hpending, hunexpired, hbexp⟩ := unblocked_later hn (hord ho)
    have hwaits : WaitsFor now db.toTables sub d b :=
      ⟨hrow, hb, hlink, hsub, hc, hpending, hunexpired⟩
    have hrelease : release d b ≤ time := max_le hbexp hattempt
    obtain ⟨⟨r, hr⟩, hall⟩ := h ho d b hwaits (hrelease.trans_lt hexp)
    cases hnext : nextAttempt env env' db.toTables sub with
    | none =>
      have hmatched := hr.matched
      rw [nextAttempt_none hnow hnow' hnext hr.row] at hmatched
      cases hmatched
    | some next =>
      obtain ⟨r', hr', rfl⟩ := nextAttempt_some hnow hnow' hnext
      have hlt := hsleep _ hnext
      exact absurd ((hall r' hr').trans hrelease) (not_le.mpr hlt)

theorem sleeps_covered (h : NeverLate now db.toTables sub) : Covered now db.toTables sub := by
  intro ho d b hwaits hrelease
  have hexp : b.expiresAt ≤ release d b := le_max_left _ _
  have hattempt : d.attemptAt ≤ release d b := le_max_right _ _
  have hnow : now ≤ release d b := hwaits.unexpired.le.trans hexp
  have hdue : d ∈ due (release d b) db.toTables sub :=
    due_mem.mpr ⟨hwaits.row, fun _ => hwaits.unblocked hexp, hattempt, hwaits.outstanding, hrelease,
      hwaits.subscription⟩
  have hwakes : ∀ env env' : Env, env.now = now → env'.now = now →
      ∃ next, nextAttempt env env' db.toTables sub = some next ∧ next ≤ release d b := by
    intro env env' he he'
    by_contra hnone
    have hempty := h env env' he he' (release d b) hnow fun next hnext => by
      by_contra hlt
      exact hnone ⟨next, hnext, not_lt.mp hlt⟩
    rw [hempty] at hdue
    cases hdue
  constructor
  · obtain ⟨next, hnext, -⟩ := hwakes (.plain now 0) (.plain now 0) rfl rfl
    obtain ⟨r, hr, -⟩ := nextAttempt_some rfl rfl hnext
    exact ⟨r, hr⟩
  · intro r hr
    obtain ⟨next, hnext, hle⟩ := hwakes (scanning now r) (scanning now r) rfl rfl
    rw [nextAttempt_scanning hr] at hnext
    obtain rfl := Option.some.inj hnext
    exact hle

/-- A get never sleeps too long if and only if the row that is attempted next
covers what is released by an expiry. -/
theorem neverLate_iff (now : Time) (db : DB) (sub : Subscription) :
    NeverLate now db.toTables sub ↔ Covered now db.toTables sub :=
  ⟨sleeps_covered, covered_sleeps⟩

end

def putOff : List Event := [
  Sample.ordersTopic 1 10,
  ⟨.plain 2 20, .createSubscription ⟨"orders", "worker", hour, hour, true, [], "", 0, 0, "", 0,
    ""⟩, by decide⟩,
  Sample.publish "1" "key" 3 30,
  Sample.publish "2" "key" 4 40,
  Sample.publish "3" "" 5 50,
  ⟨.plain 6 60, .delay ⟨[31], 3 * hour⟩, by decide⟩,
  ⟨.plain 6 70, .delay ⟨[51], 2 * hour⟩, by decide⟩]

/-- The second delivery is due when the first one expires, which is before the
get wakes. -/
theorem sleeps_late : ¬ ∀ w, bus.Reachable w → ∀ sub ∈ w.db.subscriptions, ∀ now,
    due now w.db.toTables sub = [] → NeverLate now w.db.toTables sub := by
  intro h
  have hrun : ∀ sub ∈ (World.initial.run putOff).db.subscriptions,
      due 7 (World.initial.run putOff).db.toTables sub = [] ∧
      (∀ next ∈ nextAttempt (.plain 7 80) (.plain 7 80) (World.initial.run putOff).db.toTables sub,
        3 + hour < next) ∧
      due (3 + hour) (World.initial.run putOff).db.toTables sub ≠ [] := by
    decide +kernel
  have hsub : (World.initial.run putOff).db.subscriptions ≠ [] := by decide +kernel
  obtain ⟨sub, hmem⟩ := List.exists_mem_of_ne_nil _ hsub
  obtain ⟨hnone, hsleeps, hdue⟩ := hrun sub hmem
  have hnever := h _ (initial_reachable putOff) sub hmem 7 hnone
  exact hdue (hnever (.plain 7 80) (.plain 7 80) rfl rfl (3 + hour) (by decide) hsleeps)

end Mmmbbb.NextAttempt
