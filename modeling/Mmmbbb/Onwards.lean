import Mmmbbb.Changes
import Mmmbbb.Portions
import Mathlib.Algebra.Order.Ring.Rat
import Mathlib.Tactic.NormNum

/-!
# Attempts only move later

Without nacks and seeks no step moves the next attempt of a delivery to an
earlier time, or reopens a completed one. A get hands out what is due, and
moves it by a delay that is not negative.
-/

set_option autoImplicit false

namespace Mmmbbb.Onwards
open KeyedRows Programs Mmmbbb.Schema Mmmbbb.Database Mmmbbb.Delivering Mmmbbb.Consuming
open Mmmbbb.Runs Mmmbbb.Writes Mmmbbb.Alterations Mmmbbb.Changes
open Mmmbbb.Portions (Loaded Marked Fetched applyResults_marked queryAndLockDeliveriesOnce_loaded)

def Onward (a b : DB) : Prop :=
  ∀ r ∈ b.deliveries, r.completedAt = none → ¬Has Delivery.id r.id a.deliveries ∨
    ∃ d ∈ a.deliveries, d.id = r.id ∧ d.completedAt = none ∧ d.attemptAt ≤ r.attemptAt

theorem Onward.trans {a b c : DB} (h : Onward a b)
    (hkeep : ∀ k, Has Delivery.id k a.deliveries → Has Delivery.id k b.deliveries)
    (h' : Onward b c) : Onward a c := by
  intro r hr hopen
  cases h' r hr hopen with
  | inl hnew => exact Or.inl (fun hhas => hnew (hkeep _ hhas))
  | inr hold =>
    obtain ⟨d, hd, hid, hdopen, hle⟩ := hold
    cases h d hd hdopen with
    | inl hnew => exact Or.inl (hid ▸ hnew)
    | inr hbefore =>
      obtain ⟨x, hx, hxid, hxopen, hxle⟩ := hbefore
      exact Or.inr ⟨x, hx, hxid.trans hid, hxopen, hxle.trans hle⟩

theorem onward_subset {a b : DB} (h : ∀ r ∈ b.deliveries, r ∈ a.deliveries) : Onward a b := by
  intro r hr hopen
  exact Or.inr ⟨r, h r hr, rfl, hopen, le_refl _⟩

theorem onward_same {a b : DB} (h : b.deliveries = a.deliveries) : Onward a b :=
  onward_subset (fun _ hr => h ▸ hr)

theorem onward_append {a b : DB} {r : Delivery} (hnew : ¬Has Delivery.id r.id a.deliveries)
    (h : b.deliveries = a.deliveries ++ [r]) : Onward a b := by
  intro x hx hopen
  rw [h, List.mem_append, List.mem_singleton] at hx
  cases hx with
  | inl hx => exact Or.inr ⟨x, hx, rfl, hopen, le_refl _⟩
  | inr hx => exact Or.inl (hx ▸ hnew)

theorem onward_update {a b : DB} {p : Delivery → Bool} {u : DeliveryUpdate}
    (h : b.deliveries = a.deliveries.map (setWhere p u.apply))
    (hu : ∀ d ∈ a.deliveries, p d = true → (u.apply d).completedAt = none →
      d.completedAt = none ∧ d.attemptAt ≤ (u.apply d).attemptAt) : Onward a b := by
  intro r hr hopen
  rw [h] at hr
  obtain ⟨d, hd, rfl⟩ := List.mem_map.mp hr
  refine Or.inr ⟨d, hd, (setWhere_id p d).symm, ?_⟩
  rw [setWhere] at hopen ⊢
  split at hopen
  · rename_i hp
    rw [if_pos hp]
    exact hu d hd hp hopen
  · rename_i hp
    rw [if_neg hp]
    exact ⟨hopen, le_refl _⟩

theorem onward_complete {a b : DB} {p : Delivery → Bool} {t : Time}
    (h : b.deliveries = a.deliveries.map
      (setWhere p (DeliveryUpdate.apply { completedAt := some (some t) }))) : Onward a b := by
  refine onward_update h (fun d _ _ hopen => ?_)
  cases hopen

theorem onward_delay {env : Env} {p : DelayDeliveriesParams} {t : Tx} (h : 0 < p.delay) :
    Onward t.db (delayDeliveries env p t).2.db := by
  refine onward_update rfl (fun d _ hp hopen => ?_)
  simp only [delayPredicates, Bool.and_eq_true, Bool.or_eq_true, decide_eq_true_eq,
    Option.isNone_iff_eq_none] at hp
  have hlt := hp.2.resolve_left (not_le.mpr h)
  exact ⟨hp.1.2, hlt.le⟩

def Gentle : Action → Prop
  | .nack _ | .seekToTime _ | .seekToSnapshot _ => False
  | .delay p => 0 < p.delay
  | _ => True

instance (a : Action) : Decidable (Gentle a) := by
  induction a using Runs.Action.casesOn <;> unfold Gentle <;> infer_instance

theorem write_onward {e : Event} {start w w' : World} (he : Gentle e.action)
    (hget : ∀ p, e.action ≠ .get p) (h : Write e start w w') : Onward w.db w'.db := by
  cases h with
  | refresh hdb => exact onward_same (by simp [World.set, DB.updateSubscriptions_ok hdb])
  | message hdb => exact onward_same (by simp [World.set, (DB.insertMessage_ok hdb).2])
  | deliver hs hlive hm hc hdb _ =>
    obtain ⟨⟨_, _, _, _, _, _, _, hnew, _⟩, hrows⟩ := deliver_added hs hlive hm hc hdb
    exact onward_append hnew hrows
  | deadLetter => exact onward_complete rfl
  | ack => exact onward_complete rfl
  | attempt ha => exact absurd ha (hget _)
  | @delay p ha =>
    rw [ha] at he
    have hpos : 0 < p.delay := he
    exact onward_delay (t := Tx.begin w.db) hpos
  | reschedule ha => exact absurd he (by rw [ha]; exact id)
  | seekTimeAcks ha => exact absurd he (by rw [ha]; exact id)
  | seekTimeDeAcks ha => exact absurd he (by rw [ha]; exact id)
  | seekSnapshotAcks ha => exact absurd he (by rw [ha]; exact id)
  | seekSnapshotDeAcks ha => exact absurd he (by rw [ha]; exact id)

theorem persists_has {a b : World} (h : Persists a b) {k : UUID}
    (hk : Has Delivery.id k a.db.deliveries) : Has Delivery.id k b.db.deliveries := by
  obtain ⟨x, hx, rfl⟩ := hk
  obtain ⟨y, hy, hsame⟩ := h x hx
  exact ⟨y, hy, hsame.id⟩

theorem transaction_onward {e : Event} {start w w' : World} (he : Gentle e.action)
    (hget : ∀ p, e.action ≠ .get p) (h : Transaction e start w w') : Onward w.db w'.db := by
  induction h with
  | refl => exact onward_same rfl
  | tail hrest hw ih =>
    exact ih.trans (fun _ => persists_has (transaction_persists hrest)) (write_onward he hget hw)

section
variable {sub : Subscription}

theorem positiveOr_pos {c : Duration} (h : 0 < c) (d : Option Duration) :
    0 < positiveOr c d := by
  unfold positiveOr
  split
  · split
    · assumption
    · exact h
  · exact h

theorem nominal_le_fuzzed (sub : Subscription) (n : ℕ) :
    (nextDelayFor sub n).1 ≤ (nextDelayFor sub n).2 := by
  rw [nextDelayFor]
  exact le_add_of_nonneg_right (Int.natCast_nonneg _)

theorem le_nominal {c : Duration} (n : ℕ) (hmin : c ≤ positiveOr defaultMinDelay sub.minBackoff)
    (hmax : c ≤ positiveOr defaultMaxDelay sub.maxBackoff) : c ≤ (nextDelayFor sub n).1 := by
  have hpos := positiveOr_pos (c := defaultMinDelay) (by decide) sub.minBackoff
  have hfactor : (1 : ℚ) ≤ retryBackoffFactor ^ n := one_le_pow₀ (by norm_num [retryBackoffFactor])
  rw [nextDelayFor]
  apply Rat.le_floor_iff.mpr
  apply le_min
  · have hcast : (c : ℚ) ≤ (positiveOr defaultMinDelay sub.minBackoff : ℚ) := by exact_mod_cast hmin
    have hnonneg : (0 : ℚ) ≤ (positiveOr defaultMinDelay sub.minBackoff : ℚ) := by
      exact_mod_cast hpos.le
    exact hcast.trans (le_mul_of_one_le_left hnonneg hfactor)
  · exact_mod_cast hmax

theorem nominal_nonneg (sub : Subscription) (n : ℕ) : 0 ≤ (nextDelayFor sub n).1 := by
  have hmin := positiveOr_pos (c := defaultMinDelay) (by decide) sub.minBackoff
  have hmax := positiveOr_pos (c := defaultMaxDelay) (by decide) sub.maxBackoff
  exact le_nominal n hmin.le hmax.le

theorem marked_row {env : Env} {sub : Subscription} {given : List Fetched}
    {retired : List (Fetched × UUID)} {a b : DB} (h : Marked env sub given retired a b)
    {x : Fetched} (hx : x ∈ given) {r : Delivery} (hr : r ∈ b.deliveries) (hid : r.id = x.1.id) :
    r.completedAt = x.1.completedAt ∧
      r.attemptAt = env.now + (nextDelayFor sub (x.1.attempts + 1)).2 := by
  have hrow := b.sound.delivery_pk.eq hr (h.attempted x hx) (by simpa using hid)
  rw [hrow]
  constructor
  · rfl
  · exact add_add_sub_cancel _ _ _

theorem marked_onward {env : Env} {sub : Subscription} {given : List Fetched}
    {retired : List (Fetched × UUID)} {a b : DB} (h : Marked env sub given retired a b)
    (hgiven : ∀ x ∈ given, x.1 ∈ a.deliveries ∧ x.1.completedAt = none ∧ x.1.attemptAt ≤ env.now) :
    Onward a b := by
  intro r hr hopen
  by_cases hhas : Has Delivery.id r.id a.deliveries
  · right
    obtain ⟨d, hd, hid⟩ := hhas
    by_cases hg : r.id ∈ given.map (fun x => x.1.id)
    · obtain ⟨x, hx, hxid⟩ := List.mem_map.mp hg
      obtain ⟨hmem, hxopen, hdue⟩ := hgiven x hx
      obtain ⟨-, hattempt⟩ := marked_row h hx hr hxid.symm
      have hnominal := nominal_nonneg sub (x.1.attempts + 1)
      have hfuzzed := nominal_le_fuzzed sub (x.1.attempts + 1)
      refine ⟨x.1, hmem, hxid, hxopen, ?_⟩
      rw [hattempt]
      exact hdue.trans (le_add_of_nonneg_right (hnominal.trans hfuzzed))
    · by_cases ht : r.id ∈ Portions.fetchedIDs retired
      · obtain ⟨x, hx, hxid⟩ := List.mem_map.mp ht
        have hrow := b.sound.delivery_pk.eq hr (h.completed x hx) (by simpa using hxid.symm)
        rw [hrow] at hopen
        cases hopen
      · have hsame := h.kept d hd (hid ▸ hg) (hid ▸ ht)
        have hrow := b.sound.delivery_pk.eq hr hsame hid.symm
        exact ⟨d, hd, hid, hrow ▸ hopen, (congrArg Delivery.attemptAt hrow).ge⟩
  · exact Or.inl hhas

theorem fetched_due {env : Env} {t : Tables} {p : GetSubscriptionMessagesParams} {x : Fetched}
    (h : x ∈ queryAndLockDeliveriesOnce env t sub p) :
    x.1 ∈ t.deliveries ∧ x.1.completedAt = none ∧ x.1.attemptAt ≤ env.now := by
  obtain ⟨hmem, hquery, -, -⟩ := queryAndLockDeliveriesOnce_mem h
  simp only [buildDeliveryQuery, Bool.and_eq_true, decide_eq_true_eq, Option.isNone_iff_eq_none]
    at hquery
  exact ⟨hmem, hquery.1.1.2, hquery.1.1.1.2⟩

/-- The next attempt of what is handed out is a nominal delay away, and in the
database no earlier than that. -/
def HandedOut (now : Time) (sub : Subscription) (b : DB) (x : SubscriptionMessageDelivery) : Prop :=
  ∃ n, x.nextAttemptAt = now + (nextDelayFor sub n).1 ∧
    ∀ r ∈ b.deliveries, r.id = x.id → x.nextAttemptAt ≤ r.attemptAt

theorem applyResults_onward {env : Env} {p : GetSubscriptionMessagesParams} {tx tx' : Tx}
    {fetched : List Fetched} {res : GetSubscriptionMessagesResults}
    (hloaded : Loaded tx.db fetched)
    (hdue : ∀ x ∈ fetched, x.1.completedAt = none ∧ x.1.attemptAt ≤ env.now)
    (h : applyResults env p sub fetched tx = .ok (res, tx')) :
    Onward tx.db tx'.db ∧ ∀ x ∈ res.deliveries, HandedOut env.now sub tx'.db x := by
  obtain ⟨hmarked, -⟩ := applyResults_marked hloaded h
  have hgiven := Budgets.portion_taken_sublist (Portions.pullPass p sub) 0 0 fetched
  constructor
  · apply marked_onward hmarked
    intro x hx
    have hx := hgiven.subset hx
    exact ⟨hloaded.rows x hx, hdue x hx⟩
  · intro x hx
    rw [Portions.applyResults_deliveries h] at hx
    obtain ⟨y, hy, rfl⟩ := List.mem_map.mp hx
    refine ⟨y.1.attempts + 1, rfl, fun r hr hid => ?_⟩
    obtain ⟨-, hattempt⟩ := marked_row hmarked hy hr hid
    have hfuzzed := nominal_le_fuzzed sub (y.1.attempts + 1)
    rw [hattempt]
    exact add_le_add_right hfuzzed env.now

theorem get_onward {env : Env} {p : GetSubscriptionMessagesParams} {tx tx' : Tx}
    {res : GetSubscriptionMessagesResults}
    (h : getSubscriptionMessages env p tx = .ok (res, tx')) : Onward tx.db tx'.db ∧
      ∃ sub, verifySub p tx.db.toTables = .ok sub ∧
        ∀ x ∈ res.deliveries, HandedOut env.now sub tx'.db x := by
  obtain ⟨sub, hsub, h⟩ := bind_ok.mp h
  have hloaded := queryAndLockDeliveriesOnce_loaded env tx.db sub p
  obtain ⟨honward, hgiven⟩ := applyResults_onward hloaded (fun x hx => (fetched_due hx).2) h
  exact ⟨honward, sub, hsub, hgiven⟩

end

theorem alteration_onward {a b : DB} {env : Env} {act : Action} {t : Tables}
    (h : Alteration env a.toTables act t) (ht : b.toTables = t) : Onward a b := by
  cases alteration_quiet h ht with
  | inl hquiet => exact onward_same hquiet.deliveries
  | inr hpruned =>
    obtain ⟨q, -, hdb⟩ := hpruned
    intro r hr hopen
    rw [hdb] at hr
    obtain ⟨d, hd, -, rfl⟩ := mem_deliveriesWithout.mp hr
    exact Or.inr ⟨d, hd, rfl, hopen, le_refl _⟩

theorem exec_onward {e : Event} {given : List SubscriptionMessageDelivery} {db : DB} {tx : Tx}
    (he : Gentle e.action) (h : exec e.env e.action (Tx.begin db) = .ok (given, tx)) :
    Onward db tx.db := by
  have hafter := after_ok (w := ⟨db, 0, []⟩) h
  by_cases hget : ∃ p, e.action = .get p
  · obtain ⟨p, hp⟩ := hget
    rw [hp] at h
    obtain ⟨⟨res, tx'⟩, hres, heq⟩ := map_ok.mp h
    obtain ⟨-, rfl⟩ := Prod.mk.inj heq
    exact (get_onward hres).1
  · have hnot : ∀ p, e.action ≠ .get p := fun p hp => hget ⟨p, hp⟩
    rw [← hafter]
    by_cases ha : OnDeliveries e.action
    · exact transaction_onward he hnot (transaction_of_action ⟨db, 0, []⟩ ha)
    · exact alteration_onward (alteration_after ⟨db, 0, []⟩ e ha) rfl

end Mmmbbb.Onwards
