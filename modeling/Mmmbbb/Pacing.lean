import Mathlib.Algebra.BigOperators.Group.List.Basic
import Mathlib.Algebra.Order.Ring.Int
import Mathlib.Tactic.Ring

/-!
# Jobs that pace themselves

A job takes a limited batch off its backlog in each round. When a round is
over, its ticker is set to a long period if the round failed or found nothing,
to a short one if it found a full batch, and else it is left alone.
-/

set_option autoImplicit false

namespace Pacing

structure Pace where
  interval : ℤ
  backoff : ℤ
  batch : ℕ

/-- When a ticker is due next, and its period. -/
structure Ticker where
  due : ℤ
  period : ℤ

def Ticker.reset (now period : ℤ) : Ticker := ⟨now + period, period⟩

/-- The ticker after a round that is over now, with so many items or with a
failure, when `fuzz` has been drawn. -/
def Pace.next (P : Pace) (fuzz now : ℤ) (k : Ticker) : Option ℕ → Ticker
  | none => .reset now (P.interval + fuzz)
  | some n =>
    if n = 0 then .reset now (P.interval + fuzz)
    else if P.batch ≤ n then .reset now P.backoff
    else ⟨k.due + k.period, k.period⟩

/-- A job: how late a round comes after its tick, how long it takes, what is
drawn for it and what it does. -/
structure Job (σ ρ : Type) where
  late : ρ → ℕ
  took : ρ → ℕ
  time : ρ → ℤ
  fuzz : ρ → ℤ
  perform : ρ → σ → Option ℕ × σ

section
variable {σ ρ : Type} (P : Pace) (J : Job σ ρ)

def Follows : Ticker → σ → List ρ → Prop
  | _, _, [] => True
  | k, s, r :: rs =>
    J.time r = k.due + J.late r ∧
      Follows (P.next (J.fuzz r) (J.time r + J.took r) k (J.perform r s).1) (J.perform r s).2 rs

instance Follows.decidable : ∀ (k : Ticker) (s : σ) (rs : List ρ), Decidable (Follows P J k s rs)
  | _, _, [] => isTrue trivial
  | k, s, r :: rs =>
    have := Follows.decidable (P.next (J.fuzz r) (J.time r + J.took r) k (J.perform r s).1)
      (J.perform r s).2 rs
    inferInstanceAs (Decidable (_ ∧ _))

def Job.run (s : σ) (rs : List ρ) : σ := rs.foldl (fun s r => (J.perform r s).2) s

def Job.Succeeds : σ → List ρ → Prop
  | _, [] => True
  | s, r :: rs => (J.perform r s).1 ≠ none ∧ Job.Succeeds (J.perform r s).2 rs

instance Job.Succeeds.decidable : ∀ (s : σ) (rs : List ρ), Decidable (J.Succeeds s rs)
  | _, [] => isTrue trivial
  | s, r :: rs =>
    have := Job.Succeeds.decidable (J.perform r s).2 rs
    inferInstanceAs (Decidable (_ ∧ _))

/-- A round takes what it counts off the backlog, and one that finds less than
a full batch leaves nothing to be done. -/
structure Job.Clears (size : σ → ℕ) (Done : ℤ → σ → Prop) : Prop where
  less : ∀ r s n, (J.perform r s).1 = some n → size (J.perform r s).2 + n ≤ size s
  done : ∀ r s n, (J.perform r s).1 = some n → n < P.batch → Done (J.time r) (J.perform r s).2

/-- What full rounds take up, each with the short period that comes after it. -/
def spell (rs : List ρ) : ℤ := (rs.map (fun r => (J.late r : ℤ) + J.took r + P.backoff)).sum

end

section
variable {σ ρ : Type} {P : Pace} {J : Job σ ρ} {size : σ → ℕ} {Done : ℤ → σ → Prop}

/-- The job comes to a round that finds less than a full batch and leaves
nothing to be done. Before it there are no more rounds than full batches in the
backlog, and the short period is all that is lost between them. -/
theorem caught_up (h : J.Clears P size Done) (hbatch : 0 < P.batch) {k : Ticker} {s : σ}
    {rs : List ρ} (hfollows : Follows P J k s rs) (hok : J.Succeeds s rs)
    (hlen : size s / P.batch < rs.length) :
    ∃ pre r post n, rs = pre ++ r :: post ∧ pre.length ≤ size s / P.batch ∧
      (J.perform r (J.run s pre)).1 = some n ∧ n < P.batch ∧
      J.time r = k.due + spell P J pre + J.late r ∧
      Done (J.time r) (J.run s (pre ++ [r])) := by
  induction rs generalizing s k with
  | nil => simp at hlen
  | cons r rs ih =>
    obtain ⟨htime, hrest⟩ := hfollows
    obtain ⟨n, hn⟩ := Option.ne_none_iff_exists'.mp hok.1
    by_cases hfull : P.batch ≤ n
    · have hnext : P.next (J.fuzz r) (J.time r + J.took r) k (some n) =
          .reset (J.time r + J.took r) P.backoff := by
        have hne : n ≠ 0 := by omega
        simp [Pace.next, hne, hfull]
      rw [hn, hnext] at hrest
      have hless : size (J.perform r s).2 + P.batch ≤ size s :=
        (Nat.add_le_add_left hfull _).trans (h.less r s n hn)
      have hdiv : size (J.perform r s).2 / P.batch + 1 ≤ size s / P.batch := by
        rw [← Nat.add_div_right _ hbatch]
        exact Nat.div_le_div_right hless
      have hshort : size (J.perform r s).2 / P.batch < rs.length := by
        rw [List.length_cons] at hlen
        omega
      obtain ⟨pre, x, post, m, rfl, hcount, hm, hpart, hat, hdone⟩ := ih hrest hok.2 hshort
      refine ⟨r :: pre, x, post, m, rfl, ?_, hm, hpart, ?_, hdone⟩
      · rw [List.length_cons]
        omega
      · rw [hat, Ticker.reset, htime, spell, spell, List.map_cons, List.sum_cons]
        ring
    · refine ⟨[], r, rs, n, rfl, Nat.zero_le _, hn, not_le.mp hfull, ?_, ?_⟩
      · rw [htime, spell, List.map_nil, List.sum_nil, add_zero]
      · exact h.done r s n hn (not_le.mp hfull)

end

end Pacing
