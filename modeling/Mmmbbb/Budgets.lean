import Mathlib.Algebra.BigOperators.Group.List.Basic
import Mathlib.Algebra.Order.Ring.Int
import Mathlib.Tactic.Linarith

/-!
# One pass over a list under a budget

Each item in turn is left alone because it does not fit, set aside, or taken.
Unless the pass is strict, the item in the first place is let past the budget.
-/

set_option autoImplicit false

namespace Budgets

variable {α τ : Type}

/-- What a pass goes by: the size of an item, what it is set aside for if it
is, and the limits on the sizes and on the number of what is taken. -/
structure Pass (α τ : Type) where
  size : α → ℤ
  aside : α → Option τ
  limit : ℤ
  most : ℤ
  strict : Bool

structure Portion (α τ : Type) where
  taken : List α
  aside : List (α × τ)

def Pass.total (P : Pass α τ) (xs : List α) : ℤ := (xs.map P.size).sum

@[simp] theorem Pass.total_nil (P : Pass α τ) : P.total [] = 0 := rfl

@[simp] theorem Pass.total_cons (P : Pass α τ) (x : α) (xs : List α) :
    P.total (x :: xs) = P.size x + P.total xs := by simp [Pass.total]

def Pass.Over (P : Pass α τ) (i : ℕ) (used : ℤ) (x : α) : Prop :=
  (P.strict = true ∨ 0 < i) ∧ P.limit < used + P.size x

instance (P : Pass α τ) (i : ℕ) (used : ℤ) (x : α) : Decidable (P.Over i used x) :=
  inferInstanceAs (Decidable (_ ∧ _))

def Pass.portion (P : Pass α τ) : ℕ → ℤ → List α → Portion α τ
  | _, _, [] => ⟨[], []⟩
  | i, used, x :: rest =>
    if P.Over i used x then P.portion (i + 1) used rest
    else
      match P.aside x with
      | some t =>
        let later := P.portion (i + 1) used rest
        ⟨later.taken, (x, t) :: later.aside⟩
      | none =>
        if P.most ≤ (i : ℤ) + 1 then ⟨[x], []⟩
        else
          let later := P.portion (i + 1) (used + P.size x) rest
          ⟨x :: later.taken, later.aside⟩

section
variable (P : Pass α τ) (i : ℕ) (used : ℤ) (xs : List α)

theorem portion_nil : P.portion i used [] = ⟨[], []⟩ := rfl

section
variable {P} {i} {used} {x : α} {rest : List α}

theorem portion_over (h : P.Over i used x) :
    P.portion i used (x :: rest) = P.portion (i + 1) used rest := if_pos h

theorem portion_fits (h : ¬ P.Over i used x) : P.portion i used (x :: rest) =
    match P.aside x with
    | some t =>
      ⟨(P.portion (i + 1) used rest).taken, (x, t) :: (P.portion (i + 1) used rest).aside⟩
    | none =>
      if P.most ≤ (i : ℤ) + 1 then ⟨[x], []⟩
      else ⟨x :: (P.portion (i + 1) (used + P.size x) rest).taken,
        (P.portion (i + 1) (used + P.size x) rest).aside⟩ := if_neg h

theorem portion_set_aside {t : τ} (h : ¬ P.Over i used x) (ht : P.aside x = some t) :
    P.portion i used (x :: rest) =
      ⟨(P.portion (i + 1) used rest).taken, (x, t) :: (P.portion (i + 1) used rest).aside⟩ := by
  rw [portion_fits h, ht]

theorem portion_last (h : ¬ P.Over i used x) (hnone : P.aside x = none)
    (hmost : P.most ≤ (i : ℤ) + 1) : P.portion i used (x :: rest) = ⟨[x], []⟩ := by
  rw [portion_fits h, hnone]
  exact if_pos hmost

theorem portion_take (h : ¬ P.Over i used x) (hnone : P.aside x = none)
    (hmost : ¬ P.most ≤ (i : ℤ) + 1) : P.portion i used (x :: rest) =
      ⟨x :: (P.portion (i + 1) (used + P.size x) rest).taken,
        (P.portion (i + 1) (used + P.size x) rest).aside⟩ := by
  rw [portion_fits h, hnone]
  exact if_neg hmost

theorem fits_of_not_over (hi : P.strict = true ∨ 0 < i) (h : ¬ P.Over i used x) :
    used + P.size x ≤ P.limit := by
  by_contra hlt
  exact h ⟨hi, by omega⟩

end

theorem portion_cases (x : α) (rest : List α) :
    (P.Over i used x ∧ P.portion i used (x :: rest) = P.portion (i + 1) used rest) ∨
    (¬ P.Over i used x ∧ ∃ t, P.aside x = some t ∧ P.portion i used (x :: rest) =
      ⟨(P.portion (i + 1) used rest).taken, (x, t) :: (P.portion (i + 1) used rest).aside⟩) ∨
    (¬ P.Over i used x ∧ P.aside x = none ∧ P.most ≤ (i : ℤ) + 1 ∧
      P.portion i used (x :: rest) = ⟨[x], []⟩) ∨
    (¬ P.Over i used x ∧ P.aside x = none ∧ ¬ P.most ≤ (i : ℤ) + 1 ∧
      P.portion i used (x :: rest) = ⟨x :: (P.portion (i + 1) (used + P.size x) rest).taken,
        (P.portion (i + 1) (used + P.size x) rest).aside⟩) := by
  by_cases hover : P.Over i used x
  · exact Or.inl ⟨hover, portion_over hover⟩
  right
  cases haside : P.aside x with
  | some t => exact Or.inl ⟨hover, t, rfl, portion_set_aside hover haside⟩
  | none =>
    right
    by_cases hmost : P.most ≤ (i : ℤ) + 1
    · exact Or.inl ⟨hover, rfl, hmost, portion_last hover haside hmost⟩
    · exact Or.inr ⟨hover, rfl, hmost, portion_take hover haside hmost⟩

theorem portion_taken_sublist : (P.portion i used xs).taken.Sublist xs := by
  induction xs generalizing i used with
  | nil => exact List.Sublist.slnil
  | cons x rest ih =>
    rcases portion_cases P i used x rest with
      ⟨-, h⟩ | ⟨-, t, -, h⟩ | ⟨-, -, -, h⟩ | ⟨-, -, -, h⟩ <;> rw [h]
    · exact (ih _ _).cons x
    · exact (ih _ _).cons x
    · exact List.Sublist.cons_cons x (List.nil_sublist rest)
    · exact (ih _ _).cons_cons x

theorem portion_aside_sublist : ((P.portion i used xs).aside.map Prod.fst).Sublist xs := by
  induction xs generalizing i used with
  | nil => exact List.Sublist.slnil
  | cons x rest ih =>
    rcases portion_cases P i used x rest with
      ⟨-, h⟩ | ⟨-, t, -, h⟩ | ⟨-, -, -, h⟩ | ⟨-, -, -, h⟩ <;> rw [h]
    · exact (ih _ _).cons x
    · exact (ih _ _).cons_cons x
    · exact List.nil_sublist _
    · exact (ih _ _).cons x

theorem portion_taken {x : α} (h : x ∈ (P.portion i used xs).taken) : P.aside x = none := by
  induction xs generalizing i used with
  | nil => cases h
  | cons y rest ih =>
    rcases portion_cases P i used y rest with
      ⟨-, hy⟩ | ⟨-, t, -, hy⟩ | ⟨-, hnone, -, hy⟩ | ⟨-, hnone, -, hy⟩ <;> rw [hy] at h
    · exact ih _ _ h
    · exact ih _ _ h
    · have hx : x = y := List.mem_singleton.mp h
      exact hx ▸ hnone
    · rcases List.mem_cons.mp h with hx | hx
      · exact hx ▸ hnone
      · exact ih _ _ hx

theorem portion_aside {x : α × τ} (h : x ∈ (P.portion i used xs).aside) :
    P.aside x.1 = some x.2 := by
  induction xs generalizing i used with
  | nil => cases h
  | cons y rest ih =>
    rcases portion_cases P i used y rest with
      ⟨-, hy⟩ | ⟨-, t, hsome, hy⟩ | ⟨-, -, -, hy⟩ | ⟨-, -, -, hy⟩ <;> rw [hy] at h
    · exact ih _ _ h
    · rcases List.mem_cons.mp h with hx | hx
      · rw [hx]
        exact hsome
      · exact ih _ _ hx
    · cases h
    · exact ih _ _ h

theorem portion_apart {x : α} (h : x ∈ (P.portion i used xs).taken) :
    x ∉ (P.portion i used xs).aside.map Prod.fst := by
  intro hmem
  obtain ⟨y, hy, hxy⟩ := List.mem_map.mp hmem
  have hnone := portion_taken P i used xs h
  have hsome := portion_aside P i used xs hy
  rw [hxy, hnone] at hsome
  cases hsome

theorem portion_length : ((P.portion i used xs).taken.length : ℤ) ≤ max 1 (P.most - i) := by
  induction xs generalizing i used with
  | nil => simp [portion_nil]
  | cons x rest ih =>
    have hskip := ih (i + 1) used
    have htake := ih (i + 1) (used + P.size x)
    push_cast at hskip htake
    rcases portion_cases P i used x rest with
      ⟨-, h⟩ | ⟨-, t, -, h⟩ | ⟨-, -, -, h⟩ | ⟨-, -, hmost, h⟩ <;> rw [h]
    · omega
    · dsimp only
      omega
    · simp
    · simp only [List.length_cons]
      push_cast
      omega

theorem portion_append (pre post : List α) (hmost : (i : ℤ) + pre.length < P.most) :
    (P.portion i used (pre ++ post)).taken = (P.portion i used pre).taken ++
      (P.portion (i + pre.length) (used + P.total (P.portion i used pre).taken) post).taken := by
  induction pre generalizing i used with
  | nil => simp [portion_nil]
  | cons x rest ih =>
    have hplace : i + (x :: rest).length = i + 1 + rest.length := by
      rw [List.length_cons]
      omega
    have hmost' : ((i + 1 : ℕ) : ℤ) + rest.length < P.most := by
      rw [List.length_cons] at hmost
      push_cast at hmost ⊢
      omega
    have hgo : ¬ P.most ≤ (i : ℤ) + 1 := by
      push_cast at hmost'
      omega
    rw [List.cons_append, hplace]
    rcases portion_cases P i used x (rest ++ post) with
      ⟨hover, h⟩ | ⟨hover, t, hsome, h⟩ | ⟨-, -, hstop, -⟩ | ⟨hover, hnone, -, h⟩
    · rw [h, portion_over hover]
      exact ih (i + 1) used hmost'
    · rw [h, portion_set_aside hover hsome]
      exact ih (i + 1) used hmost'
    · exact absurd hstop hgo
    · rw [h, portion_take hover hnone hgo]
      dsimp only
      rw [Pass.total_cons, ← add_assoc used, ih (i + 1) (used + P.size x) hmost', List.cons_append]

variable {P} {i}

theorem portion_total_le (hi : P.strict = true ∨ 0 < i) :
    P.total (P.portion i used xs).taken ≤ max 0 (P.limit - used) := by
  induction xs generalizing i used with
  | nil => simp [portion_nil]
  | cons x rest ih =>
    have hskip := ih (i := i + 1) used (Or.inr (by omega))
    have htake := ih (i := i + 1) (used + P.size x) (Or.inr (by omega))
    rcases portion_cases P i used x rest with
      ⟨-, h⟩ | ⟨-, t, -, h⟩ | ⟨hover, -, -, h⟩ | ⟨hover, -, -, h⟩ <;> rw [h]
    · exact hskip
    · exact hskip
    · have hx := fits_of_not_over hi hover
      simp only [Pass.total_cons, Pass.total_nil]
      omega
    · have hx := fits_of_not_over hi hover
      simp only [Pass.total_cons]
      omega

theorem portion_full (hi : P.strict = true ∨ 0 < i) (hsize : ∀ x, 0 ≤ P.size x)
    (hused : P.limit < used) : (P.portion i used xs).taken = [] := by
  induction xs generalizing i with
  | nil => rfl
  | cons x rest ih =>
    have hover : P.Over i used x := ⟨hi, by have := hsize x; omega⟩
    rw [portion_over hover]
    exact ih (Or.inr (by omega))

theorem portion_first (x : α) (rest : List α) (h : P.strict = false) :
    x ∈ (P.portion 0 used (x :: rest)).taken ∨
      ∃ t, (x, t) ∈ (P.portion 0 used (x :: rest)).aside := by
  rcases portion_cases P 0 used x rest with
    ⟨hover, -⟩ | ⟨-, t, -, hsplit⟩ | ⟨-, -, -, hsplit⟩ | ⟨-, -, -, hsplit⟩
  · rcases hover.1 with hstrict | hpos
    · rw [h] at hstrict
      cases hstrict
    · omega
  · rw [hsplit]
    exact Or.inr ⟨t, List.mem_cons_self⟩
  · rw [hsplit]
    exact Or.inl (List.mem_singleton_self x)
  · rw [hsplit]
    exact Or.inl List.mem_cons_self

theorem portion_ne_nil (hi : P.strict = true ∨ 0 < i) :
    (P.portion i used xs).taken ≠ [] ↔
      ∃ x ∈ xs, P.aside x = none ∧ used + P.size x ≤ P.limit := by
  induction xs generalizing i with
  | nil => simp [portion_nil]
  | cons x rest ih =>
    have hlater := ih (i := i + 1) (Or.inr (by omega))
    rcases portion_cases P i used x rest with
      ⟨hover, h⟩ | ⟨-, t, hsome, h⟩ | ⟨hover, hnone, -, h⟩ | ⟨hover, hnone, -, h⟩ <;> rw [h]
    · have hnot : ¬ used + P.size x ≤ P.limit := by have := hover.2; omega
      simp only [List.mem_cons, exists_eq_or_imp, hnot, and_false, false_or]
      exact hlater
    · simp only [List.mem_cons, exists_eq_or_imp, hsome, reduceCtorEq, false_and, false_or]
      exact hlater
    · exact iff_of_true (by simp) ⟨x, by simp, hnone, fits_of_not_over hi hover⟩
    · exact iff_of_true (by simp) ⟨x, by simp, hnone, fits_of_not_over hi hover⟩

end

section
variable (P : Pass α τ) (xs : List α)

theorem pass_total (hlimit : 0 ≤ P.limit) (hsize : ∀ x, 0 ≤ P.size x) :
    P.total (P.portion 0 0 xs).taken ≤ P.limit ∨
      P.strict = false ∧ ∃ x, xs.head? = some x ∧ (P.portion 0 0 xs).taken = [x] := by
  cases xs with
  | nil => exact Or.inl (by simpa [portion_nil] using hlimit)
  | cons x rest =>
    by_cases hstrict : P.strict = true
    · have htotal := portion_total_le (i := 0) 0 (x :: rest) (Or.inl hstrict)
      exact Or.inl (by omega)
    · have hnot : ¬ P.Over 0 0 x := fun h => h.1.elim hstrict (by omega)
      have hfalse : P.strict = false := by simpa using hstrict
      have hskip := portion_total_le (P := P) (i := 1) 0 rest (Or.inr (by omega))
      rcases portion_cases P 0 0 x rest with
        ⟨hover, -⟩ | ⟨-, t, -, h⟩ | ⟨-, -, -, h⟩ | ⟨-, -, -, h⟩
      · exact absurd hover hnot
      · rw [h]
        exact Or.inl (by simp only [zero_add]; omega)
      · rw [h]
        exact Or.inr ⟨hfalse, x, rfl, rfl⟩
      · rw [h]
        have htake := portion_total_le (P := P) (i := 1) (0 + P.size x) rest (Or.inr (by omega))
        by_cases hfits : P.size x ≤ P.limit
        · left
          simp only [Pass.total_cons, zero_add] at htake ⊢
          omega
        · have hfull := portion_full (P := P) (i := 1) (0 + P.size x) rest (Or.inr (by omega))
            hsize (by omega)
          right
          refine ⟨hfalse, x, rfl, ?_⟩
          simp only [zero_add] at hfull ⊢
          rw [hfull]

def Pass.Fits (P : Pass α τ) (before : List α) (x : α) : Prop :=
  ¬ P.Over before.length (P.total (P.portion 0 0 before).taken) x

instance (P : Pass α τ) (before : List α) (x : α) : Decidable (P.Fits before x) :=
  inferInstanceAs (Decidable (¬ _))

theorem pass_takes {before after : List α} {x : α} (hxs : xs = before ++ x :: after)
    (hmost : (xs.length : ℤ) ≤ P.most) (hfits : P.Fits before x) (haside : P.aside x = none) :
    x ∈ (P.portion 0 0 xs).taken := by
  have hlength : xs.length = before.length + (after.length + 1) := by simp [hxs]
  have hplace : ((0 : ℕ) : ℤ) + before.length < P.most := by omega
  rw [hxs, portion_append P 0 0 before (x :: after) hplace]
  apply List.mem_append_right
  rw [Nat.zero_add, zero_add]
  by_cases hlast : P.most ≤ (before.length : ℤ) + 1
  · simp [portion_last hfits haside hlast]
  · simp [portion_take hfits haside hlast]

theorem pass_ne_nil (hstrict : P.strict = false) :
    (P.portion 0 0 xs).taken ≠ [] ↔
      (∃ x, xs.head? = some x ∧ P.aside x = none) ∨
        ∃ x ∈ xs, P.aside x = none ∧ P.size x ≤ P.limit := by
  cases xs with
  | nil => simp [portion_nil]
  | cons x rest =>
    have hnot : ¬ P.Over 0 0 x := fun h => h.1.elim (by simp [hstrict]) (by omega)
    have hlater := portion_ne_nil (P := P) (i := 1) 0 rest (Or.inr (by omega))
    simp only [zero_add] at hlater
    rcases portion_cases P 0 0 x rest with
      ⟨hover, -⟩ | ⟨-, t, hsome, h⟩ | ⟨-, hnone, -, h⟩ | ⟨-, hnone, -, h⟩
    · exact absurd hover hnot
    · rw [h]
      simp only [zero_add, List.head?_cons, Option.some.injEq, exists_eq_left', hsome,
        reduceCtorEq, List.mem_cons, exists_eq_or_imp, false_and, false_or]
      exact hlater
    · rw [h]
      exact iff_of_true (by simp) (Or.inl ⟨x, rfl, hnone⟩)
    · rw [h]
      exact iff_of_true (by simp) (Or.inl ⟨x, rfl, hnone⟩)

end

end Budgets
