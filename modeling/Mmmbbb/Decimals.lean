import Mathlib.Data.List.TakeWhile
import Mathlib.Tactic.Ring

/-!
# Decimal text

Naturals are written in decimal, at their own length or at a given one, and
read back from the left.
-/

set_option autoImplicit false

namespace Decimals

def digit (d : ℕ) : Char := "0123456789".toList.getD d '0'

def value (c : Char) : ℕ := c.toNat - '0'.toNat

theorem value_digit {d : ℕ} (h : d < 10) : value (digit d) = d := by
  have hall : ∀ d < 10, value (digit d) = d := by decide
  exact hall d h

theorem digit_isDigit {d : ℕ} (h : d < 10) : (digit d).isDigit = true := by
  have hall : ∀ d < 10, (digit d).isDigit = true := by decide
  exact hall d h

def AllDigits (cs : List Char) : Prop := ∀ c ∈ cs, c.isDigit = true

theorem AllDigits.append {cs ds : List Char} (h : AllDigits cs) (h' : AllDigits ds) :
    AllDigits (cs ++ ds) := by
  intro c hc
  rcases List.mem_append.mp hc with hc | hc
  · exact h c hc
  · exact h' c hc

def readOn (x : ℕ) (cs : List Char) : ℕ := cs.foldl (fun x c => x * 10 + value c) x

def read (cs : List Char) : ℕ := readOn 0 cs

theorem readOn_cons (x : ℕ) (c : Char) (cs : List Char) :
    readOn x (c :: cs) = readOn (x * 10 + value c) cs := by
  simp only [readOn, List.foldl_cons]

theorem le_readOn (x : ℕ) (cs : List Char) : x ≤ readOn x cs := by
  induction cs generalizing x with
  | nil => exact le_refl x
  | cons c cs ih =>
    have h := ih (x * 10 + value c)
    rw [readOn_cons]
    omega

theorem read_append_one (cs : List Char) (c : Char) :
    read (cs ++ [c]) = read cs * 10 + value c := by
  simp only [read, readOn, List.foldl_append, List.foldl_cons, List.foldl_nil]

def decimal (n : ℕ) : List Char :=
  if n < 10 then [digit n] else decimal (n / 10) ++ [digit (n % 10)]
termination_by n
decreasing_by omega

theorem read_decimal (n : ℕ) : read (decimal n) = n := by
  induction n using Nat.strong_induction_on with
  | _ n ih =>
    rw [decimal]
    split
    · rename_i h
      exact (read_append_one [] _).trans (by rw [value_digit h]; simp [read, readOn])
    · rename_i h
      rw [read_append_one, ih (n / 10) (by omega), value_digit (Nat.mod_lt _ (by decide))]
      omega

theorem decimal_digits (n : ℕ) : AllDigits (decimal n) := by
  induction n using Nat.strong_induction_on with
  | _ n ih =>
    have hone : ∀ d < 10, AllDigits [digit d] := fun d hd c hc =>
      List.mem_singleton.mp hc ▸ digit_isDigit hd
    rw [decimal]
    split
    · rename_i h
      exact hone n h
    · exact (ih (n / 10) (by omega)).append (hone _ (Nat.mod_lt _ (by decide)))

theorem decimal_ne_nil (n : ℕ) : decimal n ≠ [] := by
  rw [decimal]
  split <;> simp

def padded : ℕ → ℕ → List Char
  | 0, _ => []
  | k + 1, n => padded k (n / 10) ++ [digit (n % 10)]

@[simp] theorem padded_length (k n : ℕ) : (padded k n).length = k := by
  induction k generalizing n with
  | zero => rfl
  | succ k ih => simp [padded, ih]

theorem padded_digits (k n : ℕ) : AllDigits (padded k n) := by
  induction k generalizing n with
  | zero => exact fun c hc => by cases hc
  | succ k ih =>
    refine (ih _).append fun c hc => ?_
    rw [List.mem_singleton.mp hc]
    exact digit_isDigit (Nat.mod_lt _ (by decide))

theorem padded_ne_nil {k : ℕ} (hk : 0 < k) (n : ℕ) : padded k n ≠ [] := by
  intro h
  have hlen := padded_length k n
  rw [h] at hlen
  exact absurd hlen (by simp; omega)

theorem read_padded {k n : ℕ} (h : n < 10 ^ k) : read (padded k n) = n := by
  induction k generalizing n with
  | zero =>
    have hn : n = 0 := by simpa using h
    rw [hn]
    rfl
  | succ k ih =>
    have hdiv : n / 10 < 10 ^ k := by
      rw [pow_succ] at h
      omega
    rw [padded, read_append_one, ih hdiv, value_digit (Nat.mod_lt _ (by decide))]
    omega

def EndsNumber (rest : List Char) : Prop := ∀ c ∈ rest.head?, c.isDigit = false

section
variable {ds rest : List Char}

theorem takeWhile_digits (h : AllDigits ds) (hr : EndsNumber rest) :
    (ds ++ rest).takeWhile Char.isDigit = ds := by
  have hrest : rest.takeWhile Char.isDigit = [] := by
    cases rest with
    | nil => rfl
    | cons c cs => simp [hr c rfl]
  rw [List.takeWhile_append_of_pos h, hrest, List.append_nil]

theorem dropWhile_digits (h : AllDigits ds) (hr : EndsNumber rest) :
    (ds ++ rest).dropWhile Char.isDigit = rest := by
  have hrest : rest.dropWhile Char.isDigit = rest := by
    cases rest with
    | nil => rfl
    | cons c cs => simp [hr c rfl]
  rw [List.dropWhile_append_of_pos h, hrest]

end

end Decimals
