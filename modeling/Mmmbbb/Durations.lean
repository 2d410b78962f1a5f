import Mmmbbb.Decimals
import Mathlib.Data.Int.Log
import Mathlib.Algebra.Order.Round
import Mathlib.Data.Rat.Floor
import Mathlib.Tactic.NormNum
import Mathlib.Tactic.FieldSimp

/-!
# Durations as text

Durations are whole nanoseconds of 64 bits. The text that is written for one is
read back as the same. A fraction of a unit is read in floating point, exactly
where the unit is a multiple of its scale.
-/

set_option autoImplicit false

namespace Durations
open Decimals

def roundEven (q : ℚ) : ℤ :=
  if q - ⌊q⌋ < 1 / 2 then ⌊q⌋
  else if 1 / 2 < q - ⌊q⌋ then ⌊q⌋ + 1
  else if ⌊q⌋ % 2 = 0 then ⌊q⌋ else ⌊q⌋ + 1

def float64 (q : ℚ) : ℚ :=
  if q ≤ 0 then 0
  else roundEven (q / 2 ^ (Int.log 2 q - 52)) * 2 ^ (Int.log 2 q - 52)

theorem roundEven_natCast (n : ℕ) : roundEven n = n := by
  unfold roundEven
  simp

theorem float64_natCast {n : ℕ} (h : n < 2 ^ 53) : float64 n = n := by
  by_cases h0 : n = 0
  · subst h0
    simp [float64]
  have hpos : ¬ (n : ℚ) ≤ 0 := by
    have hn : (0 : ℚ) < n := by exact_mod_cast Nat.pos_of_ne_zero h0
    exact not_le.mpr hn
  have hlog : Nat.log 2 n ≤ 52 := by
    have hlt : Nat.log 2 n < 53 := Nat.log_lt_of_lt_pow h0 h
    omega
  have hexp : Int.log 2 (n : ℚ) - 52 = -((52 - Nat.log 2 n : ℕ) : ℤ) := by
    rw [Int.log_natCast]
    omega
  have hpow : (2 : ℚ) ^ (52 - Nat.log 2 n) ≠ 0 := by positivity
  rw [float64, if_neg hpos, hexp, zpow_neg, zpow_natCast, div_inv_eq_mul]
  have hcast : (n : ℚ) * 2 ^ (52 - Nat.log 2 n) = ((n * 2 ^ (52 - Nat.log 2 n) : ℕ) : ℚ) := by
    push_cast
    rfl
  rw [hcast, roundEven_natCast]
  push_cast
  rw [mul_assoc, mul_inv_cancel₀ hpow, mul_one]

/-- The fraction of `v / 10 ^ prec` in front of what is written already,
without trailing zeros, and the whole part. -/
def fmtFrac : ℕ → ℕ → Bool → List Char → List Char × ℕ
  | 0, v, print, buf => (if print then '.' :: buf else buf, v)
  | prec + 1, v, print, buf =>
    let print := print || decide (v % 10 ≠ 0)
    fmtFrac prec (v / 10) print (if print then digit (v % 10) :: buf else buf)

def fmtUnit (prec u : ℕ) (unit : String) : List Char :=
  let (buf, u) := fmtFrac prec u false unit.toList
  decimal u ++ buf

def format (u : ℕ) : List Char :=
  if u < 10 ^ 9 then
    if u = 0 then "0s".toList
    else if u < 10 ^ 3 then fmtUnit 0 u "ns"
    else if u < 10 ^ 6 then fmtUnit 3 u "µs"
    else fmtUnit 6 u "ms"
  else
    let (buf, u) := fmtFrac 9 u false ['s']
    let buf := decimal (u % 60) ++ buf
    let u := u / 60
    if 0 < u then
      let buf := decimal (u % 60) ++ 'm' :: buf
      let u := u / 60
      if 0 < u then decimal u ++ 'h' :: buf else buf
    else buf

def string (d : ℤ) : List Char :=
  if d < 0 then '-' :: format d.natAbs else format d.natAbs

def unitMap : List (List Char × ℕ) :=
  [("ns".toList, 1), ("us".toList, 10 ^ 3), ("µs".toList, 10 ^ 3), ("μs".toList, 10 ^ 3),
    ("ms".toList, 10 ^ 6), ("s".toList, 10 ^ 9), ("m".toList, 60 * 10 ^ 9),
    ("h".toList, 3600 * 10 ^ 9)]

def leadingInt (x : ℕ) : List Char → Option (ℕ × List Char)
  | [] => some (x, [])
  | c :: s =>
    if c.isDigit then
      if 2 ^ 63 / 10 < x then none
      else if 2 ^ 63 < x * 10 + value c then none
      else leadingInt (x * 10 + value c) s
    else some (x, c :: s)

def leadingFraction (x scale : ℕ) (overflow : Bool) : List Char → ℕ × ℕ × List Char
  | [] => (x, scale, [])
  | c :: s =>
    if c.isDigit then
      if overflow then leadingFraction x scale true s
      else if (2 ^ 63 - 1) / 10 < x then leadingFraction x scale true s
      else if 2 ^ 63 < x * 10 + value c then leadingFraction x scale true s
      else leadingFraction (x * 10 + value c) (scale * 10) false s
    else (x, scale, c :: s)

def optionalFraction : List Char → ℕ × ℕ × List Char × Bool
  | '.' :: s =>
    let (f, scale, rest) := leadingFraction 0 1 false s
    (f, scale, rest, decide (rest.length ≠ s.length))
  | s => (0, 1, s, false)

def inNumber (c : Char) : Bool := c == '.' || c.isDigit

def parseUnit (s : List Char) : Option (ℕ × List Char) := do
  guard (s.head?.any inNumber)
  let (v, s₁) ← leadingInt 0 s
  let (f, scale, s₂, post) := optionalFraction s₁
  guard (s₁.length ≠ s.length ∨ post)
  let u := s₂.takeWhile (fun c => !inNumber c)
  guard (u ≠ [])
  let unit ← unitMap.lookup u
  guard (v ≤ 2 ^ 63 / unit)
  let v := v * unit
  let v := if 0 < f then v + ⌊float64 (float64 f * float64 (float64 unit / scale))⌋.toNat else v
  guard (v ≤ 2 ^ 63)
  pure (v, s₂.dropWhile (fun c => !inNumber c))

/-- The loop over what is left; a round takes a character at least. -/
def parseLoop : ℕ → List Char → ℕ → Option ℕ
  | _, [], d => some d
  | 0, _ :: _, _ => none
  | n + 1, c :: s, d => do
    let (v, rest) ← parseUnit (c :: s)
    let d := (d + v) % 2 ^ 64
    guard (d ≤ 2 ^ 63)
    parseLoop n rest d

def sign : List Char → Bool × List Char
  | '-' :: s => (true, s)
  | '+' :: s => (false, s)
  | s => (false, s)

def parseDuration (s : List Char) : Option ℤ :=
  let (neg, s) := sign s
  if s = ['0'] then some 0
  else if s = [] then none
  else do
    let d ← parseLoop s.length s 0
    if neg then pure (-d)
    else do
      guard (d ≤ 2 ^ 63 - 1)
      pure d

def fraction (k f : ℕ) : List Char := if k = 0 then [] else '.' :: padded k f

theorem leadingInt_digits {x : ℕ} {ds rest : List Char} (hds : AllDigits ds)
    (hrest : EndsNumber rest) (hx : readOn x ds ≤ 2 ^ 63) :
    leadingInt x (ds ++ rest) = some (readOn x ds, rest) := by
  induction ds generalizing x with
  | nil =>
    cases rest with
    | nil => rfl
    | cons c s =>
      have hc : c.isDigit = false := hrest c rfl
      simp [leadingInt, hc, readOn]
  | cons c ds ih =>
    have hc : c.isDigit = true := hds c (by simp)
    rw [readOn_cons] at hx ⊢
    have hle := le_readOn (x * 10 + value c) ds
    rw [List.cons_append, leadingInt, if_pos hc, if_neg (by omega), if_neg (by omega)]
    exact ih (fun d hd => hds d (by simp [hd])) hx

theorem leadingFraction_digits {x scale : ℕ} {ds rest : List Char} (hds : AllDigits ds)
    (hrest : EndsNumber rest) (hx : readOn x ds < 2 ^ 62) :
    leadingFraction x scale false (ds ++ rest) =
      (readOn x ds, scale * 10 ^ ds.length, rest) := by
  induction ds generalizing x scale with
  | nil =>
    cases rest with
    | nil => simp [leadingFraction, readOn]
    | cons c s =>
      have hc : c.isDigit = false := hrest c rfl
      simp [leadingFraction, hc, readOn]
  | cons c ds ih =>
    have hc : c.isDigit = true := hds c (by simp)
    rw [readOn_cons] at hx ⊢
    have hle := le_readOn (x * 10 + value c) ds
    rw [List.cons_append, leadingFraction, if_pos hc, if_neg (by simp), if_neg (by omega),
      if_neg (by omega), ih (fun d hd => hds d (by simp [hd])) hx, List.length_cons, pow_succ]
    ring_nf

theorem optionalFraction_eq {k f : ℕ} {u rest : List Char} (hf : f < 10 ^ k) (hk : k ≤ 9)
    (hu : ∀ c ∈ (u ++ rest).head?, inNumber c = false) :
    ∃ post, optionalFraction (fraction k f ++ (u ++ rest)) = (f, 10 ^ k, u ++ rest, post) := by
  by_cases h0 : k = 0
  · subst h0
    have hf0 : f = 0 := by simpa using hf
    subst hf0
    refine ⟨false, ?_⟩
    cases hs : u ++ rest with
    | nil => rfl
    | cons c s =>
      rw [hs] at hu
      have hc := hu c rfl
      have hne : c ≠ '.' := by
        rintro rfl
        exact absurd hc (by decide)
      simp only [fraction, if_true, List.nil_append, pow_zero]
      unfold optionalFraction
      split
      · rename_i heq
        cases heq
        exact absurd rfl hne
      · rfl
  · have hends : EndsNumber (u ++ rest) := fun c hc => by
      have hno := hu c hc
      simp only [inNumber, Bool.or_eq_false_iff] at hno
      exact hno.2
    have hread : readOn 0 (padded k f) = f := read_padded hf
    have hpow : (10 : ℕ) ^ k ≤ 10 ^ 9 := Nat.pow_le_pow_right (by decide) hk
    have hlead := @leadingFraction_digits 0 1 _ _ (padded_digits k f) hends
      (by rw [hread]; omega)
    rw [hread, padded_length, one_mul] at hlead
    simp only [fraction, if_neg h0, List.cons_append, optionalFraction, hlead]
    exact ⟨_, rfl⟩

structure Unit (u : List Char) (unit k : ℕ) : Prop where
  lookup : unitMap.lookup u = some unit
  spelled : ∀ c ∈ u, inNumber c = false
  nonempty : u ≠ []
  scale : 10 ^ k ∣ unit
  digits : k ≤ 9
  pos : 0 < unit
  small : unit < 2 ^ 53

/-- Exact, in spite of the floating point. -/
theorem float_fraction {f k unit : ℕ} (hf : f < 10 ^ k) (hk : k ≤ 9) (hdvd : 10 ^ k ∣ unit)
    (hsmall : unit < 2 ^ 53) :
    ⌊float64 (float64 f * float64 (float64 unit / (10 ^ k : ℕ)))⌋.toNat = f * (unit / 10 ^ k) := by
  obtain ⟨q, rfl⟩ := hdvd
  have hpow : 0 < 10 ^ k := Nat.pow_pos (by decide)
  have hpow9 : (10 : ℕ) ^ k ≤ 10 ^ 9 := Nat.pow_le_pow_right (by decide) hk
  have hq : q ≤ 10 ^ k * q := Nat.le_mul_of_pos_left q hpow
  have hfq : f * q ≤ 10 ^ k * q := Nat.mul_le_mul_right q hf.le
  have hdiv : ((10 ^ k * q : ℕ) : ℚ) / (10 ^ k : ℕ) = q := by
    have hne : ((10 ^ k : ℕ) : ℚ) ≠ 0 := by exact_mod_cast hpow.ne'
    push_cast at hne ⊢
    field_simp
  rw [float64_natCast (n := 10 ^ k * q) hsmall, hdiv, float64_natCast (by omega : f < 2 ^ 53),
    float64_natCast (by omega : q < 2 ^ 53), ← Nat.cast_mul,
    float64_natCast (by omega : f * q < 2 ^ 53), Nat.mul_div_cancel_left q hpow,
    Int.floor_natCast, Int.toNat_natCast]

theorem inNumber_digit {c : Char} (h : c.isDigit = true) : inNumber c = true := by
  simp [inNumber, h]

section
variable {f k unit : ℕ} {u rest : List Char}

theorem Unit.head (hunit : Unit u unit k) : ∀ c ∈ (u ++ rest).head?, inNumber c = false := by
  cases hcase : u with
  | nil => exact absurd hcase hunit.nonempty
  | cons c cs =>
    intro d hd
    obtain rfl : c = d := Option.some.inj hd
    exact hunit.spelled c (by simp [hcase])

theorem Unit.ends (hunit : Unit u unit k) : EndsNumber (fraction k f ++ (u ++ rest)) := by
  intro c hc
  by_cases h0 : k = 0
  · rw [fraction, if_pos h0, List.nil_append] at hc
    have hno := hunit.head c hc
    simp only [inNumber, Bool.or_eq_false_iff] at hno
    exact hno.2
  · rw [fraction, if_neg h0] at hc
    obtain rfl : '.' = c := Option.some.inj hc
    decide

theorem Unit.span (hunit : Unit u unit k) (hrest : ∀ c ∈ rest.head?, inNumber c = true) :
    (u ++ rest).takeWhile (fun c => !inNumber c) = u ∧
      (u ++ rest).dropWhile (fun c => !inNumber c) = rest := by
  have hspelled : ∀ c ∈ u, (!inNumber c) = true := fun c hc => by simp [hunit.spelled c hc]
  rw [List.takeWhile_append_of_pos hspelled, List.dropWhile_append_of_pos hspelled]
  cases rest with
  | nil => simp
  | cons c cs => simp [hrest c rfl]

end

theorem parseUnit_eq {v f k unit : ℕ} {u rest : List Char} (hunit : Unit u unit k)
    (hf : f < 10 ^ k) (hrest : ∀ c ∈ rest.head?, inNumber c = true)
    (hbound : v * unit + f * (unit / 10 ^ k) ≤ 2 ^ 63) :
    parseUnit (decimal v ++ (fraction k f ++ (u ++ rest))) =
      some (v * unit + f * (unit / 10 ^ k), rest) := by
  have hends : EndsNumber (fraction k f ++ (u ++ rest)) := hunit.ends
  have hv : v ≤ v * unit := Nat.le_mul_of_pos_right v hunit.pos
  have hread : readOn 0 (decimal v) = v := read_decimal v
  have hlead := leadingInt_digits (x := 0) (decimal_digits v) hends (by rw [hread]; omega)
  rw [hread] at hlead
  have hhead : ((decimal v ++ (fraction k f ++ (u ++ rest))).head?.any inNumber) = true := by
    cases hcase : decimal v with
    | nil => exact absurd hcase (decimal_ne_nil v)
    | cons c cs =>
      have hc : c.isDigit = true := decimal_digits v c (by simp [hcase])
      simp [inNumber_digit hc]
  have hlen : (fraction k f ++ (u ++ rest)).length ≠
      (decimal v ++ (fraction k f ++ (u ++ rest))).length := by
    have hpos := List.length_pos_of_ne_nil (decimal_ne_nil v)
    simp only [List.length_append]
    omega
  have hu : ∀ c ∈ (u ++ rest).head?, inNumber c = false := hunit.head
  obtain ⟨post, hfrac⟩ := optionalFraction_eq hf hunit.digits hu
  obtain ⟨htake, hdrop⟩ := hunit.span hrest
  have hover : v ≤ 2 ^ 63 / unit := by
    rw [Nat.le_div_iff_mul_le hunit.pos]
    omega
  have hvalue : (if 0 < f then v * unit +
      ⌊float64 (float64 f * float64 (float64 unit / (10 ^ k : ℕ)))⌋.toNat else v * unit) =
      v * unit + f * (unit / 10 ^ k) := by
    by_cases h0 : 0 < f
    · rw [if_pos h0, float_fraction hf hunit.digits hunit.scale hunit.small]
    · have hz : f = 0 := by omega
      simp [hz]
  simp only [parseUnit, hhead, hlead, hfrac, htake, hdrop, hunit.lookup, hvalue, guard,
    bind, Option.bind, pure, hlen, hunit.nonempty, hover, hbound, ne_eq, not_false_eq_true,
    true_or, if_true]

theorem parseLoop_unit {n d v f k unit : ℕ} {u rest : List Char} (hunit : Unit u unit k)
    (hf : f < 10 ^ k) (hrest : ∀ c ∈ rest.head?, inNumber c = true)
    (hbound : d + (v * unit + f * (unit / 10 ^ k)) ≤ 2 ^ 63) :
    parseLoop (n + 1) (decimal v ++ (fraction k f ++ (u ++ rest))) d =
      parseLoop n rest (d + (v * unit + f * (unit / 10 ^ k))) := by
  have hstep := parseUnit_eq (v := v) hunit hf hrest (by omega)
  cases hcase : decimal v ++ (fraction k f ++ (u ++ rest)) with
  | nil =>
    have hne := decimal_ne_nil v
    simp [hne] at hcase
  | cons c s =>
    rw [hcase] at hstep
    have hmod : (d + (v * unit + f * (unit / 10 ^ k))) % 2 ^ 64 =
        d + (v * unit + f * (unit / 10 ^ k)) := Nat.mod_eq_of_lt (by omega)
    simp only [parseLoop, hstep, bind, Option.bind, hmod, guard, hbound, if_true, pure]

inductive Reads : List Char → ℕ → Prop
  | nil : Reads [] 0
  | unit {v f k unit d : ℕ} {u rest : List Char} : Unit u unit k → f < 10 ^ k → Reads rest d →
      Reads (decimal v ++ (fraction k f ++ (u ++ rest))) (v * unit + f * (unit / 10 ^ k) + d)

section
variable {s : List Char} {d : ℕ}

theorem decimal_head (v : ℕ) (rest : List Char) :
    ∃ c cs, decimal v ++ rest = c :: (cs ++ rest) ∧ c.isDigit = true := by
  cases hcase : decimal v with
  | nil => exact absurd hcase (decimal_ne_nil v)
  | cons c cs => exact ⟨c, cs, rfl, decimal_digits v c (by simp [hcase])⟩

theorem Reads.head (h : Reads s d) : ∀ c ∈ s.head?, inNumber c = true := by
  intro c hc
  cases h with
  | nil => cases hc
  | @unit v f k unit d u rest =>
    obtain ⟨c', cs, heq, hdigit⟩ := decimal_head v (fraction k f ++ (u ++ rest))
    rw [heq] at hc
    obtain rfl : c' = c := Option.some.inj hc
    exact inNumber_digit hdigit

theorem Reads.parseLoop (h : Reads s d) {n x : ℕ} (hn : s.length ≤ n) (hx : x + d ≤ 2 ^ 63) :
    parseLoop n s x = some (x + d) := by
  induction h generalizing n x with
  | nil => cases n <;> rfl
  | @unit v f k unit d u rest hunit hf hrest ih =>
    have hpos := List.length_pos_of_ne_nil (decimal_ne_nil v)
    simp only [List.length_append] at hn
    obtain ⟨m, rfl⟩ : ∃ m, n = m + 1 := ⟨n - 1, by omega⟩
    rw [parseLoop_unit hunit hf hrest.head (by omega), ih (by omega) (by omega)]
    congr 1
    omega

theorem Reads.unsigned (h : Reads s d) (hne : s ≠ []) : sign s = (false, s) ∧ s ≠ ['0'] := by
  cases h with
  | nil => exact absurd rfl hne
  | @unit v f k unit d u rest hunit hf hrest =>
    obtain ⟨c, cs, heq, hdigit⟩ := decimal_head v (fraction k f ++ (u ++ rest))
    constructor
    · have hminus : c ≠ '-' := by rintro rfl; exact absurd hdigit (by decide)
      have hplus : c ≠ '+' := by rintro rfl; exact absurd hdigit (by decide)
      rw [heq]
      unfold sign
      split
      · rename_i hc
        cases hc
        exact absurd rfl hminus
      · rename_i hc
        cases hc
        exact absurd rfl hplus
      · rfl
    · intro hcon
      have hlen := congrArg List.length hcon
      have hpos := List.length_pos_of_ne_nil (decimal_ne_nil v)
      have hupos := List.length_pos_of_ne_nil hunit.nonempty
      simp only [List.length_append, List.length_singleton] at hlen
      omega

theorem Reads.parse (h : Reads s d) (hne : s ≠ []) (hd : d < 2 ^ 63) :
    parseDuration s = some d := by
  have hloop := h.parseLoop (n := s.length) (x := 0) (le_refl _) (by omega)
  obtain ⟨hsign, hzero⟩ := h.unsigned hne
  have hle : d ≤ 2 ^ 63 - 1 := by omega
  rw [Nat.zero_add] at hloop
  simp only [parseDuration, hsign, if_neg hzero, if_neg hne, hloop, bind, Option.bind,
    Bool.false_eq_true, if_false, guard, if_pos hle]
  rfl

theorem Reads.parse_negative (h : Reads s d) (hne : s ≠ []) (hd : d ≤ 2 ^ 63) :
    parseDuration ('-' :: s) = some (-(d : ℤ)) := by
  have hloop := h.parseLoop (n := s.length) (x := 0) (le_refl _) (by omega)
  obtain ⟨-, hzero⟩ := h.unsigned hne
  rw [Nat.zero_add] at hloop
  simp only [parseDuration, sign, if_neg hzero, if_neg hne, hloop]
  rfl

end

theorem fmtFrac_printing (n v : ℕ) (buf : List Char) :
    fmtFrac n v true buf = ('.' :: (padded n (v % 10 ^ n) ++ buf), v / 10 ^ n) := by
  induction n generalizing v buf with
  | zero => simp [fmtFrac, padded]
  | succ n ih =>
    have hdiv : v % 10 ^ (n + 1) / 10 = v / 10 % 10 ^ n := by
      rw [pow_succ', Nat.mod_mul_right_div_self]
    have hmod : v % 10 ^ (n + 1) % 10 = v % 10 := by
      rw [pow_succ', Nat.mod_mul_right_mod]
    have hwhole : v / 10 / 10 ^ n = v / 10 ^ (n + 1) := by
      rw [Nat.div_div_eq_div_mul, pow_succ']
    rw [fmtFrac, padded, hdiv, hmod, ← hwhole]
    simp [ih]

theorem fmtFrac_eq (n v : ℕ) (buf : List Char) :
    ∃ k f, k ≤ n ∧ f < 10 ^ k ∧ f * 10 ^ (n - k) = v % 10 ^ n ∧
      fmtFrac n v false buf = (fraction k f ++ buf, v / 10 ^ n) := by
  induction n generalizing v buf with
  | zero => exact ⟨0, 0, by simp, by simp, by simp [Nat.mod_one], by simp [fmtFrac, fraction]⟩
  | succ n ih =>
    by_cases h0 : v % 10 = 0
    · obtain ⟨k, f, hk, hf, hval, heq⟩ := ih (v / 10) buf
      refine ⟨k, f, by omega, hf, ?_, ?_⟩
      · have hsub : n + 1 - k = n - k + 1 := by omega
        have hmod := Nat.mod_mul (x := v) (a := 10) (b := 10 ^ n)
        rw [hsub, pow_succ, ← Nat.mul_assoc, hval, pow_succ', hmod, h0, Nat.zero_add, Nat.mul_comm]
      · have hwhole : v / 10 / 10 ^ n = v / 10 ^ (n + 1) := by
          rw [Nat.div_div_eq_div_mul, pow_succ']
        rw [← hwhole, ← heq, fmtFrac]
        simp [h0]
    · refine ⟨n + 1, v % 10 ^ (n + 1), le_refl _, Nat.mod_lt _ (Nat.pow_pos (by decide)), by simp,
        ?_⟩
      have hprint := fmtFrac_printing (n + 1) v buf
      rw [fmtFrac] at hprint ⊢
      simpa [h0, fraction] using hprint

theorem unit_of {u : String} {unit k : ℕ} (hlookup : unitMap.lookup u.toList = some unit)
    (hspelled : u.toList.all (fun c => !inNumber c) = true) (hne : u.toList ≠ []) (hk : k ≤ 9)
    (hscale : 10 ^ k ∣ unit) (hpos : 0 < unit) (hsmall : unit < 2 ^ 53) :
    Unit u.toList unit k := by
  have hall : ∀ c ∈ u.toList, inNumber c = false := by
    intro c hc
    simpa using List.all_eq_true.mp hspelled c hc
  exact ⟨hlookup, hall, hne, hscale, hk, hpos, hsmall⟩

theorem unit_seconds {k : ℕ} (hk : k ≤ 9) : Unit "s".toList (10 ^ 9) k :=
  unit_of (by decide) (by decide) (by decide) hk (Nat.pow_dvd_pow 10 hk) (by decide) (by decide)

theorem unit_minutes : Unit "m".toList (60 * 10 ^ 9) 0 :=
  unit_of (by decide) (by decide) (by decide) (by decide) (by simp) (by decide) (by decide)

theorem unit_hours : Unit "h".toList (3600 * 10 ^ 9) 0 :=
  unit_of (by decide) (by decide) (by decide) (by decide) (by simp) (by decide) (by decide)

theorem fmtUnit_reads {n u unit : ℕ} {name : String}
    (hunit : ∀ k ≤ n, Unit name.toList unit k) (hscale : unit = 10 ^ n) :
    Reads (fmtUnit n u name) u := by
  obtain ⟨k, f, hk, hf, hval, heq⟩ := fmtFrac_eq n u name.toList
  have hdiv : unit / 10 ^ k = 10 ^ (n - k) := by
    rw [hscale, Nat.pow_div hk (by decide)]
  have hreads := Reads.unit (v := u / 10 ^ n) (hunit k hk) hf .nil
  rw [List.append_nil, hdiv, hval, hscale, Nat.add_zero, Nat.mul_comm, Nat.div_add_mod] at hreads
  simpa only [fmtUnit, heq] using hreads

theorem format_reads (u : ℕ) : Reads (format u) u := by
  unfold format
  split
  · split
    · rename_i h0
      have hreads := Reads.unit (v := 0) (f := 0) (unit_seconds (k := 0) (by decide)) (by simp) .nil
      simpa [h0, decimal, fraction, digit] using hreads
    · split
      · refine fmtUnit_reads (fun k hk => ?_) rfl
        obtain rfl : k = 0 := by omega
        exact unit_of (by decide) (by decide) (by decide) (by omega) (by simp) (by decide)
          (by decide)
      · split
        · refine fmtUnit_reads (fun k hk => ?_) rfl
          exact unit_of (by decide) (by decide) (by decide) (by omega) (Nat.pow_dvd_pow 10 hk)
            (by decide) (by decide)
        · refine fmtUnit_reads (fun k hk => ?_) rfl
          exact unit_of (by decide) (by decide) (by decide) (by omega) (Nat.pow_dvd_pow 10 hk)
            (by decide) (by decide)
  · obtain ⟨k, f, hk, hf, hval, heq⟩ := fmtFrac_eq 9 u ['s']
    have hdiv : 10 ^ 9 / 10 ^ k = 10 ^ (9 - k) := Nat.pow_div hk (by decide)
    have hsec := Reads.unit (v := u / 10 ^ 9 % 60) (unit_seconds hk) hf .nil
    rw [hdiv, hval] at hsec
    simp only [heq]
    split
    · have hmin := Reads.unit (v := u / 10 ^ 9 / 60 % 60) (f := 0) unit_minutes (by simp) hsec
      split
      · have hour := Reads.unit (v := u / 10 ^ 9 / 60 / 60) (f := 0) unit_hours (by simp) hmin
        refine Eq.subst (motive := Reads _) ?_ hour
        omega
      · refine Eq.subst (motive := Reads _) ?_ hmin
        omega
    · refine Eq.subst (motive := Reads _) ?_ hsec
      omega

theorem format_ne_nil (u : ℕ) : format u ≠ [] := by
  intro h
  have hzero : u = 0 := by
    have hreads := format_reads u
    rw [h] at hreads
    generalize hs : ([] : List Char) = s at hreads
    cases hreads with
    | nil => rfl
    | @unit v =>
      have hne := decimal_ne_nil v
      simp [hne] at hs
  subst hzero
  exact absurd h (by decide)

/-- Reading what was written. -/
theorem parseDuration_string {d : ℤ} (hlow : -2 ^ 63 ≤ d) (hhigh : d < 2 ^ 63) :
    parseDuration (string d) = some d := by
  have hreads := format_reads d.natAbs
  unfold string
  split
  · rename_i hneg
    rw [hreads.parse_negative (format_ne_nil _) (by omega)]
    congr 1
    omega
  · rename_i hpos
    rw [hreads.parse (format_ne_nil _) (by omega)]
    exact congrArg some (Int.natAbs_of_nonneg (by omega))

def numbers : ℕ → List Char → Option (List ℕ)
  | _, [] => some []
  | 0, _ :: _ => none
  | n + 1, c :: s => do
    let (v, rest) ← parseUnit (c :: s)
    let vs ← numbers n rest
    pure (v :: vs)

def parts (s : List Char) : Option (List ℕ) :=
  if (sign s).2 = ['0'] then some []
  else if (sign s).2 = [] then none
  else numbers (sign s).2.length (sign s).2

/-- No number takes the total beyond its range, as far as 64 bits tell. -/
def Passes (d : ℕ) (vs : List ℕ) : Prop := ∀ k, (d + (vs.take k).sum) % 2 ^ 64 ≤ 2 ^ 63

theorem passes_nil {d : ℕ} (h : d ≤ 2 ^ 63) : Passes d [] := by
  intro k
  rw [List.take_nil, List.sum_nil, Nat.add_zero, Nat.mod_eq_of_lt (by omega)]
  exact h

theorem passes_cons {d v : ℕ} {vs : List ℕ} (h : d ≤ 2 ^ 63) :
    Passes d (v :: vs) ↔ (d + v) % 2 ^ 64 ≤ 2 ^ 63 ∧ Passes ((d + v) % 2 ^ 64) vs := by
  constructor
  · intro hall
    constructor
    · simpa using hall 1
    · intro k
      have hk := hall (k + 1)
      rw [List.take_succ_cons, List.sum_cons, ← Nat.add_assoc] at hk
      rwa [Nat.mod_add_mod]
  · rintro ⟨-, hrest⟩ k
    cases k with
    | zero => exact passes_nil h 0
    | succ k =>
      have hk := hrest k
      rw [List.take_succ_cons, List.sum_cons, ← Nat.add_assoc]
      rwa [Nat.mod_add_mod] at hk

theorem parseLoop_nil (n d : ℕ) : parseLoop n [] d = some d := by
  cases n <;> rfl

theorem numbers_nil (n : ℕ) : numbers n [] = some [] := by
  cases n <;> rfl

section
variable {n d v : ℕ} {c : Char} {s rest : List Char}

theorem numbers_cons {vs : List ℕ} (hunit : parseUnit (c :: s) = some (v, rest)) :
    numbers (n + 1) (c :: s) = some vs ↔ ∃ more, numbers n rest = some more ∧ v :: more = vs := by
  simp [numbers, hunit, Option.bind_eq_some_iff]

theorem parseLoop_goes (hunit : parseUnit (c :: s) = some (v, rest))
    (h : (d + v) % 2 ^ 64 ≤ 2 ^ 63) :
    parseLoop (n + 1) (c :: s) d = parseLoop n rest ((d + v) % 2 ^ 64) := by
  rw [parseLoop, hunit]
  simp only [bind, Option.bind, guard, if_pos h, pure]

theorem parseLoop_refuses (hunit : parseUnit (c :: s) = some (v, rest))
    (h : ¬(d + v) % 2 ^ 64 ≤ 2 ^ 63) : parseLoop (n + 1) (c :: s) d = none := by
  rw [parseLoop, hunit]
  simp only [bind, Option.bind, guard, if_neg h]
  rfl

end

theorem parseLoop_end {d e : ℕ} (n : ℕ) (h : d ≤ 2 ^ 63) : parseLoop n [] d = some e ↔
    ∃ vs, numbers n [] = some vs ∧ Passes d vs ∧ e = (d + vs.sum) % 2 ^ 64 := by
  have hmod : (d + ([] : List ℕ).sum) % 2 ^ 64 = d := by
    rw [List.sum_nil, Nat.add_zero, Nat.mod_eq_of_lt (by omega)]
  rw [parseLoop_nil, numbers_nil]
  constructor
  · intro he
    cases he
    exact ⟨[], rfl, passes_nil h, hmod.symm⟩
  · rintro ⟨vs, hvs, -, he⟩
    cases hvs
    rw [he, hmod]

theorem parseLoop_some {n d e : ℕ} {s : List Char} (h : d ≤ 2 ^ 63) :
    parseLoop n s d = some e ↔
      ∃ vs, numbers n s = some vs ∧ Passes d vs ∧ e = (d + vs.sum) % 2 ^ 64 := by
  induction n generalizing s d with
  | zero =>
    cases s with
    | nil => exact parseLoop_end 0 h
    | cons c s => simp [parseLoop, numbers]
  | succ n ih =>
    cases s with
    | nil => exact parseLoop_end (n + 1) h
    | cons c s =>
      cases hunit : parseUnit (c :: s) with
      | none =>
        rw [parseLoop, numbers, hunit]
        constructor
        · intro hnone
          cases hnone
        · rintro ⟨vs, hvs, -, -⟩
          cases hvs
      | some read =>
        obtain ⟨v, rest⟩ := read
        have hsum : ∀ vs : List ℕ, (d + (v :: vs).sum) % 2 ^ 64 =
            ((d + v) % 2 ^ 64 + vs.sum) % 2 ^ 64 := by
          intro vs
          rw [List.sum_cons, ← Nat.add_assoc, Nat.mod_add_mod]
        by_cases hguard : (d + v) % 2 ^ 64 ≤ 2 ^ 63
        · rw [parseLoop_goes hunit hguard, ih hguard]
          constructor
          · rintro ⟨more, hmore, hpasses, he⟩
            exact ⟨v :: more, (numbers_cons hunit).mpr ⟨more, hmore, rfl⟩,
              (passes_cons h).mpr ⟨hguard, hpasses⟩, he.trans (hsum more).symm⟩
          · rintro ⟨vs, hvs, hpasses, he⟩
            obtain ⟨more, hmore, rfl⟩ := (numbers_cons hunit).mp hvs
            exact ⟨more, hmore, ((passes_cons h).mp hpasses).2, he.trans (hsum more)⟩
        · rw [parseLoop_refuses hunit hguard]
          constructor
          · intro hnone
            cases hnone
          · rintro ⟨vs, hvs, hpasses, -⟩
            obtain ⟨more, -, rfl⟩ := (numbers_cons hunit).mp hvs
            exact absurd ((passes_cons h).mp hpasses).1 hguard

def signed (neg : Bool) (n : ℕ) : ℤ := if neg then -n else n

theorem signed_some {neg : Bool} {e : ℕ} {d : ℤ} (h : e ≤ 2 ^ 63) :
    ((if neg then pure (-(e : ℤ)) else do
      guard (e ≤ 2 ^ 63 - 1)
      pure (e : ℤ)) : Option ℤ) = some d ↔ (neg = false → e ≠ 2 ^ 63) ∧ d = signed neg e := by
  cases neg with
  | true => simp [signed, eq_comm]
  | false =>
    by_cases hmax : e = 2 ^ 63
    · have hover : ¬e ≤ 2 ^ 63 - 1 := by omega
      rw [if_neg Bool.false_ne_true, guard, if_neg hover]
      constructor
      · intro hd
        cases hd
      · rintro ⟨hne, -⟩
        exact absurd hmax (hne rfl)
    · have hfits : e ≤ 2 ^ 63 - 1 := by omega
      rw [if_neg Bool.false_ne_true, guard, if_pos hfits]
      constructor
      · intro hd
        cases hd
        exact ⟨fun _ => hmax, rfl⟩
      · rintro ⟨-, hd⟩
        rw [hd]
        rfl

/-- What is accepted, and as what: the total as it stands in 64 bits. -/
theorem parseDuration_some {s : List Char} {d : ℤ} : parseDuration s = some d ↔
    ∃ vs, parts s = some vs ∧ Passes 0 vs ∧
      ((sign s).1 = false → vs.sum % 2 ^ 64 ≠ 2 ^ 63) ∧ d = signed (sign s).1 (vs.sum % 2 ^ 64) := by
  rw [parseDuration, parts]
  generalize sign s = r
  obtain ⟨neg, t⟩ := r
  dsimp only
  by_cases hzero : t = ['0']
  · rw [if_pos hzero, if_pos hzero]
    constructor
    · intro hd
      cases hd
      exact ⟨[], rfl, passes_nil (Nat.zero_le _), fun _ => by decide, by cases neg <;> rfl⟩
    · rintro ⟨vs, hvs, -, -, hd⟩
      cases hvs
      rw [hd]
      cases neg <;> rfl
  · rw [if_neg hzero, if_neg hzero]
    by_cases hnil : t = []
    · rw [if_pos hnil, if_pos hnil]
      simp
    · rw [if_neg hnil, if_neg hnil]
      have hloop := fun e => parseLoop_some (n := t.length) (e := e) (s := t) (Nat.zero_le (2 ^ 63))
      constructor
      · intro hd
        obtain ⟨e, he, hval⟩ := Option.bind_eq_some_iff.mp hd
        obtain ⟨vs, hvs, hpasses, hsum⟩ := (hloop e).mp he
        rw [Nat.zero_add] at hsum
        have hbound : e ≤ 2 ^ 63 := by
          have hall := hpasses vs.length
          rwa [List.take_length, Nat.zero_add, ← hsum] at hall
        rw [signed_some hbound, hsum] at hval
        exact ⟨vs, hvs, hpasses, hval⟩
      · rintro ⟨vs, hvs, hpasses, hval⟩
        have he := (hloop _).mpr ⟨vs, hvs, hpasses, rfl⟩
        have hbound : vs.sum % 2 ^ 64 ≤ 2 ^ 63 := by
          have hall := hpasses vs.length
          rwa [List.take_length, Nat.zero_add] at hall
        rw [Nat.zero_add] at he
        exact Option.bind_eq_some_iff.mpr ⟨_, he, (signed_some hbound).mpr hval⟩

end Durations
