import Mmmbbb.Intervals

/-!
# The sum of an interval

The components of an interval are multiplied by their scales and added up in
64 bits, and nothing looks whether they fit. The duration that is returned is
the sum of the components where every product and every running total is in
range.
-/

set_option autoImplicit false

namespace Mmmbbb.Intervals
open Programs Decimals Durations

def InRange (i : ℤ) : Prop := -2 ^ 63 ≤ i ∧ i < 2 ^ 63

def Matches.fields (m : Matches) : List (List Char × ℕ) :=
  [(m.years, year), (m.months, month), (m.days, day), (m.hours, hour), (m.minutes, minute),
    (m.seconds, second), (m.subseconds, second / 10 ^ m.subseconds.length)]

def component (field : List Char × ℕ) : Except String ℤ :=
  if field.1 = [] then pure 0
  else do
    let i ← atoi field.1
    pure (i * field.2)

def Matches.components (m : Matches) : Except String (List ℤ) := do
  failWhen (9 < m.subseconds.length) "cannot parse beyond nanosecond resolution"
  m.fields.mapM component

def Unwrapped : Interval → List ℤ → Prop
  | _, [] => True
  | d, c :: cs => (Int64.ofInt c).toInt = c ∧
      (d + Int64.ofInt c).toInt = d.toInt + (Int64.ofInt c).toInt ∧ Unwrapped (d + Int64.ofInt c) cs

def components (s : List Char) : Option (List ℤ) :=
  match pgIntervalRegexp s with
  | some m => m.components.toOption
  | none => (parts s).map (List.map (signed (sign s).1))

/-- What is returned is the sum of the components, and nothing has overflowed
on the way to it. -/
def Exact (s : List Char) : Prop :=
  ∀ result, parsePostgreSQLInterval s = .ok result → ∃ cs, components s = some cs ∧
    result.toInt = cs.sum ∧ ((pgIntervalRegexp s).isSome → Unwrapped 0 cs)

def Refused (neg : Bool) (vs : List ℕ) : Prop :=
  (∃ k, 2 ^ 63 < (vs.take k).sum % 2 ^ 64) ∨ neg = false ∧ vs.sum % 2 ^ 64 = 2 ^ 63

/-- In the format of the database every product and every running total is in
range. In the other, the numbers are, or are refused. -/
def Fits (s : List Char) : Prop :=
  match pgIntervalRegexp s with
  | some m => ∀ cs, m.components = .ok cs → (∀ c ∈ cs, InRange c) ∧ ∀ k, InRange (cs.take k).sum
  | none => ∀ vs, parts s = some vs → vs.sum ≤ 2 ^ 63 ∨ Refused (sign s).1 vs

theorem toInt_ofInt_iff {c : ℤ} : (Int64.ofInt c).toInt = c ↔ InRange c := by
  constructor
  · intro h
    have hlow := (Int64.ofInt c).le_toInt
    have hhigh := (Int64.ofInt c).toInt_lt
    rw [h] at hlow hhigh
    exact ⟨hlow, hhigh⟩
  · intro h
    exact Int64.toInt_ofInt_of_le h.1 h.2

theorem toInt_inRange (d : Interval) : InRange d.toInt := ⟨d.le_toInt, d.toInt_lt⟩

theorem add_ofInt (d : Interval) (c : ℤ) : d + Int64.ofInt c = Int64.ofInt (d.toInt + c) := by
  rw [Int64.ofInt_add, Int64.ofInt_toInt]

theorem unwrapped_iff {d : Interval} {cs : List ℤ} : Unwrapped d cs ↔
    (∀ c ∈ cs, InRange c) ∧ ∀ k, InRange (d.toInt + (cs.take k).sum) := by
  induction cs generalizing d with
  | nil => simp [Unwrapped, toInt_inRange]
  | cons c cs ih =>
    rw [Unwrapped, toInt_ofInt_iff, ih, List.forall_mem_cons]
    constructor
    · rintro ⟨hc, hadd, hcs, htotals⟩
      rw [toInt_ofInt_iff.mpr hc] at hadd
      refine ⟨⟨hc, hcs⟩, fun k => ?_⟩
      cases k with
      | zero => simpa using toInt_inRange d
      | succ k =>
        have htotal := htotals k
        rwa [hadd, add_assoc, ← List.sum_cons, ← List.take_succ_cons] at htotal
    · rintro ⟨⟨hc, hcs⟩, htotals⟩
      have hnext : InRange (d.toInt + c) := by simpa using htotals 1
      have hadd : (d + Int64.ofInt c).toInt = d.toInt + c := by
        rw [add_ofInt]
        exact toInt_ofInt_iff.mpr hnext
      rw [toInt_ofInt_iff.mpr hc]
      refine ⟨hc, hadd, hcs, fun k => ?_⟩
      have htotal := htotals (k + 1)
      rwa [List.take_succ_cons, List.sum_cons, ← add_assoc, ← hadd] at htotal

theorem adjustDuration_component (d : ℤ) (field : List Char × ℕ) :
    adjustDuration (Int64.ofInt d) field.1 field.2 =
      (component field).map (fun c => Int64.ofInt (d + c)) := by
  rw [adjustDuration, component]
  split
  · simp [pure, Except.pure, Except.map]
  · cases atoi field.1 with
    | error e => rfl
    | ok i =>
      simp only [bind, Except.bind, pure, Except.pure, Except.map, nanoseconds, Int64.ofInt_add,
        Int64.ofInt_mul]

theorem adjust_fields {fields : List (List Char × ℕ)} {d : ℤ} {result : Interval} :
    fields.foldlM (fun d field => adjustDuration d field.1 field.2) (Int64.ofInt d) = .ok result ↔
      ∃ cs, fields.mapM component = .ok cs ∧ result = Int64.ofInt (d + cs.sum) := by
  induction fields generalizing d with
  | nil => simp [pure, Except.pure, eq_comm]
  | cons field fields ih =>
    rw [List.foldlM_cons, List.mapM_cons, adjustDuration_component]
    cases component field with
    | error e => simp [Except.map, bind, Except.bind]
    | ok c =>
      simp only [Except.map, bind, Except.bind]
      rw [ih]
      cases fields.mapM component with
      | error e => simp
      | ok cs => simp [pure, Except.pure, add_assoc]

theorem duration_ok {m : Matches} {result : Interval} : m.duration = .ok result ↔
    ∃ cs, m.components = .ok cs ∧ result = Int64.ofInt cs.sum := by
  have hfields := @adjust_fields m.fields 0 result
  simp only [zero_add] at hfields
  have hcomponents : ∀ cs, m.components = .ok cs ↔
      ¬9 < m.subseconds.length ∧ m.fields.mapM component = .ok cs := by
    intro cs
    rw [Matches.components, bind_ok]
    simp only [failWhen_ok, exists_const]
  have hduration : m.duration = .ok result ↔ ¬9 < m.subseconds.length ∧
      m.fields.foldlM (fun d field => adjustDuration d field.1 field.2) (Int64.ofInt 0) =
        .ok result := by
    simp only [Matches.duration, Matches.fields, List.foldlM_cons, List.foldlM_nil]
    by_cases hnil : m.subseconds = []
    · simp [hnil, adjustDuration]
    · by_cases hlen : 9 < m.subseconds.length
      · simp only [if_neg hnil, bind_ok, failWhen_ok]
        simp [hlen]
      · simp only [if_neg hnil, bind_ok, failWhen_ok, hlen]
        simp
  rw [hduration, hfields]
  constructor
  · rintro ⟨hlen, cs, hcs, hresult⟩
    exact ⟨cs, (hcomponents cs).mpr ⟨hlen, hcs⟩, hresult⟩
  · rintro ⟨cs, hcs, hresult⟩
    obtain ⟨hlen, hmap⟩ := (hcomponents cs).mp hcs
    exact ⟨hlen, cs, hmap, hresult⟩

theorem exact_matches {s : List Char} {m : Matches} (hm : pgIntervalRegexp s = some m) :
    Exact s ↔ Fits s := by
  have hparse : parsePostgreSQLInterval s = m.duration := by rw [parsePostgreSQLInterval, hm]
  have hcomponents : ∀ cs, components s = some cs ↔ m.components = .ok cs := by
    intro cs
    simp only [components, hm]
    generalize m.components = r
    cases r <;> simp [Except.toOption]
  have hunwrapped : ∀ cs : List ℤ, Unwrapped 0 cs ↔
      (∀ c ∈ cs, InRange c) ∧ ∀ k, InRange (cs.take k).sum := by
    intro cs
    rw [unwrapped_iff]
    simp
  rw [Exact, Fits, hm, hparse]
  constructor
  · intro h cs hcs
    obtain ⟨cs', hcs', -, hno⟩ := h _ (duration_ok.mpr ⟨cs, hcs, rfl⟩)
    rw [hcomponents, hcs] at hcs'
    cases hcs'
    exact (hunwrapped cs).mp (hno rfl)
  · intro h result hresult
    obtain ⟨cs, hcs, hval⟩ := duration_ok.mp hresult
    have hfits := h cs hcs
    refine ⟨cs, (hcomponents cs).mpr hcs, ?_, fun _ => (hunwrapped cs).mpr hfits⟩
    have htotal := hfits.2 cs.length
    rw [List.take_length] at htotal
    rw [hval]
    exact toInt_ofInt_iff.mpr htotal

theorem sum_signed (neg : Bool) (vs : List ℕ) :
    (vs.map (signed neg)).sum = signed neg vs.sum := by
  induction vs with
  | nil => cases neg <;> rfl
  | cons v vs ih =>
    rw [List.map_cons, List.sum_cons, List.sum_cons, ih]
    cases neg with
    | true =>
      simp only [signed, if_true]
      push_cast
      ring
    | false =>
      simp only [signed, Bool.false_eq_true, if_false]
      push_cast
      ring

theorem signed_injective {neg : Bool} {m n : ℕ} (h : signed neg m = signed neg n) : m = n := by
  cases neg with
  | true =>
    simp only [signed, if_true] at h
    omega
  | false =>
    simp only [signed, Bool.false_eq_true, if_false] at h
    omega

theorem accepted_iff {neg : Bool} {vs : List ℕ} :
    ¬Refused neg vs ↔ Passes 0 vs ∧ (neg = false → vs.sum % 2 ^ 64 ≠ 2 ^ 63) := by
  simp only [Refused, Passes, not_or, not_exists, not_and, Nat.not_lt, Nat.zero_add]

theorem accepted_range {neg : Bool} {n : ℕ} (h : n ≤ 2 ^ 63) (hmax : neg = false → n ≠ 2 ^ 63) :
    (Int64.ofInt (signed neg n)).toInt = signed neg n := by
  apply toInt_ofInt_iff.mpr
  cases neg with
  | true =>
    simp only [signed, if_true]
    constructor <;> omega
  | false =>
    have hne := hmax rfl
    simp only [signed, Bool.false_eq_true, if_false]
    constructor <;> omega

theorem exact_parts {s : List Char} (hm : pgIntervalRegexp s = none) : Exact s ↔ Fits s := by
  have hparse : ∀ result, parsePostgreSQLInterval s = .ok result ↔
      ∃ d, parseDuration s = some d ∧ result = Int64.ofInt d := by
    intro result
    rw [parsePostgreSQLInterval, hm]
    cases parseDuration s <;> simp [eq_comm]
  have hcomponents : ∀ cs, components s = some cs ↔
      ∃ vs, parts s = some vs ∧ vs.map (signed (sign s).1) = cs := by
    intro cs
    simp only [components, hm, Option.map_eq_some_iff]
  have hbound : ∀ vs : List ℕ, Passes 0 vs → vs.sum % 2 ^ 64 ≤ 2 ^ 63 := by
    intro vs hpasses
    have htotal := hpasses vs.length
    rwa [List.take_length, Nat.zero_add] at htotal
  rw [Exact, Fits, hm]
  simp only [hparse, parseDuration_some, hcomponents, Option.isSome_none, Bool.false_eq_true,
    false_implies, and_true]
  constructor
  · intro h vs hvs
    by_contra hcon
    rw [not_or, accepted_iff] at hcon
    obtain ⟨hover, hpasses, hmax⟩ := hcon
    obtain ⟨cs, ⟨vs', hvs', rfl⟩, hsum⟩ := h _ ⟨_, ⟨vs, hvs, hpasses, hmax, rfl⟩, rfl⟩
    rw [hvs] at hvs'
    cases hvs'
    rw [accepted_range (hbound vs hpasses) hmax, sum_signed] at hsum
    have hmod := signed_injective hsum
    have htotal := hbound vs hpasses
    omega
  · rintro h result ⟨d, ⟨vs, hvs, hpasses, hmax, rfl⟩, rfl⟩
    refine ⟨_, ⟨vs, hvs, rfl⟩, ?_⟩
    have hfits : vs.sum ≤ 2 ^ 63 := (h vs hvs).resolve_right (accepted_iff.mpr ⟨hpasses, hmax⟩)
    have hmod : vs.sum % 2 ^ 64 = vs.sum := Nat.mod_eq_of_lt (by omega)
    rw [accepted_range (hbound vs hpasses) hmax, sum_signed, hmod]

/-- The duration is the sum of its components where the products and the
running totals are in range. -/
theorem exact_iff (s : List Char) : Exact s ↔ Fits s := by
  cases hm : pgIntervalRegexp s with
  | some m => exact exact_matches hm
  | none => exact exact_parts hm

/-- Three hundred years are more than 64 bits hold. -/
theorem years_wrapped :
    parsePostgreSQLInterval "300 years 00:00:00".toList = .ok (-8985944073709551616) ∧
      ¬∀ s, Exact s := by
  have hparse : parsePostgreSQLInterval "300 years 00:00:00".toList =
      .ok (-8985944073709551616) := by decide +kernel
  have hcomponents : components "300 years 00:00:00".toList =
      some [9460800000000000000, 0, 0, 0, 0, 0, 0] := by decide +kernel
  constructor
  · exact hparse
  · intro h
    obtain ⟨cs, hcs, hsum, -⟩ := h _ _ hparse
    rw [hcomponents] at hcs
    cases hcs
    exact absurd hsum (by decide)

end Mmmbbb.Intervals
