import Mmmbbb.Programs
import Mmmbbb.Durations

/-!
# Intervals in the database

An interval goes into the database as the text of a duration. It comes back in
the format of the database, or as it went in. The sign of a time stands before
its hours, and is taken for theirs alone.
-/

set_option autoImplicit false

namespace Mmmbbb.Intervals
open Programs Decimals Durations

abbrev Interval := Int64

def nanoseconds (n : ℕ) : Interval := Int64.ofInt n

def second : ℕ := 10 ^ 9
def minute : ℕ := 60 * second
def hour : ℕ := 60 * minute
def day : ℕ := 24 * hour
def month : ℕ := 30 * day
def year : ℕ := 365 * day

structure Matches where
  years : List Char
  months : List Char
  days : List Char
  hours : List Char
  minutes : List Char
  seconds : List Char
  subseconds : List Char

def signedDigits (s : List Char) : Option (List Char × List Char) :=
  let (mark, rest) := match s with
    | '-' :: rest => (['-'], rest)
    | '+' :: rest => (['+'], rest)
    | rest => ([], rest)
  if rest.takeWhile Char.isDigit = [] then none
  else some (mark ++ rest.takeWhile Char.isDigit, rest.dropWhile Char.isDigit)

def literal (t s : List Char) : Option (List Char) :=
  if t.isPrefixOf s then some (s.drop t.length) else none

/-- A count with its unit, or nothing; what follows tells which, so that it is
never tried the other way. -/
def optionalCount (unit : String) (s : List Char) : List Char × List Char :=
  let found := do
    let (count, rest) ← signedDigits s
    let rest ← literal (' ' :: unit.toList) rest
    let rest ← literal [' '] ((literal ['s'] rest).getD rest)
    pure (count, rest)
  found.getD ([], s)

def optionalSubseconds : List Char → Option (List Char)
  | [] => some []
  | '.' :: digits => if digits ≠ [] ∧ digits.all Char.isDigit then some digits else none
  | _ => none

def pgIntervalRegexp (s : List Char) : Option Matches := do
  let (years, s) := optionalCount "year" s
  let (months, s) := optionalCount "mon" s
  let (days, s) := optionalCount "day" s
  let (hours, s) ← signedDigits s
  let s ← literal [':'] s
  let (minutes, s) ← signedDigits s
  let s ← literal [':'] s
  let (seconds, s) ← signedDigits s
  let subseconds ← optionalSubseconds s
  pure ⟨years, months, days, hours, minutes, seconds, subseconds⟩

def atoi (value : List Char) : Except String ℤ := do
  let (neg, digits) := sign value
  failWhen (digits = [] ∨ ¬ digits.all Char.isDigit) "invalid syntax"
  let i : ℤ := if neg then -(read digits : ℤ) else read digits
  failWhen (i < -2 ^ 63 ∨ 2 ^ 63 ≤ i) "value out of range"
  pure i

def adjustDuration (d : Interval) (value : List Char) (scale : ℕ) : Except String Interval :=
  if value = [] then pure d
  else do
    let i ← atoi value
    pure (d + Int64.ofInt i * nanoseconds scale)

def Matches.duration (m : Matches) : Except String Interval := do
  let result ← adjustDuration 0 m.years year
  let result ← adjustDuration result m.months month
  let result ← adjustDuration result m.days day
  let result ← adjustDuration result m.hours hour
  let result ← adjustDuration result m.minutes minute
  let result ← adjustDuration result m.seconds second
  if m.subseconds = [] then pure result
  else do
    failWhen (9 < m.subseconds.length) "cannot parse beyond nanosecond resolution"
    adjustDuration result m.subseconds (second / 10 ^ m.subseconds.length)

def parsePostgreSQLInterval (s : List Char) : Except String Interval :=
  match pgIntervalRegexp s with
  | some m => m.duration
  | none =>
    match parseDuration s with
    | none => .error "unrecognized interval format"
    | some d => .ok (Int64.ofInt d)

inductive Src
  | duration (d : Int64)
  | int64 (i : Int64)
  | string (s : String)
  | null
  | unsupported (type : String)

def value (i : Interval) : Src := .string (String.ofList (Durations.string i.toInt))

def scan : Src → Except String Interval
  | .duration d => .ok d
  | .int64 i => .ok i
  | .string s => parsePostgreSQLInterval s.toList
  | .null => .ok 0
  | .unsupported type => .error ("unsupported scan type: " ++ type)

/-- A time as it is stored, in microseconds: the sign is that of the whole. -/
structure Stored where
  minus : Bool
  hours : ℕ
  minutes : ℕ
  seconds : ℕ
  digits : ℕ
  fraction : ℕ
  minutes_lt : minutes < 60
  seconds_lt : seconds < 60
  digits_le : digits ≤ 6
  fraction_lt : fraction < 10 ^ digits

def clock (n : ℕ) : List Char := if n < 100 then padded 2 n else decimal n

def Stored.text (t : Stored) : List Char :=
  (if t.minus then ['-'] else []) ++ (clock t.hours ++ (':' :: (clock t.minutes ++
    (':' :: (clock t.seconds ++ Durations.fraction t.digits t.fraction)))))

def Stored.rest (t : Stored) : ℕ :=
  t.minutes * minute + t.seconds * second + t.fraction * (second / 10 ^ t.digits)

def Stored.value (t : Stored) : ℤ :=
  if t.minus then -(t.hours * hour + t.rest : ℤ) else t.hours * hour + t.rest

theorem clock_digits (n : ℕ) : AllDigits (clock n) := by
  unfold clock
  split
  · exact padded_digits 2 n
  · exact decimal_digits n

theorem clock_ne_nil (n : ℕ) : clock n ≠ [] := by
  unfold clock
  split
  · exact padded_ne_nil (by decide) n
  · exact decimal_ne_nil n

theorem read_clock (n : ℕ) : read (clock n) = n := by
  unfold clock
  split
  · rename_i h
    exact read_padded (by omega)
  · exact read_decimal n

theorem digits_head {ds : List Char} (hds : AllDigits ds) (hne : ds ≠ []) :
    ∃ c cs, ds = c :: cs ∧ c.isDigit = true ∧ c ≠ '-' ∧ c ≠ '+' := by
  cases hcase : ds with
  | nil => exact absurd hcase hne
  | cons c cs =>
    have hc : c.isDigit = true := hds c (by simp [hcase])
    refine ⟨c, cs, rfl, hc, ?_, ?_⟩ <;> (rintro rfl; exact absurd hc (by decide))

def mark (minus : Bool) : List Char := if minus then ['-'] else []

theorem signedDigits_eq {minus : Bool} {ds rest : List Char} (hds : AllDigits ds) (hne : ds ≠ [])
    (hrest : EndsNumber rest) :
    signedDigits (mark minus ++ (ds ++ rest)) = some (mark minus ++ ds, rest) := by
  have htake := takeWhile_digits hds hrest
  have hdrop := dropWhile_digits hds hrest
  cases minus with
  | true => simp [signedDigits, mark, htake, hdrop, hne]
  | false =>
    obtain ⟨c, cs, rfl, -, hminus, hplus⟩ := digits_head hds hne
    simp only [mark, Bool.false_eq_true, if_false, List.nil_append,
      List.cons_append] at htake hdrop ⊢
    unfold signedDigits
    split
    rename_i m r heq
    split at heq
    · rename_i hc
      cases hc
      exact absurd rfl hminus
    · rename_i hc
      cases hc
      exact absurd rfl hplus
    · cases heq
      simp [htake, hdrop]

theorem atoi_eq {minus : Bool} {ds : List Char} (hds : AllDigits ds) (hne : ds ≠ [])
    (hread : read ds < 2 ^ 63) :
    atoi (mark minus ++ ds) = .ok (if minus then -(read ds : ℤ) else read ds) := by
  have hall : ds.all Char.isDigit = true := List.all_eq_true.mpr hds
  cases minus with
  | true =>
    have hrange : ¬ (-(read ds : ℤ) < -2 ^ 63 ∨ (2 : ℤ) ^ 63 ≤ -(read ds : ℤ)) := by omega
    simp only [atoi, mark, if_true, List.singleton_append, sign, failWhen, hne, hall,
      not_true_eq_false, or_self, if_false, if_neg hrange]
    rfl
  | false =>
    obtain ⟨c, cs, rfl, -, hminus, hplus⟩ := digits_head hds hne
    have hrange : ¬ ((read (c :: cs) : ℤ) < -2 ^ 63 ∨ (2 : ℤ) ^ 63 ≤ (read (c :: cs) : ℤ)) := by
      omega
    have hsign : sign (c :: cs) = (false, c :: cs) := by
      unfold sign
      split
      · rename_i hc
        cases hc
        exact absurd rfl hminus
      · rename_i hc
        cases hc
        exact absurd rfl hplus
      · rfl
    simp only [atoi, mark, Bool.false_eq_true, if_false, List.nil_append, hsign, failWhen, hall,
      not_true_eq_false, or_false, if_neg hrange, reduceCtorEq]
    rfl

theorem endsNumber_colon (rest : List Char) : EndsNumber (':' :: rest) := by
  intro c hc
  obtain rfl : ':' = c := Option.some.inj hc
  rfl

theorem literal_colon (rest : List Char) : literal [':'] (':' :: rest) = some rest := by
  simp [literal]

theorem optionalCount_colon {minus : Bool} {ds rest : List Char} (unit : String)
    (hds : AllDigits ds) (hne : ds ≠ []) :
    optionalCount unit (mark minus ++ (ds ++ (':' :: rest))) =
      ([], mark minus ++ (ds ++ (':' :: rest))) := by
  have hdigits := @signedDigits_eq minus _ _ hds hne (endsNumber_colon rest)
  have hno : literal (' ' :: unit.toList) (':' :: rest) = none := by
    simp [literal]
  simp only [optionalCount, hdigits, hno, bind, Option.bind, Option.getD_none]

theorem optionalSubseconds_eq {k f : ℕ} :
    optionalSubseconds (Durations.fraction k f) = some (padded k f) := by
  by_cases h0 : k = 0
  · subst h0
    rfl
  · have hne := padded_ne_nil (Nat.pos_of_ne_zero h0) f
    have hall : (padded k f).all Char.isDigit = true := List.all_eq_true.mpr (padded_digits k f)
    simp [Durations.fraction, h0, optionalSubseconds, hne, hall]

theorem endsNumber_fraction (k f : ℕ) : EndsNumber (Durations.fraction k f) := by
  intro c hc
  unfold Durations.fraction at hc
  split at hc
  · cases hc
  · obtain rfl : '.' = c := Option.some.inj hc
    rfl

theorem pgIntervalRegexp_text (t : Stored) :
    pgIntervalRegexp t.text = some ⟨[], [], [], mark t.minus ++ clock t.hours, clock t.minutes,
      clock t.seconds, padded t.digits t.fraction⟩ := by
  have htext : t.text = mark t.minus ++ (clock t.hours ++ (':' :: (clock t.minutes ++
    (':' :: (clock t.seconds ++ Durations.fraction t.digits t.fraction))))) := rfl
  have hours := @signedDigits_eq t.minus _ _ (clock_digits t.hours) (clock_ne_nil _)
    (endsNumber_colon (clock t.minutes ++
      (':' :: (clock t.seconds ++ Durations.fraction t.digits t.fraction))))
  have minutes := @signedDigits_eq false _ _ (clock_digits t.minutes) (clock_ne_nil _)
    (endsNumber_colon (clock t.seconds ++ Durations.fraction t.digits t.fraction))
  have seconds := @signedDigits_eq false _ _ (clock_digits t.seconds) (clock_ne_nil _)
    (endsNumber_fraction t.digits t.fraction)
  simp only [mark, Bool.false_eq_true, if_false, List.nil_append] at minutes seconds
  rw [htext]
  simp only [pgIntervalRegexp, optionalCount_colon _ (clock_digits t.hours) (clock_ne_nil _), hours,
    literal_colon, minutes, seconds, optionalSubseconds_eq, bind, Option.bind, pure]

theorem adjustDuration_nil (d : ℤ) (scale : ℕ) :
    adjustDuration (Int64.ofInt d) [] scale = .ok (Int64.ofInt d) := rfl

theorem adjustDuration_eq {minus : Bool} {ds : List Char} {d : ℤ} {scale : ℕ} (hds : AllDigits ds)
    (hne : ds ≠ []) (hread : read ds < 2 ^ 63) :
    adjustDuration (Int64.ofInt d) (mark minus ++ ds) scale =
      .ok (Int64.ofInt (d + (if minus then -(read ds : ℤ) else read ds) * scale)) := by
  have hne' : mark minus ++ ds ≠ [] := by simp [hne]
  rw [adjustDuration, if_neg hne', atoi_eq hds hne hread]
  simp only [bind, Except.bind, pure, Except.pure, nanoseconds, Int64.ofInt_add, Int64.ofInt_mul]

/-- What is read: the sign of the hours is theirs alone. -/
def Stored.readAs (t : Stored) : ℤ :=
  (if t.minus then -(t.hours : ℤ) else t.hours) * hour + t.rest

theorem adjust_hours (t : Stored) (h : t.hours < 2 ^ 63) (d : ℤ) :
    adjustDuration (Int64.ofInt d) (mark t.minus ++ clock t.hours) hour =
      .ok (Int64.ofInt (d + (if t.minus then -(t.hours : ℤ) else t.hours) * hour)) := by
  have heq := @adjustDuration_eq t.minus _ d hour (clock_digits t.hours)
    (clock_ne_nil _) (by rw [read_clock]; exact h)
  rwa [read_clock] at heq

theorem adjust_clock {n : ℕ} (hn : n < 60) (d : ℤ) (scale : ℕ) :
    adjustDuration (Int64.ofInt d) (clock n) scale = .ok (Int64.ofInt (d + n * scale)) := by
  have heq := @adjustDuration_eq false _ d scale (clock_digits n)
    (clock_ne_nil _) (by rw [read_clock]; omega)
  rw [read_clock] at heq
  exact heq

theorem adjust_fraction {k f : ℕ} (hk : 0 < k) (hk6 : k ≤ 6) (hf : f < 10 ^ k) (d : ℤ)
    (scale : ℕ) : adjustDuration (Int64.ofInt d) (padded k f) scale =
      .ok (Int64.ofInt (d + f * scale)) := by
  have hpow : (10 : ℕ) ^ k ≤ 10 ^ 6 := Nat.pow_le_pow_right (by decide) hk6
  have heq := @adjustDuration_eq false _ d scale (padded_digits k f)
    (padded_ne_nil hk f) (by rw [read_padded hf]; omega)
  rw [read_padded hf] at heq
  exact heq

theorem scan_text {t : Stored} (h : t.hours < 2 ^ 63) :
    scan (.string (String.ofList t.text)) = .ok (Int64.ofInt t.readAs) := by
  simp only [scan, parsePostgreSQLInterval, String.toList_ofList, pgIntervalRegexp_text]
  refine bind_ok.mpr ⟨_, adjustDuration_nil 0 year, ?_⟩
  refine bind_ok.mpr ⟨_, adjustDuration_nil 0 month, ?_⟩
  refine bind_ok.mpr ⟨_, adjustDuration_nil 0 day, ?_⟩
  refine bind_ok.mpr ⟨_, adjust_hours t h 0, ?_⟩
  refine bind_ok.mpr ⟨_, adjust_clock t.minutes_lt _ minute, ?_⟩
  refine bind_ok.mpr ⟨_, adjust_clock t.seconds_lt _ second, ?_⟩
  by_cases hk : t.digits = 0
  · have hf0 : t.fraction = 0 := by
      have hfrac := t.fraction_lt
      rw [hk] at hfrac
      simpa using hfrac
    have hpad : padded t.digits t.fraction = [] := by
      rw [hk]
      rfl
    have hsum : 0 + (if t.minus then -(t.hours : ℤ) else t.hours) * hour + t.minutes * minute +
        t.seconds * second = t.readAs := by
      simp only [Stored.readAs, Stored.rest, hf0]
      push_cast
      ring
    rw [if_pos hpad, hsum]
    rfl
  · have hpos : 0 < t.digits := Nat.pos_of_ne_zero hk
    have hne := padded_ne_nil hpos t.fraction
    have hlen : ¬ 9 < (padded t.digits t.fraction).length := by
      have hdig := t.digits_le
      rw [padded_length]
      omega
    have hsum : 0 + (if t.minus then -(t.hours : ℤ) else t.hours) * hour + t.minutes * minute +
        t.seconds * second + t.fraction * (second / 10 ^ t.digits : ℕ) = t.readAs := by
      simp only [Stored.readAs, Stored.rest]
      push_cast
      ring
    rw [if_neg hne]
    refine bind_ok.mpr ⟨(), failWhen_ok.mpr hlen, ?_⟩
    rw [padded_length, adjust_fraction hpos t.digits_le t.fraction_lt, hsum]

theorem signedDigits_suffix {s ds rest : List Char} (h : signedDigits s = some (ds, rest)) :
    rest <:+ s := by
  unfold signedDigits at h
  split at h
  rename_i m r heq
  have hr : r <:+ s := by
    split at heq <;> cases heq
    · exact List.suffix_cons _ _
    · exact List.suffix_cons _ _
    · exact List.suffix_refl _
  split at h
  · cases h
  · cases h
    exact (List.dropWhile_suffix _).trans hr

theorem literal_suffix {t s rest : List Char} (h : literal t s = some rest) : rest <:+ s := by
  unfold literal at h
  split at h
  · cases h
    exact List.drop_suffix _ _
  · cases h

theorem optionalCount_suffix (unit : String) (s : List Char) : (optionalCount unit s).2 <:+ s := by
  unfold optionalCount
  cases hfound : (do
    let (count, rest) ← signedDigits s
    let rest ← literal (' ' :: unit.toList) rest
    let rest ← literal [' '] ((literal ['s'] rest).getD rest)
    pure (count, rest)) with
  | none => exact List.suffix_refl _
  | some found =>
    obtain ⟨⟨count, rest⟩, hdigits, hfound⟩ := Option.bind_eq_some_iff.mp hfound
    obtain ⟨rest', hunit, hfound⟩ := Option.bind_eq_some_iff.mp hfound
    obtain ⟨rest'', hspace, hfound⟩ := Option.bind_eq_some_iff.mp hfound
    cases hfound
    have hplural : (literal ['s'] rest').getD rest' <:+ rest' := by
      cases hs : literal ['s'] rest' with
      | none => exact List.suffix_refl _
      | some r => exact literal_suffix hs
    exact ((literal_suffix hspace).trans hplural).trans
      ((literal_suffix hunit).trans (signedDigits_suffix hdigits))

theorem pgIntervalRegexp_none {s : List Char} (h : ':' ∉ s) : pgIntervalRegexp s = none := by
  cases hm : pgIntervalRegexp s with
  | none => rfl
  | some m =>
    obtain ⟨⟨hours, rest⟩, hhours, hm⟩ := Option.bind_eq_some_iff.mp hm
    obtain ⟨rest', hcolon, -⟩ := Option.bind_eq_some_iff.mp hm
    have hsuffix := (signedDigits_suffix hhours).trans ((optionalCount_suffix "day" _).trans
      ((optionalCount_suffix "mon" _).trans (optionalCount_suffix "year" s)))
    have hin : ':' ∈ rest := by
      unfold literal at hcolon
      split at hcolon
      · rename_i hpre
        exact (List.isPrefixOf_iff_prefix.mp hpre).subset (by simp)
      · cases hcolon
    exact absurd (hsuffix.subset hin) h

theorem unit_no_colon {u : List Char} {n : ℕ} (h : unitMap.lookup u = some n) : ':' ∉ u := by
  have hall : ∀ e ∈ unitMap, ':' ∉ e.1 := by decide
  obtain ⟨before, after, heq, -⟩ := List.lookup_eq_some_iff.mp h
  exact hall (u, n) (by simp [heq])

theorem digits_no_colon {ds : List Char} (h : AllDigits ds) : ':' ∉ ds :=
  fun hin => absurd (h ':' hin) (by decide)

theorem reads_no_colon {s : List Char} {d : ℕ} (h : Reads s d) : ':' ∉ s := by
  induction h with
  | nil => simp
  | @unit v f k unit d u rest hunit hf hrest ih =>
    have hnum := digits_no_colon (decimal_digits v)
    have hpad := digits_no_colon (padded_digits k f)
    have hname := unit_no_colon hunit.lookup
    have hfrac : ':' ∉ fraction k f := by
      unfold fraction
      split
      · simp
      · simpa using hpad
    simp [hnum, hfrac, hname, ih]

theorem string_no_colon (d : ℤ) : ':' ∉ Durations.string d := by
  have h := reads_no_colon (format_reads d.natAbs)
  unfold Durations.string
  split
  · simpa using h
  · exact h

theorem scan_value (i : Interval) : scan (value i) = .ok i := by
  simp only [scan, value, String.toList_ofList, parsePostgreSQLInterval,
    pgIntervalRegexp_none (string_no_colon i.toInt),
    parseDuration_string i.le_toInt i.toInt_lt, Int64.ofInt_toInt]

/-- Where it comes back in the format of the database, and where it comes back
as it went in. -/
def Survives (i : Interval) : Prop :=
  (1000 ∣ i.toInt → ∀ t : Stored, t.value = i.toInt →
    scan (.string (String.ofList t.text)) = .ok i) ∧
  scan (value i) = .ok i

def stored (d : ℤ) : Stored where
  minus := decide (d < 0)
  hours := d.natAbs / hour
  minutes := d.natAbs / minute % 60
  seconds := d.natAbs / second % 60
  digits := 6
  fraction := d.natAbs / 1000 % 10 ^ 6
  minutes_lt := Nat.mod_lt _ (by decide)
  seconds_lt := Nat.mod_lt _ (by decide)
  digits_le := le_refl 6
  fraction_lt := Nat.mod_lt _ (by decide)

theorem stored_value {d : ℤ} (h : 1000 ∣ d) : (stored d).value = d := by
  have hsum : (stored d).hours * hour + (stored d).rest = d.natAbs := by
    simp only [stored, Stored.rest, hour, minute, second]
    omega
  have hcast : ((stored d).hours * hour + (stored d).rest : ℤ) = d.natAbs := by
    exact_mod_cast hsum
  have hminus : (stored d).minus = decide (d < 0) := rfl
  rw [Stored.value, hcast, hminus]
  by_cases hneg : d < 0
  · simp only [hneg, decide_true, if_true]
    omega
  · simp only [hneg, decide_false, Bool.false_eq_true, if_false]
    omega

theorem rest_lt (t : Stored) : t.rest < hour := by
  have hmin := t.minutes_lt
  have hsec := t.seconds_lt
  have hfrac : t.fraction * (second / 10 ^ t.digits) < second := by
    have hdvd : 10 ^ t.digits ∣ second := Nat.pow_dvd_pow 10 (by have hle := t.digits_le; omega)
    have hpos : 0 < second / 10 ^ t.digits :=
      Nat.div_pos (Nat.le_of_dvd (by decide) hdvd) (Nat.pow_pos (by decide))
    calc t.fraction * (second / 10 ^ t.digits)
        < 10 ^ t.digits * (second / 10 ^ t.digits) := Nat.mul_lt_mul_of_pos_right t.fraction_lt hpos
      _ = second := Nat.mul_div_cancel' hdvd
  simp only [Stored.rest, hour, minute] at hfrac ⊢
  simp only [second] at hfrac ⊢
  omega

theorem hours_bound {t : Stored} {i : Interval} (h : t.value = i.toInt) : t.hours < 2 ^ 62 := by
  have hlow := i.le_toInt
  have hhigh := i.toInt_lt
  unfold Stored.value at h
  simp only [hour, minute, second] at h
  split at h
  · push_cast at h
    omega
  · push_cast at h
    omega

theorem readAs_eq_value (t : Stored) :
    t.readAs = t.value ↔ t.minus = false ∨ t.rest = 0 := by
  unfold Stored.readAs Stored.value
  cases t.minus with
  | false => simp
  | true =>
    simp only [if_true, reduceCtorEq, false_or]
    constructor
    · intro h
      have hrest : (t.rest : ℤ) = 0 := by linarith
      exact_mod_cast hrest
    · intro h
      rw [h]
      ring

theorem readAs_range {t : Stored} {i : Interval} (h : t.value = i.toInt) :
    -2 ^ 63 ≤ t.readAs ∧ t.readAs < 2 ^ 63 := by
  have hlow := i.le_toInt
  have hhigh := i.toInt_lt
  have hrest := rest_lt t
  have hhours := hours_bound h
  unfold Stored.value at h
  unfold Stored.readAs
  simp only [hour, minute, second] at h hrest ⊢
  cases hminus : t.minus with
  | false =>
    simp only [hminus, Bool.false_eq_true, if_false] at h ⊢
    push_cast at h ⊢
    omega
  | true =>
    simp only [hminus, if_true] at h ⊢
    push_cast at h ⊢
    omega

theorem scan_stored {t : Stored} {i : Interval} (h : t.value = i.toInt) :
    scan (.string (String.ofList t.text)) = .ok i ↔ t.minus = false ∨ t.rest = 0 := by
  have hbound := hours_bound h
  rw [scan_text (by omega), ← readAs_eq_value, h]
  constructor
  · intro hi
    obtain ⟨hlow, hhigh⟩ := readAs_range h
    rw [← Except.ok.inj hi, Int64.toInt_ofInt_of_le hlow hhigh]
  · intro hread
    rw [hread, Int64.ofInt_toInt]

/-- An interval survives when it is not negative, is a whole number of hours,
or is not stored in full. -/
theorem interval_survives (i : Interval) :
    Survives i ↔ (1000 ∣ i.toInt → 0 ≤ i.toInt ∨ (hour : ℤ) ∣ i.toInt) := by
  constructor
  · intro h hdvd
    have hvalue := stored_value hdvd
    rcases (scan_stored hvalue).mp (h.1 hdvd _ hvalue) with hminus | hrest
    · left
      have hneg : ¬ i.toInt < 0 := of_decide_eq_false hminus
      omega
    · right
      rw [← hvalue, Stored.value, hrest]
      split
      · exact (Int.dvd_neg).mpr ⟨(stored i.toInt).hours, by push_cast; ring⟩
      · exact ⟨(stored i.toInt).hours, by push_cast; ring⟩
  · intro h
    refine ⟨fun hdvd t hvalue => (scan_stored hvalue).mpr ?_, scan_value i⟩
    cases hminus : t.minus with
    | false => exact Or.inl rfl
    | true =>
      right
      have hrest := rest_lt t
      simp only [Stored.value, hminus, if_true] at hvalue
      rcases h hdvd with hpos | hhour
      · have hsum : (t.hours * hour + t.rest : ℤ) ≤ 0 := by omega
        have hnat : t.hours * hour + t.rest ≤ 0 := by exact_mod_cast hsum
        omega
      · rw [← hvalue, Int.dvd_neg] at hhour
        have hnat : hour ∣ t.hours * hour + t.rest := by exact_mod_cast hhour
        have hdvdrest : hour ∣ t.rest := (Nat.dvd_add_right (Nat.dvd_mul_left _ _)).mp hnat
        exact Nat.eq_zero_of_dvd_of_lt hdvdrest hrest

def minusNinetyMinutes : Stored where
  minus := true
  hours := 1
  minutes := 30
  seconds := 0
  digits := 0
  fraction := 0
  minutes_lt := by decide
  seconds_lt := by decide
  digits_le := by decide
  fraction_lt := by decide

/-- Minus an hour and a half is stored as "-01:30:00", and read as minus half
an hour. -/
theorem interval_lost :
    String.ofList minusNinetyMinutes.text = "-01:30:00" ∧
      scan (.string "-01:30:00") = .ok (-1800000000000) ∧ ¬ ∀ i, Survives i := by
  refine ⟨by decide +kernel, by decide +kernel, fun h => ?_⟩
  have hvalue : minusNinetyMinutes.value = (-5400000000000 : Interval).toInt := by decide
  have hscan := (h (-5400000000000)).1 (by decide) minusNinetyMinutes hvalue
  rw [scan_text (by decide)] at hscan
  exact absurd (Except.ok.inj hscan) (by decide)

end Mmmbbb.Intervals
