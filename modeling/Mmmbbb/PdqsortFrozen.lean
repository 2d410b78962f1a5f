import Mathlib.Data.Nat.Count
import Mathlib.Data.List.Range
import Mmmbbb.Pdqsort

/-!
# Sorting by a comparison that looks at the slice as it was

More than twelve entries are first partitioned, and the comparison goes on
asking about the entry that stood at the front, whatever the chosen one was.
-/

set_option autoImplicit false

namespace Pdqsort

section
variable {α : Type}

@[simp] theorem length_swap (s : List α) (i j : ℕ) : (swap s i j).length = s.length :=
  (swap_perm s i j).length_eq

theorem swap_other (s : List α) {i j p : ℕ} (hi : p ≠ i) (hj : p ≠ j) :
    (swap s i j)[p]? = s[p]? := by
  unfold swap
  split
  · rw [List.getElem?_set_ne hj.symm, List.getElem?_set_ne hi.symm]
  · rfl

theorem swap_second {s : List α} {i j : ℕ} (hi : i < s.length) (hj : j < s.length) :
    (swap s i j)[j]? = s[i]? := by
  simp [swap, hi, hj]

theorem swap_first {s : List α} {i j : ℕ} (hi : i < s.length) (hj : j < s.length) :
    (swap s i j)[i]? = s[j]? := by
  by_cases h : i = j
  · rw [h, swap_second hj hj]
  · simp only [swap, List.getElem?_eq_getElem hi, List.getElem?_eq_getElem hj]
    rw [List.getElem?_set_ne (Ne.symm h), List.getElem?_set_self hi]

/-- Exchanges within `a ≤ · < b` keep the property. -/
def Kept (P : List α → Prop) (a b : ℕ) : Prop :=
  ∀ s i j, a ≤ i → i < b → a ≤ j → j < b → P s → P (swap s i j)

variable {P : List α → Prop} {a b : ℕ} {s : List α}

theorem Kept.within (h : Kept P a b) {c d : ℕ} (hc : a ≤ c) (hd : d ≤ b) : Kept P c d :=
  fun s i j hi hib hj hjb hs =>
    h s i j (hc.trans hi) (hib.trans_le hd) (hc.trans hj) (hjb.trans_le hd) hs

theorem kept_outside {p : ℕ} (x : Option α) (hp : p < a ∨ b ≤ p) :
    Kept (fun s => s[p]? = x) a b := by
  intro s i j hi hib hj hjb hs
  rw [swap_other s (by omega) (by omega), hs]

theorem kept_foldl {γ : Type} {f : List α → γ → List α} {cs : List γ}
    (hstep : ∀ c ∈ cs, ∀ s, P s → P (f s c)) (hs : P s) : P (cs.foldl f s) := by
  induction cs generalizing s with
  | nil => exact hs
  | cons c cs ih =>
    exact ih (fun d hd => hstep d (List.mem_cons_of_mem c hd)) (hstep c (by simp) s hs)

variable (less : Less α)

theorem Kept.siftBack (h : Kept P a b) {j : ℕ} (hj : j < b) (hs : P s) :
    P (siftBack less a j s) := by
  induction j generalizing s with
  | zero => exact hs
  | succ j ih =>
    rw [Pdqsort.siftBack]
    split
    · rename_i hcond
      have haj : a < j + 1 := by simp at hcond; omega
      exact ih (by omega) (h s _ _ (by omega) hj (by omega) (by omega) hs)
    · exact hs

theorem Kept.insertionSort (h : Kept P a b) (hs : P s) : P (insertionSort less a b s) := by
  apply kept_foldl _ hs
  intro i hi s hs
  rw [List.mem_range'_1] at hi
  exact h.siftBack less (by omega) hs

theorem largerChild_lt (lt : ℕ → ℕ → Bool) {hi first root : ℕ} (h : 2 * root + 1 < hi) :
    largerChild lt hi first root < hi := by
  unfold largerChild
  split
  · rename_i hcond
    simp at hcond
    omega
  · exact h

theorem Kept.siftDown (h : Kept P a b) {hi first : ℕ} (hfirst : a ≤ first) (hhi : first + hi ≤ b)
    (n root : ℕ) (hs : P s) : P (siftDown less hi first n root s) := by
  induction n generalizing root s with
  | zero => exact hs
  | succ n ih =>
    rw [Pdqsort.siftDown]
    split
    · exact hs
    · have hchild : largerChild (less s) hi first root < hi := largerChild_lt (less s) (by omega)
      dsimp only
      split
      · exact hs
      · exact ih _ (h s _ _ (by omega) (by omega) (by omega) (by omega) hs)

theorem Kept.heapSort (h : Kept P a b) (hs : P s) : P (heapSort less a b s) := by
  by_cases hab : a < b
  · refine kept_foldl ?_ (kept_foldl ?_ hs)
    · intro i hi s hs
      have hib : i < b - a := by simpa using hi
      exact h.siftDown less (le_refl a) (by omega) _ _
        (h s _ _ (le_refl a) hab (by omega) (by omega) hs)
    · intro i hi s hs
      exact h.siftDown less (le_refl a) (by omega) _ _ hs
  · have hempty : b - a = 0 := by omega
    simpa [Pdqsort.heapSort, hempty, Pdqsort.siftDown] using hs

theorem Kept.reverseRange (h : Kept P a b) (hs : P s) : P (reverseRange a b s) := by
  apply kept_foldl _ hs
  intro n hn s hs
  rw [List.mem_range] at hn
  exact h s _ _ (by omega) (by omega) (by omega) (by omega) hs

theorem other_lt {l : ℕ} (r : ℕ) (hl : 0 < l) :
    (if l ≤ r % 2 ^ l.size then r % 2 ^ l.size - l else r % 2 ^ l.size) < l := by
  have hmod : r % 2 ^ l.size < 2 ^ l.size := Nat.mod_lt _ (Nat.two_pow_pos _)
  have hsize : 0 < l.size := Nat.size_pos.mpr hl
  have hhalf : 2 ^ (l.size - 1) ≤ l := Nat.lt_size.mp (by omega)
  have hdouble : 2 ^ l.size = 2 * 2 ^ (l.size - 1) := by
    rw [← pow_succ', Nat.sub_add_cancel hsize]
  split <;> omega

theorem Kept.breakPatterns (h : Kept P a b) (hs : P s) : P (breakPatterns a b s) := by
  unfold Pdqsort.breakPatterns
  dsimp only
  split
  · exact hs
  · have hother := fun r : ℕ => other_lt (l := b - a) r (by omega)
    refine h _ _ _ (by omega) (by omega) (by omega) ?_
      (h _ _ _ (by omega) (by omega) (by omega) ?_
        (h _ _ _ (by omega) (by omega) (by omega) ?_ hs))
    all_goals exact Nat.add_lt_of_lt_sub' (hother _)

theorem Kept.siftUp (h : Kept P a b) {n j : ℕ} (hj : a < j) (hn : j + n ≤ b) (hs : P s) :
    P (siftUp less n j s) := by
  induction n generalizing j s with
  | zero => exact hs
  | succ n ih =>
    rw [Pdqsort.siftUp]
    split
    · exact ih (by omega) (by omega) (h s _ _ (by omega) (by omega) (by omega) (by omega) hs)
    · exact hs

theorem Kept.exchange (h : Kept P (a + 1) b) (up down : List α → ℕ → Bool) (n : ℕ) {i j : ℕ}
    (hi : a < i) (haj : a ≤ j) (hj : j < b) (hs : P s) : P (exchange up down n i j s).2.2 := by
  induction n generalizing i j s with
  | zero => exact hs
  | succ n ih =>
    obtain ⟨hup, hlow, hdown⟩ := scans_bounds up down s hi haj
    rw [Pdqsort.exchange]
    generalize scans up down i j s = r at *
    dsimp only
    split
    · exact hs
    · exact ih (by omega) (by omega) (by omega)
        (h s _ _ (by omega) (by omega) (by omega) (by omega) hs)

theorem partition_exchange (a b pivot : ℕ) (s : List α) :
    let r := exchange (fun s i => less s i a) (fun s j => !less s j a) (b - a + 1) (a + 1) (b - 1)
      (swap s a pivot)
    (partition less a b pivot s).1 = r.2.1 ∧
      (partition less a b pivot s).2.2 = swap r.2.2 r.2.1 a := by
  unfold partition
  rw [exchange]
  dsimp only
  split <;> exact ⟨rfl, rfl⟩

theorem Kept.partition (h : Kept P a b) {pivot : ℕ} (hpivot : a ≤ pivot) (hlt : pivot < b)
    (hs : P s) : P (partition less a b pivot s).2.2 := by
  have hfirst := h s a pivot (le_refl a) (by omega) hpivot hlt hs
  have hinner : Kept P (a + 1) b := h.within (by omega) (le_refl b)
  have hrest := hinner.exchange (fun s i => less s i a) (fun s j => !less s j a) (b - a + 1)
    (i := a + 1) (j := b - 1) (by omega) (by omega) (by omega) hfirst
  have hmid := partition_bounds less (a := a) (b := b) pivot s (by omega)
  obtain ⟨hplace, hslice⟩ := partition_exchange less a b pivot s
  rw [hslice, ← hplace]
  exact h _ _ _ hmid.1 hmid.2 (le_refl a) (by omega) hrest

theorem partitionEqual_after (pivot : ℕ) (s : List α) (h : a < b) :
    a < (partitionEqual less a b pivot s).1 :=
  (exchange_bounds (fun s i => !less s a i) (fun s j => less s a j) (a := a) (b - a)
    (i := a + 1) (j := b - 1) (swap s a pivot) (by omega) (by omega)).1

theorem Kept.partitionEqual (h : Kept P a b) {pivot : ℕ} (hpivot : a ≤ pivot) (hlt : pivot < b)
    (hs : P s) : P (partitionEqual less a b pivot s).2 := by
  have hfirst := h s a pivot (le_refl a) (by omega) hpivot hlt hs
  have hinner : Kept P (a + 1) b := h.within (by omega) (le_refl b)
  exact hinner.exchange (fun s i => !less s a i) (fun s j => less s a j) (b - a)
    (i := a + 1) (j := b - 1) (by omega) (by omega) (by omega) hfirst

end

section
variable (lt : ℕ → ℕ → Bool)

theorem order2_mem (a b swaps : ℕ) :
    ((order2 lt a b swaps).1 = a ∨ (order2 lt a b swaps).1 = b) ∧
      ((order2 lt a b swaps).2.1 = a ∨ (order2 lt a b swaps).2.1 = b) := by
  unfold order2
  split <;> simp

theorem order2_swaps (a b swaps : ℕ) :
    swaps ≤ (order2 lt a b swaps).2.2 ∧ (order2 lt a b swaps).2.2 ≤ swaps + 1 := by
  unfold order2
  split <;> simp

theorem order2_unmoved {a b k : ℕ} (h : (order2 lt a b k).2.2 = k) :
    order2 lt a b k = (a, b, k) ∧ lt b a = false := by
  unfold order2 at h ⊢
  split at h
  · simp at h
  · rename_i hlt
    simp [hlt]

theorem median_eq (a b c swaps : ℕ) : median lt a b c swaps =
    let x := order2 lt a b swaps
    let y := order2 lt x.2.1 c x.2.2
    (order2 lt x.1 y.1 y.2.2).2 := rfl

theorem median_mem (a b c swaps : ℕ) : (median lt a b c swaps).1 = a ∨
    (median lt a b c swaps).1 = b ∨ (median lt a b c swaps).1 = c := by
  have hx := order2_mem lt a b swaps
  rw [median_eq]
  dsimp only
  generalize order2 lt a b swaps = x at *
  have hy := order2_mem lt x.2.1 c x.2.2
  generalize order2 lt x.2.1 c x.2.2 = y at *
  have hz := order2_mem lt x.1 y.1 y.2.2
  omega

theorem median_swaps (a b c swaps : ℕ) : swaps ≤ (median lt a b c swaps).2 ∧
    (median lt a b c swaps).2 ≤ swaps + 3 := by
  have hx := order2_swaps lt a b swaps
  rw [median_eq]
  dsimp only
  generalize order2 lt a b swaps = x at *
  have hy := order2_swaps lt x.2.1 c x.2.2
  generalize order2 lt x.2.1 c x.2.2 = y at *
  have hz := order2_swaps lt x.1 y.1 y.2.2
  omega

theorem median_unmoved {a b c k : ℕ} (h : (median lt a b c k).2 = k) :
    (median lt a b c k).1 = b ∧ lt b a = false := by
  have hx := order2_swaps lt a b k
  rw [median_eq] at h ⊢
  dsimp only at h ⊢
  generalize hfirst : order2 lt a b k = x at *
  have hy := order2_swaps lt x.2.1 c x.2.2
  generalize hsecond : order2 lt x.2.1 c x.2.2 = y at *
  have hz := order2_swaps lt x.1 y.1 y.2.2
  obtain ⟨rfl, hlt⟩ : x = (a, b, k) ∧ lt b a = false :=
    hfirst ▸ order2_unmoved lt (by rw [hfirst]; omega)
  obtain ⟨rfl, -⟩ : y = (b, c, k) ∧ lt c b = false :=
    hsecond ▸ order2_unmoved lt (by rw [hsecond]; omega)
  rw [(order2_unmoved lt h).1]
  exact ⟨rfl, hlt⟩

/-- The three places, and the number of exchanges, that the pivot is taken from. -/
def candidates (a b : ℕ) : ℕ × ℕ × ℕ × ℕ :=
  let i := a + (b - a) / 4 * 1
  let j := a + (b - a) / 4 * 2
  let k := a + (b - a) / 4 * 3
  if b - a < 50 then (i, j, k, 0)
  else
    let x := medianAdjacent lt i 0
    let y := medianAdjacent lt j x.2
    let z := medianAdjacent lt k y.2
    (x.1, y.1, z.1, z.2)

variable {a b : ℕ}

theorem choosePivot_eq (h : 12 < b - a) : choosePivot lt a b =
    let c := candidates lt a b
    let m := median lt c.1 c.2.1 c.2.2.1 c.2.2.2
    (m.1, if m.2 = 0 then .increasing else if m.2 = 12 then .decreasing else .unknown) := by
  have hlong : ¬b - a < 8 := by omega
  by_cases hmany : b - a < 50
  · simp [choosePivot, candidates, hlong, hmany]
  · simp [choosePivot, candidates, hlong, hmany]

theorem choosePivot_bounds (h : 12 < b - a) : a + (b - a) / 4 - 1 ≤ (choosePivot lt a b).1 ∧
    (choosePivot lt a b).1 ≤ a + (b - a) / 4 * 3 + 1 := by
  have hm := median_mem lt (candidates lt a b).1 (candidates lt a b).2.1
    (candidates lt a b).2.2.1 (candidates lt a b).2.2.2
  rw [choosePivot_eq lt h]
  dsimp only
  unfold candidates at *
  split at hm
  · rename_i hshort
    rw [if_pos hshort]
    dsimp only at *
    omega
  · rename_i hmany
    rw [if_neg hmany]
    unfold medianAdjacent at *
    dsimp only at *
    have hi := median_mem lt (a + (b - a) / 4 * 1 - 1) (a + (b - a) / 4 * 1)
      (a + (b - a) / 4 * 1 + 1) 0
    generalize median lt (a + (b - a) / 4 * 1 - 1) _ _ 0 = x at *
    have hj := median_mem lt (a + (b - a) / 4 * 2 - 1) (a + (b - a) / 4 * 2)
      (a + (b - a) / 4 * 2 + 1) x.2
    generalize median lt (a + (b - a) / 4 * 2 - 1) _ _ _ = y at *
    have hk := median_mem lt (a + (b - a) / 4 * 3 - 1) (a + (b - a) / 4 * 3)
      (a + (b - a) / 4 * 3 + 1) y.2
    omega

theorem hint_increasing {swaps : ℕ}
    (h : (if swaps = 0 then Hint.increasing else if swaps = 12 then .decreasing else .unknown) =
      .increasing) : swaps = 0 := by
  split at h
  · assumption
  · split at h <;> cases h

theorem hint_decreasing {swaps : ℕ}
    (h : (if swaps = 0 then Hint.increasing else if swaps = 12 then .decreasing else .unknown) =
      .decreasing) : swaps = 12 := by
  split at h
  · cases h
  · split at h
    · assumption
    · cases h

theorem candidates_unmoved (h : (candidates lt a b).2.2.2 = 0) :
    (candidates lt a b).2.1 = a + (b - a) / 4 * 2 ∧
      (50 ≤ b - a → lt (a + (b - a) / 4) (a + (b - a) / 4 - 1) = false) := by
  unfold candidates at h ⊢
  split at h
  · rename_i hshort
    rw [if_pos hshort]
    exact ⟨rfl, fun hmany => absurd hmany (by omega)⟩
  · rename_i hmany
    rw [if_neg hmany]
    unfold medianAdjacent at *
    dsimp only at *
    have hi := median_swaps lt (a + (b - a) / 4 * 1 - 1) (a + (b - a) / 4 * 1)
      (a + (b - a) / 4 * 1 + 1) 0
    have hfirst := median_unmoved lt (a := a + (b - a) / 4 * 1 - 1) (b := a + (b - a) / 4 * 1)
      (c := a + (b - a) / 4 * 1 + 1) (k := 0)
    generalize median lt (a + (b - a) / 4 * 1 - 1) _ _ 0 = x at *
    have hj := median_swaps lt (a + (b - a) / 4 * 2 - 1) (a + (b - a) / 4 * 2)
      (a + (b - a) / 4 * 2 + 1) x.2
    have hsecond := median_unmoved lt (a := a + (b - a) / 4 * 2 - 1) (b := a + (b - a) / 4 * 2)
      (c := a + (b - a) / 4 * 2 + 1) (k := x.2)
    generalize median lt (a + (b - a) / 4 * 2 - 1) _ _ _ = y at *
    have hk := median_swaps lt (a + (b - a) / 4 * 3 - 1) (a + (b - a) / 4 * 3)
      (a + (b - a) / 4 * 3 + 1) y.2
    rw [Nat.mul_one] at hfirst
    exact ⟨(hsecond (by omega)).1, fun _ => (hfirst (by omega)).2⟩

theorem choosePivot_increasing (hlong : 12 < b - a) (h : (choosePivot lt a b).2 = .increasing) :
    (choosePivot lt a b).1 = a + (b - a) / 4 * 2 ∧
      (50 ≤ b - a → lt (a + (b - a) / 4) (a + (b - a) / 4 - 1) = false) := by
  rw [choosePivot_eq lt hlong] at h ⊢
  dsimp only at h ⊢
  have hzero := hint_increasing h
  have hleast := median_swaps lt (candidates lt a b).1 (candidates lt a b).2.1
    (candidates lt a b).2.2.1 (candidates lt a b).2.2.2
  rw [(median_unmoved lt (hzero.trans (by omega))).1]
  exact candidates_unmoved lt (by omega)

theorem choosePivot_decreasing (hlong : 12 < b - a) (h : (choosePivot lt a b).2 = .decreasing) :
    50 ≤ b - a := by
  rw [choosePivot_eq lt hlong] at h
  have htwelve := hint_decreasing h
  by_contra hshort
  have hmost := median_swaps lt (candidates lt a b).1 (candidates lt a b).2.1
    (candidates lt a b).2.2.1 (candidates lt a b).2.2.2
  rw [htwelve, candidates, if_pos (by omega)] at hmost
  dsimp only at hmost
  omega

end

section
variable {α : Type} {lt : ℕ → ℕ → Bool} {a b : ℕ}

theorem scanUp_before {p : ℕ → Bool} {n i j : ℕ} (hij : i ≤ j) (hj : j < scanUp p n i) :
    p j = true := by
  induction n generalizing i with
  | zero =>
    rw [scanUp] at hj
    omega
  | succ n ih =>
    rw [scanUp] at hj
    split at hj
    · rename_i hp
      by_cases heq : i = j
      · rwa [← heq]
      · exact ih (by omega) hj
    · omega

theorem scanUp_stop {p : ℕ → Bool} {n i : ℕ} (h : scanUp p n i < i + n) :
    p (scanUp p n i) = false := by
  induction n generalizing i with
  | zero =>
    rw [scanUp] at h
    omega
  | succ n ih =>
    rw [scanUp] at h ⊢
    split
    · rename_i hp
      rw [if_pos hp] at h
      exact ih (by omega)
    · rename_i hp
      simpa using hp

theorem frozen_apply (lt : ℕ → ℕ → Bool) (s : List α) : frozen α lt s = lt := rfl

/-- The first descent of the comparison is at `e`. -/
structure FirstDescent (lt : ℕ → ℕ → Bool) (a b e : ℕ) : Prop where
  after : a < e
  before : e < b
  descends : lt e (e - 1) = true
  ascends : ∀ i, a < i → i < e → lt i (i - 1) = false

theorem FirstDescent.scanUp {e : ℕ} (h : FirstDescent lt a b e) {i : ℕ} (hi : a < i) (hie : i ≤ e) :
    scanUp (fun i => !lt i (i - 1)) (b - i) i = e := by
  have hge := scanUp_ge (fun i => !lt i (i - 1)) (b - i) i
  apply le_antisymm
  · by_contra hlt
    have hpast := scanUp_before hie (not_le.mp hlt)
    simp [h.descends] at hpast
  · by_contra hlt
    have hstop := scanUp_stop (p := fun i => !lt i (i - 1)) (n := b - i) (i := i)
      (by have := h.before; omega)
    rw [h.ascends _ (by omega) (not_le.mp hlt)] at hstop
    cases hstop

/-- Where the comparison does not follow the exchanges, nothing is sifted back. -/
theorem FirstDescent.shift {e : ℕ} (h : FirstDescent lt a b e) (s : List α) :
    shift (frozen α lt) a b e s = siftUp (frozen α lt) (b - e) e s := by
  have hafter := h.after
  have hbefore := h.before
  have hback : (if 2 ≤ e - a then siftBack (frozen α lt) 0 (e - 1) (swap s e (e - 1))
      else swap s e (e - 1)) = swap s e (e - 1) := by
    split
    · obtain ⟨d, hd⟩ : ∃ d, e - 1 = d + 1 := ⟨e - 2, by omega⟩
      have hasc := h.ascends (e - 1) (by omega) (by omega)
      rw [hd] at hasc
      rw [hd, siftBack]
      simp at hasc
      simp [frozen, hasc]
    · rfl
  have hup : b - e = b - (e + 1) + 1 := by omega
  unfold Pdqsort.shift
  dsimp only
  rw [hback, hup, siftUp, frozen, if_pos h.descends]
  split
  · rfl
  · have hnone : b - (e + 1) = 0 := by omega
    rw [hnone, siftUp]

theorem FirstDescent.partialInsertionSort {e : ℕ} (h : FirstDescent lt a b e) (n : ℕ) {i : ℕ}
    (hi : a < i) (hie : i ≤ e) (s : List α) :
    partialInsertionSort (frozen α lt) a b n i s =
      (if b - a < 50 then s else (siftUp (frozen α lt) (b - e) e)^[n] s, false) := by
  have hbefore := h.before
  induction n generalizing i s with
  | zero => simp [Pdqsort.partialInsertionSort]
  | succ n ih =>
    rw [Pdqsort.partialInsertionSort, frozen_apply, h.scanUp hi hie, if_neg (by omega)]
    split
    · rfl
    · rename_i hmany
      rw [ih h.after (le_refl e), if_neg hmany, h.shift, Function.iterate_succ_apply]

theorem firstDescent_exists {i : ℕ} (hai : a < i) (hib : i < b) (hlt : lt i (i - 1) = true) :
    ∃ e, FirstDescent lt a b e := by
  have hex : ∃ e, a < e ∧ lt e (e - 1) = true := ⟨i, hai, hlt⟩
  have hleast := Nat.find_min' hex ⟨hai, hlt⟩
  refine ⟨Nat.find hex, (Nat.find_spec hex).1, by omega, (Nat.find_spec hex).2, ?_⟩
  intro j haj hj
  have hnot := Nat.find_min hex hj
  simpa [haj] using hnot

variable {P : List α → Prop}

theorem Kept.partialInsertionSort (h : Kept P a b) (n : ℕ) {s : List α} (hs : P s) :
    P (partialInsertionSort (frozen α lt) a b n (a + 1) s).1 := by
  by_cases hdescent : ∃ e, FirstDescent lt a b e
  · obtain ⟨e, he⟩ := hdescent
    rw [he.partialInsertionSort n (Nat.lt_succ_self a) he.after]
    dsimp only
    split
    · exact hs
    · have hbefore := he.before
      have hstep : ∀ t, P t → P (Pdqsort.siftUp (frozen α lt) (b - e) e t) :=
        fun t ht => h.siftUp _ he.after (by omega) ht
      exact Function.Iterate.rec P hs hstep n
  · cases n with
    | zero => exact hs
    | succ n =>
      have hall : a < b → scanUp (fun i => !lt i (i - 1)) (b - (a + 1)) (a + 1) = b := by
        intro hab
        rw [scanUp_all]
        · omega
        · intro i hi hib
          rw [Bool.not_eq_true', ← Bool.not_eq_true]
          exact fun hlt => hdescent (firstDescent_exists hi (by omega) hlt)
      rw [Pdqsort.partialInsertionSort, frozen_apply]
      split
      · exact hs
      · rename_i hend
        rw [if_pos]
        · exact hs
        · by_contra hmany
          exact hend (hall (by omega))

theorem prepare_bounds (less : Less α) (hlong : 12 < b - a) (wasBalanced wasPartitioned : Bool)
    (s : List α) : a ≤ (prepare less a b wasBalanced wasPartitioned s).pivot ∧
      (prepare less a b wasBalanced wasPartitioned s).pivot < b := by
  have hbounds := choosePivot_bounds (less s) hlong
  unfold prepare
  generalize choosePivot (less s) a b = r at *
  obtain ⟨pivot, hint⟩ := r
  dsimp only at hbounds
  cases hint with
  | unknown => exact ⟨by dsimp only; omega, by dsimp only; omega⟩
  | increasing => exact ⟨by dsimp only; omega, by dsimp only; omega⟩
  | decreasing => exact ⟨by dsimp only; omega, by dsimp only; omega⟩

theorem Kept.prepare (h : Kept P a b) (less : Less α) (wasBalanced wasPartitioned : Bool)
    {s : List α} (hs : P s) : P (prepare less a b wasBalanced wasPartitioned s).slice := by
  unfold Pdqsort.prepare
  split
  · exact h.reverseRange hs
  · exact hs
  · exact hs

theorem Kept.attempt (h : Kept P a b) {ready : Prepared α} (hs : P ready.slice) :
    P (attempt (frozen α lt) a b ready).1 := by
  unfold Pdqsort.attempt
  split
  · exact h.partialInsertionSort 5 hs
  · exact hs

/-- Sorting between two places, by a comparison that does not follow the
exchanges, exchanges nothing outside them. -/
theorem Kept.pdqsort (n : ℕ) {a b : ℕ} (hn : b - a ≤ n) (h : Kept P a b) (limit : ℕ)
    (wasBalanced wasPartitioned : Bool) {s : List α} (hs : P s) :
    P (pdqsort (frozen α lt) a b limit wasBalanced wasPartitioned s) := by
  induction n generalizing a b limit wasBalanced wasPartitioned s with
  | zero =>
    rw [Pdqsort.pdqsort, if_pos (by omega)]
    exact h.insertionSort _ hs
  | succ n ih =>
    rw [Pdqsort.pdqsort]
    by_cases hshort : b - a ≤ 12
    · rw [if_pos hshort]
      exact h.insertionSort _ hs
    rw [if_neg hshort]
    by_cases hspent : limit = 0
    · rw [if_pos hspent]
      exact h.heapSort _ hs
    rw [if_neg hspent]
    have hlt : a < b := by omega
    have hbroken : P (if wasBalanced then s else Pdqsort.breakPatterns a b s) := by
      split
      · exact hs
      · exact h.breakPatterns hs
    generalize (if wasBalanced then s else Pdqsort.breakPatterns a b s) = broken at *
    have hready := h.prepare (frozen α lt) wasBalanced wasPartitioned hbroken
    obtain ⟨hpivot, hpivotlt⟩ := prepare_bounds (frozen α lt) (a := a) (b := b)
      (by omega) wasBalanced wasPartitioned broken
    dsimp only
    generalize Pdqsort.prepare (frozen α lt) a b wasBalanced wasPartitioned broken = ready at *
    have hslice : P (Pdqsort.attempt (frozen α lt) a b ready).1 := h.attempt hready
    generalize Pdqsort.attempt (frozen α lt) a b ready = r at *
    split
    · exact hslice
    split
    · have hrest := h.partitionEqual (frozen α lt) hpivot hpivotlt hslice
      have hshrinks := partitionEqual_shrinks (frozen α lt) ready.pivot r.1 hlt
      have hafter := partitionEqual_after (frozen α lt) ready.pivot r.1 hlt
      exact ih (by omega) (h.within hafter.le (le_refl b)) _ _ _ hrest
    · have hrest := h.partition (frozen α lt) hpivot hpivotlt hslice
      have hmid := partition_bounds (frozen α lt) ready.pivot r.1 hlt
      obtain ⟨hleft, hright⟩ := partition_shrinks (frozen α lt) ready.pivot r.1 hlt
      have hlow : Kept P a (Pdqsort.partition (frozen α lt) a b ready.pivot r.1).1 :=
        h.within (le_refl a) hmid.2.le
      have hhigh : Kept P ((Pdqsort.partition (frozen α lt) a b ready.pivot r.1).1 + 1) b :=
        h.within (by omega) (le_refl b)
      split
      · exact ih (by omega) hhigh _ _ _ (ih (by omega) hlow _ _ _ hrest)
      · exact ih (by omega) hlow _ _ _ (ih (by omega) hhigh _ _ _ hrest)

end

section
variable {α : Type} {p : ℕ → Bool} {i j : ℕ}

theorem scanDown_before {n k : ℕ} (hk : scanDown p n j < k) (hkj : k ≤ j) : p k = true := by
  induction n generalizing j with
  | zero =>
    rw [scanDown] at hk
    omega
  | succ n ih =>
    rw [scanDown] at hk
    split at hk
    · rename_i hp
      by_cases heq : k = j
      · rwa [heq]
      · exact ih hk (by omega)
    · omega

theorem scanDown_stop {n : ℕ} (hn : n ≤ j) (h : j < scanDown p n j + n) :
    p (scanDown p n j) = false := by
  induction n generalizing j with
  | zero =>
    rw [scanDown] at h
    omega
  | succ n ih =>
    rw [scanDown] at h ⊢
    split
    · rename_i hp
      rw [if_pos hp] at h
      exact ih (by omega) (by omega)
    · rename_i hp
      simpa using hp

theorem count_all (hij : i ≤ j) (h : ∀ k, i ≤ k → k < j → p k = true) :
    Nat.count (fun k => p k = true) j = Nat.count (fun k => p k = true) i + (j - i) := by
  induction j, hij using Nat.le_induction with
  | base => omega
  | succ j hij ih =>
    have hbefore := ih (fun k hik hkj => h k hik (by omega))
    rw [Nat.count_succ, if_pos (h j hij (by omega))]
    omega

theorem count_none (hij : i ≤ j) (h : ∀ k, i ≤ k → k < j → p k = false) :
    Nat.count (fun k => p k = true) j = Nat.count (fun k => p k = true) i := by
  induction j, hij using Nat.le_induction with
  | base => rfl
  | succ j hij ih =>
    have hlast := h j hij (by omega)
    rw [Nat.count_succ, ih (fun k hik hkj => h k hik (by omega)), if_neg (by simp [hlast]),
      Nat.add_zero]

/-- The scans meet where as many places are left behind as the test holds of. -/
theorem exchange_count (n : ℕ) (hi : 0 < i) (hij : i ≤ j + 1) (hn : j + 1 - i ≤ n) (s : List α) :
    (exchange (fun _ k => p k) (fun _ k => !p k) n i j s).2.1 + 1 +
      Nat.count (fun k => p k = true) i = i + Nat.count (fun k => p k = true) (j + 1) := by
  induction n generalizing i j s with
  | zero =>
    have hmet : i = j + 1 := by omega
    rw [exchange, hmet]
  | succ n ih =>
    have hle := scanUp_le p (j + 1 - i) i
    have hge := scanUp_ge p (j + 1 - i) i
    have hup := count_all hge (fun k hik hk => scanUp_before hik hk)
    have hstop := scanUp_stop (p := p) (n := j + 1 - i) (i := i)
    rw [exchange, scans]
    dsimp only
    generalize scanUp p (j + 1 - i) i = x at *
    have hdownle := scanDown_le (fun k => !p k) (j + 1 - x) j
    have hdownge := scanDown_ge (fun k => !p k) (j + 1 - x) j
    have hdown := count_none (p := p) (i := scanDown (fun k => !p k) (j + 1 - x) j + 1)
      (j := j + 1) (by omega)
      (fun k hk hkj => by simpa using scanDown_before (p := fun k => !p k) hk (by omega))
    have hstopped := scanDown_stop (p := fun k => !p k) (n := j + 1 - x) (j := j) (by omega)
    generalize scanDown (fun k => !p k) (j + 1 - x) j = y at *
    split
    · have hmet : y + 1 = x := by omega
      dsimp only
      rw [hdown, hmet]
      omega
    · have hpx : p x = false := hstop (by omega)
      have hpy : p y = true := by simpa using hstopped (by omega)
      have hne : x ≠ y := fun heq => by rw [heq, hpy] at hpx; cases hpx
      have hrest := ih (i := x + 1) (j := y - 1) (by omega) (by omega) (by omega) (swap s x y)
      have hlast : y - 1 + 1 = y := by omega
      rw [hlast, Nat.count_succ, if_neg (by simp [hpx])] at hrest
      have htaken : Nat.count (fun k => p k = true) (y + 1) =
          Nat.count (fun k => p k = true) y + 1 := by
        rw [Nat.count_succ, if_pos hpy]
      omega

variable {lt : ℕ → ℕ → Bool} {a b : ℕ}

theorem partition_mid (pivot : ℕ) (s : List α) (h : a < b) :
    (partition (frozen α lt) a b pivot s).1 + Nat.count (fun k => lt k a = true) (a + 1) =
      a + Nat.count (fun k => lt k a = true) b := by
  have hcount := exchange_count (p := fun k => lt k a) (b - a + 1) (i := a + 1) (j := b - 1)
    (by omega) (by omega) (by omega) (swap s a pivot)
  have hlast : b - 1 + 1 = b := by omega
  rw [hlast] at hcount
  obtain ⟨hplace, -⟩ := partition_exchange (frozen α lt) a b pivot s
  simp only [frozen_apply] at hplace
  omega

theorem partition_pivot {pivot : ℕ} {s : List α} (h : a < b) (hb : b ≤ s.length)
    (hlt : pivot < b) :
    (partition (frozen α lt) a b pivot s).2.2[(partition (frozen α lt) a b pivot s).1]? =
      s[pivot]? := by
  have hmid := partition_bounds (frozen α lt) pivot s h
  have hfirst : (swap s a pivot).length = s.length ∧ (swap s a pivot)[a]? = s[pivot]? :=
    ⟨length_swap s a pivot, swap_first (by omega) (by omega)⟩
  have hinner : Kept (fun t => t.length = s.length ∧ t[a]? = s[pivot]?) (a + 1) b := by
    rintro t i j hi hib hj hjb ⟨hlength, hstands⟩
    exact ⟨(length_swap t i j).trans hlength, (swap_other t (by omega) (by omega)).trans hstands⟩
  obtain ⟨hlength, hstands⟩ := hinner.exchange (fun s i => frozen α lt s i a)
    (fun s j => !frozen α lt s j a) (b - a + 1) (i := a + 1) (j := b - 1) (by omega) (by omega)
    (by omega) hfirst
  obtain ⟨hplace, hslice⟩ := partition_exchange (frozen α lt) a b pivot s
  rw [hplace] at hmid
  rw [hplace, hslice, swap_first (by omega) (by omega), hstands]

end

section
variable {α : Type} {lt : ℕ → ℕ → Bool} {x : α} {n : ℕ} {s : List α}

/-- All that is known of where an entry stands. -/
structure Stands (x : α) (n : ℕ) (Q : ℕ → Prop) (s : List α) : Prop where
  length : s.length = n
  place : ∀ p, s[p]? = some x → Q p

variable {Q Q' : ℕ → Prop}

theorem Stands.swap (h : Stands x n Q s) {i j : ℕ} (hi : i < n) (hj : j < n) (hji : Q j → Q' i)
    (hij : Q i → Q' j) (hother : ∀ p, p ≠ i → p ≠ j → Q p → Q' p) :
    Stands x n Q' (swap s i j) := by
  have hlength := h.length
  refine ⟨(length_swap s i j).trans hlength, fun p hp => ?_⟩
  by_cases hpi : p = i
  · rw [hpi, swap_first (by omega) (by omega)] at hp
    exact hpi ▸ hji (h.place j hp)
  · by_cases hpj : p = j
    · rw [hpj, swap_second (by omega) (by omega)] at hp
      exact hpj ▸ hij (h.place i hp)
    · rw [swap_other s hpi hpj] at hp
      exact hother p hpi hpj (h.place p hp)

theorem Stands.mono (h : Stands x n Q s) (hQ : ∀ p, Q p → Q' p) : Stands x n Q' s :=
  ⟨h.length, fun p hp => hQ p (h.place p hp)⟩

/-- Sifting up moves an entry only across descents of the comparison. -/
theorem Stands.siftUp_descends (m : ℕ) {j : ℕ} (hj : 0 < j) (hm : j + m ≤ n)
    (h : Stands x n (fun p => Descends lt 0 p) s) :
    Stands x n (fun p => Descends lt 0 p) (siftUp (frozen α lt) m j s) := by
  induction m generalizing j s with
  | zero => exact h
  | succ m ih =>
    rw [siftUp, frozen_apply]
    split
    · rename_i hlt
      have hdown : Descends lt 0 j → Descends lt 0 (j - 1) :=
        fun hall i hi hij => hall i hi (by omega)
      have hup : Descends lt 0 (j - 1) → Descends lt 0 j := by
        intro hall i hi hij
        by_cases hlast : i = j - 1
        · rwa [hlast, Nat.sub_add_cancel hj]
        · exact hall i hi (by omega)
      exact ih (by omega) (by omega)
        (h.swap (by omega) (by omega) hup hdown (fun p _ _ hp => hp))
    · exact h

/-- Sifting up moves an entry at most one place down. -/
theorem Stands.siftUp_behind (m : ℕ) {j k : ℕ} (hj : 0 < j) (hm : j + m ≤ n)
    (h : Stands x n (fun p => k - 1 ≤ p ∧ (j - 1 ≤ p → k ≤ p)) s) :
    Stands x n (fun p => k - 1 ≤ p) (siftUp (frozen α lt) m j s) := by
  induction m generalizing j s with
  | zero => exact h.mono fun p hp => hp.1
  | succ m ih =>
    rw [siftUp]
    split
    · exact ih (by omega) (by omega) (h.swap (by omega) (by omega) (by omega) (by omega)
        (by omega))
    · exact h.mono fun p hp => hp.1

theorem Stands.iterate_behind (m : ℕ) {e k : ℕ} (he : 0 < e) (hen : e ≤ n)
    (h : Stands x n (fun p => k ≤ p) s) :
    Stands x n (fun p => k - m ≤ p) ((siftUp (frozen α lt) (n - e) e)^[m] s) := by
  induction m with
  | zero => exact h
  | succ m ih =>
    rw [Function.iterate_succ_apply']
    exact Stands.siftUp_behind (n - e) (k := k - m) he (by omega)
      (ih.mono fun p hp => ⟨by omega, fun _ => hp⟩)

theorem Stands.reverseRange (hn : 1 < n) (h : Stands x n (fun p => p = 0) s) :
    Stands x n (fun p => p = n - 1) (reverseRange 0 n s) := by
  obtain ⟨m, hm⟩ : ∃ m, (n - 0) / 2 = m + 1 := ⟨n / 2 - 1, by omega⟩
  have hinner : Kept (Stands x n (fun p => p = n - 1)) 1 (n - 1) :=
    fun t i j hi hib hj hjb ht =>
      ht.swap (by omega) (by omega) (by omega) (by omega) (fun p _ _ hp => hp)
  rw [Pdqsort.reverseRange, hm, List.range_succ_eq_map, List.foldl_cons]
  apply kept_foldl
  · intro k hk t ht
    obtain ⟨l, hl, rfl⟩ := List.mem_map.mp hk
    have hlt := List.mem_range.mp hl
    exact hinner t _ _ (by omega) (by omega) (by omega) (by omega) ht
  · exact h.swap (by omega) (by omega) (by omega) (by omega) (by omega)

/-- The entry at the front is not the pivot of the first partition. -/
theorem front_spared {e : ℕ} (hlong : 12 < n) (he : FirstDescent lt 0 n e)
    (h : Stands x n (fun p => p = 0) s) {ready : Prepared α}
    (hready : ready = prepare (frozen α lt) 0 n true true s) :
    (attempt (frozen α lt) 0 n ready).2 = false ∧
      Stands x n (fun p => p ≠ ready.pivot) (attempt (frozen α lt) 0 n ready).1 := by
  have hafter := he.after
  have hbefore := he.before
  have hsifted := fun t : List α => he.partialInsertionSort 5 (Nat.zero_lt_succ 0) hafter t
  have hbounds := choosePivot_bounds lt (a := 0) (b := n) (by omega)
  have hincreasing := choosePivot_increasing lt (a := 0) (b := n) (by omega)
  have hdecreasing := choosePivot_decreasing lt (a := 0) (b := n) (by omega)
  rw [prepare, frozen_apply] at hready
  generalize choosePivot lt 0 n = r at *
  obtain ⟨pivot, hint⟩ := r
  dsimp only at hbounds hincreasing hdecreasing
  cases hint with
  | unknown =>
    subst hready
    exact ⟨rfl, h.mono fun p hp => by dsimp only; omega⟩
  | increasing =>
    obtain ⟨hmiddle, hquarter⟩ := hincreasing rfl
    subst hready
    simp only [attempt, Bool.and_self, if_true]
    rw [hsifted]
    refine ⟨rfl, ?_⟩
    dsimp only
    split
    · exact h.mono fun p hp => by omega
    · rename_i hmany
      have hstart : Stands x n (fun p => Descends lt 0 p) s :=
        h.mono fun p hp i _ hip => by omega
      have hstep : ∀ t, Stands x n (fun p => Descends lt 0 p) t →
          Stands x n (fun p => Descends lt 0 p) (siftUp (frozen α lt) (n - e) e t) :=
        fun t ht => ht.siftUp_descends (n - e) hafter (by omega)
      -- the comparison does not descend at the first quarter, so the front stays before it
      have hlast : Stands x n (fun p => Descends lt 0 p)
          ((siftUp (frozen α lt) (n - e) e)^[5] s) :=
        Function.Iterate.rec _ hstart hstep 5
      apply hlast.mono
      rintro p hp rfl
      have hdescends := hp (n / 4 - 1) (by omega) (by omega)
      have hascends := hquarter (by omega)
      rw [Nat.sub_zero, Nat.zero_add] at hascends
      rw [Nat.sub_add_cancel (by omega), hascends] at hdescends
      cases hdescends
  | decreasing =>
    have hmany := hdecreasing rfl
    subst hready
    simp only [attempt, if_true]
    rw [hsifted]
    refine ⟨rfl, ?_⟩
    dsimp only
    rw [if_neg (by omega)]
    -- five rounds move the front, turned round to the end, five places back
    have hturned : Stands x n (fun p => n - 1 ≤ p) (reverseRange 0 n s) :=
      (h.reverseRange (by omega)).mono fun p hp => hp.ge
    exact (hturned.iterate_behind 5 hafter (by omega)).mono fun p hp => by omega

/-- Where the entry at the front belongs, another one comes to stand. -/
theorem sortSlice_front {e : ℕ} (hlong : 12 < n) (hself : lt 0 0 = false)
    (he : FirstDescent lt 0 n e) (h : Stands x n (fun p => p = 0) s) :
    (sortSlice (frozen α lt) s)[Nat.count (fun k => lt k 0 = true) n]? ≠ some x := by
  obtain rfl := h.length
  have hsize : s.length.size ≠ 0 := by
    rw [Ne, Nat.size_eq_zero]
    omega
  rw [sortSlice, Pdqsort.pdqsort, if_neg (by omega), if_neg hsize]
  dsimp only
  rw [if_pos rfl, if_pos rfl]
  have hbounds := prepare_bounds (frozen α lt) (a := 0) (b := s.length) (by omega) true true s
  obtain ⟨hundone, hspared⟩ := front_spared hlong he h rfl
  generalize Pdqsort.prepare (frozen α lt) 0 s.length true true s = ready at *
  generalize Pdqsort.attempt (frozen α lt) 0 s.length ready = r at *
  have hfull : 0 < s.length := by omega
  have hmid : (partition (frozen α lt) 0 s.length ready.pivot r.1).1 +
      Nat.count (fun k => lt k 0 = true) (0 + 1) =
        0 + Nat.count (fun k => lt k 0 = true) s.length :=
    partition_mid ready.pivot r.1 hfull
  have hchosen : (partition (frozen α lt) 0 s.length ready.pivot r.1).2.2[
      (partition (frozen α lt) 0 s.length ready.pivot r.1).1]? = r.1[ready.pivot]? :=
    partition_pivot hfull hspared.length.ge hbounds.2
  rw [Nat.count_succ, if_neg (by simp [hself]), Nat.count_zero] at hmid
  rw [hundone, if_neg (by simp), if_neg (by simp)]
  generalize Pdqsort.partition (frozen α lt) 0 s.length ready.pivot r.1 = q at *
  have hplace : Nat.count (fun k => lt k 0 = true) s.length = q.1 := by omega
  rw [hplace]
  -- neither half of the recursion reaches the place between them
  have hbelow : Kept (fun t => t[q.1]? = r.1[ready.pivot]?) 0 q.1 := kept_outside _ (by omega)
  have habove : Kept (fun t => t[q.1]? = r.1[ready.pivot]?) (q.1 + 1) s.length :=
    kept_outside _ (by omega)
  have hother : ∀ t : List α, t[q.1]? = r.1[ready.pivot]? → t[q.1]? ≠ some x :=
    fun t ht hx => hspared.place _ (ht.symm.trans hx) rfl
  apply hother
  split
  · exact habove.pdqsort _ (le_refl _) _ _ _ (hbelow.pdqsort _ (le_refl _) _ _ _ hchosen)
  · exact hbelow.pdqsort _ (le_refl _) _ _ _ (habove.pdqsort _ (le_refl _) _ _ _ hchosen)

end

section
variable {lt : ℕ → ℕ → Bool} {n : ℕ}

theorem count_range (p : ℕ → Bool) (n : ℕ) :
    Nat.count (fun k => p k = true) n = (List.range n).countP p := by
  induction n with
  | zero => rfl
  | succ n ih =>
    rw [Nat.count_succ, List.range_succ, List.countP_append, ih]
    simp [List.countP_singleton]

/-- The place of an entry in a sorted list counts those below it. -/
theorem count_before {l before after : List ℕ} (p : ℕ → Bool) (x : ℕ) (h : l = before ++ x :: after)
    (hperm : l.Perm (List.range n)) (hx : p x = false) (hbefore : ∀ k ∈ before, p k = true)
    (hafter : ∀ k ∈ after, p k = false) :
    Nat.count (fun k => p k = true) n = before.length := by
  rw [count_range, ← hperm.countP_eq, h, List.countP_append, List.countP_cons]
  rw [List.countP_eq_length.mpr hbefore, List.countP_eq_zero.mpr (by simpa using hafter), hx]
  simp

/-- With more than twelve entries, the comparison of a slice with itself as it
was sorts the slice only if there is nothing to sort. -/
theorem sortSlice_long {α : Type} [LinearOrder α] {s : List α} (hlong : 12 < s.length)
    (hlt : ∀ i j (hi : i < s.length) (hj : j < s.length), lt i j = true ↔ s[i] < s[j])
    (h : (sortSlice (frozen α lt) s).Pairwise (· < ·)) :
    ∀ k, k + 1 < s.length → lt (k + 1) k = false := by
  intro k hk
  rw [← Bool.not_eq_true]
  intro hdescends
  have hself : lt 0 0 = false := by
    rw [← Bool.not_eq_true, hlt 0 0 (by omega) (by omega)]
    exact lt_irrefl _
  obtain ⟨e, he⟩ : ∃ e, FirstDescent lt 0 s.length e :=
    firstDescent_exists (Nat.zero_lt_succ k) hk hdescends
  have hfront : Stands 0 s.length (fun p => p = 0) (List.range s.length) :=
    ⟨by simp, fun p hp => by simpa using (List.getElem?_eq_some_iff.mp hp).2⟩
  have hother : (positions lt s.length)[Nat.count (fun k => lt k 0 = true) s.length]? ≠ some 0 :=
    sortSlice_front hlong hself he hfront
  -- the places sorted before the front are those the comparison puts below it
  have hzero : 0 ∈ positions lt s.length := mem_positions.mpr (by omega)
  obtain ⟨before, after, hparts⟩ := List.append_of_mem hzero
  have hbound : ∀ p ∈ before ++ 0 :: after, p < s.length := fun p hp =>
    mem_positions.mp (hparts ▸ hp)
  rw [pairwise_sortSlice, hparts, List.pairwise_append, List.pairwise_cons] at h
  have hat : ∀ {p}, (hp : p < s.length) → s[p]? = some s[p] := fun hp =>
    List.getElem?_eq_getElem hp
  have hbefore : ∀ p ∈ before, lt p 0 = true := by
    intro p hp
    have hlength := hbound p (by simp [hp])
    rw [hlt p 0 hlength (by omega)]
    exact h.2.2 p hp 0 (by simp) _ _ (hat hlength) (hat (by omega))
  have hafter : ∀ p ∈ after, lt p 0 = false := by
    intro p hp
    have hlength := hbound p (by simp [hp])
    rw [← Bool.not_eq_true, hlt p 0 hlength (by omega), not_lt]
    exact (h.2.1.1 p hp _ _ (hat (by omega)) (hat hlength)).le
  have hcount := count_before (fun p => lt p 0) 0 hparts (positions_perm lt s.length) hself hbefore
    hafter
  rw [hcount, hparts] at hother
  exact hother (by simp)

end

end Pdqsort
