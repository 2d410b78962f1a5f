import Mathlib.Data.List.Induction
import Mathlib.Data.List.Pairwise
import Mathlib.Data.List.Perm.Basic
import Mathlib.Data.List.Nodup
import Mathlib.Data.Nat.Size
import Mathlib.Algebra.Order.Ring.Nat

/-!
# Sorting a slice by comparing positions

The routine behind `sort.Slice`: it sees the slice only through a comparison
of two positions and an exchange of two positions. The comparison may look at
the slice as it stands, or at something else that never moves.
-/

set_option autoImplicit false

namespace Pdqsort

abbrev Less (α : Type) := List α → ℕ → ℕ → Bool

section
variable {α : Type}

def swap (s : List α) (i j : ℕ) : List α :=
  match s[i]?, s[j]? with
  | some x, some y => (s.set i y).set j x
  | _, _ => s

/-- `for i < i + n && p(i) { i++ }`. -/
def scanUp (p : ℕ → Bool) : ℕ → ℕ → ℕ
  | 0, i => i
  | n + 1, i => if p i then scanUp p n (i + 1) else i

def scanDown (p : ℕ → Bool) : ℕ → ℕ → ℕ
  | 0, j => j
  | n + 1, j => if p j then scanDown p n (j - 1) else j

theorem scanUp_ge (p : ℕ → Bool) (n i : ℕ) : i ≤ scanUp p n i := by
  induction n generalizing i with
  | zero => exact Nat.le_refl _
  | succ n ih =>
    have := ih (i + 1)
    rw [scanUp]
    split <;> omega

theorem scanUp_le (p : ℕ → Bool) (n i : ℕ) : scanUp p n i ≤ i + n := by
  induction n generalizing i with
  | zero => exact Nat.le_refl _
  | succ n ih =>
    have := ih (i + 1)
    rw [scanUp]
    split <;> omega

theorem scanDown_le (p : ℕ → Bool) (n j : ℕ) : scanDown p n j ≤ j := by
  induction n generalizing j with
  | zero => exact Nat.le_refl _
  | succ n ih =>
    have := ih (j - 1)
    rw [scanDown]
    split <;> omega

theorem scanDown_ge (p : ℕ → Bool) (n j : ℕ) : j - n ≤ scanDown p n j := by
  induction n generalizing j with
  | zero => exact Nat.le_refl _
  | succ n ih =>
    have := ih (j - 1)
    rw [scanDown]
    split <;> omega

variable (less : Less α)

def siftBack (a : ℕ) : ℕ → List α → List α
  | 0, s => s
  | j + 1, s => if a < j + 1 && less s (j + 1) j then siftBack a j (swap s (j + 1) j) else s

def insertionSort (a b : ℕ) (s : List α) : List α :=
  (List.range' (a + 1) (b - (a + 1))).foldl (fun s i => siftBack less a i s) s

def largerChild (lt : ℕ → ℕ → Bool) (hi first root : ℕ) : ℕ :=
  if decide (2 * root + 2 < hi) && lt (first + (2 * root + 1)) (first + (2 * root + 2)) then
    2 * root + 2
  else 2 * root + 1

def siftDown (hi first : ℕ) : ℕ → ℕ → List α → List α
  | 0, _, s => s
  | n + 1, root, s =>
    if hi ≤ 2 * root + 1 then s
    else
      let child := largerChild (less s) hi first root
      if !less s (first + root) (first + child) then s
      else siftDown hi first n child (swap s (first + root) (first + child))

def heapSort (a b : ℕ) (s : List α) : List α :=
  let hi := b - a
  let s := (List.range ((hi - 1) / 2 + 1)).reverse.foldl
    (fun s i => siftDown less hi a hi i s) s
  (List.range hi).reverse.foldl (fun s i => siftDown less i a i 0 (swap s a (a + i))) s

inductive Hint where
  | unknown
  | increasing
  | decreasing
  deriving DecidableEq, Repr

def order2 (lt : ℕ → ℕ → Bool) (a b swaps : ℕ) : ℕ × ℕ × ℕ :=
  if lt b a then (b, a, swaps + 1) else (a, b, swaps)

def median (lt : ℕ → ℕ → Bool) (a b c swaps : ℕ) : ℕ × ℕ :=
  let (a, b, swaps) := order2 lt a b swaps
  let (b, _, swaps) := order2 lt b c swaps
  let (_, b, swaps) := order2 lt a b swaps
  (b, swaps)

def medianAdjacent (lt : ℕ → ℕ → Bool) (a swaps : ℕ) : ℕ × ℕ :=
  median lt (a - 1) a (a + 1) swaps

def choosePivot (lt : ℕ → ℕ → Bool) (a b : ℕ) : ℕ × Hint :=
  let l := b - a
  let i := a + l / 4 * 1
  let j := a + l / 4 * 2
  let k := a + l / 4 * 3
  let (j, swaps) :=
    if l < 8 then (j, 0)
    else if l < 50 then median lt i j k 0
    else
      let (i, swaps) := medianAdjacent lt i 0
      let (j, swaps) := medianAdjacent lt j swaps
      let (k, swaps) := medianAdjacent lt k swaps
      median lt i j k swaps
  (j, if swaps = 0 then .increasing else if swaps = 12 then .decreasing else .unknown)

def reverseRange (a b : ℕ) (s : List α) : List α :=
  (List.range ((b - a) / 2)).foldl (fun s n => swap s (a + n) (b - 1 - n)) s

def xorshift (r : UInt64) : UInt64 :=
  let r := r ^^^ (r <<< 13)
  let r := r ^^^ (r >>> 7)
  r ^^^ (r <<< 17)

def breakPatterns (a b : ℕ) (s : List α) : List α :=
  let length := b - a
  if length < 8 then s
  else
    let modulus := 2 ^ length.size
    let idx := a + length / 4 * 2
    let other (r : UInt64) : ℕ :=
      if length ≤ r.toNat % modulus then r.toNat % modulus - length else r.toNat % modulus
    let r1 := xorshift (UInt64.ofNat length)
    let r2 := xorshift r1
    let r3 := xorshift r2
    let s := swap s (idx - 1) (a + other r1)
    let s := swap s idx (a + other r2)
    swap s (idx + 1) (a + other r3)

/-- `for j < j + n { if !less(j, j-1) { break }; swap(j, j-1); j++ }`. -/
def siftUp : ℕ → ℕ → List α → List α
  | 0, _, s => s
  | n + 1, j, s => if less s j (j - 1) then siftUp n (j + 1) (swap s j (j - 1)) else s

def shift (a b i : ℕ) (s : List α) : List α :=
  let s := swap s i (i - 1)
  let s := if 2 ≤ i - a then siftBack less 0 (i - 1) s else s
  if 2 ≤ b - i then siftUp less (b - (i + 1)) (i + 1) s else s

def partialInsertionSort (a b : ℕ) : ℕ → ℕ → List α → List α × Bool
  | 0, _, s => (s, false)
  | n + 1, i, s =>
    let i := scanUp (fun i => !less s i (i - 1)) (b - i) i
    if i = b then (s, true)
    else if b - a < 50 then (s, false)
    else partialInsertionSort a b n i (shift less a b i s)

def scans (up down : List α → ℕ → Bool) (i j : ℕ) (s : List α) : ℕ × ℕ :=
  let i := scanUp (up s) (j + 1 - i) i
  (i, scanDown (down s) (j + 1 - i) j)

/-- Exchanges what stands on the wrong side until the scans meet; the first
argument counts the positions between them. -/
def exchange (up down : List α → ℕ → Bool) : ℕ → ℕ → ℕ → List α → ℕ × ℕ × List α
  | 0, i, j, s => (i, j, s)
  | n + 1, i, j, s =>
    let (i, j) := scans up down i j s
    if j < i then (i, j, s) else exchange up down n (i + 1) (j - 1) (swap s i j)

def partition (a b pivot : ℕ) (s : List α) : ℕ × Bool × List α :=
  let s := swap s a pivot
  let up := fun s i => less s i a
  let down := fun s j => !less s j a
  let (i, j) := scans up down (a + 1) (b - 1) s
  if j < i then (j, true, swap s j a)
  else
    let (_, j, s) := exchange up down (b - a) (i + 1) (j - 1) (swap s i j)
    (j, false, swap s j a)

def partitionEqual (a b pivot : ℕ) (s : List α) : ℕ × List α :=
  let s := swap s a pivot
  let (i, _, s) := exchange (fun s i => !less s a i) (fun s j => less s a j) (b - a) (a + 1)
    (b - 1) s
  (i, s)

theorem scans_bounds (up down : List α → ℕ → Bool) {a i j : ℕ} (s : List α) (hi : a < i)
    (hj : a ≤ j) : i ≤ (scans up down i j s).1 ∧ a ≤ (scans up down i j s).2 ∧
      (scans up down i j s).2 ≤ j := by
  have hup := scanUp_ge (up s) (j + 1 - i) i
  have hmost := scanUp_le (up s) (j + 1 - i) i
  have hdown := scanDown_le (down s) (j + 1 - scanUp (up s) (j + 1 - i) i) j
  have hleast := scanDown_ge (down s) (j + 1 - scanUp (up s) (j + 1 - i) i) j
  unfold scans
  dsimp only
  omega

theorem exchange_bounds (up down : List α → ℕ → Bool) {a : ℕ} (n : ℕ) {i j : ℕ} (s : List α)
    (hi : a < i) (hj : a ≤ j) : i ≤ (exchange up down n i j s).1 ∧
      a ≤ (exchange up down n i j s).2.1 ∧ (exchange up down n i j s).2.1 ≤ j := by
  induction n generalizing i j s with
  | zero => exact ⟨Nat.le_refl i, hj, Nat.le_refl j⟩
  | succ n ih =>
    obtain ⟨hup, hlow, hdown⟩ := scans_bounds up down s hi hj
    rw [exchange]
    generalize scans up down i j s = r at *
    dsimp only
    split
    · exact ⟨hup, hlow, hdown⟩
    · have hlater := ih (i := r.1 + 1) (j := r.2 - 1) (swap s r.1 r.2) (by omega) (by omega)
      omega

theorem partition_bounds {a b : ℕ} (pivot : ℕ) (s : List α) (h : a < b) :
    a ≤ (partition less a b pivot s).1 ∧ (partition less a b pivot s).1 < b := by
  have hscans := scans_bounds (fun s i => less s i a) (fun s j => !less s j a)
    (a := a) (i := a + 1) (j := b - 1) (swap s a pivot) (by omega) (by omega)
  unfold partition
  dsimp only
  generalize scans _ _ (a + 1) (b - 1) (swap s a pivot) = r at *
  split
  · dsimp only
    omega
  · have hrest := exchange_bounds (fun s i => less s i a) (fun s j => !less s j a) (a := a) (b - a)
      (i := r.1 + 1) (j := r.2 - 1) (swap (swap s a pivot) r.1 r.2) (by omega) (by omega)
    generalize exchange _ _ (b - a) (r.1 + 1) (r.2 - 1) _ = q at *
    obtain ⟨i, j, t⟩ := q
    dsimp only at *
    omega

theorem partition_shrinks {a b : ℕ} (pivot : ℕ) (s : List α) (h : a < b) :
    (partition less a b pivot s).1 - a < b - a ∧
      b - ((partition less a b pivot s).1 + 1) < b - a := by
  have := partition_bounds less pivot s h
  omega

theorem partitionEqual_shrinks {a b : ℕ} (pivot : ℕ) (s : List α) (h : a < b) :
    b - (partitionEqual less a b pivot s).1 < b - a := by
  have hrest := exchange_bounds (fun s i => !less s a i) (fun s j => less s a j) (a := a) (b - a)
    (i := a + 1) (j := b - 1) (swap s a pivot) (by omega) (by omega)
  unfold partitionEqual
  dsimp only
  omega

structure Prepared (α : Type) where
  pivot : ℕ
  wasBalanced : Bool
  wasPartitioned : Bool
  likelySorted : Bool
  slice : List α

def prepare (a b : ℕ) (wasBalanced wasPartitioned : Bool) (s : List α) : Prepared α :=
  match choosePivot (less s) a b with
  | (pivot, .decreasing) => ⟨b - 1 - (pivot - a), true, true, true, reverseRange a b s⟩
  | (pivot, .increasing) =>
    ⟨pivot, wasBalanced, wasPartitioned, wasBalanced && wasPartitioned, s⟩
  | (pivot, .unknown) => ⟨pivot, wasBalanced, wasPartitioned, false, s⟩

def attempt (a b : ℕ) (ready : Prepared α) : List α × Bool :=
  if ready.likelySorted then partialInsertionSort less a b 5 (a + 1) ready.slice
  else (ready.slice, false)

def pdqsort (a b limit : ℕ) (wasBalanced wasPartitioned : Bool) (s : List α) : List α :=
  if b - a ≤ 12 then insertionSort less a b s
  else if limit = 0 then heapSort less a b s
  else
    let s := if wasBalanced then s else breakPatterns a b s
    let limit := if wasBalanced then limit else limit - 1
    let ready := prepare less a b wasBalanced wasPartitioned s
    let s := (attempt less a b ready).1
    if (attempt less a b ready).2 then s
    else if decide (0 < a) && !less s (a - 1) ready.pivot then
      pdqsort (partitionEqual less a b ready.pivot s).1 b limit ready.wasBalanced
        ready.wasPartitioned (partitionEqual less a b ready.pivot s).2
    else
      let mid := (partition less a b ready.pivot s).1
      let alreadyPartitioned := (partition less a b ready.pivot s).2.1
      let s := (partition less a b ready.pivot s).2.2
      if mid - a < b - mid then
        pdqsort (mid + 1) b limit (decide ((b - a) / 8 ≤ mid - a)) alreadyPartitioned
          (pdqsort a mid limit true true s)
      else
        pdqsort a mid limit (decide ((b - a) / 8 ≤ b - mid)) alreadyPartitioned
          (pdqsort (mid + 1) b limit true true s)
termination_by b - a
decreasing_by
  · exact partitionEqual_shrinks less ready.pivot _ (by omega)
  · exact (partition_shrinks less ready.pivot _ (by omega)).1
  · exact (partition_shrinks less ready.pivot _ (by omega)).2
  · exact (partition_shrinks less ready.pivot _ (by omega)).2
  · exact (partition_shrinks less ready.pivot _ (by omega)).1

def sortSlice (s : List α) : List α :=
  pdqsort less 0 s.length s.length.size true true s

end

section
variable {α β : Type}

structure Alike (R : List α → List β → Prop) (less : Less α) (less' : Less β) : Prop where
  less : ∀ {s t}, R s t → less s = less' t
  swap : ∀ {s t}, R s t → ∀ i j, R (swap s i j) (swap t i j)

variable {R : List α → List β → Prop} {less : Less α} {less' : Less β} {s : List α} {t : List β}

theorem Alike.siftBack (h : Alike R less less') (a j : ℕ) (hs : R s t) :
    R (siftBack less a j s) (siftBack less' a j t) := by
  induction j generalizing s t with
  | zero => exact hs
  | succ j ih =>
    rw [Pdqsort.siftBack, Pdqsort.siftBack, h.less hs]
    split
    · exact ih (h.swap hs _ _)
    · exact hs

theorem related_foldl {γ : Type} {f : List α → γ → List α} {g : List β → γ → List β}
    (hstep : ∀ c {s t}, R s t → R (f s c) (g t c)) (cs : List γ) (hs : R s t) :
    R (cs.foldl f s) (cs.foldl g t) := by
  induction cs generalizing s t with
  | nil => exact hs
  | cons c cs ih => exact ih (hstep c hs)

theorem Alike.insertionSort (h : Alike R less less') (a b : ℕ) (hs : R s t) :
    R (insertionSort less a b s) (insertionSort less' a b t) :=
  related_foldl (fun i _ _ hs => h.siftBack a i hs) _ hs

theorem Alike.siftDown (h : Alike R less less') (hi first n root : ℕ) (hs : R s t) :
    R (siftDown less hi first n root s) (siftDown less' hi first n root t) := by
  induction n generalizing root s t with
  | zero => exact hs
  | succ n ih =>
    rw [Pdqsort.siftDown, Pdqsort.siftDown]
    rw [h.less hs]
    dsimp only
    split
    · exact hs
    · split
      · exact hs
      · exact ih _ (h.swap hs _ _)

theorem Alike.heapSort (h : Alike R less less') (a b : ℕ) (hs : R s t) :
    R (heapSort less a b s) (heapSort less' a b t) := by
  have hbuilt := related_foldl (f := fun s i => Pdqsort.siftDown less (b - a) a (b - a) i s)
    (g := fun s i => Pdqsort.siftDown less' (b - a) a (b - a) i s)
    (fun i _ _ hs => h.siftDown _ a _ i hs) (List.range ((b - a - 1) / 2 + 1)).reverse hs
  exact related_foldl (fun i _ _ hs => h.siftDown i a i 0 (h.swap hs a (a + i))) _ hbuilt

theorem Alike.reverseRange (h : Alike R less less') (a b : ℕ) (hs : R s t) :
    R (reverseRange a b s) (reverseRange a b t) := by
  have hstep : ∀ n {s t}, R s t →
      R (Pdqsort.swap s (a + n) (b - 1 - n)) (Pdqsort.swap t (a + n) (b - 1 - n)) :=
    fun n _ _ hs => h.swap hs _ _
  exact related_foldl hstep _ hs

theorem Alike.breakPatterns (h : Alike R less less') (a b : ℕ) (hs : R s t) :
    R (breakPatterns a b s) (breakPatterns a b t) := by
  unfold Pdqsort.breakPatterns
  dsimp only
  split
  · exact hs
  · exact h.swap (h.swap (h.swap hs _ _) _ _) _ _

theorem Alike.siftUp (h : Alike R less less') (n j : ℕ) (hs : R s t) :
    R (siftUp less n j s) (siftUp less' n j t) := by
  induction n generalizing j s t with
  | zero => exact hs
  | succ n ih =>
    rw [Pdqsort.siftUp, Pdqsort.siftUp, h.less hs]
    split
    · exact ih _ (h.swap hs _ _)
    · exact hs

theorem Alike.shift (h : Alike R less less') (a b i : ℕ) (hs : R s t) :
    R (shift less a b i s) (shift less' a b i t) := by
  have hfirst := h.swap hs i (i - 1)
  have hback : R (if 2 ≤ i - a then Pdqsort.siftBack less 0 (i - 1) (Pdqsort.swap s i (i - 1))
        else Pdqsort.swap s i (i - 1))
      (if 2 ≤ i - a then Pdqsort.siftBack less' 0 (i - 1) (Pdqsort.swap t i (i - 1))
        else Pdqsort.swap t i (i - 1)) := by
    split
    · exact h.siftBack 0 (i - 1) hfirst
    · exact hfirst
  unfold Pdqsort.shift
  dsimp only
  split
  · exact h.siftUp _ _ hback
  · exact hback

theorem Alike.partialInsertionSort (h : Alike R less less') (a b n i : ℕ) (hs : R s t) :
    R (partialInsertionSort less a b n i s).1 (partialInsertionSort less' a b n i t).1 ∧
      (partialInsertionSort less a b n i s).2 = (partialInsertionSort less' a b n i t).2 := by
  induction n generalizing i s t with
  | zero => exact ⟨hs, rfl⟩
  | succ n ih =>
    rw [Pdqsort.partialInsertionSort, Pdqsort.partialInsertionSort, h.less hs]
    split
    · exact ⟨hs, rfl⟩
    · split
      · exact ⟨hs, rfl⟩
      · exact ih _ (h.shift a b _ hs)

theorem related_exchange {f g : List α → ℕ → Bool} {k l : List β → ℕ → Bool}
    (hswap : ∀ {s t}, R s t → ∀ i j, R (swap s i j) (swap t i j))
    (hup : ∀ {s t}, R s t → f s = k t) (hdown : ∀ {s t}, R s t → g s = l t)
    (n i j : ℕ) (hs : R s t) :
    (exchange f g n i j s).1 = (exchange k l n i j t).1 ∧
      (exchange f g n i j s).2.1 = (exchange k l n i j t).2.1 ∧
      R (exchange f g n i j s).2.2 (exchange k l n i j t).2.2 := by
  induction n generalizing i j s t with
  | zero => exact ⟨rfl, rfl, hs⟩
  | succ n ih =>
    rw [exchange, exchange, scans, scans, hup hs, hdown hs]
    dsimp only
    split
    · exact ⟨rfl, rfl, hs⟩
    · exact ih _ _ (hswap hs _ _)

theorem Alike.partition (h : Alike R less less') (a b pivot : ℕ) (hs : R s t) :
    (partition less a b pivot s).1 = (partition less' a b pivot t).1 ∧
      (partition less a b pivot s).2.1 = (partition less' a b pivot t).2.1 ∧
      R (partition less a b pivot s).2.2 (partition less' a b pivot t).2.2 := by
  have hfirst := h.swap hs a pivot
  have hup : ∀ {s t}, R s t → (fun i => less s i a) = fun i => less' t i a :=
    fun hs => by rw [h.less hs]
  have hdown : ∀ {s t}, R s t → (fun j => !less s j a) = fun j => !less' t j a :=
    fun hs => by rw [h.less hs]
  have hscans : scans (fun s i => less s i a) (fun s j => !less s j a) (a + 1) (b - 1)
      (Pdqsort.swap s a pivot) = scans (fun s i => less' s i a) (fun s j => !less' s j a) (a + 1)
        (b - 1) (Pdqsort.swap t a pivot) := by
    rw [scans, scans, hup hfirst, hdown hfirst]
  have hrest := fun i j => related_exchange (f := fun s i => less s i a)
    (k := fun s i => less' s i a) (g := fun s j => !less s j a)
    (l := fun s j => !less' s j a) h.swap hup hdown (b - a) (i + 1) (j - 1)
    (h.swap hfirst i j)
  unfold Pdqsort.partition
  dsimp only
  rw [hscans]
  split
  · exact ⟨rfl, rfl, h.swap hfirst _ _⟩
  · obtain ⟨-, hj, hrel⟩ := hrest (scans (fun s i => less' s i a) (fun s j => !less' s j a)
      (a + 1) (b - 1) (Pdqsort.swap t a pivot)).1 (scans (fun s i => less' s i a)
      (fun s j => !less' s j a) (a + 1) (b - 1) (Pdqsort.swap t a pivot)).2
    dsimp only
    rw [hj]
    exact ⟨rfl, rfl, h.swap hrel _ _⟩

theorem Alike.partitionEqual (h : Alike R less less') (a b pivot : ℕ) (hs : R s t) :
    (partitionEqual less a b pivot s).1 = (partitionEqual less' a b pivot t).1 ∧
      R (partitionEqual less a b pivot s).2 (partitionEqual less' a b pivot t).2 := by
  have hup : ∀ {s t}, R s t → (fun i => !less s a i) = fun i => !less' t a i :=
    fun hs => by rw [h.less hs]
  have hdown : ∀ {s t}, R s t → (fun j => less s a j) = fun j => less' t a j :=
    fun hs => by rw [h.less hs]
  obtain ⟨hi, -, hrest⟩ := related_exchange (f := fun s i => !less s a i)
    (k := fun s i => !less' s a i) (g := fun s j => less s a j)
    (l := fun s j => less' s a j) h.swap hup hdown (b - a) (a + 1) (b - 1)
    (h.swap hs a pivot)
  exact ⟨hi, hrest⟩

theorem Alike.prepare (h : Alike R less less') (a b : ℕ) (wasBalanced wasPartitioned : Bool)
    (hs : R s t) :
    ∃ pivot balanced partitioned likelySorted s' t',
      prepare less a b wasBalanced wasPartitioned s =
        ⟨pivot, balanced, partitioned, likelySorted, s'⟩ ∧
      prepare less' a b wasBalanced wasPartitioned t =
        ⟨pivot, balanced, partitioned, likelySorted, t'⟩ ∧ R s' t' := by
  unfold Pdqsort.prepare
  rw [h.less hs]
  split
  · exact ⟨_, _, _, _, _, _, rfl, rfl, h.reverseRange a b hs⟩
  · exact ⟨_, _, _, _, _, _, rfl, rfl, hs⟩
  · exact ⟨_, _, _, _, _, _, rfl, rfl, hs⟩

theorem Alike.attempt (h : Alike R less less') (a b pivot : ℕ)
    (balanced partitioned likelySorted : Bool) (hs : R s t) :
    R (attempt less a b ⟨pivot, balanced, partitioned, likelySorted, s⟩).1
        (attempt less' a b ⟨pivot, balanced, partitioned, likelySorted, t⟩).1 ∧
      (attempt less a b ⟨pivot, balanced, partitioned, likelySorted, s⟩).2 =
        (attempt less' a b ⟨pivot, balanced, partitioned, likelySorted, t⟩).2 := by
  unfold Pdqsort.attempt
  cases likelySorted with
  | false => exact ⟨hs, rfl⟩
  | true => exact h.partialInsertionSort a b 5 (a + 1) hs

theorem Alike.pdqsort (h : Alike R less less') (n : ℕ) {a b : ℕ} (hn : b - a ≤ n) (limit : ℕ)
    (wasBalanced wasPartitioned : Bool) (hs : R s t) :
    R (pdqsort less a b limit wasBalanced wasPartitioned s)
      (pdqsort less' a b limit wasBalanced wasPartitioned t) := by
  induction n generalizing a b limit wasBalanced wasPartitioned s t with
  | zero =>
    rw [Pdqsort.pdqsort, Pdqsort.pdqsort, if_pos (by omega), if_pos (by omega)]
    exact h.insertionSort a b hs
  | succ n ih =>
    rw [Pdqsort.pdqsort, Pdqsort.pdqsort]
    by_cases hshort : b - a ≤ 12
    · rw [if_pos hshort, if_pos hshort]
      exact h.insertionSort a b hs
    rw [if_neg hshort, if_neg hshort]
    by_cases hspent : limit = 0
    · rw [if_pos hspent, if_pos hspent]
      exact h.heapSort a b hs
    rw [if_neg hspent, if_neg hspent]
    have hlt : a < b := by omega
    have hbroken : R (if wasBalanced then s else Pdqsort.breakPatterns a b s)
        (if wasBalanced then t else Pdqsort.breakPatterns a b t) := by
      split
      · exact hs
      · exact h.breakPatterns a b hs
    obtain ⟨pivot, balanced, partitioned, likelySorted, s', t', hready, hready', hturned⟩ :=
      h.prepare a b wasBalanced wasPartitioned hbroken
    dsimp only
    rw [hready, hready']
    obtain ⟨hslice, hdone⟩ := h.attempt a b pivot balanced partitioned likelySorted hturned
    generalize Pdqsort.attempt less a b _ = r at hslice hdone ⊢
    generalize Pdqsort.attempt less' a b _ = r' at hslice hdone ⊢
    rw [hdone, h.less hslice]
    split
    · exact hslice
    split
    · obtain ⟨hmid, hrest⟩ := h.partitionEqual a b pivot hslice
      have hshrinks := partitionEqual_shrinks less' pivot r'.1 hlt
      rw [hmid]
      exact ih (by omega) _ _ _ hrest
    · obtain ⟨hmid, halready, hrest⟩ := h.partition a b pivot hslice
      obtain ⟨hleft, hright⟩ := partition_shrinks less' pivot r'.1 hlt
      rw [hmid, halready]
      split
      · exact ih (by omega) _ _ _ (ih (by omega) _ _ _ hrest)
      · exact ih (by omega) _ _ _ (ih (by omega) _ _ _ hrest)

theorem Alike.sortSlice (h : Alike R less less') (hlength : s.length = t.length) (hs : R s t) :
    R (sortSlice less s) (sortSlice less' t) := by
  rw [Pdqsort.sortSlice, Pdqsort.sortSlice, hlength]
  exact h.pdqsort _ (Nat.le_refl _) _ _ _ hs

end

section
variable {α β : Type}

theorem swap_perm (s : List α) (i j : ℕ) : (swap s i j).Perm s := by
  unfold swap
  split
  · rename_i x y hx hy
    obtain ⟨hi, rfl⟩ := List.getElem?_eq_some_iff.mp hx
    obtain ⟨hj, rfl⟩ := List.getElem?_eq_some_iff.mp hy
    exact List.set_set_perm hi hj
  · exact List.Perm.refl s

theorem swap_map (f : α → β) (s : List α) (i j : ℕ) :
    swap (s.map f) i j = (swap s i j).map f := by
  unfold swap
  rw [List.getElem?_map, List.getElem?_map]
  cases s[i]? with
  | none => rfl
  | some x =>
    cases s[j]? with
    | none => rfl
    | some y => simp [List.map_set]

theorem sortSlice_perm (less : Less α) (s : List α) : (sortSlice less s).Perm s := by
  have halike : Alike (fun t u => t = u ∧ t.Perm s) less less := {
    less := fun h => by rw [h.1]
    swap := fun h i j => ⟨by rw [h.1], (swap_perm _ i j).trans h.2⟩ }
  exact (halike.sortSlice rfl ⟨rfl, List.Perm.refl s⟩).2

/-- A comparison that looks at something else than the slice. -/
def frozen (α : Type) (lt : ℕ → ℕ → Bool) : Less α := fun _ => lt

theorem sortSlice_map (lt : ℕ → ℕ → Bool) (f : α → β) (s : List α) :
    sortSlice (frozen β lt) (s.map f) = (sortSlice (frozen α lt) s).map f := by
  have halike : Alike (fun t u => t = u.map f) (frozen β lt) (frozen α lt) := {
    less := fun _ => rfl
    swap := fun h i j => by rw [h, swap_map] }
  exact halike.sortSlice (List.length_map f) rfl

def positions (lt : ℕ → ℕ → Bool) (n : ℕ) : List ℕ := sortSlice (frozen ℕ lt) (List.range n)

theorem positions_perm (lt : ℕ → ℕ → Bool) (n : ℕ) : (positions lt n).Perm (List.range n) :=
  sortSlice_perm _ _

theorem mem_positions {lt : ℕ → ℕ → Bool} {n p : ℕ} : p ∈ positions lt n ↔ p < n := by
  rw [(positions_perm lt n).mem_iff, List.mem_range]

theorem sortSlice_positions (lt : ℕ → ℕ → Bool) (s : List α) :
    (sortSlice (frozen α lt) s).map some = (positions lt s.length).map (fun p => s[p]?) := by
  have hself : s.map some = (List.range s.length).map (fun p => s[p]?) := by
    apply List.ext_getElem
    · simp
    · intro i hi hi'
      simp only [List.length_map] at hi
      simp [hi]
  rw [← sortSlice_map, hself, sortSlice_map]
  rfl

/-- What a comparison of positions does to a slice shows in the positions. -/
theorem pairwise_sortSlice {r : α → α → Prop} (lt : ℕ → ℕ → Bool) (s : List α) :
    (sortSlice (frozen α lt) s).Pairwise r ↔
      (positions lt s.length).Pairwise (fun p q => ∀ x y, s[p]? = some x → s[q]? = some y →
        r x y) := by
  have hoptions : ∀ l : List α, l.Pairwise r ↔
      (l.map some).Pairwise (fun o o' => ∀ x y, o = some x → o' = some y → r x y) := by
    intro l
    rw [List.pairwise_map]
    simp
  rw [hoptions, sortSlice_positions, List.pairwise_map]

end

section
variable {α : Type}

def descent (lt : ℕ → ℕ → Bool) : ℕ → ℕ
  | 0 => 0
  | k + 1 => if lt (k + 1) k then descent lt k + 1 else 0

theorem descent_le (lt : ℕ → ℕ → Bool) (k : ℕ) : descent lt k ≤ k := by
  induction k with
  | zero => exact Nat.le_refl 0
  | succ k ih =>
    rw [descent]
    split <;> omega

def Descends (lt : ℕ → ℕ → Bool) (p q : ℕ) : Prop := ∀ i, p ≤ i → i < q → lt (i + 1) i = true

theorem descends_iff {lt : ℕ → ℕ → Bool} {p k : ℕ} (h : p ≤ k) :
    Descends lt p k ↔ k - descent lt k ≤ p := by
  induction k with
  | zero =>
    have hp : p = 0 := by omega
    subst hp
    simp [Descends]
  | succ k ih =>
    have hle := descent_le lt k
    by_cases hk : p ≤ k
    · have hlast : Descends lt p (k + 1) ↔ Descends lt p k ∧ lt (k + 1) k = true := by
        constructor
        · exact fun hall => ⟨fun i hi hik => hall i hi (by omega), hall k hk (by omega)⟩
        · rintro ⟨hall, hlt⟩ i hi hik
          by_cases heq : i = k
          · rw [heq, hlt]
          · exact hall i hi (by omega)
      rw [hlast, ih hk, descent]
      split
      · rename_i hlt
        simp only [hlt, and_true]
        omega
      · rename_i hlt
        simp [hlt]
        omega
    · constructor
      · intro
        omega
      · intro _ i hi hik
        omega

theorem swap_adjacent (u : List α) (x y : α) (rest : List α) :
    swap (u ++ y :: x :: rest) (u.length + 1) u.length = u ++ x :: y :: rest := by
  simp [swap]

theorem siftBack_append (lt : ℕ → ℕ → Bool) (u : List α) (x : α) (rest : List α) :
    siftBack (frozen α lt) 0 u.length (u ++ x :: rest) =
      u.take (u.length - descent lt u.length) ++
        x :: (u.drop (u.length - descent lt u.length) ++ rest) := by
  induction u using List.reverseRecOn generalizing rest with
  | nil => rfl
  | append_singleton u y ih =>
    have hle := descent_le lt u.length
    rw [List.length_append, List.length_singleton, siftBack, descent]
    simp only [frozen, Nat.zero_lt_succ, decide_true, Bool.true_and]
    split
    · have hmoved := ih (y :: rest)
      have hadj := swap_adjacent u x y rest
      rw [List.append_assoc, List.singleton_append, hadj]
      have hcount : u.length + 1 - (descent lt u.length + 1) = u.length - descent lt u.length := by
        omega
      rw [hcount, List.take_append_of_le_length (by omega), List.drop_append_of_le_length (by omega)]
      simpa [frozen] using hmoved
    · rw [Nat.sub_zero, List.take_of_length_le (by simp), List.drop_of_length_le (by simp)]
      simp

def unwound (lt : ℕ → ℕ → Bool) : ℕ → List ℕ
  | 0 => []
  | k + 1 => (unwound lt k).take (k - descent lt k) ++
      k :: (unwound lt k).drop (k - descent lt k)

theorem length_unwound (lt : ℕ → ℕ → Bool) (k : ℕ) : (unwound lt k).length = k := by
  induction k with
  | zero => rfl
  | succ k ih =>
    simp only [unwound, List.length_append, List.length_cons, List.length_take, List.length_drop]
    omega

theorem insertionSort_range (lt : ℕ → ℕ → Bool) (k m : ℕ) :
    (List.range' 1 (k - 1)).foldl (fun s i => siftBack (frozen ℕ lt) 0 i s)
        (List.range' 0 (k + m)) = unwound lt k ++ List.range' k m := by
  induction k generalizing m with
  | zero => simp [unwound]
  | succ k ih =>
    have hprev := ih (m + 1)
    have hsteps : (List.range' 1 (k + 1 - 1)).foldl (fun s i => siftBack (frozen ℕ lt) 0 i s)
        (List.range' 0 (k + 1 + m)) =
          siftBack (frozen ℕ lt) 0 k (unwound lt k ++ List.range' k (m + 1)) := by
      rw [← hprev]
      cases k with
      | zero =>
        rw [Nat.zero_add, Nat.zero_add, Nat.add_comm 1 m]
        rfl
      | succ k =>
        have hlast : List.range' 1 (k + 1) = List.range' 1 k ++ [1 + k] := by
          rw [List.range'_concat, Nat.one_mul]
        have hsize : k + 1 + 1 + m = k + 1 + (m + 1) := by omega
        rw [Nat.add_sub_cancel, Nat.add_sub_cancel, hlast, List.foldl_append, hsize,
          Nat.add_comm 1 k]
        rfl
    have hlen := length_unwound lt k
    have hlast := siftBack_append lt (unwound lt k) k (List.range' (k + 1) m)
    rw [hlen] at hlast
    rw [hsteps, List.range'_succ, hlast, unwound]
    simp

theorem sortSlice_insertion (less : Less α) {s : List α} (h : s.length ≤ 12) :
    sortSlice less s = insertionSort less 0 s.length s := by
  rw [sortSlice, pdqsort, if_pos (by omega)]

theorem positions_unwound (lt : ℕ → ℕ → Bool) {n : ℕ} (h : n ≤ 12) :
    positions lt n = unwound lt n := by
  have hall := insertionSort_range lt n 0
  rw [positions, sortSlice_insertion _ (by simpa using h), List.length_range, insertionSort,
    List.range_eq_range']
  simpa using hall

theorem mem_unwound {lt : ℕ → ℕ → Bool} {k p : ℕ} (h : p ∈ unwound lt k) : p < k := by
  induction k with
  | zero => cases h
  | succ k ih =>
    rw [unwound, List.mem_append, List.mem_cons] at h
    rcases h with h | rfl | h
    · have := ih (List.mem_of_mem_take h)
      omega
    · omega
    · have := ih (List.mem_of_mem_drop h)
      omega

theorem unwound_split (lt : ℕ → ℕ → Bool) (k : ℕ) :
    (∀ p ∈ (unwound lt k).take (k - descent lt k), p < k - descent lt k) ∧
      (∀ p ∈ (unwound lt k).drop (k - descent lt k), k - descent lt k ≤ p) := by
  induction k with
  | zero => simp [unwound]
  | succ k ih =>
    have hlen := length_unwound lt (k + 1)
    rw [descent]
    split
    · have htake : ((unwound lt k).take (k - descent lt k)).length = k - descent lt k := by
        rw [List.length_take, length_unwound]
        omega
      have hcount : k + 1 - (descent lt k + 1) = k - descent lt k := by omega
      rw [hcount, unwound, List.take_left' htake, List.drop_left' htake]
      constructor
      · exact ih.1
      · intro p hp
        rcases List.mem_cons.mp hp with rfl | hp
        · omega
        · exact ih.2 p hp
    · rw [Nat.sub_zero, List.take_of_length_le (by omega), List.drop_of_length_le (by omega)]
      constructor
      · exact fun p hp => mem_unwound hp
      · exact fun p hp => by cases hp

theorem unwound_pairwise (lt : ℕ → ℕ → Bool) (k : ℕ) :
    (unwound lt k).Pairwise (fun p q => p < q ∧ ¬Descends lt p q ∨ q < p ∧ Descends lt q p) := by
  induction k with
  | zero => exact List.Pairwise.nil
  | succ k ih =>
    obtain ⟨hbefore, hrun⟩ := unwound_split lt k
    have hparts := List.take_append_drop (k - descent lt k) (unwound lt k)
    rw [← hparts, List.pairwise_append] at ih
    rw [unwound, List.pairwise_append, List.pairwise_cons]
    have hlast : ∀ q ∈ (unwound lt k).drop (k - descent lt k),
        k < q ∧ ¬Descends lt k q ∨ q < k ∧ Descends lt q k := by
      intro q hq
      have hlt := mem_unwound (List.mem_of_mem_drop hq)
      exact Or.inr ⟨hlt, (descends_iff (Nat.le_of_lt hlt)).mpr (hrun q hq)⟩
    refine ⟨ih.1, ⟨hlast, ih.2.1⟩, ?_⟩
    intro p hp q hq
    rcases List.mem_cons.mp hq with rfl | hq
    · have hlt := mem_unwound (List.mem_of_mem_take hp)
      have hnot : ¬Descends lt p q := by
        rw [descends_iff (Nat.le_of_lt hlt)]
        have := hbefore p hp
        omega
      exact Or.inl ⟨hlt, hnot⟩
    · exact ih.2.2 p hp q hq

/-- The comparison descends between two positions if and only if the entries
there do. -/
def Agree {α : Type} [LinearOrder α] (lt : ℕ → ℕ → Bool) (s : List α) (p q : ℕ) : Prop :=
  ∀ (hp : p < s.length) (hq : q < s.length),
    (p < q → (s[q] < s[p] ↔ Descends lt p q)) ∧ (q < p → (s[p] < s[q] ↔ Descends lt q p))

instance {α : Type} [LinearOrder α] (lt : ℕ → ℕ → Bool) (s : List α) : Std.Symm (Agree lt s) :=
  ⟨fun _ _ h hp hq => ⟨(h hq hp).2, (h hq hp).1⟩⟩

/-- Up to twelve entries come out in order exactly when the descents of the
comparison are the inversions of the slice. -/
theorem sortSlice_short {α : Type} [LinearOrder α] (lt : ℕ → ℕ → Bool) {s : List α}
    (h : s.length ≤ 12) (hn : s.Nodup) :
    (sortSlice (frozen α lt) s).Pairwise (· < ·) ↔
      ∀ p q (hpq : p < q) (hq : q < s.length), s[q] < s[p] ↔ Descends lt p q := by
  rw [pairwise_sortSlice, positions_unwound lt h]
  have hmem : ∀ p, p < s.length → p ∈ unwound lt s.length := fun p hp => by
    rw [← positions_unwound lt h]
    exact mem_positions.mpr hp
  have hpair := unwound_pairwise lt s.length
  constructor
  · intro hsorted p q hpq hq
    have hagree : (unwound lt s.length).Pairwise (Agree lt s) := by
      apply (hsorted.and hpair).imp
      rintro p q ⟨hless, hor⟩ hp hq
      have hlt : s[p] < s[q] := hless _ _ (List.getElem?_eq_getElem hp) (List.getElem?_eq_getElem hq)
      rcases hor with ⟨hpq, hnot⟩ | ⟨hqp, hdesc⟩
      · exact ⟨fun _ => iff_of_false (lt_asymm hlt) hnot, fun hqp => absurd hqp (Nat.lt_asymm hpq)⟩
      · exact ⟨fun hpq => absurd hpq (Nat.lt_asymm hqp), fun _ => iff_of_true hlt hdesc⟩
    have hp : p < s.length := Nat.lt_trans hpq hq
    exact (hagree.forall (hmem p hp) (hmem q hq) (Nat.ne_of_lt hpq) hp hq).1 hpq
  · intro hiff
    apply hpair.imp
    intro p q hor x y hx hy
    obtain ⟨hp, rfl⟩ := List.getElem?_eq_some_iff.mp hx
    obtain ⟨hq, rfl⟩ := List.getElem?_eq_some_iff.mp hy
    rcases hor with ⟨hpq, hnot⟩ | ⟨hqp, hdesc⟩
    · have hle : s[p] ≤ s[q] := not_lt.mp (fun hlt => hnot ((hiff p q hpq hq).mp hlt))
      have hne : s[p] ≠ s[q] := fun he => Nat.ne_of_lt hpq (hn.getElem_inj_iff.mp he)
      exact lt_of_le_of_ne hle hne
    · exact (hiff q p hqp hp).mpr hdesc

theorem scanUp_all {p : ℕ → Bool} (n i : ℕ) (h : ∀ j, i ≤ j → j < i + n → p j = true) :
    scanUp p n i = i + n := by
  induction n generalizing i with
  | zero => rfl
  | succ n ih =>
    have hfirst := h i (Nat.le_refl i) (by omega)
    have hrest := ih (i + 1) (fun j hj hlt => h j (by omega) (by omega))
    rw [scanUp, if_pos hfirst, hrest]
    omega

section
variable {lt : ℕ → ℕ → Bool} {n : ℕ} (h : ∀ p q, p < q → q < n → lt q p = false)
include h

theorem median_ascending {x y z : ℕ} (hxy : x < y) (hyz : y < z) (hz : z < n) (k : ℕ) :
    median lt x y z k = (y, k) := by
  simp [median, order2, h x y hxy (hyz.trans hz), h y z hyz hz]

theorem choosePivot_ascending (hlong : 12 < n) :
    choosePivot lt 0 n = (n / 4 * 2, .increasing) := by
  have hquarter : 3 ≤ n / 4 := by omega
  have hi := median_ascending h (x := n / 4 * 1 - 1) (y := n / 4 * 1)
    (z := n / 4 * 1 + 1) (by omega) (by omega) (by omega) 0
  have hj := median_ascending h (x := n / 4 * 2 - 1) (y := n / 4 * 2)
    (z := n / 4 * 2 + 1) (by omega) (by omega) (by omega) 0
  have hk := median_ascending h (x := n / 4 * 3 - 1) (y := n / 4 * 3)
    (z := n / 4 * 3 + 1) (by omega) (by omega) (by omega) 0
  have hall := median_ascending h (x := n / 4 * 1) (y := n / 4 * 2)
    (z := n / 4 * 3) (by omega) (by omega) (by omega) 0
  simp only [choosePivot, medianAdjacent, Nat.sub_zero, Nat.zero_add, hi, hj, hk, hall]
  rw [if_neg (by omega)]
  simp

theorem siftBack_ascending (a : ℕ) {j : ℕ} (hj : j < n) (s : List α) :
    siftBack (frozen α lt) a j s = s := by
  cases j with
  | zero => rfl
  | succ j => simp [siftBack, frozen, h j (j + 1) (Nat.lt_succ_self j) hj]

theorem insertionSort_ascending (s : List α) : insertionSort (frozen α lt) 0 n s = s := by
  unfold insertionSort
  have hbound : ∀ i ∈ List.range' (0 + 1) (n - (0 + 1)), i < n := by
    intro i hi
    rw [List.mem_range'_1] at hi
    omega
  generalize List.range' (0 + 1) (n - (0 + 1)) = is at hbound
  induction is with
  | nil => rfl
  | cons i is ih =>
    rw [List.foldl_cons, siftBack_ascending h 0 (hbound i (by simp))]
    exact ih fun j hj => hbound j (by simp [hj])

theorem partialInsertionSort_ascending (k : ℕ) (s : List α) (hn : 0 < n) :
    partialInsertionSort (frozen α lt) 0 n (k + 1) (0 + 1) s = (s, true) := by
  have hscan : scanUp (fun i => !lt i (i - 1)) (n - (0 + 1)) (0 + 1) = n := by
    rw [scanUp_all (n - (0 + 1)) (0 + 1)
      (fun j hj hlt => by simp [h (j - 1) j (by omega) (by omega)])]
    omega
  rw [partialInsertionSort, frozen, hscan, if_pos rfl]

end

theorem sortSlice_ascending {lt : ℕ → ℕ → Bool} (s : List α)
    (h : ∀ p q, p < q → q < s.length → lt q p = false) : sortSlice (frozen α lt) s = s := by
  by_cases hshort : s.length ≤ 12
  · rw [sortSlice_insertion _ hshort]
    exact insertionSort_ascending h s
  · have hsize : s.length.size ≠ 0 := by
      rw [Ne, Nat.size_eq_zero]
      omega
    have hpivot := choosePivot_ascending h (by omega)
    have hsorted := partialInsertionSort_ascending h 4 s (by omega)
    rw [sortSlice, pdqsort, if_neg (by omega), if_neg hsize]
    simp [prepare, attempt, frozen, hpivot] at hsorted ⊢
    simp [hsorted]

end
end Pdqsort
