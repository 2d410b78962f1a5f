import Mathlib.Data.List.AList
import Mathlib.Algebra.Order.BigOperators.Group.List
import Mathlib.Algebra.Order.Ring.Nat

/-!
# Windows of weighted entries

A window maps keys to entries that have a weight. What is put in under a key
replaces what was there. The size and the load of a window are what a budget
is counted against.
-/

set_option autoImplicit false

namespace Windows

abbrev Window (κ β : Type) := AList (fun _ : κ => β)

section
variable {κ β : Type} {weight : β → ℕ} {u v w : Window κ β}

def size (w : Window κ β) : ℕ := w.entries.length

def load (weight : β → ℕ) (w : Window κ β) : ℕ := (w.entries.map (fun e => weight e.2)).sum

structure Smaller (weight : β → ℕ) (v w : Window κ β) : Prop where
  size : size v ≤ size w
  load : load weight v ≤ load weight w

theorem Smaller.refl (w : Window κ β) : Smaller weight w w := ⟨le_refl _, le_refl _⟩

theorem Smaller.trans (h : Smaller weight u v) (h' : Smaller weight v w) : Smaller weight u w :=
  ⟨h.size.trans h'.size, h.load.trans h'.load⟩

theorem load_of_size (h : size w = 0) : load weight w = 0 := by
  rw [load, List.length_eq_zero_iff.mp h]
  rfl

/-- At most `n` entries, that weigh at most `b` unless there is only one. -/
structure Within (weight : β → ℕ) (n b : ℕ) (w : Window κ β) : Prop where
  size : size w ≤ n
  load : load weight w ≤ b ∨ Windows.size w = 1

theorem Within.smaller {n b : ℕ} (h : Within weight n b w) (hv : Smaller weight v w) :
    Within weight n b v := by
  refine ⟨hv.size.trans h.size, ?_⟩
  rcases h.load with hload | hone
  · exact Or.inl (hv.load.trans hload)
  · have hsize := hv.size
    by_cases hzero : Windows.size v = 0
    · have hload := @load_of_size _ _ weight v hzero
      exact Or.inl (by omega)
    · exact Or.inr (by omega)

theorem smaller_foldl {ι : Type} {f : Window κ β → ι → Window κ β}
    (hf : ∀ w x, Smaller weight (f w x) w) (xs : List ι) : Smaller weight (xs.foldl f w) w := by
  induction xs generalizing w with
  | nil => exact .refl w
  | cons x xs ih => exact ih.trans (hf w x)

end

section
variable {κ β ι : Type} [DecidableEq κ] {weight : β → ℕ} {w : Window κ β} {k : κ}

theorem smaller_erase (k : κ) : Smaller weight (w.erase k) w where
  size := (List.kerase_sublist k w.entries).length_le
  load := ((List.kerase_sublist k w.entries).map _).sum_le_sum (fun _ _ => Nat.zero_le _)

theorem size_insert_le (k : κ) (b : β) : size (w.insert k b) ≤ size w + 1 :=
  Nat.succ_le_succ (List.kerase_sublist k w.entries).length_le

theorem load_insert_le (k : κ) (b : β) : load weight (w.insert k b) ≤ load weight w + weight b := by
  have h : load weight (w.erase k) ≤ load weight w := (smaller_erase k).load
  have hinsert : load weight (w.insert k b) = weight b + load weight (w.erase k) := rfl
  omega

theorem smaller_insert {b b' : β} (hk : w.lookup k = some b) (hb : weight b' = weight b) :
    Smaller weight (w.insert k b') w := by
  have hmem : k ∈ w.entries.keys := List.dlookup_isSome.mp (by
    rw [show List.dlookup k w.entries = some b from hk]
    rfl)
  obtain ⟨x, l, r, hnot, hentries, herase⟩ := List.exists_of_kerase hmem
  have hx : x = b := by
    have hlook : List.dlookup k w.entries = some x :=
      List.mem_dlookup w.nodupKeys (by simp [hentries])
    exact Option.some.inj (hlook.symm.trans hk)
  subst hx
  constructor
  · have hinsert : size (w.insert k b') = (List.kerase k w.entries).length + 1 := rfl
    rw [hinsert, herase, size, hentries, List.length_append, List.length_append, List.length_cons]
    omega
  · have hinsert : load weight (w.insert k b') =
        weight b' + ((List.kerase k w.entries).map (fun e => weight e.2)).sum := rfl
    rw [hinsert, herase, load, hentries, hb]
    simp only [List.map_append, List.map_cons, List.sum_append, List.sum_cons]
    omega

def eraseAll (ks : List κ) (w : Window κ β) : Window κ β := ks.foldl (fun w k => w.erase k) w

theorem smaller_eraseAll (ks : List κ) : Smaller weight (eraseAll ks w) w :=
  smaller_foldl (fun _ k => smaller_erase k) ks

@[simp] theorem mem_eraseAll {ks : List κ} : k ∈ eraseAll ks w ↔ k ∉ ks ∧ k ∈ w := by
  unfold eraseAll
  induction ks generalizing w with
  | nil => simp
  | cons x ks ih =>
    rw [List.foldl_cons, ih, AList.mem_erase, List.mem_cons]
    tauto

theorem lookup_eraseAll {ks : List κ} {b : β} (h : (eraseAll ks w).lookup k = some b) :
    w.lookup k = some b := by
  unfold eraseAll at h
  induction ks generalizing w with
  | nil => exact h
  | cons x ks ih =>
    have hone := ih h
    by_cases hk : k = x
    · rw [hk, AList.lookup_erase] at hone
      cases hone
    · rwa [AList.lookup_erase_ne hk] at hone

def insertAll (key : ι → κ) (value : ι → β) (xs : List ι) (w : Window κ β) : Window κ β :=
  xs.foldl (fun w x => w.insert (key x) (value x)) w

section
variable {key : ι → κ} {value : ι → β}

@[simp] theorem mem_insertAll {xs : List ι} :
    k ∈ insertAll key value xs w ↔ k ∈ xs.map key ∨ k ∈ w := by
  unfold insertAll
  induction xs generalizing w with
  | nil => simp
  | cons x xs ih =>
    rw [List.foldl_cons, ih, AList.mem_insert, List.map_cons, List.mem_cons]
    tauto

theorem lookup_insertAll {xs : List ι} {b : β} (h : (insertAll key value xs w).lookup k = some b) :
    w.lookup k = some b ∨ ∃ x ∈ xs, key x = k ∧ value x = b := by
  unfold insertAll at h
  induction xs generalizing w with
  | nil => exact Or.inl h
  | cons x xs ih =>
    cases ih h with
    | inl hone =>
      by_cases hk : k = key x
      · rw [hk, AList.lookup_insert] at hone
        exact Or.inr ⟨x, List.mem_cons_self, hk.symm, Option.some.inj hone⟩
      · rw [AList.lookup_insert_ne hk] at hone
        exact Or.inl hone
    | inr hrest =>
      obtain ⟨y, hy, hvalue⟩ := hrest
      exact Or.inr ⟨y, List.mem_cons_of_mem _ hy, hvalue⟩

theorem size_insertAll_le (xs : List ι) : size (insertAll key value xs w) ≤ size w + xs.length := by
  unfold insertAll
  induction xs generalizing w with
  | nil => exact le_refl _
  | cons x xs ih =>
    have hrest := ih (w := w.insert (key x) (value x))
    have hone := size_insert_le (w := w) (key x) (value x)
    rw [List.foldl_cons, List.length_cons]
    omega

theorem load_insertAll_le (xs : List ι) :
    load weight (insertAll key value xs w) ≤
      load weight w + (xs.map (fun x => weight (value x))).sum := by
  unfold insertAll
  induction xs generalizing w with
  | nil => exact le_refl _
  | cons x xs ih =>
    have hrest := ih (w := w.insert (key x) (value x))
    have hone : load weight (w.insert (key x) (value x)) ≤ load weight w + weight (value x) :=
      load_insert_le (key x) (value x)
    rw [List.foldl_cons, List.map_cons, List.sum_cons]
    omega

end

end

end Windows
