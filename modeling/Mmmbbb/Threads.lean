import Mathlib.Data.List.Basic

/-!
# Threads under a readers-writer lock

Threads are numbered, each at some place of its code. A place is inside the
read lock, inside the write lock, or outside both. The lock is held by the
threads that are inside.
-/

set_option autoImplicit false

namespace Threads

inductive Mode
  | outside
  | reading
  | writing
  deriving DecidableEq

section
variable {τ : Type} {mode : τ → Mode} {ts : List τ} {i : ℕ} {a b : τ}

def MayRead (mode : τ → Mode) (ts : List τ) : Prop := ∀ t ∈ ts, mode t ≠ .writing

def MayWrite (mode : τ → Mode) (ts : List τ) : Prop := ∀ t ∈ ts, mode t = .outside

instance : Decidable (MayRead mode ts) := inferInstanceAs (Decidable (∀ t ∈ ts, _))

instance : Decidable (MayWrite mode ts) := inferInstanceAs (Decidable (∀ t ∈ ts, _))

def Exclusive (mode : τ → Mode) (ts : List τ) : Prop :=
  ∀ (i j : ℕ) (a b : τ), ts[i]? = some a → ts[j]? = some b → mode a = .writing →
    mode b ≠ .outside → i = j

theorem exclusive_nil : Exclusive mode [] := by
  intro i j a b ha
  simp at ha

theorem set_at {j : ℕ} {x : τ} (h : (ts.set i b)[j]? = some x) :
    (j = i ∧ x = b) ∨ (j ≠ i ∧ ts[j]? = some x) := by
  rw [List.getElem?_set] at h
  by_cases hij : i = j
  · subst hij
    rw [if_pos rfl] at h
    split at h
    · exact Or.inl ⟨rfl, (Option.some.inj h).symm⟩
    · cases h
  · rw [if_neg hij] at h
    exact Or.inr ⟨fun hji => hij hji.symm, h⟩

theorem append_at {j : ℕ} {x : τ} {new : List τ} (h : (ts ++ new)[j]? = some x) :
    ts[j]? = some x ∨ x ∈ new := by
  by_cases hj : j < ts.length
  · rw [List.getElem?_append_left hj] at h
    exact Or.inl h
  · rw [List.getElem?_append_right (by omega)] at h
    exact Or.inr (List.mem_of_getElem? h)

/-- How a thread may move: out of the lock, on where it is, or into the lock
when that is free. -/
def Admitted (mode : τ → Mode) (ts : List τ) (a b : τ) : Prop :=
  mode b = .outside ∨ mode b = mode a ∨ (mode b = .reading ∧ MayRead mode ts) ∨
    (mode b = .writing ∧ MayWrite mode ts)

theorem Exclusive.set (h : Exclusive mode ts) (ha : ts[i]? = some a)
    (hb : Admitted mode ts a b) : Exclusive mode (ts.set i b) := by
  intro j k x y hx hy hxw hyo
  rcases set_at hx with ⟨rfl, rfl⟩ | ⟨hj, hx'⟩ <;> rcases set_at hy with ⟨rfl, rfl⟩ | ⟨hk, hy'⟩
  · rfl
  · rcases hb with hb | hb | ⟨hb, -⟩ | ⟨-, hfree⟩
    · rw [hb] at hxw
      cases hxw
    · exact h j k a y ha hy' (hb ▸ hxw) hyo
    · rw [hb] at hxw
      cases hxw
    · exact absurd (hfree y (List.mem_of_getElem? hy')) hyo
  · rcases hb with hb | hb | ⟨-, hfree⟩ | ⟨-, hfree⟩
    · exact absurd hb hyo
    · exact h j k x a hx' ha hxw (hb ▸ hyo)
    · exact absurd hxw (hfree x (List.mem_of_getElem? hx'))
    · have hout := hfree x (List.mem_of_getElem? hx')
      rw [hout] at hxw
      cases hxw
  · exact h j k x y hx' hy' hxw hyo

theorem Exclusive.append (h : Exclusive mode ts) {new : List τ}
    (hnew : ∀ t ∈ new, mode t = .outside) : Exclusive mode (ts ++ new) := by
  intro j k x y hx hy hxw hyo
  rcases append_at hx with hx | hx
  · rcases append_at hy with hy | hy
    · exact h j k x y hx hy hxw hyo
    · exact absurd (hnew y hy) hyo
  · rw [hnew x hx] at hxw
    cases hxw

theorem Exclusive.others (h : Exclusive mode ts) (ha : ts[i]? = some a) (haw : mode a = .writing)
    {j : ℕ} (hj : j ≠ i) (hb : ts[j]? = some b) : mode b = .outside := by
  by_contra hout
  exact hj (h i j a b ha hb haw hout).symm

theorem countP_set {p : τ → Bool} (ha : ts[i]? = some a) :
    (ts.set i b).countP p + (if p a = true then 1 else 0) =
      ts.countP p + (if p b = true then 1 else 0) := by
  obtain ⟨hi, rfl⟩ := List.getElem?_eq_some_iff.mp ha
  have hset := List.countP_set (p := p) (a := b) hi
  have hpos : p ts[i] = true → 0 < ts.countP p := fun hp =>
    List.countP_pos_iff.mpr ⟨_, List.getElem_mem hi, hp⟩
  by_cases hp : p ts[i] = true
  · have h0 := hpos hp
    simp only [hp, if_true] at hset ⊢
    omega
  · simp only [hp] at hset ⊢
    simpa using hset

end

end Threads
