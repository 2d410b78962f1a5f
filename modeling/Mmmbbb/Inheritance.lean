import Mathlib.Data.List.Infix

/-!
# Settings that are inherited

A name may have a value of its own, and otherwise has that of the nearest name
above it. Values are set by calls, and a call may withdraw the values that
the names below have been given.
-/

set_option autoImplicit false

namespace Inheritance

variable {κ ν : Type}

section
variable {above : κ → κ → Prop} {P : κ → Prop} {x p a : κ}

structure Nearest (above : κ → κ → Prop) (P : κ → Prop) (x a : κ) : Prop where
  isAbove : above a x
  holds : P a
  nearest : ∀ b, above b x → P b → above b a

theorem nearest_self (hself : above x x) (h : P x) : Nearest above P x x where
  isAbove := hself
  holds := h
  nearest := fun _ hb _ => hb

/-- One step of a walk to the top, by which everything above is reached. -/
theorem Nearest.step (hparent : ∀ a, above a x ↔ a = x ∨ above a p) (hx : ¬P x)
    (h : Nearest above P p a) : Nearest above P x a where
  isAbove := (hparent a).mpr (.inr h.isAbove)
  holds := h.holds
  nearest := by
    intro b hb hPb
    rcases (hparent b).mp hb with hbx | hbp
    · rw [hbx] at hPb
      exact absurd hPb hx
    · exact h.nearest b hbp hPb

theorem Nearest.unique {b : κ} (hanti : ∀ a b, above a b → above b a → a = b)
    (h : Nearest above P x a) (h' : Nearest above P x b) : a = b := by
  have hab : above a b := h'.nearest a h.isAbove h.holds
  have hba : above b a := h.nearest b h'.isAbove h'.holds
  exact hanti a b hab hba

end

structure Call (κ ν : Type) where
  name : κ
  children : Bool
  value : ν
  deriving DecidableEq

section
variable {below : κ → κ → Prop} {calls : List (Call κ ν)} {c : Call κ ν} {x : κ} {v : ν}

def Call.Withdraws (below : κ → κ → Prop) (c : Call κ ν) (x : κ) : Prop :=
  c.children = true ∧ below c.name x

/-- The last value that the name has been given, if it has not been withdrawn
since. -/
def InForce (below : κ → κ → Prop) (calls : List (Call κ ν)) (x : κ) (v : ν) : Prop :=
  ∃ earlier children later, calls = earlier ++ ⟨x, children, v⟩ :: later ∧
    ∀ c ∈ later, c.name ≠ x ∧ ¬c.Withdraws below x

theorem inForce_nil : ¬InForce below ([] : List (Call κ ν)) x v := by
  rintro ⟨earlier, children, later, h, -⟩
  simp at h

theorem inForce_set (h : c.name = x) : InForce below (calls ++ [c]) x v ↔ c.value = v := by
  constructor
  · rintro ⟨earlier, children, later, hcalls, hlater⟩
    rcases List.eq_nil_or_concat later with hnil | ⟨front, d, hfront⟩
    · rw [hnil] at hcalls
      have hlast := (List.append_inj' hcalls rfl).2
      rw [List.singleton_inj.mp hlast]
    · rw [hfront, List.concat_eq_append, ← List.cons_append, ← List.append_assoc] at hcalls
      have hlast := List.singleton_inj.mp (List.append_inj' hcalls rfl).2
      have hd : d ∈ later := by simp [hfront]
      exact absurd (hlast ▸ h) (hlater d hd).1
  · intro hv
    refine ⟨calls, c.children, [], ?_, by simp⟩
    rw [← h, ← hv]

theorem inForce_other (h : c.name ≠ x) :
    InForce below (calls ++ [c]) x v ↔ ¬c.Withdraws below x ∧ InForce below calls x v := by
  constructor
  · rintro ⟨earlier, children, later, hcalls, hlater⟩
    rcases List.eq_nil_or_concat later with hnil | ⟨front, d, hfront⟩
    · rw [hnil] at hcalls
      have hlast := List.singleton_inj.mp (List.append_inj' hcalls rfl).2
      rw [hlast] at h
      exact absurd rfl h
    · rw [hfront, List.concat_eq_append, ← List.cons_append, ← List.append_assoc] at hcalls
      obtain ⟨hinit, hlast⟩ := List.append_inj' hcalls rfl
      have hd : d ∈ later := by simp [hfront]
      rw [List.singleton_inj.mp hlast]
      refine ⟨(hlater d hd).2, earlier, children, front, hinit, fun e he => hlater e ?_⟩
      simp [hfront, he]
  · rintro ⟨hwithdraws, earlier, children, later, hcalls, hlater⟩
    refine ⟨earlier, children, later ++ [c], by simp [hcalls], ?_⟩
    intro d hd
    rcases List.mem_append.mp hd with hd | hd
    · exact hlater d hd
    · rw [List.mem_singleton.mp hd]
      exact ⟨h, hwithdraws⟩

theorem InForce.unique {v' : ν} (h : InForce below calls x v) (h' : InForce below calls x v') :
    v = v' := by
  induction calls using List.reverseRecOn with
  | nil => exact absurd h inForce_nil
  | append_singleton calls c ih =>
    by_cases hc : c.name = x
    · rw [← (inForce_set hc).mp h, ← (inForce_set hc).mp h']
    · exact ih ((inForce_other hc).mp h).2 ((inForce_other hc).mp h').2

end

end Inheritance
