import Mathlib.Algebra.Order.Ring.Nat
import Mathlib.Data.List.Flatten
import Mmmbbb.Programs

/-!
# Jobs that use themselves up

Jobs that take turns, each of which either has nothing to do or lowers a
measure. Among more cycles than the measure counts there is one in which no
job has anything to do.
-/

set_option autoImplicit false

namespace Exhaustion

section
variable {σ α : Type} {after : σ → α → σ} {size : σ → ℕ} {Idle : σ → α → Prop}

def Works (after : σ → α → σ) (size : σ → ℕ) (Idle : σ → α → Prop) (s : σ) (a : α) : Prop :=
  Idle s a ∧ after s a = s ∨ size (after s a) < size s

theorem Works.le {s : σ} {a : α} (h : Works after size Idle s a) : size (after s a) ≤ size s := by
  rcases h with ⟨-, heq⟩ | hlt
  · rw [heq]
  · exact hlt.le

theorem foldl_le {as : List α} (h : ∀ a ∈ as, ∀ s, Works after size Idle s a) (s : σ) :
    size (as.foldl after s) ≤ size s := by
  induction as generalizing s with
  | nil => exact le_refl _
  | cons a as ih =>
    have hrest := ih (fun b hb => h b (by simp [hb])) (after s a)
    exact hrest.trans (h a (by simp) s).le

theorem cycle_works {as : List α} (h : ∀ a ∈ as, ∀ s, Works after size Idle s a) (s : σ) :
    (∀ a ∈ as, Idle s a) ∨ size (as.foldl after s) < size s := by
  induction as with
  | nil => exact Or.inl (by simp)
  | cons a as ih =>
    have hrest : ∀ b ∈ as, ∀ s, Works after size Idle s b := fun b hb => h b (by simp [hb])
    rcases h a (by simp) s with ⟨hidle, heq⟩ | hlt
    · rw [List.foldl_cons, heq]
      refine (ih hrest).imp_left fun hall b hb => ?_
      rcases List.mem_cons.mp hb with rfl | hb
      · exact hidle
      · exact hall b hb
    · exact Or.inr ((foldl_le hrest _).trans_lt hlt)

theorem exists_idle {cycles : List (List α)}
    (h : ∀ c ∈ cycles, ∀ a ∈ c, ∀ s, Works after size Idle s a) {s : σ}
    (hlen : size s < cycles.length) :
    ∃ pre c post, cycles = pre ++ c :: post ∧ ∀ a ∈ c, Idle (pre.flatten.foldl after s) a := by
  induction cycles generalizing s with
  | nil => simp at hlen
  | cons c cycles ih =>
    rcases cycle_works (h c (by simp)) s with hidle | hlt
    · exact ⟨[], c, cycles, rfl, hidle⟩
    · have hshort : size (c.foldl after s) < cycles.length := by
        rw [List.length_cons] at hlen
        omega
      obtain ⟨pre, d, post, rfl, hidle⟩ := ih (fun d hd => h d (by simp [hd])) hshort
      refine ⟨c :: pre, d, post, rfl, ?_⟩
      rwa [List.flatten_cons, List.foldl_append]

theorem exists_idle_turn {ok : σ → α → σ → Prop} {I : σ → Prop}
    (h : ∀ s a, I s → ok s a (after s a) →
      I (after s a) ∧ (Idle s a ∨ size (after s a) < size s))
    {as : List α} {s : σ} (hi : I s) (hrun : Programs.Throughout after ok s as)
    (hlen : size s < as.length) :
    ∃ pre a post, as = pre ++ a :: post ∧ I (pre.foldl after s) ∧
      Idle (pre.foldl after s) a := by
  induction as generalizing s with
  | nil => simp at hlen
  | cons a as ih =>
    obtain ⟨hkept, hworks⟩ := h s a hi hrun.1
    rcases hworks with hidle | hlt
    · exact ⟨[], a, as, rfl, hi, hidle⟩
    · have hshort : size (after s a) < as.length := by
        rw [List.length_cons] at hlen
        omega
      obtain ⟨pre, b, post, rfl, hrest⟩ := ih hkept hrun.2 hshort
      exact ⟨a :: pre, b, post, rfl, hrest⟩

theorem length_le {as : List α} {s : σ}
    (h : Programs.Throughout after (fun s _ s' => size s' < size s) s as) :
    as.length + size (as.foldl after s) ≤ size s := by
  induction as generalizing s with
  | nil => simp
  | cons a as ih =>
    have hfirst : size (after s a) < size s := h.1
    have hrest := ih h.2
    rw [List.foldl_cons, List.length_cons]
    omega

end

end Exhaustion
