import Mathlib.Logic.Function.Basic
import Mmmbbb.Programs

/-!
# Threads that share a value

Any number of threads, each with a state of its own, take steps in any order.
A step sees the shared value and the state of its thread, and may change both.
-/

set_option autoImplicit false

namespace Sharing
open Programs

variable {σ τ ε : Type}

structure State (σ τ : Type) where
  shared : σ
  own : ℕ → τ

def after (act : σ → τ → ε → σ × τ) (st : State σ τ) (e : ℕ × ε) : State σ τ :=
  ⟨(act st.shared (st.own e.1) e.2).1,
    Function.update st.own e.1 (act st.shared (st.own e.1) e.2).2⟩

def All (J : σ → τ → Prop) (st : State σ τ) : Prop := ∀ i, J st.shared (st.own i)

section
variable {act : σ → τ → ε → σ × τ} {J : σ → τ → Prop} {ok : σ → τ → ε → Prop}

theorem own_after_self (st : State σ τ) (i : ℕ) (e : ε) :
    (after act st (i, e)).own i = (act st.shared (st.own i) e).2 := Function.update_self ..

theorem own_after_ne (st : State σ τ) {i j : ℕ} (h : j ≠ i) (e : ε) :
    (after act st (i, e)).own j = st.own j := Function.update_of_ne h ..

theorem all_after_iff
    (hown : ∀ s t e, J s t → (J (act s t e).1 (act s t e).2 ↔ ok s t e))
    (hothers : ∀ s t e u, J s t → J s u → J (act s t e).1 u) {st : State σ τ} (h : All J st)
    (e : ℕ × ε) : All J (after act st e) ↔ ok st.shared (st.own e.1) e.2 := by
  rw [← hown st.shared (st.own e.1) e.2 (h e.1)]
  constructor
  · intro hall
    have hself := hall e.1
    rwa [own_after_self st e.1 e.2] at hself
  · intro hself i
    by_cases hi : i = e.1
    · rw [hi, own_after_self st e.1 e.2]
      exact hself
    · rw [own_after_ne st hi e.2]
      exact hothers _ _ _ _ (h e.1) (h i)

/-- The same over runs: what is claimed of every thread holds all through a run
exactly when every step meets the condition. -/
theorem all_throughout_iff
    (hown : ∀ s t e, J s t → (J (act s t e).1 (act s t e).2 ↔ ok s t e))
    (hothers : ∀ s t e u, J s t → J s u → J (act s t e).1 u) {st : State σ τ} (h : All J st)
    (es : List (ℕ × ε)) :
    (∀ pre, pre <+: es → All J (pre.foldl (after act) st)) ↔
      Throughout (after act) (fun st e _ => ok st.shared (st.own e.1) e.2) st es :=
  throughout_iff (I := All J) (fun _ e hst => all_after_iff hown hothers hst e) h es

theorem all_invariant (hown : ∀ s t e, J s t → J (act s t e).1 (act s t e).2)
    (hothers : ∀ s t e u, J s t → J s u → J (act s t e).1 u) {st : State σ τ} (h : All J st)
    (es : List (ℕ × ε)) : All J (es.foldl (after act) st) := by
  have hkept : ∀ s t e, J s t → (J (act s t e).1 (act s t e).2 ↔ True) :=
    fun s t e hJ => iff_true_intro (hown s t e hJ)
  have hstep : ∀ st e, All J st → All J (after act st e) :=
    fun st e hst => (all_after_iff hkept hothers hst e).mpr trivial
  exact foldl_invariant (I := All J) hstep h es

end

end Sharing
