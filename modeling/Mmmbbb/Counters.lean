import Mmmbbb.Firing

/-!
# Counters of 64 bits

A counter falls below nought by the checks that lose a race for it. As many
calls as can be under way at once do not make it wrap around.
-/

set_option autoImplicit false

namespace Mmmbbb.Counters
open KeyedRows Programs Threads Mmmbbb.Faults Mmmbbb.Firing

def waits (a : ℕ) : Call → Bool
  | .check _ _ _ (.matched d) => decide (d = a)
  | _ => false

def finished : Call → Bool
  | .check _ _ _ .passed | .check _ _ _ (.returned _) | .prune .done | .added => true
  | _ => false

def underWay (s : State) : ℕ := s.calls.countP (fun c => !finished c)

theorem waits_underWay (s : State) (a : ℕ) : s.calls.countP (waits a) ≤ underWay s := by
  refine List.countP_mono_left fun c _ hw => ?_
  unfold waits at hw
  split at hw
  · rfl
  · cases hw

/-- No counter has fallen, or will fall by the decrements that wait, below what
`n` calls at once can bring it to. -/
def Bounded (n : ℕ) (s : State) : Prop :=
  ∀ (a : ℕ) (f : Fault), s.heap[a]? = some f →
    min f.initial (1 - n) ≤ f.count - s.calls.countP (waits a)

section
variable {s s' : State} {i n : ℕ} {c c' : Call}

theorem waits_move (hc : s.calls[i]? = some c) (hcalls : s'.calls = s.calls.set i c') (a : ℕ) :
    s'.calls.countP (waits a) + (if waits a c = true then 1 else 0) =
      s.calls.countP (waits a) + (if waits a c' = true then 1 else 0) := by
  rw [hcalls]
  exact countP_set hc

theorem Bounded.move (h : Bounded n s) (hc : s.calls[i]? = some c)
    (hcalls : s'.calls = s.calls.set i c') (hheap : s'.heap = s.heap)
    (hwaits : ∀ a, waits a c' = true → waits a c = true) : Bounded n s' := by
  intro a f hf
  have hold := h a f (hheap ▸ hf)
  have hcount := waits_move hc hcalls a
  have hless : s'.calls.countP (waits a) ≤ s.calls.countP (waits a) := by
    by_cases hw : waits a c' = true
    · rw [if_pos hw, if_pos (hwaits a hw)] at hcount
      omega
    · rw [if_neg hw] at hcount
      omega
  omega

theorem Bounded.append (h : Bounded n s) {b : Call} (hb : ∀ a, waits a b = false) :
    Bounded n { s with calls := s.calls ++ [b] } := by
  intro a f hf
  rw [List.countP_append, List.countP_singleton, hb a]
  exact h a f hf

theorem Bounded.match (h : Bounded n s) (hn : underWay s' ≤ n) {d : ℕ} {f : Fault}
    {op : String} {params : Parameters} {toPrune : Bool} (hc : s.calls[i]? = some c)
    (hf : s.heap[d]? = some f) (hpos : 0 < f.count)
    (hcalls : s'.calls = s.calls.set i (.check op params toPrune (.matched d)))
    (hheap : s'.heap = s.heap) : Bounded n s' := by
  intro a g hg
  rw [hheap] at hg
  have hold := h a g hg
  have hcount := waits_move hc hcalls a
  by_cases had : d = a
  · subst had
    obtain rfl : f = g := Option.some.inj (hf.symm.trans hg)
    have hall := waits_underWay s' d
    omega
  · have hno : waits a (.check op params toPrune (.matched d)) = false := decide_eq_false had
    rw [hno] at hcount
    simp only [Bool.false_eq_true, if_false] at hcount
    omega

theorem Bounded.decrement (h : Bounded n s) {d : ℕ} {f : Fault} {op : String}
    {params : Parameters} {toPrune : Bool}
    (hc : s.calls[i]? = some (.check op params toPrune (.matched d)))
    (hf : s.heap[d]? = some f) (hcalls : s'.calls = s.calls.set i c')
    (hheap : s'.heap = s.heap.set d f.decrement) (hwaits : ∀ a, waits a c' = false) :
    Bounded n s' := by
  intro a g hg
  have hlen : d < s.heap.length := (List.getElem?_eq_some_iff.mp hf).1
  have hcount := waits_move hc hcalls a
  rw [hwaits a] at hcount
  rw [hheap] at hg
  by_cases had : d = a
  · subst had
    rw [List.getElem?_set_self hlen] at hg
    obtain rfl := Option.some.inj hg
    have hold := h d f hf
    have hdec : f.decrement.count = f.count - 1 := rfl
    have hini : f.decrement.initial = f.initial := rfl
    rw [hdec, hini]
    simp [waits] at hcount
    omega
  · rw [List.getElem?_set_ne had] at hg
    have hold := h a g hg
    simp [waits, had] at hcount
    omega

theorem Bounded.add (h : Bounded n s) (hs : Sound s) {d : Description}
    (hc : s.calls[i]? = some (.add d)) (hcalls : s'.calls = s.calls.set i .added)
    (hheap : s'.heap = s.heap ++ [⟨d, d.count⟩]) : Bounded n s' := by
  intro a f hf
  have hcount := waits_move hc hcalls a
  simp only [waits, Bool.false_eq_true, if_false] at hcount
  rw [hheap] at hf
  by_cases ha : a < s.heap.length
  · rw [List.getElem?_append_left ha] at hf
    have hold := h a f hf
    omega
  · have hzero : s.calls.countP (waits a) = 0 := by
      rw [List.countP_eq_zero]
      intro b hb hba
      obtain ⟨j, hj⟩ := List.mem_iff_getElem?.mp hb
      have hk := hs.known j b hj
      unfold waits at hba
      split at hba
      · obtain ⟨g, hg, -⟩ : Fits s.heap _ _ _ := hk
        rw [of_decide_eq_true hba] at hg
        exact ha (List.getElem?_eq_some_iff.mp hg).1
      · cases hba
    rcases append_at hf with hf | hf
    · exact absurd (List.getElem?_eq_some_iff.mp hf).1 ha
    · rw [List.mem_singleton.mp hf]
      dsimp only
      omega

theorem Bounded.takes (h : Bounded n s) (hs : Sound s) (hn : underWay s' ≤ n)
    (hc : s.calls[i]? = some c) (ht : Takes s i c c' s') : Bounded n s' := by
  cases ht with
  | hit hf hpos hfits => exact h.match hn hc hf hpos rfl rfl
  | lose hf hspent => exact h.decrement hc hf rfl rfl (fun _ => rfl)
  | win hf hpos hprune => exact h.decrement hc hf rfl rfl (fun _ => rfl)
  | @leavePruning op params err =>
    have hret : Bounded n (s.goto i (.check op params true (.returned err))) :=
      h.move hc rfl rfl (fun _ hw => by cases hw)
    exact hret.append (fun _ => rfl)
  | add => exact h.add hs hc rfl rfl
  | _ => exact h.move hc rfl rfl (fun _ hw => by cases hw)

theorem Bounded.step (h : Bounded n s) (hs : Sound s) {e : Event} (hst : step s e = some s')
    (hn : underWay s' ≤ n) : Bounded n s' := by
  rcases step_takes hst with ⟨r, rfl⟩ | ⟨i, choice, c, c', -, hc, ht⟩
  · exact h.append (by cases r <;> exact fun _ => rfl)
  · exact h.takes hs hn hc ht

/-- With up to `n` calls under way at once, no counter falls below `1 - n`,
unless it was added below that: with fewer than 2^63 of them a counter of 64
bits does not wrap around. -/
theorem count_bounded (h : (faults.within (fun _ _ t => underWay t ≤ n)).Reachable s) (a : ℕ)
    (f : Fault) (hf : s.heap[a]? = some f) : min f.initial (1 - n) ≤ f.count := by
  have hbounded : Bounded n s := by
    refine h.invariant_from ?_ ?_
    · rintro _ rfl a f hf
      simp [initial] at hf
    · intro s e s' hr hb hst
      exact hb.step (reachable_sound hr.of_within) hst.1 hst.2
  have hcount := hbounded a f hf
  omega

end

end Mmmbbb.Counters
