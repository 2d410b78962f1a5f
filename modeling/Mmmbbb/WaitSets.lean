import Mathlib.Data.List.AList
import Mathlib.Data.Finset.Union

/-!
# Sets of waiters under keys

A map from keys to sets of channels, each closed once. Closing a channel a
second time is a failure. A wake closes what is registered under a key and
forgets the key.
-/

set_option autoImplicit false

namespace WaitSets

abbrev Channel := ℕ

abbrev Waiters (κ : Type) := AList (fun _ : κ => Finset Channel)

def closeSet (cs closed : Finset Channel) : Option (Finset Channel) :=
  if Disjoint cs closed then some (closed ∪ cs) else none

theorem closeSet_ok {cs closed : Finset Channel} (h : ∀ c ∈ cs, c ∉ closed) :
    closeSet cs closed = some (closed ∪ cs) :=
  if_pos (Finset.disjoint_left.mpr h)

variable {κ : Type} [DecidableEq κ]

def waiting (ws : Waiters κ) (k : κ) : Finset Channel := (ws.lookup k).getD ∅

def join (ws : Waiters κ) (k : κ) (c : Channel) : Waiters κ := ws.insert k (insert c (waiting ws k))

/-- The key stays, with an empty set if need be. -/
def leave (ws : Waiters κ) (k : κ) (c : Channel) : Waiters κ :=
  match ws.lookup k with
  | none => ws
  | some cs => ws.insert k (cs.erase c)

def wakeKey (k : κ) (ws : Waiters κ) (closed : Finset Channel) :
    Option (Waiters κ × Finset Channel) :=
  (closeSet (waiting ws k) closed).map (fun closed => (ws.erase k, closed))

def wakeKeys (ks : List κ) (ws : Waiters κ) (closed : Finset Channel) :
    Option (Waiters κ × Finset Channel) :=
  ks.foldlM (fun st k => wakeKey k st.1 st.2) (ws, closed)

variable {ws : Waiters κ} {k k' : κ} {c : Channel}

@[simp] theorem waiting_empty (k : κ) : waiting (∅ : Waiters κ) k = ∅ := by simp [waiting]

theorem waiting_join_self : waiting (join ws k c) k = insert c (waiting ws k) := by
  simp [join, waiting]

theorem waiting_join_ne (h : k' ≠ k) : waiting (join ws k c) k' = waiting ws k' := by
  simp [join, waiting, AList.lookup_insert_ne h]

theorem waiting_leave_self : waiting (leave ws k c) k = (waiting ws k).erase c := by
  unfold leave
  split
  · rename_i h
    simp [waiting, h]
  · rename_i cs h
    simp [waiting, h]

theorem waiting_leave_ne (h : k' ≠ k) : waiting (leave ws k c) k' = waiting ws k' := by
  unfold leave
  split
  · rfl
  · simp [waiting, AList.lookup_insert_ne h]

theorem waiting_erase_self : waiting (ws.erase k) k = ∅ := by simp [waiting]

theorem waiting_erase_ne (h : k' ≠ k) : waiting (ws.erase k) k' = waiting ws k' := by
  simp [waiting, AList.lookup_erase_ne h]

theorem mem_keys_of_waiting (h : c ∈ waiting ws k) : k ∈ ws.keys := by
  rw [← AList.mem_keys, ← AList.lookup_isSome]
  cases hk : ws.lookup k with
  | none => simp [waiting, hk] at h
  | some cs => rfl

structure Sound (ws : Waiters κ) (closed : Finset Channel) : Prop where
  isOpen : ∀ k, ∀ c ∈ waiting ws k, c ∉ closed
  single : ∀ k k' c, c ∈ waiting ws k → c ∈ waiting ws k' → k = k'

theorem wakeKey_ok {closed : Finset Channel} (h : Sound ws closed) :
    wakeKey k ws closed = some (ws.erase k, closed ∪ waiting ws k) := by
  rw [wakeKey, closeSet_ok (h.isOpen k)]
  rfl

theorem Sound.wake {closed : Finset Channel} (h : Sound ws closed) :
    Sound (ws.erase k) (closed ∪ waiting ws k) := by
  have hkept : ∀ k', ∀ c ∈ waiting (ws.erase k) k', k' ≠ k ∧ c ∈ waiting ws k' := by
    intro k' c hc
    by_cases hk : k' = k
    · rw [hk, waiting_erase_self] at hc
      cases hc
    · rw [waiting_erase_ne hk] at hc
      exact ⟨hk, hc⟩
  constructor
  · intro k' c hc hclosed
    obtain ⟨hk, hc⟩ := hkept k' c hc
    rcases Finset.mem_union.mp hclosed with hclosed | hclosed
    · exact h.isOpen k' c hc hclosed
    · exact hk (h.single k' k c hc hclosed)
  · intro k' k'' c hc hc'
    exact h.single k' k'' c (hkept k' c hc).2 (hkept k'' c hc').2

theorem wakeKeys_ok {closed : Finset Channel} (ks : List κ) (h : Sound ws closed) :
    ∃ ws' closed', wakeKeys ks ws closed = some (ws', closed') ∧
      (∀ k ∈ ks, waiting ws' k = ∅) ∧ (∀ k ∉ ks, waiting ws' k = waiting ws k) ∧
      (∀ c, c ∈ closed' ↔ c ∈ closed ∨ ∃ k ∈ ks, c ∈ waiting ws k) := by
  induction ks generalizing ws closed with
  | nil => exact ⟨ws, closed, rfl, by simp, by simp, by simp⟩
  | cons k ks ih =>
    obtain ⟨ws', closed', hrun, hin, hout, hclosed⟩ := ih (h.wake (k := k))
    refine ⟨ws', closed', ?_, ?_, ?_, ?_⟩
    · rw [wakeKeys, List.foldlM_cons, wakeKey_ok h]
      exact hrun
    · intro k' hk'
      by_cases hmem : k' ∈ ks
      · exact hin k' hmem
      · have heq : k' = k := by simpa [hmem] using hk'
        rw [hout k' hmem, heq, waiting_erase_self]
    · intro k' hk'
      obtain ⟨hne, hmem⟩ := not_or.mp (List.mem_cons.not.mp hk')
      rw [hout k' hmem, waiting_erase_ne hne]
    · intro c
      rw [hclosed, Finset.mem_union, or_assoc]
      refine or_congr_right ?_
      constructor
      · rintro (hc | ⟨k', hk', hc⟩)
        · exact ⟨k, by simp, hc⟩
        · by_cases hk : k' = k
          · rw [hk, waiting_erase_self] at hc
            cases hc
          · rw [waiting_erase_ne hk] at hc
            exact ⟨k', by simp [hk'], hc⟩
      · rintro ⟨k', hk', hc⟩
        by_cases hk : k' = k
        · exact Or.inl (hk ▸ hc)
        · have hmem : k' ∈ ks := by simpa [hk] using hk'
          exact Or.inr ⟨k', hmem, by rwa [waiting_erase_ne hk]⟩

end WaitSets
