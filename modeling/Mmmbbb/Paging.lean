import Mathlib.Data.List.Basic
import Mathlib.Order.Lattice

/-!
# Pages after a cursor

Rows have keys in a linear order, and a page holds the first rows beyond a
cursor. The next page is asked for with the last key of a page that is full.
Between two pages the rows may change.
-/

set_option autoImplicit false

namespace Paging

variable {α κ : Type} [LinearOrder κ] {key : α → κ}

def Beyond (cursor : Option κ) (k : κ) : Prop := ∀ c ∈ cursor, c < k

theorem Beyond.trans {cursor : Option κ} {k l : κ} (h : Beyond cursor k) (hl : k < l) :
    Beyond cursor l :=
  fun c hc => (h c hc).trans hl

/-- The page holds the first `n` of the rows beyond the cursor, in order. -/
structure IsPage (key : α → κ) (rows : List α) (cursor : Option κ) (n : ℕ) (page : List α) :
    Prop where
  sorted : (page.map key).Pairwise (· < ·)
  source : ∀ r ∈ page, r ∈ rows ∧ Beyond cursor (key r)
  first : ∀ r ∈ rows, Beyond cursor (key r) →
    r ∈ page ∨ n ≤ page.length ∧ ∀ x ∈ page, key x < key r

theorem isPage_take {rows sorted : List α} {cursor : Option κ} (n : ℕ)
    (hsorted : (sorted.map key).Pairwise (· < ·))
    (hmem : ∀ r, r ∈ sorted ↔ r ∈ rows ∧ Beyond cursor (key r)) :
    IsPage key rows cursor n (sorted.take n) where
  sorted := hsorted.sublist ((List.take_sublist n sorted).map key)
  source := fun r hr => (hmem r).mp (List.mem_of_mem_take hr)
  first := by
    intro r hr hbeyond
    have hin : r ∈ sorted.take n ++ sorted.drop n := by
      rw [List.take_append_drop]
      exact (hmem r).mpr ⟨hr, hbeyond⟩
    rcases List.mem_append.mp hin with htake | hdrop
    · exact Or.inl htake
    · refine Or.inr ⟨?_, fun x hx => ?_⟩
      · have hlen : 0 < (sorted.drop n).length := List.length_pos_of_mem hdrop
        rw [List.length_drop] at hlen
        rw [List.length_take]
        omega
      · rw [← List.take_append_drop n sorted, List.map_append] at hsorted
        exact (List.pairwise_append.mp hsorted).2.2 _ (List.mem_map_of_mem hx) _
          (List.mem_map_of_mem hdrop)

def nextCursor (key : α → κ) (n : ℕ) (page : List α) : Option κ :=
  if n ≤ page.length then page.getLast?.map key else none

section
variable {rows page : List α} {cursor : Option κ} {n : ℕ} {c : κ}

theorem IsPage.last (h : IsPage key rows cursor n page) (hc : nextCursor key n page = some c) :
    (∀ x ∈ page, key x ≤ c) ∧ Beyond cursor c := by
  unfold nextCursor at hc
  split at hc
  · obtain ⟨l, hl, rfl⟩ := Option.map_eq_some_iff.mp hc
    obtain ⟨init, hpage⟩ := List.getLast?_eq_some_iff.mp hl
    refine ⟨fun x hx => ?_, (h.source l (by simp [hpage])).2⟩
    have hsorted := h.sorted
    rw [hpage, List.map_append] at hsorted
    rw [hpage, List.mem_append, List.mem_singleton] at hx
    rcases hx with hx | rfl
    · exact ((List.pairwise_append.mp hsorted).2.2 _ (List.mem_map_of_mem hx) (key l) (by simp)).le
    · exact le_refl _
  · cases hc

theorem IsPage.covers (h : IsPage key rows cursor n page) (hn : 0 < n) {r : α} (hr : r ∈ rows)
    (hbeyond : Beyond cursor (key r)) :
    r ∈ page ∨ ∃ c, nextCursor key n page = some c ∧ c < key r := by
  rcases h.first r hr hbeyond with hin | ⟨hfull, hlater⟩
  · exact Or.inl hin
  · have hne : page ≠ [] := by
      rintro rfl
      simp at hfull
      omega
    refine Or.inr ⟨key (page.getLast hne), ?_, hlater _ (List.getLast_mem hne)⟩
    rw [nextCursor, if_pos hfull, List.getLast?_eq_some_getLast hne]
    rfl

end

/-- Pages one after another, each of the rows there are then: what they hold
together, and the cursor that is left. -/
inductive Listed (key : α → κ) : Option κ → List (List α × ℕ) → List α → Option κ → Prop
  | last {cursor : Option κ} {rows page : List α} {n : ℕ} : IsPage key rows cursor n page →
      Listed key cursor [(rows, n)] page (nextCursor key n page)
  | more {cursor final : Option κ} {rows page rest : List α} {n : ℕ} {c : κ}
      {steps : List (List α × ℕ)} : IsPage key rows cursor n page →
      nextCursor key n page = some c → Listed key (some c) steps rest final →
      Listed key cursor ((rows, n) :: steps) (page ++ rest) final

section
variable {cursor final : Option κ} {steps : List (List α × ℕ)} {listed : List α}

theorem Listed.beyond (h : Listed key cursor steps listed final) :
    ∀ r ∈ listed, Beyond cursor (key r) := by
  induction h with
  | last hp => exact fun r hr => (hp.source r hr).2
  | more hp hc _ ih =>
    intro r hr
    rcases List.mem_append.mp hr with hr | hr
    · exact (hp.source r hr).2
    · exact (hp.last hc).2.trans (ih r hr _ rfl)

theorem Listed.sorted (h : Listed key cursor steps listed final) :
    (listed.map key).Pairwise (· < ·) := by
  induction h with
  | last hp => exact hp.sorted
  | more hp hc hrest ih =>
    rw [List.map_append]
    refine List.pairwise_append.mpr ⟨hp.sorted, ih, fun k hk l hl => ?_⟩
    obtain ⟨x, hx, rfl⟩ := List.mem_map.mp hk
    obtain ⟨y, hy, rfl⟩ := List.mem_map.mp hl
    exact ((hp.last hc).1 x hx).trans_lt (hrest.beyond y hy _ rfl)

theorem Listed.rows (h : Listed key cursor steps listed final) :
    ∀ r ∈ listed, ∃ s ∈ steps, r ∈ s.1 := by
  induction h with
  | last hp => exact fun r hr => ⟨_, List.mem_singleton_self _, (hp.source r hr).1⟩
  | more hp _ _ ih =>
    intro r hr
    rcases List.mem_append.mp hr with hr | hr
    · exact ⟨_, List.mem_cons_self, (hp.source r hr).1⟩
    · obtain ⟨s, hs, hmem⟩ := ih r hr
      exact ⟨s, List.mem_cons_of_mem _ hs, hmem⟩

/-- When no cursor is left, every key that has been there throughout is
listed. -/
theorem Listed.complete (h : Listed key cursor steps listed final) (hfinal : final = none)
    (hn : ∀ s ∈ steps, 0 < s.2) {k : κ} (hk : Beyond cursor k)
    (hthere : ∀ s ∈ steps, ∃ r ∈ s.1, key r = k) : ∃ r ∈ listed, key r = k := by
  induction h with
  | last hp =>
    obtain ⟨r, hr, rfl⟩ := hthere _ (List.mem_singleton_self _)
    rcases hp.covers (hn _ (List.mem_singleton_self _)) hr hk with hin | ⟨c, hc, -⟩
    · exact ⟨r, hin, rfl⟩
    · rw [hfinal] at hc
      cases hc
  | @more cursor final rows page rest n c steps hp hc _ ih =>
    obtain ⟨r, hr, rfl⟩ := hthere (rows, n) (by simp)
    rcases hp.covers (hn (rows, n) (by simp)) hr hk with hin | ⟨c', hc', hlt⟩
    · exact ⟨r, List.mem_append_left _ hin, rfl⟩
    · obtain rfl : c = c' := Option.some.inj (hc.symm.trans hc')
      obtain ⟨x, hx, hxk⟩ := ih hfinal (fun s hs => hn s (List.mem_cons_of_mem _ hs))
        (fun _ he => Option.some.inj he ▸ hlt) (fun s hs => hthere s (List.mem_cons_of_mem _ hs))
      exact ⟨x, List.mem_append_right _ hx, hxk⟩

end

def remaining (key : α → κ) (rows : List α) (cursor : Option κ) : ℕ :=
  rows.countP (fun r => decide (∀ c ∈ cursor, c < key r))

theorem IsPage.progress {rows page : List α} {cursor : Option κ} {n : ℕ} {c : κ}
    (h : IsPage key rows cursor n page) (hc : nextCursor key n page = some c) :
    remaining key rows (some c) < remaining key rows cursor := by
  obtain ⟨l, hl, hlc⟩ : ∃ l ∈ page, key l = c := by
    unfold nextCursor at hc
    split at hc
    · obtain ⟨l, hl, rfl⟩ := Option.map_eq_some_iff.mp hc
      exact ⟨l, List.mem_of_getLast? hl, rfl⟩
    · cases hc
  obtain ⟨-, hbeyond⟩ := h.last hc
  obtain ⟨hsource, hlbeyond⟩ := h.source l hl
  unfold remaining
  rw [List.countP_eq_length_filter, List.countP_eq_length_filter]
  have hsub : rows.filter (fun r => decide (∀ c' ∈ some c, c' < key r)) =
      (rows.filter (fun r => decide (∀ c' ∈ cursor, c' < key r))).filter
        (fun r => decide (∀ c' ∈ some c, c' < key r)) := by
    rw [List.filter_filter]
    refine List.filter_congr fun r _ => ?_
    by_cases hr : c < key r
    · have hcr : Beyond cursor (key r) := hbeyond.trans hr
      simpa [hr, Beyond] using hcr
    · simp [hr]
  rw [hsub, List.length_filter_lt_length_iff_exists]
  refine ⟨l, List.mem_filter.mpr ⟨hsource, by simpa [Beyond] using hlbeyond⟩, ?_⟩
  simp [hlc]

end Paging
