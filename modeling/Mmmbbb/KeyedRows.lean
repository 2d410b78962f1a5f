import Mathlib.Data.List.Nodup
import Mathlib.Data.List.Sort

/-!
# Rows with a primary key

A table is the list of its rows in insertion order. A statement sees those
rows in an order of the database's choosing, so a query is stated over an
arbitrary permutation of the rows it selects; only `ORDER BY` constrains it.
-/

set_option autoImplicit false

namespace KeyedRows

variable {α κ : Type}

structure ScanOrder (α : Type) where
  run : List α → List α
  perm : ∀ rows, (run rows).Perm rows

def ScanOrder.insertion (α : Type) : ScanOrder α := ⟨id, fun _ => .rfl⟩

def ScanOrder.newestFirst (α : Type) : ScanOrder α := ⟨List.reverse, List.reverse_perm⟩

@[simp] theorem ScanOrder.mem_run (o : ScanOrder α) (rows : List α) (r : α) :
    r ∈ o.run rows ↔ r ∈ rows := (o.perm rows).mem_iff

def orderBy (k : α → ℤ) (rows : List α) : List α :=
  rows.insertionSort (fun a b => k a ≤ k b)

@[simp] theorem mem_orderBy (k : α → ℤ) (rows : List α) (r : α) :
    r ∈ orderBy k rows ↔ r ∈ rows := List.mem_insertionSort _

theorem orderBy_perm (k : α → ℤ) (rows : List α) : (orderBy k rows).Perm rows :=
  List.perm_insertionSort _ rows

theorem orderBy_pairwise (k : α → ℤ) (rows : List α) :
    (orderBy k rows).Pairwise (fun a b => k a ≤ k b) := by
  have : Std.Total (fun a b : α => k a ≤ k b) := ⟨fun a b => le_total (k a) (k b)⟩
  have : IsTrans α (fun a b => k a ≤ k b) := ⟨fun _ _ _ => le_trans⟩
  exact List.pairwise_insertionSort _ rows

theorem orderBy_head {k : α → ℤ} {rows : List α} {r : α}
    (h : (orderBy k rows).head? = some r) : r ∈ rows ∧ ∀ x ∈ rows, k r ≤ k x := by
  have hp := orderBy_pairwise k rows
  have hm := mem_orderBy k rows
  cases hl : orderBy k rows with
  | nil => simp [hl] at h
  | cons a rest =>
    rw [hl] at h hp hm
    obtain rfl : a = r := by simpa using h
    refine ⟨(hm a).mp (by simp), fun x hx => ?_⟩
    rcases List.mem_cons.mp ((hm x).mpr hx) with rfl | hx
    · exact le_refl _
    · exact (List.pairwise_cons.mp hp).1 x hx

theorem orderBy_head_none {k : α → ℤ} {rows : List α}
    (h : (orderBy k rows).head? = none) : rows = [] := by
  have he : orderBy k rows = [] := by simpa using h
  exact List.nil_perm.mp (he ▸ orderBy_perm k rows)

theorem filterMap_keys {β : Type} (key : α → κ) (key' : β → κ) {f : α → Option β}
    (hf : ∀ a b, f a = some b → key' b = key a) (rows : List α) :
    ((rows.filterMap f).map key').Sublist (rows.map key) := by
  induction rows with
  | nil => simp
  | cons a rows ih =>
    cases ha : f a with
    | none => simpa [ha] using ih.cons (key a)
    | some b => simpa [ha, hf a b ha] using ih.cons_cons (key a)

section Keys

variable (key : α → κ)

def UniqueKeys (rows : List α) : Prop := (rows.map key).Nodup

def Has (k : κ) (rows : List α) : Prop := ∃ r ∈ rows, key r = k

instance [DecidableEq κ] (k : κ) (rows : List α) : Decidable (Has key k rows) :=
  inferInstanceAs (Decidable (∃ r ∈ rows, key r = k))

def fetch [DecidableEq κ] (k : κ) (rows : List α) : Option α :=
  rows.find? (fun r => decide (key r = k))

variable {key}

theorem UniqueKeys.eq {rows : List α} (h : UniqueKeys key rows) {a b : α}
    (ha : a ∈ rows) (hb : b ∈ rows) (hk : key a = key b) : a = b :=
  List.inj_on_of_nodup_map h ha hb hk

theorem UniqueKeys.nodup {rows : List α} (h : UniqueKeys key rows) : rows.Nodup := h.of_map _

theorem Has.of_mem {rows : List α} {r : α} (h : r ∈ rows) : Has key (key r) rows := ⟨r, h, rfl⟩

theorem Has.append_left {rows : List α} {k : κ} (h : Has key k rows) (new : List α) :
    Has key k (rows ++ new) := by
  obtain ⟨r, hr, hk⟩ := h
  exact ⟨r, List.mem_append_left _ hr, hk⟩

theorem UniqueKeys.append_one {rows : List α} (h : UniqueKeys key rows) {r : α}
    (hr : ¬ Has key (key r) rows) : UniqueKeys key (rows ++ [r]) := by
  rw [UniqueKeys, List.map_append]
  refine List.nodup_append.mpr ⟨h, List.nodup_singleton _, ?_⟩
  intro a ha b hb
  obtain ⟨x, hx, rfl⟩ := List.mem_map.mp ha
  obtain rfl : b = key r := by simpa using hb
  exact fun he => hr ⟨x, hx, he⟩

theorem UniqueKeys.map {rows : List α} (h : UniqueKeys key rows) {f : α → α}
    (hf : ∀ r, key (f r) = key r) : UniqueKeys key (rows.map f) := by
  simpa [UniqueKeys, Function.comp_def, hf] using h

theorem UniqueKeys.filter {rows : List α} (h : UniqueKeys key rows) (p : α → Bool) :
    UniqueKeys key (rows.filter p) := h.sublist (List.filter_sublist.map key)

theorem Has.map {rows : List α} {k : κ} (h : Has key k rows) {f : α → α}
    (hf : ∀ r, key (f r) = key r) : Has key k (rows.map f) := by
  obtain ⟨r, hr, hk⟩ := h
  exact ⟨f r, List.mem_map_of_mem hr, (hf r).trans hk⟩

theorem Has.filter {rows : List α} {k : κ} {p : α → Bool} (h : Has key k rows)
    (hp : ∀ r ∈ rows, key r = k → p r = true) : Has key k (rows.filter p) := by
  obtain ⟨r, hr, hk⟩ := h
  exact ⟨r, List.mem_filter.mpr ⟨hr, hp r hr hk⟩, hk⟩

def UniqueWhere {ν : Type} (key : α → κ) (live : α → Prop) (name : α → ν) (rows : List α) : Prop :=
  ∀ a ∈ rows, ∀ b ∈ rows, live a → live b → name a = name b → key a = key b

theorem UniqueWhere.append_one {ν : Type} {live : α → Prop} {name : α → ν} {rows : List α}
    (h : UniqueWhere key live name rows) {r : α}
    (hr : live r → ∀ a ∈ rows, live a → name a ≠ name r) :
    UniqueWhere key live name (rows ++ [r]) := by
  intro a ha b hb hla hlb he
  rw [List.mem_append, List.mem_singleton] at ha hb
  rcases ha with ha | rfl <;> rcases hb with hb | rfl
  · exact h a ha b hb hla hlb he
  · exact absurd he (hr hlb a ha hla)
  · exact absurd he.symm (hr hla b hb hlb)
  · rfl

theorem UniqueWhere.map {ν : Type} {live : α → Prop} {name : α → ν} {rows : List α}
    (h : UniqueWhere key live name rows) {f : α → α} (hk : ∀ r, key (f r) = key r)
    (hn : ∀ r, name (f r) = name r) (hl : ∀ r, live (f r) → live r) :
    UniqueWhere key live name (rows.map f) := by
  intro a ha b hb hla hlb he
  obtain ⟨x, hx, rfl⟩ := List.mem_map.mp ha
  obtain ⟨y, hy, rfl⟩ := List.mem_map.mp hb
  rw [hn, hn] at he
  rw [hk, hk]
  exact h x hx y hy (hl x hla) (hl y hlb) he

theorem UniqueWhere.filter {ν : Type} {live : α → Prop} {name : α → ν} {rows : List α}
    (h : UniqueWhere key live name rows) (p : α → Bool) :
    UniqueWhere key live name (rows.filter p) :=
  fun a ha b hb => h a (List.mem_of_mem_filter ha) b (List.mem_of_mem_filter hb)

theorem forall_append_one {rows : List α} {f : α → Prop} {r : α}
    (h : ∀ x ∈ rows, f x) (hr : f r) : ∀ x ∈ rows ++ [r], f x := by
  intro x hx
  rw [List.mem_append, List.mem_singleton] at hx
  rcases hx with hx | rfl
  · exact h x hx
  · exact hr

section Fetch

variable [DecidableEq κ]

theorem fetch_mem {k : κ} {rows : List α} {r : α} (h : fetch key k rows = some r) :
    r ∈ rows ∧ key r = k :=
  ⟨List.mem_of_find?_eq_some h, by simpa using List.find?_some h⟩

theorem fetch_of_mem {rows : List α} (hu : UniqueKeys key rows) {r : α} (hr : r ∈ rows) :
    fetch key (key r) rows = some r := by
  cases hf : fetch key (key r) rows with
  | none => simpa using List.find?_eq_none.mp hf r hr
  | some x =>
    obtain ⟨hx, hk⟩ := fetch_mem hf
    rw [hu.eq hx hr hk]

theorem fetch_isSome {k : κ} {rows : List α} (h : Has key k rows) :
    ∃ r, fetch key k rows = some r := by
  cases hf : fetch key k rows with
  | some r => exact ⟨r, rfl⟩
  | none =>
    obtain ⟨r, hr, hk⟩ := h
    exact absurd hk (by simpa using List.find?_eq_none.mp hf r hr)

theorem fetch_map {k : κ} {f : α → α} (hf : ∀ r, key (f r) = key r) (rows : List α) :
    fetch key k (rows.map f) = (fetch key k rows).map f := by
  have hsame : (fun r => decide (key r = k)) ∘ f = fun r => decide (key r = k) := by
    funext r
    simp [hf]
  unfold fetch
  rw [List.find?_map, hsame]

end Fetch

end Keys

def Before (a b : α) (rows : List α) : Prop := [a, b].Sublist rows

theorem Before.mem {a b : α} {rows : List α} (h : Before a b rows) : a ∈ rows ∧ b ∈ rows :=
  ⟨h.subset (by simp), h.subset (by simp)⟩

theorem Before.ne {a b : α} {rows : List α} (h : Before a b rows) (hn : rows.Nodup) : a ≠ b := by
  have := h.nodup hn
  simpa using this

theorem Before.map {a b : α} {rows : List α} (h : Before a b rows) (f : α → α) :
    Before (f a) (f b) (rows.map f) := List.Sublist.map f h

theorem Before.filter {a b : α} {rows : List α} (h : Before a b rows) {p : α → Bool}
    (ha : p a = true) (hb : p b = true) : Before a b (rows.filter p) := by
  simpa [Before, List.filter, ha, hb] using List.Sublist.filter p h

theorem Before.append_left {a b : α} {rows : List α} (h : Before a b rows) (new : List α) :
    Before a b (rows ++ new) := h.trans (List.sublist_append_left _ _)

theorem before_append_one {a : α} {rows : List α} (h : a ∈ rows) (b : α) :
    Before a b (rows ++ [b]) :=
  (List.singleton_sublist.mpr h).append (List.Sublist.refl [b])

theorem before_cons {a b x : α} {rows : List α} :
    Before a b (x :: rows) ↔ (a = x ∧ b ∈ rows) ∨ Before a b rows := by
  constructor
  · intro h
    cases h with
    | cons _ h => exact Or.inr h
    | cons_cons _ h => exact Or.inl ⟨rfl, List.singleton_sublist.mp h⟩
  · rintro (⟨rfl, h⟩ | h)
    · exact (List.singleton_sublist.mpr h).cons_cons a
    · exact h.cons x

theorem Before.trans {a b c : α} {rows : List α} (hn : rows.Nodup) (h : Before a b rows)
    (hc : Before b c rows) : Before a c rows := by
  induction rows with
  | nil => simp [Before] at h
  | cons x rows ih =>
    obtain ⟨hx, hr⟩ := List.nodup_cons.mp hn
    rw [before_cons] at h hc ⊢
    rcases h with ⟨rfl, hb⟩ | h <;> rcases hc with ⟨rfl, hc⟩ | hc
    · exact absurd hb hx
    · exact Or.inl ⟨rfl, hc.mem.2⟩
    · exact absurd h.mem.2 hx
    · exact Or.inr (ih hr h hc)

theorem Before.irrefl {a : α} {rows : List α} (hn : rows.Nodup) : ¬ Before a a rows :=
  fun h => h.ne hn rfl

theorem exists_first {rows : List α} {P : α → Prop} (h : ∃ r ∈ rows, P r) :
    ∃ r ∈ rows, P r ∧ ∀ x, Before x r rows → rows.Nodup → ¬ P x := by
  induction rows with
  | nil => simp at h
  | cons a rows ih =>
    by_cases ha : P a
    · refine ⟨a, by simp, ha, fun x hx hn => ?_⟩
      obtain ⟨hna, -⟩ := List.nodup_cons.mp hn
      rcases before_cons.mp hx with ⟨rfl, hx⟩ | hx
      · exact absurd hx hna
      · exact absurd hx.mem.2 hna
    · obtain ⟨r, hr, hp⟩ := h
      have hrest : ∃ r ∈ rows, P r := by
        rcases List.mem_cons.mp hr with rfl | hr
        · exact absurd hp ha
        · exact ⟨r, hr, hp⟩
      obtain ⟨r, hr, hp, hmin⟩ := ih hrest
      refine ⟨r, by simp [hr], hp, fun x hx hn => ?_⟩
      rcases before_cons.mp hx with ⟨rfl, -⟩ | hx
      · exact ha
      · exact hmin x hx (List.nodup_cons.mp hn).2

end KeyedRows
