import Mmmbbb.KeyedRows
import Mathlib.Logic.Relation

/-!
# Rows that wait for earlier rows

A row may name another row of its class that goes before it. As long as such
a link only ever points at a row inserted earlier, links form no cycle, and
whatever is still open in a class has a member that waits for nothing open.
-/

set_option autoImplicit false

namespace LinkedRows
open KeyedRows Relation

variable {α κ γ : Type} (key : α → κ) (link : α → Option κ) (cls : α → γ)

def Linked (rows : List α) : Prop :=
  ∀ r ∈ rows, ∀ k, link r = some k → ∃ p, Before p r rows ∧ key p = k ∧ cls p = cls r

def Follows (rows : List α) (a b : α) : Prop := a ∈ rows ∧ b ∈ rows ∧ link a = some (key b)

variable {key link cls}

theorem linked_nil : Linked key link cls [] := by simp [Linked]

theorem Linked.append_one {rows : List α} (h : Linked key link cls rows) {r : α}
    (hr : ∀ k, link r = some k → ∃ p ∈ rows, key p = k ∧ cls p = cls r) :
    Linked key link cls (rows ++ [r]) := by
  intro x hx k hk
  rw [List.mem_append, List.mem_singleton] at hx
  rcases hx with hx | rfl
  · obtain ⟨p, hp, hrest⟩ := h x hx k hk
    exact ⟨p, hp.append_left _, hrest⟩
  · obtain ⟨p, hp, hrest⟩ := hr k hk
    exact ⟨p, before_append_one hp x, hrest⟩

theorem Linked.map {rows : List α} (h : Linked key link cls rows) {f : α → α}
    (hkey : ∀ r, key (f r) = key r) (hlink : ∀ r, link (f r) = link r)
    (hcls : ∀ r, cls (f r) = cls r) : Linked key link cls (rows.map f) := by
  intro x hx k hk
  obtain ⟨r, hr, rfl⟩ := List.mem_map.mp hx
  obtain ⟨p, hp, hpk, hpc⟩ := h r hr k ((hlink r).symm.trans hk)
  exact ⟨f p, hp.map f, (hkey p).trans hpk, (hcls p).trans (hpc.trans (hcls r).symm)⟩

theorem Linked.delete {rows : List α} (h : Linked key link cls rows) {q : α → Bool} {f : α → α}
    (hkey : ∀ r, key (f r) = key r) (hcls : ∀ r, cls (f r) = cls r)
    (hlink : ∀ r k, link (f r) = some k →
      link r = some k ∧ ∀ p ∈ rows, key p = k → q p = true) :
    Linked key link cls ((rows.filter q).map f) := by
  intro x hx k hk
  obtain ⟨r, hr, rfl⟩ := List.mem_map.mp hx
  obtain ⟨hr, hq⟩ := List.mem_filter.mp hr
  obtain ⟨hk, hleft⟩ := hlink r k hk
  obtain ⟨p, hp, hpk, hpc⟩ := h r hr k hk
  have hqp := hleft p hp.mem.1 hpk
  exact ⟨f p, (hp.filter hqp hq).map f, (hkey p).trans hpk, (hcls p).trans (hpc.trans (hcls r).symm)⟩

theorem Follows.before {rows : List α} (h : Linked key link cls rows) (hu : UniqueKeys key rows)
    {a b : α} (hf : Follows key link rows a b) : Before b a rows := by
  obtain ⟨p, hp, hpk, -⟩ := h a hf.1 (key b) hf.2.2
  have hpb : p = b := hu.eq hp.mem.1 hf.2.1 hpk
  exact hpb ▸ hp

theorem follows_before {rows : List α} (h : Linked key link cls rows) (hu : UniqueKeys key rows)
    {a b : α} (hf : TransGen (Follows key link rows) a b) : Before b a rows := by
  induction hf with
  | single hf => exact hf.before h hu
  | tail _ hf ih => exact (hf.before h hu).trans hu.nodup ih

theorem acyclic {rows : List α} (h : Linked key link cls rows) (hu : UniqueKeys key rows) (a : α) :
    ¬ TransGen (Follows key link rows) a a :=
  fun hf => Before.irrefl hu.nodup (follows_before h hu hf)

/-- Of the open rows of a class, one waits for no open row. -/
theorem exists_unblocked {rows : List α} (h : Linked key link cls rows) (hu : UniqueKeys key rows)
    {c : γ} {P : α → Prop} (hopen : ∃ r ∈ rows, cls r = c ∧ P r) :
    ∃ r ∈ rows, cls r = c ∧ P r ∧ ∀ k, link r = some k → ∃ p ∈ rows, key p = k ∧ ¬ P p := by
  obtain ⟨r, hr, ⟨hc, hp⟩, hfirst⟩ := exists_first hopen
  refine ⟨r, hr, hc, hp, fun k hk => ?_⟩
  obtain ⟨p, hbefore, hpk, hpc⟩ := h r hr k hk
  have hnot := hfirst p hbefore hu.nodup
  exact ⟨p, hbefore.mem.1, hpk, fun hpp => hnot ⟨hpc.trans hc, hpp⟩⟩

theorem Follows.map {rows : List α} {a b : α} (hf : Follows key link rows a b) {f : α → α}
    (hkey : ∀ r, key (f r) = key r) (hlink : ∀ r, link (f r) = link r) :
    Follows key link (rows.map f) (f a) (f b) :=
  ⟨List.mem_map_of_mem hf.1, List.mem_map_of_mem hf.2.1,
    (hlink a).trans (hf.2.2.trans (congrArg some (hkey b).symm))⟩

theorem Follows.of_map {rows : List α} {f : α → α} (hkey : ∀ r, key (f r) = key r)
    (hlink : ∀ r, link (f r) = link r) {x y : α} (hf : Follows key link (rows.map f) x y) :
    ∃ a b, Follows key link rows a b ∧ f a = x ∧ f b = y := by
  obtain ⟨hx, hy, hl⟩ := hf
  obtain ⟨a, ha, rfl⟩ := List.mem_map.mp hx
  obtain ⟨b, hb, rfl⟩ := List.mem_map.mp hy
  exact ⟨a, b, ⟨ha, hb, (hlink a).symm.trans (hl.trans (congrArg some (hkey b)))⟩, rfl, rfl⟩

theorem Follows.append {rows : List α} {a b : α} (hf : Follows key link rows a b)
    (new : List α) : Follows key link (rows ++ new) a b :=
  ⟨List.mem_append_left _ hf.1, List.mem_append_left _ hf.2.1, hf.2.2⟩

theorem Follows.of_append_one {rows : List α} {r a b : α}
    (hf : Follows key link (rows ++ [r]) a b) (hr : ¬ Has key (key r) rows)
    (hlink : ∀ x ∈ rows, ∀ k, link x = some k → Has key k rows)
    (hnew : ∀ k, link r = some k → Has key k rows) :
    b ∈ rows ∧ (a = r ∨ Follows key link rows a b) := by
  obtain ⟨ha, hb, hl⟩ := hf
  rw [List.mem_append, List.mem_singleton] at ha hb
  have hhas : Has key (key b) rows := by
    rcases ha with ha | rfl
    · exact hlink a ha _ hl
    · exact hnew _ hl
  have hb : b ∈ rows := hb.resolve_right (by rintro rfl; exact hr hhas)
  exact ⟨hb, ha.elim (fun ha => Or.inr ⟨ha, hb, hl⟩) Or.inl⟩

section Delete

variable {rows : List α} {q : α → Bool} {f : α → α}

theorem Follows.of_delete (hkey : ∀ r, key (f r) = key r)
    (hlink : ∀ r k, link (f r) = some k → link r = some k) {x y : α}
    (hf : Follows key link ((rows.filter q).map f) x y) :
    ∃ a b, Follows key link rows a b ∧ q a = true ∧ q b = true ∧ f a = x ∧ f b = y := by
  obtain ⟨hx, hy, hl⟩ := hf
  obtain ⟨a, ha, rfl⟩ := List.mem_map.mp hx
  obtain ⟨b, hb, rfl⟩ := List.mem_map.mp hy
  obtain ⟨ha, hqa⟩ := List.mem_filter.mp ha
  obtain ⟨hb, hqb⟩ := List.mem_filter.mp hb
  exact ⟨a, b, ⟨ha, hb, (hlink a _ hl).trans (congrArg some (hkey b))⟩, hqa, hqb, rfl, rfl⟩

theorem Follows.delete (hkey : ∀ r, key (f r) = key r) {a b : α}
    (hlink : link (f a) = link a) (hf : Follows key link rows a b) (ha : q a = true)
    (hb : q b = true) : Follows key link ((rows.filter q).map f) (f a) (f b) :=
  ⟨List.mem_map_of_mem (List.mem_filter.mpr ⟨hf.1, ha⟩),
    List.mem_map_of_mem (List.mem_filter.mpr ⟨hf.2.1, hb⟩),
    hlink.trans (hf.2.2.trans (congrArg some (hkey b).symm))⟩

end Delete

section Done

variable {r : α → α → Prop} {Done : α → Prop}

theorem done_path (hdone : ∀ a b, r a b → Done a → Done b) {a b : α} (h : TransGen r a b)
    (ha : Done a) : Done b := by
  induction h with
  | single hr => exact hdone _ _ hr ha
  | tail _ hr ih => exact hdone _ _ hr ih

theorem path_lift {s : α → α → Prop} {f : α → α} (hdone : ∀ a b, r a b → Done a → Done b)
    (hlift : ∀ a b, r a b → ¬ Done a → ¬ Done b → s (f a) (f b)) {a b : α} (h : TransGen r a b)
    (hb : ¬ Done b) : TransGen s (f a) (f b) := by
  induction h using TransGen.head_induction_on with
  | single hr => exact .single (hlift _ _ hr (fun ha => hb (hdone _ _ hr ha)) hb)
  | head hr hrest ih =>
    have hmid : ¬ Done _ := fun hc => hb (done_path hdone hrest hc)
    exact .head (hlift _ _ hr (fun ha => hmid (hdone _ _ hr ha)) hmid) ih

end Done

end LinkedRows
