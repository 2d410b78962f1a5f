import Mathlib.Data.List.AList
import Mmmbbb.Programs
import Mmmbbb.Inheritance
import Mmmbbb.Runes

/-!
# Log levels of components

Components are named with slashes. One that has no level of its own logs at
that of the nearest component above it, and at the global level when there is
none. Setting the level of a component always withdraws the levels of those
below it, whether the call asks for that or not.
-/

set_option autoImplicit false

namespace Mmmbbb.LogLevels
open Programs Inheritance Runes

abbrev Level := Int8

abbrev Component := Bytes

def slash : UInt8 := 47

structure Registry where
  configGeneration : Int32
  componentLevel : AList (fun _ : Component => Level)
  globalLevel : Level

def Registry.initial (level : Level) : Registry := ⟨0, ∅, level⟩

/-- Without the byte there is no index; the source then has -1. -/
def lastIndexByte (c : UInt8) : Bytes → Option ℕ
  | [] => none
  | b :: bs =>
    match lastIndexByte c bs with
    | some i => some (i + 1)
    | none => if b = c then some 0 else none

theorem lastIndexByte_none {c : UInt8} {bs : Bytes} (h : lastIndexByte c bs = none) : c ∉ bs := by
  induction bs with
  | nil => simp
  | cons b bs ih =>
    rw [lastIndexByte] at h
    cases hlast : lastIndexByte c bs with
    | some j => simp [hlast] at h
    | none =>
      have hb : b ≠ c := by simpa [hlast] using h
      simp [ih hlast, Ne.symm hb]

theorem lastIndexByte_some {c : UInt8} {bs : Bytes} {i : ℕ} (h : lastIndexByte c bs = some i) :
    i < bs.length ∧ bs = bs.take i ++ c :: bs.drop (i + 1) ∧ c ∉ bs.drop (i + 1) := by
  induction bs generalizing i with
  | nil => simp [lastIndexByte] at h
  | cons b bs ih =>
    rw [lastIndexByte] at h
    cases hlast : lastIndexByte c bs with
    | some j =>
      rw [hlast] at h
      obtain rfl := Option.some.inj h
      obtain ⟨hlt, heq, hnot⟩ := ih hlast
      refine ⟨by simpa using hlt, ?_, by simpa using hnot⟩
      rw [List.take_succ_cons, List.drop_succ_cons, List.cons_append, ← heq]
    | none =>
      simp only [hlast, Option.ite_none_right_eq_some, Option.some.injEq] at h
      obtain ⟨rfl, rfl⟩ := h
      exact ⟨by simp, by simp, by simpa using lastIndexByte_none hlast⟩

def findLevel (r : Registry) (component : Component) : Level :=
  match r.componentLevel.lookup component with
  | some l => l
  | none =>
    match _h : lastIndexByte slash component with
    | none => r.globalLevel
    | some lastSlash =>
      if lastSlash < 1 then r.globalLevel else findLevel r (component.take lastSlash)
termination_by component.length
decreasing_by
  rw [List.length_take]
  exact (min_le_left _ _).trans_lt (lastIndexByte_some _h).1

def configLevel (r : Registry) (component : Component) : Int32 × Level :=
  (r.configGeneration, findLevel r component)

def deletePrefix (p : Component) (m : AList (fun _ : Component => Level)) :
    AList (fun _ : Component => Level) :=
  m.keys.foldl (fun m c => if p.isPrefixOf c then m.erase c else m) m

def setComponentLevel (component : Component) (children : Bool) (level : Level) (r : Registry) :
    Registry :=
  let r :=
    if component = [] then
      { r with
        globalLevel := level
        componentLevel := if children then ∅ else r.componentLevel }
    else
      { r with
        componentLevel :=
          deletePrefix (component ++ [slash]) (r.componentLevel.insert component level) }
  { r with configGeneration := r.configGeneration + 1 }

/-- The component or an ancestor of it, of which the root is not one. -/
def AtOrAbove (a x : Component) : Prop := a = x ∨ a ≠ [] ∧ a ++ [slash] <+: x

def Below (c x : Component) : Prop := x ≠ c ∧ (c = [] ∨ c ++ [slash] <+: x)

instance (a x : Component) : Decidable (AtOrAbove a x) :=
  inferInstanceAs (Decidable (_ ∨ _ ∧ _))

instance (c x : Component) : Decidable (Below c x) := inferInstanceAs (Decidable (_ ∧ (_ ∨ _)))

section
variable {a b c p q x : Component} {r : Registry} {l : Level}

theorem prefix_cut (hq : slash ∉ q) :
    a ++ [slash] <+: p ++ slash :: q ↔ a = p ∨ a ++ [slash] <+: p := by
  constructor
  · rintro ⟨t, ht⟩
    rw [List.append_assoc, List.singleton_append] at ht
    rcases List.append_eq_append_iff.mp ht with ⟨m, hp, hm⟩ | ⟨m, ha, hm⟩
    · cases m with
      | nil => exact .inl (by simpa using hp.symm)
      | cons y m =>
        obtain ⟨hy, -⟩ := List.cons.inj hm
        refine .inr ⟨m, ?_⟩
        rw [hp, hy, List.append_assoc, List.singleton_append]
    · cases m with
      | nil => exact .inl (by simpa using ha)
      | cons y m =>
        obtain ⟨-, hrest⟩ := List.cons.inj hm
        exact absurd (by simp [hrest]) hq
  · rintro (rfl | ⟨t, rfl⟩)
    · exact ⟨q, by simp⟩
    · exact ⟨t ++ slash :: q, by simp⟩

theorem atOrAbove_cut {i : ℕ} (h : lastIndexByte slash x = some i) (hi : ¬i < 1) :
    AtOrAbove a x ↔ a = x ∨ AtOrAbove a (x.take i) := by
  obtain ⟨hlt, hx, hnot⟩ := lastIndexByte_some h
  have hcut : a ++ [slash] <+: x ↔ a = x.take i ∨ a ++ [slash] <+: x.take i := by
    conv_lhs => rw [hx]
    exact prefix_cut hnot
  have htake : x.take i ≠ [] := by
    intro hnil
    have hlength := congrArg List.length hnil
    rw [List.length_take, List.length_nil] at hlength
    omega
  unfold AtOrAbove
  rw [hcut]
  constructor
  · rintro (hax | ⟨ha, hap | hap⟩)
    · exact .inl hax
    · exact .inr (.inl hap)
    · exact .inr (.inr ⟨ha, hap⟩)
  · rintro (hax | hap | ⟨ha, hap⟩)
    · exact .inl hax
    · exact .inr ⟨hap ▸ htake, .inl hap⟩
    · exact .inr ⟨ha, .inr hap⟩

theorem atOrAbove_top (h : ∀ i, lastIndexByte slash x = some i → i < 1) :
    AtOrAbove a x ↔ a = x := by
  refine or_iff_left ?_
  rintro ⟨ha, t, ht⟩
  cases hlast : lastIndexByte slash x with
  | none =>
    refine lastIndexByte_none hlast ?_
    simp [← ht]
  | some i =>
    obtain ⟨hlt, hx, hnot⟩ := lastIndexByte_some hlast
    have hzero : i = 0 := by have := h i hlast; omega
    rw [hzero] at hx hnot
    have hpre : a ++ [slash] <+: [] ++ slash :: x.drop 1 := ⟨t, ht.trans hx⟩
    rcases (prefix_cut hnot).mp hpre with hnil | hnil
    · exact ha hnil
    · simp at hnil

/-- The walk ends at the nearest component above that has a level of its own,
or at the global level. -/
theorem findLevel_eq (r : Registry) (x : Component) :
    (∃ a, Nearest AtOrAbove (fun a => ∃ l, r.componentLevel.lookup a = some l) x a ∧
      r.componentLevel.lookup a = some (findLevel r x)) ∨
    ((∀ a, AtOrAbove a x → r.componentLevel.lookup a = none) ∧ findLevel r x = r.globalLevel) := by
  fun_induction findLevel r x with
  | case1 x l hl => exact .inl ⟨x, nearest_self (.inl rfl) ⟨l, hl⟩, hl⟩
  | case2 x hx hlast =>
    refine .inr ⟨fun a ha => ?_, rfl⟩
    rw [(atOrAbove_top (by simp [hlast])).mp ha]
    exact hx
  | case3 x hx i hlast hi =>
    refine .inr ⟨fun a ha => ?_, rfl⟩
    rw [(atOrAbove_top (by simpa [hlast] using hi)).mp ha]
    exact hx
  | case4 x hx i hlast hi ih =>
    have hown : ¬∃ l, r.componentLevel.lookup x = some l := by simp [hx]
    rcases ih with ⟨a, hnearest, ha⟩ | ⟨hnone, hglobal⟩
    · exact .inl ⟨a, hnearest.step (fun _ => atOrAbove_cut hlast hi) hown, ha⟩
    · refine .inr ⟨fun a ha => ?_, hglobal⟩
      rcases (atOrAbove_cut hlast hi).mp ha with rfl | ha
      · exact hx
      · exact hnone a ha

theorem lookup_deletePrefix (m : AList (fun _ : Component => Level)) :
    (deletePrefix p m).lookup x = if p <+: x then none else m.lookup x := by
  have hfold : ∀ (ks : List Component) (m : AList (fun _ : Component => Level)),
      (ks.foldl (fun m c => if p.isPrefixOf c then m.erase c else m) m).lookup x =
        if p <+: x ∧ x ∈ ks then none else m.lookup x := by
    intro ks
    induction ks with
    | nil => simp
    | cons k ks ih =>
      intro m
      rw [List.foldl_cons, ih]
      by_cases hk : x = k
      · subst hk
        by_cases hp : p <+: x <;> simp [hp]
      · by_cases hp : p <+: k <;> simp [hp, hk, AList.lookup_erase_ne hk]
  rw [deletePrefix, hfold]
  by_cases hp : p <+: x
  · by_cases hx : x ∈ m.keys
    · rw [if_pos ⟨hp, hx⟩, if_pos hp]
    · rw [if_neg (fun h => hx h.2), if_pos hp]
      exact AList.lookup_eq_none.mpr hx
  · rw [if_neg (fun h => hp h.1), if_neg hp]

theorem not_below_self : ¬Below c c := fun h => h.1 rfl

theorem below_iff (hc : c ≠ []) : Below c x ↔ c ++ [slash] <+: x := by
  constructor
  · rintro ⟨-, hnil | hpre⟩
    · exact absurd hnil hc
    · exact hpre
  · intro hpre
    refine ⟨fun hx => ?_, .inr hpre⟩
    have hlength := hpre.length_le
    rw [hx, List.length_append, List.length_singleton] at hlength
    omega

theorem lookup_set_self (children : Bool) (hc : c ≠ []) :
    (setComponentLevel c children l r).componentLevel.lookup c = some l := by
  have hself : ¬c ++ [slash] <+: c := fun h => not_below_self ((below_iff hc).mpr h)
  simp [setComponentLevel, hc, lookup_deletePrefix, hself]

theorem lookup_set_other (children : Bool) (hc : c ≠ []) (hx : x ≠ c) :
    (setComponentLevel c children l r).componentLevel.lookup x =
      if Below c x then none else r.componentLevel.lookup x := by
  simp [setComponentLevel, hc, lookup_deletePrefix, below_iff hc, AList.lookup_insert_ne hx]

theorem lookup_set_root (children : Bool) :
    (setComponentLevel [] children l r).componentLevel.lookup x =
      if children then none else r.componentLevel.lookup x := by
  cases children <;> simp [setComponentLevel]

theorem globalLevel_set (children : Bool) :
    (setComponentLevel c children l r).globalLevel = if c = [] then l else r.globalLevel := by
  by_cases hc : c = [] <;> simp [setComponentLevel, hc]

end

abbrev SetCall := Call Component Level

def Registry.after (r : Registry) (c : SetCall) : Registry :=
  setComponentLevel c.name c.children c.value r

def run (initial : Level) (calls : List SetCall) : Registry :=
  calls.foldl Registry.after (.initial initial)

theorem run_append (initial : Level) (calls : List SetCall) (c : SetCall) :
    run initial (calls ++ [c]) = (run initial calls).after c := by
  simp [run]

def GlobalLevel (initial : Level) (calls : List SetCall) (l : Level) : Prop :=
  InForce Below calls [] l ∨ (∀ l', ¬InForce Below calls [] l') ∧ l = initial

/-- The level in force for the nearest component above, else the global one. -/
def Effective (initial : Level) (calls : List SetCall) (x : Component) (l : Level) : Prop :=
  (∃ a, Nearest AtOrAbove (fun a => ∃ l, InForce Below calls a l) x a ∧ InForce Below calls a l) ∨
    (∀ a, AtOrAbove a x → ∀ l', ¬InForce Below calls a l') ∧ GlobalLevel initial calls l

structure Faithful (initial : Level) (calls : List SetCall) : Prop where
  overrides : ∀ x, x ≠ [] → ∀ l,
    (run initial calls).componentLevel.lookup x = some l ↔ InForce Below calls x l
  levels : ∀ x, Effective initial calls x (configLevel (run initial calls) x).2

/-- In every state of the run the levels are right, each call withdraws levels
of components below exactly when it is asked to, and otherwise leaves alone
every other component that has a level of its own. -/
structure Hierarchical (initial : Level) (calls : List SetCall) : Prop where
  faithful : ∀ pre, pre <+: calls → Faithful initial pre
  withdrawn : ∀ pre c, pre ++ [c] <+: calls → ∀ x, Below c.name x →
    (∃ l, (run initial pre).componentLevel.lookup x = some l) →
      ((run initial (pre ++ [c])).componentLevel.lookup x = none ↔ c.children = true)
  unchanged : ∀ pre c, pre ++ [c] <+: calls → c.children = false → ∀ x, x ≠ c.name →
    (∃ l, (run initial pre).componentLevel.lookup x = some l) →
      (configLevel (run initial (pre ++ [c])) x).2 = (configLevel (run initial pre) x).2

/-- No call that leaves the children alone is made above a component that has
a level of its own. -/
def Spares (calls : List SetCall) : Prop :=
  ∀ pre c, pre ++ [c] <+: calls → c.children = false → c.name ≠ [] →
    ∀ x l, Below c.name x → ¬InForce Below pre x l

section
variable {initial l : Level} {calls pre : List SetCall} {c : SetCall} {x : Component}

theorem atOrAbove_antisymm {a b : Component} (hab : AtOrAbove a b) (hba : AtOrAbove b a) :
    a = b := by
  rcases hab with heq | ⟨-, hpre⟩
  · exact heq
  · rcases hba with heq | ⟨-, hpre'⟩
    · exact heq.symm
    · have hle := hpre.length_le
      have hle' := hpre'.length_le
      rw [List.length_append, List.length_singleton] at hle hle'
      omega

theorem effective_unique {l' : Level} (h : Effective initial calls x l)
    (h' : Effective initial calls x l') : l = l' := by
  have hglobal : ∀ {l l'}, GlobalLevel initial calls l → GlobalLevel initial calls l' → l = l' := by
    rintro l l' (hl | ⟨hnone, rfl⟩) (hl' | ⟨hnone', rfl⟩)
    · exact hl.unique hl'
    · exact absurd hl (hnone' l)
    · exact absurd hl' (hnone l')
    · rfl
  rcases h with ⟨a, ha, hl⟩ | ⟨hnone, hl⟩
  · rcases h' with ⟨b, hb, hl'⟩ | ⟨hnone', -⟩
    · have hab : a = b := ha.unique (fun _ _ => atOrAbove_antisymm) hb
      exact hl.unique (hab ▸ hl')
    · exact absurd hl (hnone' a ha.isAbove l)
  · rcases h' with ⟨b, hb, hl'⟩ | ⟨-, hl'⟩
    · exact absurd hl' (hnone b hb.isAbove l')
    · exact hglobal hl hl'

theorem run_root (initial : Level) (calls : List SetCall) :
    (run initial calls).componentLevel.lookup [] = none := by
  induction calls using List.reverseRecOn with
  | nil => rfl
  | append_singleton calls c ih =>
    rw [run_append, Registry.after]
    by_cases hc : c.name = []
    · rw [hc, lookup_set_root, ih, ite_self]
    · rw [lookup_set_other _ hc (Ne.symm hc), ih, ite_self]

theorem not_withdraws_root : ¬c.Withdraws Below [] := by
  rintro ⟨-, hne, hroot | hpre⟩
  · exact hne hroot.symm
  · simp at hpre

theorem run_global (initial : Level) (calls : List SetCall) :
    GlobalLevel initial calls (run initial calls).globalLevel := by
  induction calls using List.reverseRecOn with
  | nil => exact .inr ⟨fun _ => inForce_nil, rfl⟩
  | append_singleton calls c ih =>
    rw [run_append, Registry.after, globalLevel_set]
    by_cases hc : c.name = []
    · rw [if_pos hc]
      exact .inl ((inForce_set hc).mpr rfl)
    · rw [if_neg hc]
      have hsame : ∀ l, InForce Below (calls ++ [c]) [] l ↔ InForce Below calls [] l := by
        intro l
        rw [inForce_other hc]
        exact and_iff_right not_withdraws_root
      simpa only [GlobalLevel, hsame] using ih

theorem effective_of_overrides (h : ∀ x, x ≠ [] → ∀ l,
    (run initial calls).componentLevel.lookup x = some l ↔ InForce Below calls x l)
    (x : Component) : Effective initial calls x (configLevel (run initial calls) x).2 := by
  have hglobal := run_global initial calls
  by_cases hx : x = []
  · have htop : ∀ a, AtOrAbove a x ↔ a = x := by
      intro a
      refine or_iff_left ?_
      rintro ⟨-, hpre⟩
      simp [hx] at hpre
    have hlevel : (configLevel (run initial calls) x).2 = (run initial calls).globalLevel := by
      rw [configLevel, findLevel, hx, run_root]
      rfl
    rw [hlevel]
    rcases hglobal with hforce | hnone
    · exact .inl ⟨x, nearest_self ((htop x).mpr rfl) ⟨_, hx ▸ hforce⟩, hx ▸ hforce⟩
    · refine .inr ⟨fun a ha l' => ?_, .inr hnone⟩
      rw [(htop a).mp ha, hx]
      exact hnone.1 l'
  · have hne : ∀ a, AtOrAbove a x → a ≠ [] := by
      rintro a (rfl | ⟨ha, -⟩)
      · exact hx
      · exact ha
    rcases findLevel_eq (run initial calls) x with ⟨a, hnearest, ha⟩ | ⟨hnone, hl⟩
    · have hane : a ≠ [] := hne a hnearest.isAbove
      refine .inl ⟨a, ⟨hnearest.isAbove, ⟨_, (h a hane _).mp ha⟩, ?_⟩, (h a hane _).mp ha⟩
      rintro b hb ⟨l', hl'⟩
      exact hnearest.nearest b hb ⟨l', (h b (hne b hb) l').mpr hl'⟩
    · refine .inr ⟨fun a ha l' hl' => ?_, ?_⟩
      · have hsome := (h a (hne a ha) l').mpr hl'
        rw [hnone a ha] at hsome
        cases hsome
      · rw [configLevel, hl]
        exact hglobal

theorem faithful_iff : Faithful initial calls ↔ ∀ x, x ≠ [] → ∀ l,
    (run initial calls).componentLevel.lookup x = some l ↔ InForce Below calls x l :=
  ⟨Faithful.overrides, fun h => ⟨h, effective_of_overrides h⟩⟩

/-- A call keeps the registry faithful exactly when it withdraws nothing that
it was not asked to. -/
theorem faithful_step (h : Faithful initial pre) :
    Faithful initial (pre ++ [c]) ↔
      (c.children = false → c.name ≠ [] → ∀ x l, Below c.name x → ¬InForce Below pre x l) := by
  rw [faithful_iff, run_append, Registry.after]
  constructor
  · intro hall hchildren hc x l hbelow hforce
    have hx : x ≠ [] := by
      rintro rfl
      simp [below_iff hc] at hbelow
    have hne : c.name ≠ x := fun hname => hbelow.1 hname.symm
    have hkept : InForce Below (pre ++ [c]) x l :=
      (inForce_other hne).mpr ⟨fun hw => by simp [Call.Withdraws, hchildren] at hw, hforce⟩
    have hsome := (hall x hx l).mpr hkept
    rw [lookup_set_other _ hc hbelow.1, if_pos hbelow] at hsome
    cases hsome
  · intro hspared x hx l
    by_cases hname : c.name = x
    · have hc : c.name ≠ [] := hname ▸ hx
      rw [inForce_set hname, ← hname, lookup_set_self _ hc, Option.some.injEq]
    · rw [inForce_other hname, ← h.overrides x hx l]
      by_cases hc : c.name = []
      · have hbelow : Below c.name x := ⟨Ne.symm hname, .inl hc⟩
        rw [hc, lookup_set_root]
        cases hchildren : c.children <;> simp [Call.Withdraws, hchildren, hbelow]
      · rw [lookup_set_other _ hc (Ne.symm hname)]
        by_cases hbelow : Below c.name x
        · rw [if_pos hbelow]
          cases hchildren : c.children with
          | true => simp [Call.Withdraws, hchildren, hbelow]
          | false =>
            have hnot := hspared hchildren hc x l hbelow
            rw [← h.overrides x hx l] at hnot
            simp [hnot]
        · simp [hbelow, Call.Withdraws]

theorem findLevel_own {r : Registry} (h : r.componentLevel.lookup x = some l) :
    findLevel r x = l := by
  rw [findLevel, h]

theorem run_named (h : (run initial pre).componentLevel.lookup x = some l) : x ≠ [] := by
  rintro rfl
  rw [run_root] at h
  cases h

theorem withdrawn_iff (h : Faithful initial pre) (h' : Faithful initial (pre ++ [c]))
    (hbelow : Below c.name x) (hl : (run initial pre).componentLevel.lookup x = some l) :
    (run initial (pre ++ [c])).componentLevel.lookup x = none ↔ c.children = true := by
  have hx : x ≠ [] := run_named hl
  have hforce : InForce Below pre x l := (h.overrides x hx l).mp hl
  have hne : c.name ≠ x := fun hname => hbelow.1 hname.symm
  constructor
  · intro hnone
    by_contra hchildren
    have hkept : InForce Below (pre ++ [c]) x l :=
      (inForce_other hne).mpr ⟨fun hw => hchildren hw.1, hforce⟩
    have hsome := (h'.overrides x hx l).mpr hkept
    rw [hnone] at hsome
    cases hsome
  · intro hchildren
    rw [Option.eq_none_iff_forall_ne_some]
    intro l' hl'
    have hforce' := (h'.overrides x hx l').mp hl'
    exact ((inForce_other hne).mp hforce').1 ⟨hchildren, hbelow⟩

theorem level_unchanged (h : Faithful initial pre) (h' : Faithful initial (pre ++ [c]))
    (hchildren : c.children = false) (hne : x ≠ c.name)
    (hl : (run initial pre).componentLevel.lookup x = some l) :
    (configLevel (run initial (pre ++ [c])) x).2 = (configLevel (run initial pre) x).2 := by
  have hx : x ≠ [] := run_named hl
  have hforce : InForce Below pre x l := (h.overrides x hx l).mp hl
  have hkept : InForce Below (pre ++ [c]) x l := by
    refine (inForce_other (Ne.symm hne)).mpr ⟨fun hw => ?_, hforce⟩
    simp [Call.Withdraws, hchildren] at hw
  have hl' := (h'.overrides x hx l).mpr hkept
  rw [configLevel, configLevel, findLevel_own hl, findLevel_own hl']

theorem faithful_all_iff :
    (∀ pre, pre <+: calls → Faithful initial pre) ↔ Spares calls := by
  have hnil : Faithful initial [] := by
    rw [faithful_iff]
    intro x _ l
    exact iff_of_false (by simp [run, Registry.initial]) inForce_nil
  exact histories_iff hnil (fun pre c h => faithful_step h) calls

/-- All through a run the levels are hierarchical exactly when no call withdraws
a level that it was to leave alone. -/
theorem levels_hierarchical_iff (initial : Level) (calls : List SetCall) :
    Hierarchical initial calls ↔ Spares calls := by
  have hfaithful : (∀ pre, pre <+: calls → Faithful initial pre) ↔ Spares calls :=
    faithful_all_iff
  constructor
  · intro h
    exact hfaithful.mp h.faithful
  · intro hspares
    have hall := hfaithful.mpr hspares
    have hbefore : ∀ pre c, pre ++ [c] <+: calls → Faithful initial pre :=
      fun pre c hpre => hall pre ((List.prefix_append pre [c]).trans hpre)
    constructor
    · exact hall
    · intro pre c hpre x hbelow hown
      obtain ⟨l, hl⟩ := hown
      exact withdrawn_iff (hbefore pre c hpre) (hall _ hpre) hbelow hl
    · intro pre c hpre hchildren x hne hown
      obtain ⟨l, hl⟩ := hown
      exact level_unchanged (hbefore pre c hpre) (hall _ hpre) hchildren hne hl

end

structure Logger where
  component : Component
  c : Int32
  l : Level

def newFrom (component : Component) (r : Registry) : Logger :=
  ⟨component, (configLevel r component).1, (configLevel r component).2⟩

def Logger.update (lg : Logger) (r : Registry) : Logger :=
  if r.configGeneration ≠ lg.c then newFrom lg.component r else lg

theorem generation_after (r : Registry) (calls : List SetCall) :
    (calls.foldl Registry.after r).configGeneration =
      r.configGeneration + Int32.ofNat calls.length := by
  induction calls generalizing r with
  | nil => simp
  | cons c calls ih =>
    have hone : (r.after c).configGeneration = r.configGeneration + 1 := by
      by_cases hc : c.name = [] <;> simp [Registry.after, setComponentLevel, hc]
    rw [List.foldl_cons, ih, hone, List.length_cons, Int32.add_assoc, Int32.ofNat_add,
      Int32.add_comm 1]
    rfl

theorem add_ofNat_ne (g : Int32) {n : ℕ} (hpos : 0 < n) (hlt : n < 2 ^ 32) :
    g + Int32.ofNat n ≠ g := by
  intro h
  have hzero : Int32.ofNat n = 0 := by simpa using h
  have hbits := congrArg (fun i : Int32 => i.toBitVec.toNat) hzero
  have hmod : n % 2 ^ 32 = 0 := by simpa using hbits
  omega

section
variable {initial : Level} {x : Component} {pre : List SetCall}

/-- A use makes the logger the one that would be built anew, unless the
generation has come round to that of the last use. -/
theorem update_current {mid : List SetCall} (hmid : mid.length < 2 ^ 32) :
    (newFrom x (run initial pre)).update (run initial (pre ++ mid)) =
      newFrom x (run initial (pre ++ mid)) := by
  have hsplit : run initial (pre ++ mid) = mid.foldl Registry.after (run initial pre) :=
    List.foldl_append
  by_cases hnil : mid = []
  · rw [hnil, List.append_nil, Logger.update, newFrom]
    exact if_neg fun h => h rfl
  · have hpos : 0 < mid.length := List.length_pos_iff.mpr hnil
    have hmoved : (run initial (pre ++ mid)).configGeneration ≠
        (newFrom x (run initial pre)).c := by
      rw [hsplit, generation_after]
      exact add_ofNat_ne _ hpos hmid
    exact if_pos hmoved

def Logger.uses (lg : Logger) (initial : Level) (pre : List SetCall) :
    List (List SetCall) → Logger
  | [] => lg
  | mid :: mids => (lg.update (run initial (pre ++ mid))).uses initial (pre ++ mid) mids

theorem uses_current {mids : List (List SetCall)} (hmids : ∀ mid ∈ mids, mid.length < 2 ^ 32) :
    (newFrom x (run initial pre)).uses initial pre mids =
      newFrom x (run initial (pre ++ mids.flatten)) := by
  induction mids generalizing pre with
  | nil => rw [Logger.uses, List.flatten_nil, List.append_nil]
  | cons mid mids ih =>
    rw [Logger.uses, update_current (hmids mid List.mem_cons_self),
      ih (fun m hm => hmids m (List.mem_cons_of_mem mid hm)), List.flatten_cons,
      List.append_assoc]

/-- At each use a logger has the level that is effective for its component,
and there is but one. -/
theorem logger_in_force {mids : List (List SetCall)} (hmids : ∀ mid ∈ mids, mid.length < 2 ^ 32)
    (hspares : Spares (pre ++ mids.flatten)) (l : Level) :
    ((newFrom x (run initial pre)).uses initial pre mids).l = l ↔
      Effective initial (pre ++ mids.flatten) x l := by
  have hfaithful : Faithful initial (pre ++ mids.flatten) :=
    faithful_all_iff.mpr hspares _ List.prefix_rfl
  have hlevel := hfaithful.levels x
  rw [uses_current hmids]
  constructor
  · rintro rfl
    exact hlevel
  · exact effective_unique hlevel

theorem spares_of_children {calls : List SetCall} (h : ∀ c ∈ calls, c.children = true) :
    Spares calls := by
  intro pre c hpre hchildren
  have hc : c ∈ calls := hpre.subset (by simp)
  rw [h c hc] at hchildren
  cases hchildren

end

def onwards : List (List SetCall) :=
  [[⟨bytes "actions", true, 0⟩], [], [⟨bytes "actions/publish", true, 3⟩, ⟨bytes "", true, 2⟩]]

theorem logger_in_force_onwards :
    Effective 1 onwards.flatten (bytes "actions/publish") 2 := by
  have hspares : Spares ([] ++ onwards.flatten) := spares_of_children (by decide +kernel)
  have huses : ((newFrom (bytes "actions/publish") (run 1 [])).uses 1 [] onwards).l = 2 := by
    decide +kernel
  exact (logger_in_force (by decide) hspares 2).mp huses

def aloneCalls : List SetCall :=
  [⟨bytes "actions/publish", false, 0⟩, ⟨bytes "actions", false, 1⟩]

/-- The component below is left at the level of the one above. -/
theorem alone_withdraws :
    (configLevel (run 1 [⟨bytes "actions/publish", false, 0⟩]) (bytes "actions/publish")).2 = 0 ∧
      (configLevel (run 1 aloneCalls) (bytes "actions/publish")).2 = 1 ∧
      ¬Hierarchical 1 aloneCalls := by
  have hset : (run 1 [⟨bytes "actions/publish", false, 0⟩]).componentLevel.lookup
      (bytes "actions/publish") = some 0 := by decide +kernel
  have hbefore : (configLevel (run 1 [⟨bytes "actions/publish", false, 0⟩])
      (bytes "actions/publish")).2 = 0 := findLevel_own hset
  have hafter : (configLevel (run 1 aloneCalls) (bytes "actions/publish")).2 = 1 := by
    decide +kernel
  refine ⟨hbefore, hafter, fun h => ?_⟩
  have hsame := h.unchanged [⟨bytes "actions/publish", false, 0⟩] ⟨bytes "actions", false, 1⟩
    ⟨[], rfl⟩ rfl (bytes "actions/publish") (by decide) ⟨0, hset⟩
  change (configLevel (run 1 aloneCalls) (bytes "actions/publish")).2 = _ at hsame
  rw [hbefore, hafter] at hsame
  exact absurd hsame (by decide)

end Mmmbbb.LogLevels
