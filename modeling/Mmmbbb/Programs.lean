import Mathlib.Data.List.Induction
import Mathlib.Logic.Relation

/-!
# Programs that may fail, and runs of steps

A transaction body is a function from a state to a result or an error: on an
error nothing of it is kept. The rules here speak of the runs that succeed.
Above them, a system takes labelled steps for ever; its runs may be cut down
to the steps that meet a condition on the state they start from.
-/

set_option autoImplicit false

namespace Programs

variable {σ ε α β : Type}

theorem bind_ok {x : Except ε α} {f : α → Except ε β} {b : β} :
    (x >>= f) = .ok b ↔ ∃ a, x = .ok a ∧ f a = .ok b := by
  cases x with
  | error e => simp [bind, Except.bind]
  | ok a => simp [bind, Except.bind]

theorem map_ok {x : Except ε α} {f : α → β} {b : β} :
    x.map f = .ok b ↔ ∃ a, x = .ok a ∧ f a = b := by
  cases x with
  | error e => simp [Except.map]
  | ok a => simp [Except.map]

@[simp] theorem pure_ok {a b : α} : (pure a : Except ε α) = .ok b ↔ a = b := by
  simp [pure, Except.pure]

@[simp] theorem throw_ok {e : ε} {b : α} : (throw e : Except ε α) = .ok b ↔ False := by
  simp [throw, throwThe, MonadExceptOf.throw]

def failWhen (c : Prop) [Decidable c] (e : ε) : Except ε Unit := if c then .error e else .ok ()

theorem failWhen_ok {c : Prop} [Decidable c] {e : ε} {u : Unit} :
    failWhen c e = .ok u ↔ ¬ c := by
  by_cases hc : c <;> simp [failWhen, hc]

/-- The loop rule: an invariant over the items still to come holds at the end
of a loop in which no iteration has failed. -/
theorem loop_rule {body : σ → α → Except ε σ} (I : List α → σ → Prop)
    (hstep : ∀ a rest s s', I (a :: rest) s → body s a = .ok s' → I rest s')
    (items : List α) {s s' : σ} (hi : I items s) (h : items.foldlM body s = .ok s') :
    I [] s' := by
  induction items generalizing s with
  | nil =>
    obtain rfl : s = s' := by simpa using h
    exact hi
  | cons a rest ih =>
    rw [List.foldlM_cons] at h
    obtain ⟨t, ht, hrest⟩ := bind_ok.mp h
    exact ih (hstep a rest s t hi ht) hrest

theorem loop_invariant {body : σ → α → Except ε σ} {I : σ → Prop} (items : List α)
    (hstep : ∀ a ∈ items, ∀ s s', I s → body s a = .ok s' → I s')
    {s s' : σ} (hi : I s) (h : items.foldlM body s = .ok s') : I s' := by
  refine (loop_rule (fun rest s => (∀ a ∈ rest, a ∈ items) ∧ I s) ?_ items ⟨fun _ h => h, hi⟩ h).2
  intro a rest s s' hI hb
  exact ⟨fun x hx => hI.1 x (by simp [hx]), hstep a (hI.1 a (by simp)) s s' hI.2 hb⟩

theorem loop_last {body : σ → α → Except ε σ} {P : σ → Prop}
    (hstep : ∀ s a s', body s a = .ok s' → P s') {items : List α} (hne : items ≠ []) {s s' : σ}
    (h : items.foldlM body s = .ok s') : P s' := by
  induction items generalizing s with
  | nil => exact absurd rfl hne
  | cons a rest ih =>
    rw [List.foldlM_cons] at h
    obtain ⟨mid, hmid, hrest⟩ := bind_ok.mp h
    cases rest with
    | nil =>
      obtain rfl := pure_ok.mp hrest
      exact hstep s a mid hmid
    | cons b rest => exact ih (by simp) hrest

def Avoids (e : ε) (x : Except ε α) : Prop := x ≠ .error e

section
variable {e e' : ε} {x : Except ε α}

@[simp] theorem avoids_ok {a : α} : Avoids e (.ok a) := by simp [Avoids]

@[simp] theorem avoids_pure {a : α} : Avoids e (pure a) := avoids_ok

@[simp] theorem avoids_error : Avoids e (.error e' : Except ε α) ↔ e' ≠ e := by simp [Avoids]

@[simp] theorem avoids_map {f : α → β} : Avoids e (x.map f) ↔ Avoids e x := by
  cases x with
  | error e' => simp [Except.map]
  | ok a => simp [Except.map]

@[simp] theorem avoids_functor_map {f : α → β} : Avoids e (f <$> x) ↔ Avoids e x :=
  avoids_map

@[simp] theorem avoids_failWhen {c : Prop} [Decidable c] :
    Avoids e (failWhen c e') ↔ (c → e' ≠ e) := by
  by_cases hc : c <;> simp [failWhen, hc]

theorem avoids_bind {f : α → Except ε β} :
    Avoids e (x >>= f) ↔ Avoids e x ∧ ∀ a, x = .ok a → Avoids e (f a) := by
  cases x with
  | error e' => simp [bind, Except.bind]
  | ok a => simp [bind, Except.bind]

theorem avoids_loop {body : σ → α → Except ε σ} (h : ∀ s a, Avoids e (body s a)) (items : List α)
    (s : σ) : Avoids e (items.foldlM body s) := by
  induction items generalizing s with
  | nil => exact avoids_pure
  | cons a rest ih =>
    rw [List.foldlM_cons]
    exact avoids_bind.mpr ⟨h s a, fun t _ => ih t⟩

end

/-- A rule for steps under a condition on the state they lead to, when that
condition cannot be restored: if it holds at the end, it has held throughout. -/
theorem guarded_invariant {r : σ → σ → Prop} {G I : σ → Prop}
    (hback : ∀ s t, r s t → G t → G s) (hstep : ∀ s t, r s t → G t → I s → I t) {s t : σ}
    (h : Relation.ReflTransGen r s t) (hg : G t) (hi : I s) : I t := by
  induction h with
  | refl => exact hi
  | tail _ hr ih => exact hstep _ _ hr hg (ih (hback _ _ hr hg))

theorem steps_invariant {r : σ → σ → Prop} {I : σ → Prop} (hstep : ∀ s t, r s t → I s → I t)
    {s t : σ} (h : Relation.ReflTransGen r s t) (hi : I s) : I t :=
  guarded_invariant (G := fun _ => True) (fun _ _ _ hg => hg) (fun s t hr _ => hstep s t hr) h
    trivial hi

def Throughout (after : σ → ε → σ) (ok : σ → ε → σ → Prop) : σ → List ε → Prop
  | _, [] => True
  | s, e :: es => ok s e (after s e) ∧ Throughout after ok (after s e) es

theorem throughout_append {after : σ → ε → σ} {ok : σ → ε → σ → Prop} {s : σ} {es es' : List ε} :
    Throughout after ok s (es ++ es') ↔
      Throughout after ok s es ∧ Throughout after ok (es.foldl after s) es' := by
  induction es generalizing s with
  | nil => simp [Throughout]
  | cons e es ih => simp [Throughout, ih, and_assoc]

/-- What a step keeps exactly under a condition holds all through a run
exactly when all its steps meet the condition. -/
theorem throughout_iff {after : σ → ε → σ} {ok : σ → ε → σ → Prop} {I : σ → Prop}
    (hstep : ∀ s e, I s → (I (after s e) ↔ ok s e (after s e))) {s : σ} (hi : I s)
    (es : List ε) : (∀ pre, pre <+: es → I (pre.foldl after s)) ↔ Throughout after ok s es := by
  induction es generalizing s with
  | nil =>
    refine iff_of_true (fun pre hpre => ?_) trivial
    rw [List.prefix_nil.mp hpre]
    exact hi
  | cons e es ih =>
    constructor
    · intro hall
      have hfirst : I (after s e) := hall [e] ⟨es, rfl⟩
      refine ⟨(hstep s e hi).mp hfirst, (ih hfirst).mp fun pre hpre => ?_⟩
      exact hall (e :: pre) (List.cons_prefix_cons.mpr ⟨rfl, hpre⟩)
    · rintro ⟨hok, hrest⟩ pre hpre
      cases pre with
      | nil => exact hi
      | cons x pre =>
        obtain ⟨rfl, htail⟩ := List.cons_prefix_cons.mp hpre
        exact (ih ((hstep s x hi).mpr hok)).mpr hrest pre htail

/-- The same over histories: a property that every event keeps exactly under a
condition on what came before it. -/
theorem histories_iff {P : List ε → Prop} {ok : List ε → ε → Prop} (hnil : P [])
    (hstep : ∀ pre e, P pre → (P (pre ++ [e]) ↔ ok pre e)) (es : List ε) :
    (∀ pre, pre <+: es → P pre) ↔ ∀ pre e, pre ++ [e] <+: es → ok pre e := by
  constructor
  · intro h pre e hpre
    have hbefore : P pre := h pre ((List.prefix_append pre [e]).trans hpre)
    exact (hstep pre e hbefore).mp (h _ hpre)
  · intro h pre
    induction pre using List.reverseRecOn with
    | nil => exact fun _ => hnil
    | append_singleton pre e ih =>
      intro hpre
      have hbefore : P pre := ih ((List.prefix_append pre [e]).trans hpre)
      exact (hstep pre e hbefore).mpr (h pre e hpre)

theorem foldl_invariant {after : σ → ε → σ} {I : σ → Prop} (hstep : ∀ s e, I s → I (after s e))
    {s : σ} (hi : I s) (es : List ε) : I (es.foldl after s) := by
  induction es generalizing s with
  | nil => exact hi
  | cons e es ih => exact ih (hstep s e hi)

structure System (σ ε : Type) where
  init : σ → Prop
  step : σ → ε → σ → Prop

namespace System

def within (S : System σ ε) (ok : σ → ε → σ → Prop) : System σ ε where
  init := S.init
  step s e s' := S.step s e s' ∧ ok s e s'

inductive Reachable (S : System σ ε) : σ → Prop
  | start {s : σ} : S.init s → Reachable S s
  | next {s s' : σ} (e : ε) : Reachable S s → S.step s e s' → Reachable S s'

inductive Path (S : System σ ε) : σ → σ → Prop
  | refl (s : σ) : Path S s s
  | next {s t u : σ} (e : ε) : Path S s t → S.step t e u → Path S s u

variable {S : System σ ε} {ok : σ → ε → σ → Prop}

theorem Reachable.invariant {I : σ → Prop} (hinit : ∀ s, S.init s → I s)
    (hstep : ∀ s e s', I s → S.step s e s' → I s') {s : σ} (h : S.Reachable s) : I s := by
  induction h with
  | start hs => exact hinit _ hs
  | next e _ hs ih => exact hstep _ e _ ih hs

theorem Reachable.invariant_from {I : σ → Prop} (hinit : ∀ s, S.init s → I s)
    (hstep : ∀ s e s', S.Reachable s → I s → S.step s e s' → I s') {s : σ}
    (h : S.Reachable s) : I s := by
  induction h with
  | start hs => exact hinit _ hs
  | next e hr hs ih => exact hstep _ e _ hr ih hs

theorem Reachable.foldlM {f : σ → ε → Option σ} (hf : ∀ s e s', f s e = some s' → S.step s e s')
    {es : List ε} {s s' : σ} (h : S.Reachable s) (hrun : es.foldlM f s = some s') :
    S.Reachable s' := by
  induction es generalizing s with
  | nil => exact Option.some.inj hrun ▸ h
  | cons e es ih =>
    rw [List.foldlM_cons] at hrun
    obtain ⟨mid, hmid, hrest⟩ := Option.bind_eq_some_iff.mp hrun
    exact ih (.next e h (hf s e mid hmid)) hrest

theorem Path.invariant {I : σ → Prop} (hstep : ∀ s e s', I s → S.step s e s' → I s')
    {s s' : σ} (hi : I s) (h : S.Path s s') : I s' := by
  induction h with
  | refl => exact hi
  | next e _ hs ih => exact hstep _ e _ ih hs

theorem Reachable.of_within {s : σ} (h : (S.within ok).Reachable s) : S.Reachable s := by
  induction h with
  | start hs => exact .start hs
  | next e _ hs ih => exact .next e ih hs.1

end System

end Programs
