import Mmmbbb.Programs
import Mathlib.Logic.Function.Basic
import Mathlib.Data.Fintype.Basic

/-!
# Transactions at READ COMMITTED

Sessions run their transactions a statement at a time. A statement sees what
is committed by then, under what its own transaction has written so far. What
it writes stays locked until its transaction ends: a statement that wants to
write the same row has to wait.
-/

set_option autoImplicit false

namespace ReadCommitted
open Programs

instance twoSessions : @NeZero ℕ Zero.ofOfNat0 2 := ⟨by decide⟩

structure Session (ω π : Type) where
  log : List ω
  point : π

structure State (n : ℕ) (σ ω π : Type) where
  committed : σ
  session : Fin n → Session ω π

/-- A program of statements `α` over databases `σ` with writes `ω`: a
statement fails, or writes and moves the program on. -/
structure Program (α σ ω π ε : Type) where
  start : π
  apply : σ → ω → σ
  clash : ω → ω → Bool
  statement : α → π → σ → Except ε (List ω × π)
  ready : π → Bool

inductive Event (n : ℕ) (α : Type)
  | run (i : Fin n) (a : α)
  | commit (i : Fin n)
  | rollback (i : Fin n)

section
variable {n : ℕ} {α σ ω π ε : Type}

def State.set (st : State n σ ω π) (i : Fin n) (s : Session ω π) : State n σ ω π :=
  { st with session := Function.update st.session i s }

variable (P : Program α σ ω π ε)

def Program.view (st : State n σ ω π) (i : Fin n) : σ :=
  (st.session i).log.foldl P.apply st.committed

def Program.Blocked (st : State n σ ω π) (i : Fin n) (ws : List ω) : Prop :=
  ∃ j, j ≠ i ∧ ∃ w ∈ ws, ∃ w' ∈ (st.session j).log, P.clash w w' = true

instance (st : State n σ ω π) (i : Fin n) (ws : List ω) : Decidable (P.Blocked st i ws) :=
  inferInstanceAs (Decidable (∃ j, _ ∧ ∃ w ∈ ws, ∃ w' ∈ (st.session j).log, _))

def Program.fresh : Session ω π := ⟨[], P.start⟩

def Program.commit (st : State n σ ω π) (i : Fin n) : State n σ ω π :=
  { st.set i P.fresh with committed := P.view st i }

/-- A step; `none` when the statement fails or has to wait. -/
def Program.step (st : State n σ ω π) : Event n α → Option (State n σ ω π)
  | .run i a =>
    match P.statement a (st.session i).point (P.view st i) with
    | .error _ => none
    | .ok (ws, t) =>
      if P.Blocked st i ws then none else some (st.set i ⟨(st.session i).log ++ ws, t⟩)
  | .commit i => if P.ready (st.session i).point then some (P.commit st i) else none
  | .rollback i => some (st.set i P.fresh)

def Program.system (n : ℕ) (init : σ → Prop) : System (State n σ ω π) (Event n α) where
  init st := init st.committed ∧ ∀ i, st.session i = P.fresh
  step st e st' := P.step st e = some st'

variable {P} {st st' : State n σ ω π} {i j : Fin n}

inductive Stepped (P : Program α σ ω π ε) (st : State n σ ω π) :
    Event n α → State n σ ω π → Prop
  | run {i : Fin n} {a : α} {ws : List ω} {t : π} :
      P.statement a (st.session i).point (P.view st i) = .ok (ws, t) → ¬ P.Blocked st i ws →
      Stepped P st (.run i a) (st.set i ⟨(st.session i).log ++ ws, t⟩)
  | commit {i : Fin n} : P.ready (st.session i).point = true →
      Stepped P st (.commit i) (P.commit st i)
  | rollback {i : Fin n} : Stepped P st (.rollback i) (st.set i P.fresh)

theorem step_cases {e : Event n α} (h : P.step st e = some st') : Stepped P st e st' := by
  cases e with
  | run i a =>
    unfold Program.step at h
    dsimp only at h
    split at h
    · cases h
    · rename_i ws t hst
      split at h
      · cases h
      · rename_i hfree
        cases h
        exact .run hst hfree
  | commit i =>
    unfold Program.step at h
    dsimp only at h
    split at h
    · rename_i hready
      cases h
      exact .commit hready
    · cases h
  | rollback i =>
    cases h
    exact .rollback

@[simp] theorem set_self (st : State n σ ω π) (i : Fin n) (s : Session ω π) :
    (st.set i s).session i = s := by simp [State.set]

theorem set_other {s : Session ω π} (h : j ≠ i) : (st.set i s).session j = st.session j := by
  simp [State.set, h]

@[simp] theorem set_committed (st : State n σ ω π) (i : Fin n) (s : Session ω π) :
    (st.set i s).committed = st.committed := rfl

@[simp] theorem commit_self (st : State n σ ω π) (i : Fin n) :
    (P.commit st i).session i = P.fresh := set_self st i P.fresh

theorem commit_other (h : j ≠ i) : (P.commit st i).session j = st.session j := set_other h

theorem not_clash {ws : List ω} (h : ¬ P.Blocked st i ws) (hj : j ≠ i) {w w' : ω} (hw : w ∈ ws)
    (hw' : w' ∈ (st.session j).log) : P.clash w w' = false := by
  by_contra hc
  exact h ⟨j, hj, w, hw, w', hw', by simpa using hc⟩

/-- A way to reason about one session at a time. `J` is about the committed
database and one session, `X` about two sessions at once. -/
structure Rule (n : ℕ) (P : Program α σ ω π ε)
    (ok : State n σ ω π → Event n α → State n σ ω π → Prop)
    (J : σ → Session ω π → Prop) (X : Session ω π → Session ω π → Prop) : Prop where
  symm : ∀ s s', X s s' → X s' s
  fresh : ∀ t s, J t s → J t P.fresh
  apart : ∀ s, X P.fresh s
  run : ∀ (st : State n σ ω π) (i : Fin n) (a : α) (ws : List ω) (q : π),
    (∀ j, J st.committed (st.session j)) →
    (∀ j k, j ≠ k → X (st.session j) (st.session k)) →
    P.statement a (st.session i).point (P.view st i) = .ok (ws, q) → ¬ P.Blocked st i ws →
    ok st (.run i a) (st.set i ⟨(st.session i).log ++ ws, q⟩) →
    J st.committed ⟨(st.session i).log ++ ws, q⟩ ∧
      ∀ j, j ≠ i → X ⟨(st.session i).log ++ ws, q⟩ (st.session j)
  commit : ∀ t s s', J t s → J t s' → X s s' → P.ready s.point = true →
    J (s.log.foldl P.apply t) s'

structure Holds (P : Program α σ ω π ε) (J : σ → Session ω π → Prop)
    (X : Session ω π → Session ω π → Prop) (st : State n σ ω π) : Prop where
  committed : J st.committed P.fresh
  session : ∀ i, J st.committed (st.session i)
  apart : ∀ i j, i ≠ j → X (st.session i) (st.session j)

section
variable {ok : State n σ ω π → Event n α → State n σ ω π → Prop} {J : σ → Session ω π → Prop}
  {X : Session ω π → Session ω π → Prop}

theorem apart_set {s : Session ω π} (hsymm : ∀ s s', X s s' → X s' s)
    (h : ∀ j k, j ≠ k → X (st.session j) (st.session k)) (hs : ∀ j, j ≠ i → X s (st.session j)) :
    ∀ j k, j ≠ k → X ((st.set i s).session j) ((st.set i s).session k) := by
  intro j k hjk
  by_cases hj : j = i
  · subst hj
    rw [set_self, set_other hjk.symm]
    exact hs k hjk.symm
  · by_cases hk : k = i
    · subst hk
      rw [set_self, set_other hj]
      exact hsymm _ _ (hs j hj)
    · rw [set_other hj, set_other hk]
      exact h j k hjk

theorem Rule.step {e : Event n α} (hrule : Rule n P ok J X) (h : Holds P J X st)
    (hs : Stepped P st e st') (hok : ok st e st') : Holds P J X st' := by
  cases hs with
  | @run i a ws q hst hfree =>
    obtain ⟨hnew, hapart⟩ := hrule.run st i a ws q h.session h.apart hst hfree hok
    refine ⟨h.committed, fun j => ?_, apart_set hrule.symm h.apart hapart⟩
    by_cases hj : j = i
    · rw [hj, set_self]
      exact hnew
    · rw [set_other hj]
      exact h.session j
  | @commit i hready =>
    have hcommit : ∀ s, J st.committed s → X (st.session i) s →
        J (P.view st i) s := fun s hs hx => hrule.commit _ _ s (h.session i) hs hx hready
    have hfresh : J (P.view st i) P.fresh :=
      hcommit _ h.committed (hrule.symm _ _ (hrule.apart _))
    refine ⟨hfresh, fun j => ?_, apart_set hrule.symm h.apart fun j _ => hrule.apart _⟩
    by_cases hj : j = i
    · rw [hj, commit_self]
      exact hfresh
    · rw [commit_other hj]
      exact hcommit _ (h.session j) (h.apart i j (Ne.symm hj))
  | @rollback i =>
    refine ⟨h.committed, fun j => ?_, apart_set hrule.symm h.apart fun j _ => hrule.apart _⟩
    by_cases hj : j = i
    · rw [hj, set_self]
      exact h.committed
    · rw [set_other hj]
      exact h.session j

theorem Rule.reachable {init : σ → Prop} (hrule : Rule n P ok J X)
    (hinit : ∀ t, init t → J t P.fresh) (h : ((P.system n init).within ok).Reachable st) :
    Holds P J X st := by
  induction h with
  | start hst =>
    refine ⟨hinit _ hst.1, fun i => ?_, fun i j _ => ?_⟩
    · rw [hst.2 i]
      exact hinit _ hst.1
    · rw [hst.2 i]
      exact hrule.apart _
  | next e _ hs ih => exact hrule.step ih (step_cases hs.1) hs.2

end

def Program.solo (P : Program α σ ω π ε) (t : σ) : List α → Session ω π → Except ε (Session ω π)
  | [], s => .ok s
  | a :: as, s =>
    match P.statement a s.point (s.log.foldl P.apply t) with
    | .error e => .error e
    | .ok (ws, q) => P.solo t as ⟨s.log ++ ws, q⟩

def Program.runs (P : Program α σ ω π ε) (ok : State n σ ω π → Event n α → State n σ ω π → Prop)
    [∀ st e st', Decidable (ok st e st')] :
    State n σ ω π → List (Event n α) → Option (State n σ ω π)
  | st, [] => some st
  | st, e :: es =>
    match P.step st e with
    | none => none
    | some st' => if ok st e st' then P.runs ok st' es else none

theorem runs_reachable {ok : State n σ ω π → Event n α → State n σ ω π → Prop}
    [∀ st e st', Decidable (ok st e st')] {init : σ → Prop} {es : List (Event n α)}
    (hst : ((P.system n init).within ok).Reachable st) (h : P.runs ok st es = some st') :
    ((P.system n init).within ok).Reachable st' := by
  induction es generalizing st with
  | nil =>
    cases h
    exact hst
  | cons e es ih =>
    unfold Program.runs at h
    split at h
    · cases h
    · rename_i mid hmid
      split at h
      · rename_i hok
        exact ih (.next e hst ⟨hmid, hok⟩) h
      · cases h

theorem runs_append {ok : State n σ ω π → Event n α → State n σ ω π → Prop}
    [∀ st e st', Decidable (ok st e st')] {es es' : List (Event n α)} {mid : State n σ ω π}
    (h : P.runs ok st es = some mid) : P.runs ok st (es ++ es') = P.runs ok mid es' := by
  induction es generalizing st with
  | nil =>
    cases h
    rfl
  | cons e es ih =>
    rw [Program.runs] at h
    rw [List.cons_append, Program.runs]
    split at h
    · cases h
    · split at h
      · rename_i hok
        simpa [hok] using ih h
      · cases h

theorem solo_cons {t : σ} {a : α} {as : List α} {s : Session ω π} {ws : List ω} {q : π}
    (h : P.statement a s.point (s.log.foldl P.apply t) = .ok (ws, q)) :
    P.solo t (a :: as) s = P.solo t as ⟨s.log ++ ws, q⟩ := by
  rw [Program.solo, h]

theorem solo_append {t : σ} {as bs : List α} {s s' : Session ω π}
    (h : P.solo t as s = .ok s') : P.solo t (as ++ bs) s = P.solo t bs s' := by
  induction as generalizing s with
  | nil =>
    cases h
    rfl
  | cons a as ih =>
    rw [Program.solo] at h
    split at h
    · cases h
    · rename_i ws q hst
      rw [List.cons_append, solo_cons hst]
      exact ih h

/-- What a transaction does alone is a run, when no other holds a lock. -/
theorem runs_solo {as : List α} {s : Session ω π}
    (hidle : ∀ j, j ≠ i → (st.session j).log = [])
    (h : P.solo st.committed as (st.session i) = .ok s) :
    P.runs (fun _ _ _ => True) st (as.map (.run i)) = some (st.set i s) := by
  induction as generalizing st with
  | nil =>
    cases h
    simp [Program.runs, State.set]
  | cons a as ih =>
    unfold Program.solo at h
    split at h
    · cases h
    · rename_i ws q hst
      have hfree : ¬ P.Blocked st i ws := by
        rintro ⟨j, hj, w, -, w', hw', -⟩
        simp [hidle j hj] at hw'
      have hstep : P.step st (.run i a) = some (st.set i ⟨(st.session i).log ++ ws, q⟩) := by
        simp [Program.step, Program.view, hst, hfree]
      have hrest := @ih (st.set i ⟨(st.session i).log ++ ws, q⟩)
        (fun j hj => by rw [set_other hj]; exact hidle j hj) (by simpa using h)
      simpa [Program.runs, hstep, State.set] using hrest

theorem runs_alone {as : List α} {s : Session ω π} (hst : ∀ j, st.session j = P.fresh)
    (h : P.solo st.committed as P.fresh = .ok s) (hready : P.ready s.point = true) :
    P.runs (fun _ _ _ => True) st (as.map (.run i) ++ [.commit i]) =
      some ⟨s.log.foldl P.apply st.committed, st.session⟩ := by
  rw [← hst i] at h
  rw [runs_append (runs_solo (fun j _ => by rw [hst j]; rfl) h)]
  have hview : P.view (st.set i s) i = s.log.foldl P.apply st.committed := by
    simp [Program.view]
  have hsession : (P.commit (st.set i s) i).session = st.session := by
    funext j
    by_cases hj : j = i
    · rw [hj, commit_self, hst]
    · rw [commit_other hj, set_other hj]
  have hcommit : P.commit (st.set i s) i = ⟨s.log.foldl P.apply st.committed, st.session⟩ := by
    rw [← hsession, ← hview]
    rfl
  simp [Program.runs, Program.step, hready, hcommit]

end

end ReadCommitted
