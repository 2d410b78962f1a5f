import Mmmbbb.Sharing

/-!
# Transactions of requests

A handler that wraps the handlers after it in a transaction: committed when
they leave no error and do not abort, rolled back otherwise, and rolled back in
a deferred call when they panic. That call goes by a variable that all
requests of the handler share, and that nothing ever resets.
-/

set_option autoImplicit false

namespace Mmmbbb.RequestTx
open Programs Sharing

structure TxOptions where
  isolation : ℕ
  readOnly : Bool
  deriving DecidableEq

structure HTTPRequest where
  method : String

abbrev TransactionControl := HTTPRequest → TxOptions → Bool × TxOptions

structure Handler where
  opts : Option TxOptions
  controls : List TransactionControl

def applyControls (req : HTTPRequest) : List TransactionControl → TxOptions → Option TxOptions
  | [], txOpts => some txOpts
  | control :: controls, txOpts =>
    if (control req txOpts).1 then applyControls req controls (control req txOpts).2 else none

/-- The controls see a copy of the options. -/
def Handler.txOptions (h : Handler) (req : HTTPRequest) : Option TxOptions :=
  applyControls req h.controls (h.opts.getD ⟨0, false⟩)

def delaysHandler : Handler where
  opts := none
  controls := [fun req txOpts => (decide (req.method ≠ "GET"), txOpts)]

inductive Call
  | commit
  | rollback
  deriving DecidableEq

structure Handled where
  errors : List String
  aborted : Bool
  panicked : Bool
  deriving DecidableEq

inductive Point
  | absent
  | passed
  | refused
  | running
  | returned
  | completed
  | exiting
  | rolling
  | rolledBack
  | done
  deriving DecidableEq

/-- With the errors of its context, and what was called on its transaction. -/
structure Request where
  point : Point
  txOpts : Option TxOptions
  errors : List String
  aborted : Bool
  handled : Option Handled
  calls : List Call
  deriving DecidableEq

def Request.absent : Request := ⟨.absent, none, [], false, none, []⟩

inductive Step
  | begin (req : HTTPRequest) (fails : Bool)
  | next (o : Handled)
  | complete (err : Option String)
  | mark
  | deferred
  | rollback (err : Option String)

def begun (h : Handler) (req : HTTPRequest) (fails : Bool) : Request :=
  match h.txOptions req with
  | none => { Request.absent with point := .passed }
  | some txOpts =>
    if fails then { Request.absent with point := .refused }
    else { Request.absent with point := .running, txOpts := some txOpts }

/-- A step of a request with the shared variable; one that is not its turn does
nothing. -/
def act (h : Handler) (finishedTx : Bool) (q : Request) (e : Step) : Bool × Request :=
  match q.point, e with
  | .absent, .begin req fails => (finishedTx, begun h req fails)
  | .running, .next o =>
    (finishedTx, { q with
      point := if o.panicked then .exiting else .returned
      errors := q.errors ++ o.errors
      aborted := q.aborted || o.aborted
      handled := some o })
  | .returned, .complete err =>
    let call := if q.errors.length > 0 ∨ q.aborted then .rollback else .commit
    (finishedTx, { q with
      point := .completed
      errors := q.errors ++ err.toList
      calls := q.calls ++ [call] })
  | .completed, .mark => (true, { q with point := .exiting })
  | .exiting, .deferred => (finishedTx, { q with point := if finishedTx then .done else .rolling })
  | .rolling, .rollback err =>
    (finishedTx, { q with
      point := .rolledBack
      errors := q.errors ++ err.toList
      calls := q.calls ++ [.rollback] })
  | .rolledBack, .mark => (true, { q with point := .done })
  | _, _ => (finishedTx, q)

def initial : State Bool Request := ⟨false, fun _ => .absent⟩

def run (h : Handler) (es : List (ℕ × Step)) : State Bool Request :=
  es.foldl (after (act h)) initial

def Handled.verdict (o : Handled) : Call :=
  if o.panicked = false ∧ o.errors = [] ∧ o.aborted = false then .commit else .rollback

/-- At no time more than one call, and in the end the right one. -/
def FinishedOnce (q : Request) : Prop :=
  q.calls.length ≤ 1 ∧ (q.point = .done → ∃ o, q.handled = some o ∧ q.calls = [o.verdict])

/-- The deferred call of a request that panics finds the variable unset. -/
def Unmasked (finishedTx : Bool) (q : Request) (e : Step) : Prop :=
  match q.point, e with
  | .exiting, .deferred => (∃ o, q.handled = some o ∧ o.panicked = true) → finishedTx = false
  | _, _ => True

def Tracked (finishedTx : Bool) (q : Request) : Prop :=
  match q.point with
  | .absent | .passed | .refused => q.calls = []
  | .running => q.calls = [] ∧ q.errors = [] ∧ q.aborted = false
  | .returned => q.calls = [] ∧
      ∃ o, q.handled = some o ∧ o.panicked = false ∧ q.errors = o.errors ∧ q.aborted = o.aborted
  | .completed => ∃ o, q.handled = some o ∧ o.panicked = false ∧ q.calls = [o.verdict]
  | .exiting => ∃ o, q.handled = some o ∧
      if o.panicked then q.calls = [] else q.calls = [o.verdict] ∧ finishedTx = true
  | .rolling => q.calls = [] ∧ ∃ o, q.handled = some o ∧ o.panicked = true
  | .rolledBack => ∃ o, q.handled = some o ∧ q.calls = [o.verdict]
  | .done => True

inductive Acts (h : Handler) (finishedTx : Bool) (q : Request) : Step → Bool × Request → Prop
  | idle (e : Step) : Unmasked finishedTx q e → Acts h finishedTx q e (finishedTx, q)
  | begin (req : HTTPRequest) (fails : Bool) : q.point = .absent →
      Acts h finishedTx q (.begin req fails) (finishedTx, begun h req fails)
  | next (o : Handled) : q.point = .running →
      Acts h finishedTx q (.next o) (finishedTx, { q with
        point := if o.panicked then .exiting else .returned
        errors := q.errors ++ o.errors
        aborted := q.aborted || o.aborted
        handled := some o })
  | complete (err : Option String) : q.point = .returned →
      Acts h finishedTx q (.complete err) (finishedTx, { q with
        point := .completed
        errors := q.errors ++ err.toList
        calls := q.calls ++ [if q.errors.length > 0 ∨ q.aborted then .rollback else .commit] })
  | mark : q.point = .completed → Acts h finishedTx q .mark (true, { q with point := .exiting })
  | deferred : q.point = .exiting →
      Acts h finishedTx q .deferred
        (finishedTx, { q with point := if finishedTx then .done else .rolling })
  | rollback (err : Option String) : q.point = .rolling →
      Acts h finishedTx q (.rollback err) (finishedTx, { q with
        point := .rolledBack
        errors := q.errors ++ err.toList
        calls := q.calls ++ [.rollback] })
  | leave : q.point = .rolledBack → Acts h finishedTx q .mark (true, { q with point := .done })

section
variable {h : Handler} {finishedTx : Bool} {q u : Request} {e : Step}

theorem act_acts (h : Handler) (finishedTx : Bool) (q : Request) (e : Step) :
    Acts h finishedTx q e (act h finishedTx q e) := by
  unfold act
  split
  · rename_i hpoint
    exact .begin _ _ hpoint
  · rename_i hpoint
    exact .next _ hpoint
  · rename_i hpoint
    exact .complete _ hpoint
  · rename_i hpoint
    exact .mark hpoint
  · rename_i hpoint
    exact .deferred hpoint
  · rename_i hpoint
    exact .rollback _ hpoint
  · rename_i hpoint
    exact .leave hpoint
  · rename_i hdeferred _ _
    refine .idle _ ?_
    unfold Unmasked
    split
    · exact (hdeferred (by assumption) rfl).elim
    · trivial

theorem begun_point (h : Handler) (req : HTTPRequest) (fails : Bool) :
    (begun h req fails).calls = [] ∧ (begun h req fails).errors = [] ∧
      (begun h req fails).aborted = false ∧
      ((begun h req fails).point = .passed ∨ (begun h req fails).point = .refused ∨
        (begun h req fails).point = .running) := by
  unfold begun
  cases h.txOptions req with
  | none => simp [Request.absent]
  | some txOpts => cases fails <;> simp [Request.absent]

theorem act_shared (h : Handler) (finishedTx : Bool) (q : Request) (e : Step) :
    (act h finishedTx q e).1 = finishedTx ∨ (act h finishedTx q e).1 = true := by
  have hact := act_acts h finishedTx q e
  generalize act h finishedTx q e = r at hact ⊢
  cases hact <;> simp

theorem Tracked.set (hu : Tracked finishedTx u) : Tracked true u := by
  unfold Tracked at hu ⊢
  cases hpoint : u.point <;> simp only [hpoint] at hu ⊢ <;> try exact hu
  obtain ⟨o, ho, hcalls⟩ := hu
  refine ⟨o, ho, ?_⟩
  cases hpanicked : o.panicked with
  | false =>
    rw [hpanicked] at hcalls
    exact ⟨hcalls.1, trivial⟩
  | true =>
    rw [hpanicked] at hcalls
    exact hcalls

theorem Tracked.others (hu : Tracked finishedTx u) (h : Handler) (q : Request) (e : Step) :
    Tracked (act h finishedTx q e).1 u := by
  rcases act_shared h finishedTx q e with hsame | hset
  · rw [hsame]
    exact hu
  · rw [hset]
    exact hu.set

theorem tracked_act (hq : Tracked finishedTx q) :
    Tracked (act h finishedTx q e).1 (act h finishedTx q e).2 := by
  have hact := act_acts h finishedTx q e
  generalize act h finishedTx q e = r at hact ⊢
  cases hact with
  | idle => exact hq
  | begin req fails =>
    obtain ⟨hcalls, herrors, haborted, hpoint⟩ := begun_point h req fails
    rcases hpoint with hpoint | hpoint | hpoint
    · simpa only [Tracked, hpoint] using hcalls
    · simpa only [Tracked, hpoint] using hcalls
    · simpa only [Tracked, hpoint] using ⟨hcalls, herrors, haborted⟩
  | next o hpoint =>
    simp only [Tracked, hpoint] at hq
    obtain ⟨hcalls, herrors, haborted⟩ := hq
    cases hpanicked : o.panicked with
    | false => simp [Tracked, hpanicked, hcalls, herrors, haborted]
    | true => simp [Tracked, hpanicked, hcalls]
  | complete err hpoint =>
    simp only [Tracked, hpoint] at hq
    obtain ⟨hcalls, o, ho, hpanicked, herrors, haborted⟩ := hq
    refine ⟨o, ho, hpanicked, ?_⟩
    rw [hcalls, herrors, haborted]
    by_cases hempty : o.errors = [] <;> cases ha : o.aborted <;>
      simp [Handled.verdict, hpanicked, hempty, ha, List.length_pos_iff]
  | mark hpoint =>
    simp only [Tracked, hpoint] at hq
    obtain ⟨o, ho, hpanicked, hcalls⟩ := hq
    refine ⟨o, ho, ?_⟩
    simpa [hpanicked] using hcalls
  | deferred hpoint =>
    simp only [Tracked, hpoint] at hq
    obtain ⟨o, ho, hcalls⟩ := hq
    cases finishedTx with
    | true => trivial
    | false =>
      cases hpanicked : o.panicked with
      | false => simp [hpanicked] at hcalls
      | true =>
        simp only [hpanicked, if_true] at hcalls
        exact ⟨hcalls, o, ho, hpanicked⟩
  | rollback err hpoint =>
    simp only [Tracked, hpoint] at hq
    obtain ⟨hcalls, o, ho, hpanicked⟩ := hq
    refine ⟨o, ho, ?_⟩
    simp [hcalls, Handled.verdict, hpanicked]
  | leave hpoint => trivial

theorem finishedOnce_deferred_iff (hpoint : q.point = .exiting) (hq : Tracked finishedTx q)
    (hf : FinishedOnce q) :
    FinishedOnce { q with point := if finishedTx then .done else .rolling } ↔
      ((∃ o, q.handled = some o ∧ o.panicked = true) → finishedTx = false) := by
  simp only [Tracked, hpoint] at hq
  obtain ⟨o, ho, hcalls⟩ := hq
  constructor
  · rintro hfinished ⟨o', ho', hpanicked⟩
    obtain rfl := Option.some.inj (ho.symm.trans ho')
    by_contra hset
    rw [Bool.not_eq_false] at hset
    obtain ⟨o', -, hcalls'⟩ := hfinished.2 (by simp [hset])
    rw [hpanicked, if_pos rfl] at hcalls
    simp [hcalls] at hcalls'
  · intro hunset
    refine ⟨hf.1, fun hdone => ⟨o, ho, ?_⟩⟩
    cases hpanicked : o.panicked with
    | false =>
      rw [hpanicked] at hcalls
      exact hcalls.1
    | true =>
      rw [hunset ⟨o, ho, hpanicked⟩] at hdone
      cases hdone

/-- A step finishes its request once exactly when it does not take a panic for
a request that is finished. -/
theorem finishedOnce_act_iff (hq : Tracked finishedTx q) (hf : FinishedOnce q) :
    FinishedOnce (act h finishedTx q e).2 ↔ Unmasked finishedTx q e := by
  have hact := act_acts h finishedTx q e
  generalize act h finishedTx q e = r at hact ⊢
  cases hact with
  | idle _ hunmasked => exact iff_of_true hf hunmasked
  | begin req fails hpoint =>
    obtain ⟨hcalls, -, -, hbegun⟩ := begun_point h req fails
    refine iff_of_true ⟨by simp [hcalls], fun hdone => ?_⟩ (by simp [Unmasked, hpoint])
    rcases hbegun with hpassed | hrefused | hrunning
    · cases hpassed.symm.trans hdone
    · cases hrefused.symm.trans hdone
    · cases hrunning.symm.trans hdone
  | next o hpoint =>
    refine iff_of_true ⟨hf.1, fun hdone => ?_⟩ (by simp [Unmasked, hpoint])
    cases hpanicked : o.panicked <;> simp [hpanicked] at hdone
  | complete err hpoint =>
    simp only [Tracked, hpoint] at hq
    refine iff_of_true ⟨by simp [hq.1], fun hdone => ?_⟩ (by simp [Unmasked, hpoint])
    cases hdone
  | mark hpoint =>
    refine iff_of_true ⟨hf.1, fun hdone => ?_⟩ (by simp [Unmasked, hpoint])
    cases hdone
  | deferred hpoint =>
    simp only [Unmasked, hpoint]
    exact finishedOnce_deferred_iff hpoint hq hf
  | rollback err hpoint =>
    simp only [Tracked, hpoint] at hq
    refine iff_of_true ⟨by simp [hq.1], fun hdone => ?_⟩ (by simp [Unmasked, hpoint])
    cases hdone
  | leave hpoint =>
    simp only [Tracked, hpoint] at hq
    exact iff_of_true ⟨hf.1, fun _ => hq⟩ (by simp [Unmasked, hpoint])

def Served (finishedTx : Bool) (q : Request) : Prop := Tracked finishedTx q ∧ FinishedOnce q

theorem served_act_iff (hq : Served finishedTx q) :
    Served (act h finishedTx q e).1 (act h finishedTx q e).2 ↔ Unmasked finishedTx q e := by
  rw [← finishedOnce_act_iff (h := h) hq.1 hq.2]
  exact and_iff_right (tracked_act hq.1)

theorem initial_tracked : All Tracked initial := fun _ => rfl

theorem initial_finishedOnce (r : ℕ) : FinishedOnce (initial.own r) := by
  refine ⟨by simp [initial, Request.absent], fun hdone => ?_⟩
  cases hdone

/-- All through a run of requests in any order, each is finished once and as it
should be, exactly when none panics after another has set the variable. -/
theorem finished_once_iff (h : Handler) (es : List (ℕ × Step)) :
    (∀ pre, pre <+: es → ∀ r, FinishedOnce ((run h pre).own r)) ↔
      Throughout (after (act h)) (fun st e _ => Unmasked st.shared (st.own e.1) e.2)
        initial es := by
  have htracked : ∀ pre, All Tracked (run h pre) :=
    fun pre => all_invariant (fun s t e ht => tracked_act ht) (fun s t e u _ hu => hu.others h t e)
      initial_tracked pre
  have hserved : (∀ pre, pre <+: es → All Served (run h pre)) ↔
      Throughout (after (act h)) (fun st e _ => Unmasked st.shared (st.own e.1) e.2) initial es :=
    all_throughout_iff (fun s t e ht => served_act_iff ht)
      (fun s t e u _ hu => ⟨hu.1.others h t e, hu.2⟩)
      (fun r => ⟨initial_tracked r, initial_finishedOnce r⟩) es
  rw [← hserved]
  refine forall₂_congr fun pre _ => ?_
  exact ⟨fun hf r => ⟨htracked pre r, hf r⟩, fun hf r => (hf r).2⟩

def serving (req : HTTPRequest) (o : Handled) : List Step :=
  [.begin req false, .next o, .complete none, .mark, .deferred, .rollback none, .mark]

def serve (r : ℕ) (req : HTTPRequest) (o : Handled) : List (ℕ × Step) :=
  (serving req o).map (r, ·)

end

def afterOne : List (ℕ × Step) :=
  serve 1 ⟨"PUT"⟩ ⟨[], false, false⟩ ++ serve 2 ⟨"PUT"⟩ ⟨[], false, true⟩

/-- The second request is over, and nothing was called on its transaction. -/
theorem panic_leaks :
    ((run delaysHandler afterOne).own 1).calls = [.commit] ∧
      ((run delaysHandler afterOne).own 2).point = .done ∧
      ((run delaysHandler afterOne).own 2).txOpts = some ⟨0, false⟩ ∧
      ((run delaysHandler afterOne).own 2).calls = [] ∧
      ¬∀ pre, pre <+: afterOne → ∀ r, FinishedOnce ((run delaysHandler pre).own r) := by
  have hdone : ((run delaysHandler afterOne).own 2).point = .done := by decide
  have hcalls : ((run delaysHandler afterOne).own 2).calls = [] := by decide
  refine ⟨by decide, hdone, by decide, hcalls, fun hall => ?_⟩
  obtain ⟨o, -, ho⟩ := (hall afterOne List.prefix_rfl 2).2 hdone
  rw [hcalls] at ho
  cases ho

end Mmmbbb.RequestTx
