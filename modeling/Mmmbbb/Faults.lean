import Mmmbbb.Threads
import Mmmbbb.Programs
import Mmmbbb.KeyedRows
import Mathlib.Data.List.AList

/-!
# Injected faults

A set of faults is checked, added to and pruned by any number of calls at
once. A call takes one atomic step at a time: it reads or decrements one
counter, or does what it does to the map while it holds the lock.
-/

set_option autoImplicit false

namespace Mmmbbb.Faults
open KeyedRows Programs Threads

abbrev Parameters := AList (fun _ : String => String)

structure Description where
  operation : String
  parameters : Parameters
  count : ℤ
  faultDescription : String

def Description.fits (d : Description) (op : String) (params : Parameters) : Bool :=
  decide (d.operation = op) &&
    d.parameters.entries.all (fun e => decide (params.lookup e.1 = some e.2))

structure Fault extends Description where
  initial : ℤ

def Fault.isMatch (d : Fault) (op : String) (params : Parameters) : Bool :=
  decide (0 < d.count) && d.fits op params

def Fault.decrement (d : Fault) : Fault := { d with count := d.count - 1 }

/-- Where `Check` is: before `match`, in its loop with the faults still to
look at, past it, past the decrement, past `OnFault`, and done. -/
inductive CheckAt
  | matching
  | scanning (rest : List ℕ)
  | matched (d : ℕ)
  | firing (d : ℕ) (remaining : ℤ)
  | ran (err : Option String)
  | passed
  | returned (err : Option String)

/-- Where `prune` is: the operations still to visit, and within one of them
the faults kept and those still to look at. -/
inductive PruneAt
  | waiting
  | sweeping (ops : List String)
  | visiting (op : String) (kept rest : List ℕ) (ops : List String)
  | done

inductive Call
  | check (op : String) (params : Parameters) (prune : Bool) (here : CheckAt)
  | prune (here : PruneAt)
  | add (d : Description)
  | added

def Call.mode : Call → Mode
  | .check _ _ _ (.scanning _) => .reading
  | .prune (.sweeping _) | .prune (.visiting _ _ _ _) => .writing
  | _ => .outside

structure Firing where
  call : ℕ
  fault : ℕ
  count : ℤ

structure State where
  heap : List Fault
  faults : AList (fun _ : String => List ℕ)
  calls : List Call
  fired : List Firing

def State.list (s : State) (op : String) : List ℕ := (s.faults.lookup op).getD []

structure Choice where
  order : ScanOrder String
  err : Option String

def State.goto (s : State) (i : ℕ) (c : Call) : State := { s with calls := s.calls.set i c }

def checkStep (s : State) (i : ℕ) (choice : Choice) (op : String) (params : Parameters)
    (prune : Bool) : CheckAt → Option State
  | .matching =>
    if MayRead Call.mode s.calls then
      some (s.goto i (.check op params prune (.scanning (s.list op))))
    else none
  | .scanning [] => some (s.goto i (.check op params prune .passed))
  | .scanning (d :: rest) => do
    let f ← s.heap[d]?
    if f.isMatch op params then some (s.goto i (.check op params prune (.matched d)))
    else some (s.goto i (.check op params prune (.scanning rest)))
  | .matched d => do
    let f ← s.heap[d]?
    let remaining := f.count - 1
    let s := { s with heap := s.heap.set d f.decrement }
    -- lost a race against another decrement: once more from the start
    if remaining < 0 then some (s.goto i (.check op params true .matching))
    else some (s.goto i (.check op params (prune || remaining ≤ 0) (.firing d remaining)))
  | .firing d remaining =>
    some { s.goto i (.check op params prune (.ran choice.err)) with
      fired := s.fired ++ [⟨i, d, remaining⟩] }
  | .ran err =>
    let s := s.goto i (.check op params prune (.returned err))
    some { s with calls := s.calls ++ (if prune then [.prune .waiting] else []) }
  | .passed => none
  | .returned _ => none

def store (faults : AList (fun _ : String => List ℕ)) (op : String) (kept : List ℕ) :
    AList (fun _ : String => List ℕ) :=
  if kept = [] then faults.erase op else faults.insert op kept

def pruneStep (s : State) (i : ℕ) (choice : Choice) : PruneAt → Option State
  | .waiting =>
    if MayWrite Call.mode s.calls then
      some (s.goto i (.prune (.sweeping (choice.order.run s.faults.keys))))
    else none
  | .sweeping [] => some (s.goto i (.prune .done))
  | .sweeping (op :: ops) => some (s.goto i (.prune (.visiting op [] (s.list op) ops)))
  | .visiting op kept (d :: rest) ops => do
    let f ← s.heap[d]?
    let kept := if 0 < f.count then kept ++ [d] else kept
    some (s.goto i (.prune (.visiting op kept rest ops)))
  | .visiting op kept [] ops =>
    some { s.goto i (.prune (.sweeping ops)) with faults := store s.faults op kept }
  | .done => none

def addStep (s : State) (i : ℕ) (d : Description) : Option State :=
  if MayWrite Call.mode s.calls then
    let l := s.list d.operation
    let new := s.heap.length
    some { s.goto i .added with
      heap := s.heap ++ [⟨d, d.count⟩]
      faults := s.faults.insert d.operation (if l = [] then [new] else l ++ [new]) }
  else none

def Call.step (s : State) (i : ℕ) (choice : Choice) : Call → Option State
  | .check op params toPrune here => checkStep s i choice op params toPrune here
  | .prune here => pruneStep s i choice here
  | .add d => addStep s i d
  | .added => none

inductive Request
  | check (op : String) (params : Parameters)
  | prune
  | add (d : Description)

def Request.start : Request → Call
  | .check op params => .check op params false .matching
  | .prune => .prune .waiting
  | .add d => .add d

/-- A call comes in, or one of those under way takes a step. -/
inductive Event
  | call (r : Request)
  | advance (i : ℕ) (choice : Choice)

def step (s : State) : Event → Option State
  | .call r => some { s with calls := s.calls ++ [r.start] }
  | .advance i choice => do
    let c ← s.calls[i]?
    c.step s i choice

def initial : State := ⟨[], ∅, [], []⟩

def faults : System State Event where
  init s := s = initial
  step s e s' := step s e = some s'

theorem list_insert {s s' : State} {op : String} {l : List ℕ}
    (h : s'.faults = s.faults.insert op l) (op' : String) :
    s'.list op' = if op' = op then l else s.list op' := by
  unfold State.list
  rw [h]
  by_cases hop : op' = op
  · subst hop
    simp [AList.lookup_insert]
  · simp [AList.lookup_insert_ne hop, hop]

theorem list_insert_append {s s' : State} {op : String} {new : List ℕ}
    (h : s'.faults = s.faults.insert op (s.list op ++ new)) (op' : String) :
    s.list op' <+: s'.list op' := by
  rw [list_insert h op']
  split
  · rename_i heq
    subst heq
    exact List.prefix_append _ _
  · exact List.prefix_refl _

theorem list_store {s s' : State} {op : String} {kept : List ℕ}
    (h : s'.faults = store s.faults op kept) (op' : String) :
    s'.list op' = if op' = op then kept else s.list op' := by
  unfold store at h
  split at h
  · rename_i hk
    unfold State.list
    rw [h]
    by_cases hop : op' = op
    · subst hop
      simp [AList.lookup_erase, hk]
    · simp [AList.lookup_erase_ne hop, hop]
  · exact list_insert h op'

inductive Takes (s : State) (i : ℕ) : Call → Call → State → Prop
  | start {op : String} {params : Parameters} {prune : Bool} (hfree : MayRead Call.mode s.calls) :
      Takes s i (.check op params prune .matching) (.check op params prune (.scanning (s.list op)))
        (s.goto i (.check op params prune (.scanning (s.list op))))
  | pass {op : String} {params : Parameters} {prune : Bool} :
      Takes s i (.check op params prune (.scanning [])) (.check op params prune .passed)
        (s.goto i (.check op params prune .passed))
  | hit {op : String} {params : Parameters} {prune : Bool} {d : ℕ} {rest : List ℕ} {f : Fault}
      (hf : s.heap[d]? = some f) (hpos : 0 < f.count) (hfits : f.fits op params = true) :
      Takes s i (.check op params prune (.scanning (d :: rest)))
        (.check op params prune (.matched d)) (s.goto i (.check op params prune (.matched d)))
  | miss {op : String} {params : Parameters} {prune : Bool} {d : ℕ} {rest : List ℕ} {f : Fault}
      (hf : s.heap[d]? = some f) (hno : f.fits op params = true → f.count ≤ 0) :
      Takes s i (.check op params prune (.scanning (d :: rest)))
        (.check op params prune (.scanning rest))
        (s.goto i (.check op params prune (.scanning rest)))
  | lose {op : String} {params : Parameters} {prune : Bool} {d : ℕ} {f : Fault}
      (hf : s.heap[d]? = some f) (hspent : f.count ≤ 0) :
      Takes s i (.check op params prune (.matched d)) (.check op params true .matching)
        { s.goto i (.check op params true .matching) with heap := s.heap.set d f.decrement }
  | win {op : String} {params : Parameters} {prune prune' : Bool} {d : ℕ} {f : Fault}
      (hf : s.heap[d]? = some f) (hpos : 0 < f.count)
      (hprune : prune' = (prune || decide (f.count - 1 ≤ 0))) :
      Takes s i (.check op params prune (.matched d))
        (.check op params prune' (.firing d (f.count - 1)))
        { s.goto i (.check op params prune' (.firing d (f.count - 1))) with
          heap := s.heap.set d f.decrement }
  | fire {op : String} {params : Parameters} {prune : Bool} {d : ℕ} {remaining : ℤ}
      {err : Option String} :
      Takes s i (.check op params prune (.firing d remaining)) (.check op params prune (.ran err))
        { s.goto i (.check op params prune (.ran err)) with
          fired := s.fired ++ [⟨i, d, remaining⟩] }
  | leave {op : String} {params : Parameters} {err : Option String} :
      Takes s i (.check op params false (.ran err)) (.check op params false (.returned err))
        (s.goto i (.check op params false (.returned err)))
  | leavePruning {op : String} {params : Parameters} {err : Option String} :
      Takes s i (.check op params true (.ran err)) (.check op params true (.returned err))
        { s with calls := s.calls.set i (.check op params true (.returned err)) ++
          [.prune .waiting] }
  | lock {ops : List String} (hfree : MayWrite Call.mode s.calls) :
      Takes s i (.prune .waiting) (.prune (.sweeping ops)) (s.goto i (.prune (.sweeping ops)))
  | unlock : Takes s i (.prune (.sweeping [])) (.prune .done) (s.goto i (.prune .done))
  | visit {op : String} {ops : List String} :
      Takes s i (.prune (.sweeping (op :: ops))) (.prune (.visiting op [] (s.list op) ops))
        (s.goto i (.prune (.visiting op [] (s.list op) ops)))
  | keep {op : String} {kept rest : List ℕ} {ops : List String} {d : ℕ} {f : Fault}
      (hf : s.heap[d]? = some f) (hpos : 0 < f.count) :
      Takes s i (.prune (.visiting op kept (d :: rest) ops))
        (.prune (.visiting op (kept ++ [d]) rest ops))
        (s.goto i (.prune (.visiting op (kept ++ [d]) rest ops)))
  | drop {op : String} {kept rest : List ℕ} {ops : List String} {d : ℕ} {f : Fault}
      (hf : s.heap[d]? = some f) (hspent : f.count ≤ 0) :
      Takes s i (.prune (.visiting op kept (d :: rest) ops)) (.prune (.visiting op kept rest ops))
        (s.goto i (.prune (.visiting op kept rest ops)))
  | store {op : String} {kept : List ℕ} {ops : List String} :
      Takes s i (.prune (.visiting op kept [] ops)) (.prune (.sweeping ops))
        { s.goto i (.prune (.sweeping ops)) with faults := store s.faults op kept }
  | add {d : Description} (hfree : MayWrite Call.mode s.calls) :
      Takes s i (.add d) .added
        { s.goto i .added with
          heap := s.heap ++ [⟨d, d.count⟩]
          faults := s.faults.insert d.operation (s.list d.operation ++ [s.heap.length]) }

section
variable {s s' : State} {i : ℕ} {choice : Choice}

theorem checkStep_takes {op : String} {params : Parameters} {prune : Bool} {here : CheckAt}
    (h : checkStep s i choice op params prune here = some s') :
    ∃ c', Takes s i (.check op params prune here) c' s' := by
  cases here with
  | matching =>
    simp only [checkStep] at h
    split at h
    · rename_i hfree
      cases h
      exact ⟨_, .start hfree⟩
    · cases h
  | scanning rest =>
    cases rest with
    | nil =>
      cases h
      exact ⟨_, .pass⟩
    | cons d rest =>
      obtain ⟨f, hf, h⟩ := Option.bind_eq_some_iff.mp h
      split at h
      · rename_i hmatch
        cases h
        obtain ⟨hpos, hfits⟩ := Bool.and_eq_true_iff.mp hmatch
        exact ⟨_, .hit hf (of_decide_eq_true hpos) hfits⟩
      · rename_i hmatch
        cases h
        refine ⟨_, .miss hf fun hfits => ?_⟩
        simp only [Fault.isMatch, hfits, Bool.and_true, decide_eq_true_eq] at hmatch
        omega
  | matched d =>
    obtain ⟨f, hf, h⟩ := Option.bind_eq_some_iff.mp h
    dsimp only at h
    split at h
    · rename_i hlost
      cases h
      exact ⟨_, .lose hf (by omega)⟩
    · rename_i hwon
      cases h
      exact ⟨_, .win hf (by omega) rfl⟩
  | firing d remaining =>
    cases h
    exact ⟨_, .fire⟩
  | ran err =>
    cases prune with
    | true =>
      cases h
      exact ⟨_, .leavePruning⟩
    | false =>
      simp only [checkStep, Bool.false_eq_true, if_false, List.append_nil] at h
      cases h
      exact ⟨_, .leave⟩
  | passed => cases h
  | returned err => cases h

theorem pruneStep_takes {here : PruneAt} (h : pruneStep s i choice here = some s') :
    ∃ c', Takes s i (.prune here) c' s' := by
  cases here with
  | waiting =>
    simp only [pruneStep] at h
    split at h
    · rename_i hfree
      cases h
      exact ⟨_, .lock hfree⟩
    · cases h
  | sweeping ops =>
    cases ops with
    | nil =>
      cases h
      exact ⟨_, .unlock⟩
    | cons op ops =>
      cases h
      exact ⟨_, .visit⟩
  | visiting op kept rest ops =>
    cases rest with
    | nil =>
      cases h
      exact ⟨_, .store⟩
    | cons d rest =>
      obtain ⟨f, hf, h⟩ := Option.bind_eq_some_iff.mp h
      by_cases hpos : 0 < f.count
      · rw [if_pos hpos] at h
        cases h
        exact ⟨_, .keep hf hpos⟩
      · rw [if_neg hpos] at h
        cases h
        exact ⟨_, .drop hf (by omega)⟩
  | done => cases h

theorem addStep_takes {d : Description} (h : addStep s i d = some s') :
    ∃ c', Takes s i (.add d) c' s' := by
  unfold addStep at h
  split at h
  · rename_i hfree
    have hnew : (if s.list d.operation = [] then [s.heap.length]
        else s.list d.operation ++ [s.heap.length]) = s.list d.operation ++ [s.heap.length] := by
      split
      · rename_i he
        rw [he]
        rfl
      · rfl
    dsimp only at h
    rw [hnew] at h
    cases h
    exact ⟨_, .add hfree⟩
  · cases h

theorem advance_takes (h : step s (.advance i choice) = some s') :
    ∃ c c', s.calls[i]? = some c ∧ Takes s i c c' s' := by
  obtain ⟨c, hc, h⟩ := Option.bind_eq_some_iff.mp h
  cases c with
  | check op params prune here =>
    obtain ⟨c', ht⟩ := checkStep_takes h
    exact ⟨_, c', hc, ht⟩
  | prune here =>
    obtain ⟨c', ht⟩ := pruneStep_takes h
    exact ⟨_, c', hc, ht⟩
  | add d =>
    obtain ⟨c', ht⟩ := addStep_takes h
    exact ⟨_, c', hc, ht⟩
  | added => cases h

theorem step_takes {e : Event} (h : step s e = some s') :
    (∃ r : Request, s' = { s with calls := s.calls ++ [r.start] }) ∨
      ∃ i choice c c', e = .advance i choice ∧ s.calls[i]? = some c ∧ Takes s i c c' s' := by
  cases e with
  | call r =>
    cases h
    exact Or.inl ⟨r, rfl⟩
  | advance i choice =>
    obtain ⟨c, c', hc, ht⟩ := advance_takes h
    exact Or.inr ⟨i, choice, c, c', rfl, hc, ht⟩

theorem takes_self {c c' : Call} (hc : s.calls[i]? = some c) (h : Takes s i c c' s') :
    s'.calls[i]? = some c' := by
  have hi : i < s.calls.length := (List.getElem?_eq_some_iff.mp hc).1
  have hset : ∀ b : Call, (s.calls.set i b)[i]? = some b := fun b => List.getElem?_set_self hi
  cases h with
  | leavePruning => rw [List.getElem?_append_left (by simpa using hi), hset]
  | _ => exact hset _

end

end Mmmbbb.Faults
