import Mmmbbb.Handlers
import Mmmbbb.Streaming

/-!
# The connection of a streaming pull

A receive hands over the first request at once. For every other one a goroutine
of its own receives from the stream and passes on what it gets over a channel,
or drops it when the connection has been closed.
-/

set_option autoImplicit false

namespace Mmmbbb.StreamWrapper
open Programs Mmmbbb.Schema Mmmbbb.Database Mmmbbb.Delivering Mmmbbb.Listing Mmmbbb.Handlers
open Mmmbbb.Streaming (FlowControl MessageStreamRequest)

structure PbStreamingPullRequest where
  ackIds : List String
  modifyDeadlineSeconds : List Int32
  modifyDeadlineAckIds : List String
  maxOutstandingMessages : Int64
  maxOutstandingBytes : Int64
  deriving DecidableEq

def maxInt : Int64 := Int64.maxValue

def effectiveLimit (fallback : ℤ) (given : Int64) : ℤ :=
  if maxInt < given then maxInt.toInt else if given.toInt ≤ 0 then fallback else given.toInt

def effectiveFlowControl (maxMessages maxBytes : Int64) : FlowControl :=
  ⟨effectiveLimit 1000 maxMessages, effectiveLimit (10 * 1024 * 1024) maxBytes⟩

def delaySeconds (seconds : List Int32) : ℤ :=
  seconds.foldl (fun most d => if most < d.toInt then d.toInt else most) 0

def parseIDs (text : UUIDText) (ids : List String) : Except Error (List UUID) :=
  if ids ≠ [] then uuidsFromStrings text ids else pure []

def adaptIn (text : UUIDText) (initial : Bool) (m : PbStreamingPullRequest) :
    Except Error MessageStreamRequest := do
  let ack ← parseIDs text m.ackIds
  failWhen (m.modifyDeadlineSeconds.length ≠ m.modifyDeadlineAckIds.length) (.invalidArgument
    "Must have same len for ModifyDeadlineSeconds and ModifyDeadlineAckIds")
  let delay ← parseIDs text m.modifyDeadlineAckIds
  pure {
    flowControl := if initial then
        some (effectiveFlowControl m.maxOutstandingMessages m.maxOutstandingBytes)
      else none
    ack := ack
    nack := []
    delay := delay
    delayFor := if m.modifyDeadlineAckIds ≠ [] then
        delaySeconds m.modifyDeadlineSeconds * second
      else 0 }

theorem effectiveLimit_pos {fallback : ℤ} (h : 0 < fallback) (given : Int64) :
    0 < effectiveLimit fallback given := by
  unfold effectiveLimit
  split
  · decide
  · split
    · exact h
    · omega

theorem adaptIn_flowControl {text : UUIDText} {initial : Bool} {m : PbStreamingPullRequest}
    {msg : MessageStreamRequest} (h : adaptIn text initial m = .ok msg) :
    msg.flowControl = if initial then
        some (effectiveFlowControl m.maxOutstandingMessages m.maxOutstandingBytes)
      else none := by
  unfold adaptIn at h
  obtain ⟨ack, -, h⟩ := bind_ok.mp h
  obtain ⟨-, -, h⟩ := bind_ok.mp h
  obtain ⟨delay, -, h⟩ := bind_ok.mp h
  rw [← pure_ok.mp h]

inductive Item
  | request (m : PbStreamingPullRequest)
  | error
  deriving DecidableEq

/-- A goroutine of a receive; `r` is whether the channel it has read is there. -/
inductive Goroutine
  | started
  | receiving (r : Bool)
  | notifying (r : Bool) (item : Item)
  deriving DecidableEq

def Goroutine.request : Goroutine → Option PbStreamingPullRequest
  | .notifying _ (.request m) => some m
  | _ => none

inductive Caller
  | idle
  | called
  | waiting (r : Bool)
  | failed
  deriving DecidableEq

structure State where
  initial : Option PbStreamingPullRequest
  closed : Bool
  receives : Bool
  goroutines : List Goroutine
  caller : Caller
  inbox : List PbStreamingPullRequest
  sent : List PbStreamingPullRequest
  /-- The requests that have been handed over, and what they were handed over as. -/
  taken : List PbStreamingPullRequest
  returned : List MessageStreamRequest
  /-- A request that was dropped, or could not be adapted. -/
  lost : List PbStreamingPullRequest

def opened (initial : PbStreamingPullRequest) : State where
  initial := some initial
  closed := false
  receives := true
  goroutines := []
  caller := .idle
  inbox := []
  sent := [initial]
  taken := []
  returned := []
  lost := []

inductive Step
  | send (m : PbStreamingPullRequest)
  | first
  | call
  | channel
  | start (k : ℕ)
  | recv (k : ℕ)
  | fail (k : ℕ)
  | notify (k : ℕ)
  | abandon (k : ℕ)
  | cancel
  | close
  | reset

def State.adapted (text : UUIDText) (st : State) (initial : Bool) (m : PbStreamingPullRequest) :
    State :=
  match adaptIn text initial m with
  | .ok msg => { st with
      caller := .idle
      taken := st.taken ++ [m]
      returned := st.returned ++ [msg] }
  | .error _ => { st with caller := .failed, lost := st.lost ++ [m] }

def step (text : UUIDText) (st : State) : Step → Option State
  | .send m => some { st with inbox := st.inbox ++ [m], sent := st.sent ++ [m] }
  | .first =>
    match st.caller, st.initial with
    | .idle, some m => some ({ st with initial := none }.adapted text true m)
    | _, _ => none
  | .call =>
    match st.caller, st.initial with
    | .idle, none => some { st with
        caller := .called
        goroutines := st.goroutines ++ [.started] }
    | _, _ => none
  | .channel =>
    match st.caller with
    | .called => some { st with caller := .waiting st.receives }
    | _ => none
  | .start k =>
    match st.goroutines[k]? with
    | some .started => some { st with
        goroutines := st.goroutines.set k (.receiving st.receives) }
    | _ => none
  | .recv k =>
    match st.goroutines[k]?, st.inbox with
    | some (.receiving r), m :: rest => some { st with
        goroutines := st.goroutines.set k (.notifying r (.request m))
        inbox := rest }
    | _, _ => none
  | .fail k =>
    match st.goroutines[k]? with
    | some (.receiving r) => some { st with
        goroutines := st.goroutines.set k (.notifying r .error) }
    | _ => none
  -- the channel has no buffer: both ends of it are taken at once
  | .notify k =>
    match st.goroutines[k]?, st.caller with
    | some (.notifying true (.request m)), .waiting true =>
      some ({ st with goroutines := st.goroutines.eraseIdx k }.adapted text false m)
    | some (.notifying true .error), .waiting true =>
      some { st with goroutines := st.goroutines.eraseIdx k, caller := .failed }
    | _, _ => none
  | .abandon k =>
    match st.closed, st.goroutines[k]? with
    | true, some (.notifying r item) => some { st with
        goroutines := st.goroutines.eraseIdx k
        lost := st.lost ++ (Goroutine.notifying r item).request.toList }
    | _, _ => none
  | .cancel =>
    match st.closed, st.caller with
    | true, .waiting _ => some { st with caller := .failed }
    | _, _ => none
  | .close => if st.closed then none else some { st with closed := true }
  | .reset => if st.closed then some { st with receives := false } else none

inductive Next (text : UUIDText) (st : State) : Step → State → Prop
  | send (m : PbStreamingPullRequest) :
      Next text st (.send m) { st with inbox := st.inbox ++ [m], sent := st.sent ++ [m] }
  | first {m : PbStreamingPullRequest} : st.caller = .idle → st.initial = some m →
      Next text st .first ({ st with initial := none }.adapted text true m)
  | call : st.caller = .idle → st.initial = none → Next text st .call { st with
      caller := .called
      goroutines := st.goroutines ++ [.started] }
  | channel : st.caller = .called →
      Next text st .channel { st with caller := .waiting st.receives }
  | start {k : ℕ} : st.goroutines[k]? = some .started → Next text st (.start k) { st with
      goroutines := st.goroutines.set k (.receiving st.receives) }
  | recv {k : ℕ} {r : Bool} {m : PbStreamingPullRequest} {rest : List PbStreamingPullRequest} :
      st.goroutines[k]? = some (.receiving r) → st.inbox = m :: rest →
      Next text st (.recv k) { st with
        goroutines := st.goroutines.set k (.notifying r (.request m))
        inbox := rest }
  | fail {k : ℕ} {r : Bool} : st.goroutines[k]? = some (.receiving r) →
      Next text st (.fail k) { st with goroutines := st.goroutines.set k (.notifying r .error) }
  | notify {k : ℕ} {m : PbStreamingPullRequest} :
      st.goroutines[k]? = some (.notifying true (.request m)) → st.caller = .waiting true →
      Next text st (.notify k)
        ({ st with goroutines := st.goroutines.eraseIdx k }.adapted text false m)
  | notifyError {k : ℕ} : st.goroutines[k]? = some (.notifying true .error) →
      st.caller = .waiting true → Next text st (.notify k) { st with
        goroutines := st.goroutines.eraseIdx k
        caller := .failed }
  | abandon {k : ℕ} {r : Bool} {item : Item} : st.closed = true →
      st.goroutines[k]? = some (.notifying r item) → Next text st (.abandon k) { st with
        goroutines := st.goroutines.eraseIdx k
        lost := st.lost ++ (Goroutine.notifying r item).request.toList }
  | cancel {r : Bool} : st.closed = true → st.caller = .waiting r →
      Next text st .cancel { st with caller := .failed }
  | close : Next text st .close { st with closed := true }
  | reset : st.closed = true → Next text st .reset { st with receives := false }

theorem step_next {text : UUIDText} {st st' : State} {s : Step} (h : step text st s = some st') :
    Next text st s st' := by
  cases s with
  | send m =>
    obtain rfl := Option.some.inj h
    exact .send m
  | first =>
    simp only [step] at h
    split at h
    · obtain rfl := Option.some.inj h
      exact .first ‹_› ‹_›
    · cases h
  | call =>
    simp only [step] at h
    split at h
    · obtain rfl := Option.some.inj h
      exact .call ‹_› ‹_›
    · cases h
  | channel =>
    simp only [step] at h
    split at h
    · obtain rfl := Option.some.inj h
      exact .channel ‹_›
    · cases h
  | start k =>
    simp only [step] at h
    split at h
    · obtain rfl := Option.some.inj h
      exact .start ‹_›
    · cases h
  | recv k =>
    simp only [step] at h
    split at h
    · obtain rfl := Option.some.inj h
      exact .recv ‹_› ‹_›
    · cases h
  | fail k =>
    simp only [step] at h
    split at h
    · obtain rfl := Option.some.inj h
      exact .fail ‹_›
    · cases h
  | notify k =>
    simp only [step] at h
    split at h
    · obtain rfl := Option.some.inj h
      exact .notify ‹_› ‹_›
    · obtain rfl := Option.some.inj h
      exact .notifyError ‹_› ‹_›
    · cases h
  | abandon k =>
    simp only [step] at h
    split at h
    · obtain rfl := Option.some.inj h
      exact .abandon ‹_› ‹_›
    · cases h
  | cancel =>
    simp only [step] at h
    split at h
    · obtain rfl := Option.some.inj h
      exact .cancel ‹_› ‹_›
    · cases h
  | close =>
    simp only [step] at h
    split at h
    · cases h
    · obtain rfl := Option.some.inj h
      exact .close
  | reset =>
    simp only [step] at h
    split at h
    · obtain rfl := Option.some.inj h
      exact .reset ‹_›
    · cases h

def wrapping (text : UUIDText) (initial : PbStreamingPullRequest) : System State Step where
  init st := st = opened initial
  step st s st' := step text st s = some st'

def adaptAll (text : UUIDText) (ms : List PbStreamingPullRequest) :
    List (Except Error MessageStreamRequest) :=
  ms.mapIdx (fun i m => adaptIn text (decide (i = 0)) m)

structure Orderly (text : UUIDText) (st : State) : Prop where
  sent : st.sent = st.taken ++ st.lost ++ st.initial.toList ++
    st.goroutines.filterMap Goroutine.request ++ st.inbox
  returned : adaptAll text st.taken = st.returned.map .ok
  one : st.goroutines.length ≤ 1
  idle : st.caller = .idle → st.goroutines = [] ∧ st.lost = []
  first : st.initial ≠ none → st.caller = .idle ∧ st.taken = []
  later : st.initial = none → st.taken = [] → st.caller = .failed
  lost : st.lost ≠ [] → st.goroutines = [] ∧ (st.closed = true ∨ st.caller = .failed)

section
variable {text : UUIDText} {st st' : State} {g : Goroutine} {k : ℕ}

theorem orderly_opened (initial : PbStreamingPullRequest) : Orderly text (opened initial) where
  sent := rfl
  returned := rfl
  one := Nat.zero_le 1
  idle := fun _ => ⟨rfl, rfl⟩
  first := fun _ => ⟨rfl, rfl⟩
  later := fun h => by cases h
  lost := fun h => absurd rfl h

theorem Orderly.only (h : Orderly text st) (hk : st.goroutines[k]? = some g) :
    st.goroutines = [g] ∧ k = 0 ∧ st.lost = [] ∧ st.initial = none ∧ st.caller ≠ .idle := by
  have hone := h.one
  have hlost : st.lost = [] := by
    by_contra hne
    rw [(h.lost hne).1] at hk
    cases hk
  have hbusy : st.caller ≠ .idle := by
    intro hidle
    rw [(h.idle hidle).1] at hk
    cases hk
  have hinitial : st.initial = none := by
    by_contra hne
    exact hbusy (h.first hne).1
  obtain ⟨hlt, hget⟩ := List.getElem?_eq_some_iff.mp hk
  have hzero : k = 0 := by omega
  have hlen : st.goroutines.length = 1 := by omega
  obtain ⟨x, hx⟩ := List.length_eq_one_iff.mp hlen
  refine ⟨?_, hzero, hlost, hinitial, hbusy⟩
  rw [hx, hzero] at hk
  rw [hx, Option.some.inj hk]

theorem Orderly.move (h : Orderly text st) (hk : st.goroutines[k]? = some g) {g' : Goroutine}
    (hsame : g'.request = g.request) :
    Orderly text { st with goroutines := st.goroutines.set k g' } := by
  obtain ⟨hgs, rfl, hlost, -, hbusy⟩ := h.only hk
  have hset : st.goroutines.set 0 g' = [g'] := by
    rw [hgs]
    rfl
  refine ⟨?_, h.returned, ?_, fun hidle => absurd hidle hbusy, h.first, h.later,
    fun hne => absurd hlost hne⟩
  · show st.sent = _
    rw [h.sent, hset, hgs, List.filterMap_cons, List.filterMap_cons, hsame]
  · rw [hset]
    rfl

variable (st) in
theorem orderly_adapted (hreturned : adaptAll text st.taken = st.returned.map .ok)
    (hinitial : st.initial = none) (hgs : st.goroutines = []) (hlost : st.lost = [])
    {m : PbStreamingPullRequest} (hsent : st.sent = st.taken ++ m :: st.inbox) :
    Orderly text (st.adapted text (decide (st.taken = [])) m) := by
  have hone : st.goroutines.length ≤ 1 := by simp [hgs]
  unfold State.adapted
  cases hm : adaptIn text (decide (st.taken = [])) m with
  | ok msg =>
    refine ⟨?_, ?_, hone, fun _ => ⟨hgs, hlost⟩, fun hne => absurd hinitial hne, fun _ hnil => ?_,
      fun hne => absurd hlost hne⟩
    · simp [hsent, hgs, hlost, hinitial]
    · show adaptAll text (st.taken ++ [m]) = (st.returned ++ [msg]).map .ok
      rw [adaptAll, List.mapIdx_append, List.map_append, ← hreturned]
      simpa [adaptAll] using hm
    · simp at hnil
  | error e =>
    refine ⟨?_, hreturned, hone, fun hidle => ?_, fun hne => absurd hinitial hne, fun _ _ => rfl,
      fun _ => ⟨hgs, Or.inr rfl⟩⟩
    · simp [hsent, hgs, hlost, hinitial]
    · cases hidle

theorem send_orderly (h : Orderly text st) (m : PbStreamingPullRequest) :
    Orderly text { st with inbox := st.inbox ++ [m], sent := st.sent ++ [m] } where
  sent := by
    show st.sent ++ [m] = _
    rw [h.sent, List.append_assoc]
  returned := h.returned
  one := h.one
  idle := h.idle
  first := h.first
  later := h.later
  lost := h.lost

theorem first_orderly (h : Orderly text st) (hcaller : st.caller = .idle)
    {m : PbStreamingPullRequest} (hm : st.initial = some m) :
    Orderly text ({ st with initial := none }.adapted text true m) := by
  obtain ⟨hgs, hlost⟩ := h.idle hcaller
  have htaken : st.taken = [] := (h.first (by simp [hm])).2
  have hsent : st.sent = st.taken ++ m :: st.inbox := by
    simpa [hm, hgs, hlost] using h.sent
  have hadapted := orderly_adapted { st with initial := none } h.returned rfl hgs hlost hsent
  simpa [htaken] using hadapted

theorem call_orderly (h : Orderly text st) (hcaller : st.caller = .idle)
    (hnone : st.initial = none) :
    Orderly text { st with caller := .called, goroutines := st.goroutines ++ [.started] } := by
  obtain ⟨hgs, hlost⟩ := h.idle hcaller
  refine ⟨?_, h.returned, ?_, fun hidle => ?_, fun hne => absurd hnone hne, fun _ hnil => ?_,
    fun hne => absurd hlost hne⟩
  · simpa [hgs, List.filterMap_cons, Goroutine.request] using h.sent
  · simp [hgs]
  · cases hidle
  · have hfailed := h.later hnone hnil
    rw [hcaller] at hfailed
    cases hfailed

theorem Orderly.caller (h : Orderly text st) {c : Caller} (hc : c ≠ .idle)
    (hfirst : st.caller ≠ .idle) (hkeep : st.caller = .failed → c = .failed) :
    Orderly text { st with caller := c } where
  sent := h.sent
  returned := h.returned
  one := h.one
  idle := fun hidle => absurd hidle hc
  first := fun hne => absurd (h.first hne).1 hfirst
  later := fun hnone hnil => hkeep (h.later hnone hnil)
  lost := fun hne => ⟨(h.lost hne).1, (h.lost hne).2.imp_right hkeep⟩

theorem recv_orderly (h : Orderly text st) {r : Bool}
    (hk : st.goroutines[k]? = some (.receiving r)) {m : PbStreamingPullRequest}
    {rest : List PbStreamingPullRequest} (hinbox : st.inbox = m :: rest) :
    Orderly text { st with
      goroutines := st.goroutines.set k (.notifying r (.request m))
      inbox := rest } := by
  obtain ⟨hgs, rfl, hlost, -, hbusy⟩ := h.only hk
  refine ⟨?_, h.returned, ?_, fun hidle => absurd hidle hbusy, h.first, h.later,
    fun hne => absurd hlost hne⟩
  · simpa [hgs, hinbox, List.filterMap_cons, Goroutine.request] using h.sent
  · simp [hgs]

theorem Orderly.taken_ne (h : Orderly text st) (hk : st.goroutines[k]? = some g)
    (hcaller : st.caller ≠ .failed) : st.taken ≠ [] := by
  obtain ⟨-, -, -, hnone, -⟩ := h.only hk
  exact fun hnil => hcaller (h.later hnone hnil)

theorem notify_orderly (h : Orderly text st) {m : PbStreamingPullRequest}
    (hk : st.goroutines[k]? = some (.notifying true (.request m)))
    (hcaller : st.caller = .waiting true) :
    Orderly text ({ st with goroutines := st.goroutines.eraseIdx k }.adapted text false m) := by
  have htaken := h.taken_ne hk (by simp [hcaller])
  obtain ⟨hgs, rfl, hlost, hnone, -⟩ := h.only hk
  have hsent : st.sent = st.taken ++ m :: st.inbox := by
    simpa [hgs, hlost, hnone, Goroutine.request] using h.sent
  have hadapted := orderly_adapted { st with goroutines := st.goroutines.eraseIdx 0 } h.returned
    hnone (by simp [hgs]) hlost hsent
  simpa [htaken] using hadapted

theorem notifyError_orderly (h : Orderly text st)
    (hk : st.goroutines[k]? = some (.notifying true .error)) :
    Orderly text { st with goroutines := st.goroutines.eraseIdx k, caller := .failed } := by
  obtain ⟨hgs, rfl, hlost, hnone, -⟩ := h.only hk
  refine ⟨?_, h.returned, ?_, fun hidle => ?_, fun hne => absurd hnone hne, fun _ _ => rfl,
    fun hne => absurd hlost hne⟩
  · simpa [hgs, List.filterMap_cons, Goroutine.request] using h.sent
  · simp [hgs]
  · cases hidle

theorem abandon_orderly (h : Orderly text st) (hclosed : st.closed = true) {r : Bool} {item : Item}
    (hk : st.goroutines[k]? = some (.notifying r item)) :
    Orderly text { st with
      goroutines := st.goroutines.eraseIdx k
      lost := st.lost ++ (Goroutine.notifying r item).request.toList } := by
  obtain ⟨hgs, rfl, hlost, hnone, hbusy⟩ := h.only hk
  refine ⟨?_, h.returned, ?_, fun hidle => absurd hidle hbusy, h.first, h.later,
    fun _ => ⟨?_, Or.inl hclosed⟩⟩
  · have hsent := h.sent
    cases hr : (Goroutine.notifying r item).request with
    | none => simpa [hgs, hr, hlost] using hsent
    | some m => simpa [hgs, hr, hlost, hnone] using hsent
  · simp [hgs]
  · simp [hgs]

theorem next_orderly {s : Step} (h : Orderly text st) (hs : Next text st s st') :
    Orderly text st' := by
  cases hs with
  | send m => exact send_orderly h m
  | first hcaller hm => exact first_orderly h hcaller hm
  | call hcaller hnone => exact call_orderly h hcaller hnone
  | channel hcaller => exact h.caller (by simp) (by simp [hcaller]) (by simp [hcaller])
  | start hk => exact h.move hk rfl
  | recv hk hinbox => exact recv_orderly h hk hinbox
  | fail hk => exact h.move hk rfl
  | notify hk hcaller => exact notify_orderly h hk hcaller
  | notifyError hk _ => exact notifyError_orderly h hk
  | abandon hclosed hk => exact abandon_orderly h hclosed hk
  | cancel _ hcaller => exact h.caller (by simp) (by simp [hcaller]) (fun _ => rfl)
  | close =>
    exact ⟨h.sent, h.returned, h.one, h.idle, h.first, h.later,
      fun hne => ⟨(h.lost hne).1, Or.inl rfl⟩⟩
  | reset _ => exact ⟨h.sent, h.returned, h.one, h.idle, h.first, h.later, h.lost⟩

theorem reachable_orderly {initial : PbStreamingPullRequest}
    (h : (wrapping text initial).Reachable st) : Orderly text st := by
  refine h.invariant (I := Orderly text) (fun st hinit => ?_)
    (fun _ _ _ hi hs => next_orderly hi (step_next hs))
  rw [show st = opened initial from hinit]
  exact orderly_opened initial

structure HandsOver (text : UUIDText) (st : State) (m : PbStreamingPullRequest)
    (msg : MessageStreamRequest) (st' : State) : Prop where
  taken : st'.taken = st.taken ++ [m]
  returned : st'.returned = st.returned ++ [msg]
  adapted : adaptIn text (decide (st.taken = [])) m = .ok msg

theorem adapted_hands (text : UUIDText) (st : State) (initial : Bool) (m : PbStreamingPullRequest)
    (hi : initial = decide (st.taken = [])) :
    ((st.adapted text initial m).taken = st.taken ∧
      (st.adapted text initial m).returned = st.returned) ∨
    ∃ msg, HandsOver text st m msg (st.adapted text initial m) := by
  unfold State.adapted
  cases hm : adaptIn text initial m with
  | ok msg => exact Or.inr ⟨msg, rfl, rfl, hi ▸ hm⟩
  | error e => exact Or.inl ⟨rfl, rfl⟩

theorem next_hands {s : Step} (h : Orderly text st) (hs : Next text st s st') :
    (st'.taken = st.taken ∧ st'.returned = st.returned) ∨
      ∃ m msg, HandsOver text st m msg st' := by
  cases hs with
  | @first m _ hm =>
    have htaken : st.taken = [] := (h.first (by simp [hm])).2
    rcases adapted_hands text { st with initial := none } true m (by simp [htaken]) with
      hsame | ⟨msg, hmore⟩
    · exact Or.inl hsame
    · exact Or.inr ⟨m, msg, hmore.taken, hmore.returned, hmore.adapted⟩
  | @notify k m hk hcaller =>
    have htaken := h.taken_ne hk (by simp [hcaller])
    rcases adapted_hands text { st with goroutines := st.goroutines.eraseIdx k } false m
      (by simp [htaken]) with hsame | ⟨msg, hmore⟩
    · exact Or.inl hsame
    · exact Or.inr ⟨m, msg, hmore.taken, hmore.returned, hmore.adapted⟩
  | _ => exact Or.inl ⟨rfl, rfl⟩

theorem next_sent {s : Step} (hs : Next text st s st') : st.sent <+: st'.sent := by
  have hadapted : ∀ (mid : State) initial m, (mid.adapted text initial m).sent = mid.sent := by
    intro mid initial m
    unfold State.adapted
    split <;> rfl
  cases hs with
  | send m => exact List.prefix_append _ _
  | first => rw [hadapted]
  | notify => rw [hadapted]
  | _ => exact List.prefix_rfl

theorem sent_first {initial : PbStreamingPullRequest} (h : (wrapping text initial).Reachable st) :
    st.sent.head? = some initial := by
  refine h.invariant (I := fun st => st.sent.head? = some initial) (fun st hinit => ?_)
    (fun st s st' hi hs => ?_)
  · rw [show st = opened initial from hinit]
    rfl
  · obtain ⟨rest, hrest⟩ := next_sent (step_next hs)
    rw [← hrest, List.head?_append, hi]
    rfl

theorem taken_first {initial m : PbStreamingPullRequest}
    (h : (wrapping text initial).Reachable st) (hm : st.taken.head? = some m) : m = initial := by
  obtain ⟨rest, htaken⟩ := List.head?_eq_some_iff.mp hm
  have hsent := (reachable_orderly h).sent
  rw [htaken] at hsent
  have hfirst := sent_first h
  rw [hsent] at hfirst
  exact Option.some.inj hfirst

/-- The client's requests are handed over one by one in the order they were
sent in, each as the first or as a later one. None is passed over: one that is
dropped is the last that was received, and the connection has ended then. -/
theorem requests_in_order {initial : PbStreamingPullRequest}
    (h : (wrapping text initial).Reachable st) :
    st.sent = st.taken ++ st.lost ++ st.initial.toList ++
        st.goroutines.filterMap Goroutine.request ++ st.inbox ∧
      adaptAll text st.taken = st.returned.map .ok ∧ st.goroutines.length ≤ 1 ∧
      (st.lost ≠ [] → st.goroutines = [] ∧ (st.closed = true ∨ st.caller = .failed)) :=
  have horderly := reachable_orderly h
  ⟨horderly.sent, horderly.returned, horderly.one, horderly.lost⟩

end

def runs (text : UUIDText) (st : State) (steps : List Step) : Option State :=
  steps.foldlM (step text) st

theorem runs_reachable {text : UUIDText} {initial : PbStreamingPullRequest} {steps : List Step}
    {st st' : State} (h : (wrapping text initial).Reachable st)
    (hrun : runs text st steps = some st') : (wrapping text initial).Reachable st' :=
  h.foldlM (fun _ _ _ hstep => hstep) hrun

def limited (maxMessages : Int64) : PbStreamingPullRequest := ⟨[], [], [], maxMessages, 0⟩

def secondReceived : List Step := [
  .first, .send (limited 7), .call, .channel, .start 0, .recv 0]

def thirdDropped : List Step :=
  secondReceived ++ [.notify 0, .call, .start 0, .send (limited 9), .recv 0, .close, .abandon 0]

theorem thirdDropped_runs : (runs hexText (opened (limited 5)) thirdDropped).isSome := by
  decide +kernel

def afterDrop : State := (runs hexText (opened (limited 5)) thirdDropped).get thirdDropped_runs

theorem requests_in_order_dropped : afterDrop.taken = [limited 5, limited 7] ∧
    adaptAll hexText [limited 5, limited 7] = afterDrop.returned.map .ok ∧
    afterDrop.lost = [limited 9] := by
  have hreach : (wrapping hexText (limited 5)).Reachable afterDrop :=
    runs_reachable (.start rfl) (Option.some_get thirdDropped_runs).symm
  have htaken : afterDrop.taken = [limited 5, limited 7] := by decide +kernel
  obtain ⟨-, hreturned, -, -⟩ := requests_in_order hreach
  rw [htaken] at hreturned
  exact ⟨htaken, hreturned, by decide +kernel⟩

section
variable {text : UUIDText} {st st' : State} {g : Goroutine} {k : ℕ}

def Goroutine.channel : Goroutine → Option Bool
  | .started => none
  | .receiving r | .notifying r _ => some r

structure Served (st : State) : Prop where
  receives : st.receives = false → st.closed = true
  channel : ∀ g ∈ st.goroutines, g.channel = some false → st.closed = true
  waiting : st.caller = .waiting false → st.closed = true
  helped : st.caller = .called ∨ (∃ r, st.caller = .waiting r) →
    st.goroutines ≠ [] ∨ st.closed = true

theorem served_closed (h : st.closed = true) : Served st :=
  ⟨fun _ => h, fun _ _ _ => h, fun _ => h, fun _ => Or.inr h⟩

theorem Served.move (h : Served st) {g' : Goroutine}
    (hg : g'.channel = some false → st.closed = true) :
    Served { st with goroutines := st.goroutines.set k g' } where
  receives := h.receives
  channel := fun x hx hchannel => by
    rcases List.mem_or_eq_of_mem_set hx with hx | rfl
    · exact h.channel x hx hchannel
    · exact hg hchannel
  waiting := h.waiting
  helped := fun hcaller => (h.helped hcaller).imp_left (fun hne => by simpa using hne)

theorem Served.ended (h : Served st) (hcalled : st'.caller ≠ .called)
    (hwaiting : ∀ r, st'.caller ≠ .waiting r) (hreceives : st'.receives = st.receives)
    (hclosed : st'.closed = st.closed) (hgs : st'.goroutines ⊆ st.goroutines) : Served st' where
  receives := fun hnil => hclosed ▸ h.receives (hreceives ▸ hnil)
  channel := fun g hg hchannel => hclosed ▸ h.channel g (hgs hg) hchannel
  waiting := fun hcaller => absurd hcaller (hwaiting false)
  helped := fun hcaller => by
    rcases hcaller with hcaller | ⟨r, hcaller⟩
    · exact absurd hcaller hcalled
    · exact absurd hcaller (hwaiting r)

theorem adapted_served (h : Served st) {mid : State} (hreceives : mid.receives = st.receives)
    (hclosed : mid.closed = st.closed) (hgs : mid.goroutines ⊆ st.goroutines) {initial : Bool}
    {m : PbStreamingPullRequest} : Served (mid.adapted text initial m) := by
  unfold State.adapted
  split
  · exact h.ended (by simp) (by simp) hreceives hclosed hgs
  · exact h.ended (by simp) (by simp) hreceives hclosed hgs

theorem next_served {s : Step} (h : Served st) (hs : Next text st s st') : Served st' := by
  cases hs with
  | send m => exact ⟨h.receives, h.channel, h.waiting, h.helped⟩
  | first _ _ =>
    refine adapted_served h ?_ ?_ ?_
    · rfl
    · rfl
    · exact List.Subset.refl _
  | call _ _ =>
    refine ⟨h.receives, fun g hg hchannel => ?_, fun hcaller => ?_, fun _ => Or.inl (by simp)⟩
    · rcases List.mem_append.mp hg with hg | hg
      · exact h.channel g hg hchannel
      · rw [List.mem_singleton.mp hg] at hchannel
        cases hchannel
    · cases hcaller
  | channel hcaller =>
    exact ⟨h.receives, h.channel, fun hwaiting => h.receives (Caller.waiting.inj hwaiting),
      fun _ => h.helped (Or.inl hcaller)⟩
  | start hk => exact h.move (fun hchannel => h.receives (Option.some.inj hchannel))
  | @recv k r m rest hk _ =>
    have hmoved : Served { st with
        goroutines := st.goroutines.set k (.notifying r (.request m)) } :=
      h.move (h.channel (.receiving r) (List.mem_of_getElem? hk))
    exact ⟨hmoved.receives, hmoved.channel, hmoved.waiting, hmoved.helped⟩
  | @fail k r hk => exact h.move (h.channel (.receiving r) (List.mem_of_getElem? hk))
  | notify _ _ =>
    refine adapted_served h ?_ ?_ ?_
    · rfl
    · rfl
    · exact List.eraseIdx_subset
  | notifyError _ _ => exact h.ended (by simp) (by simp) rfl rfl (List.eraseIdx_subset)
  | abandon hclosed _ => exact served_closed hclosed
  | cancel hclosed _ => exact served_closed hclosed
  | close => exact served_closed rfl
  | reset hclosed => exact served_closed hclosed

/-- A receive that waits can go on, unless its goroutine is at the stream. -/
theorem receive_served {initial : PbStreamingPullRequest} {r : Bool}
    (h : (wrapping text initial).Reachable st) (hr : st.caller = .waiting r) :
    (step text st .cancel).isSome ∨ (step text st (.notify 0)).isSome ∨
      st.goroutines = [.started] ∨ ∃ r', st.goroutines = [.receiving r'] := by
  have horderly := reachable_orderly h
  have hserved : Served st := by
    refine h.invariant (I := Served) (fun st hinit => ?_)
      (fun _ _ _ hi hs => next_served hi (step_next hs))
    rw [show st = opened initial from hinit]
    exact ⟨by simp [opened], by simp [opened], by simp [opened], by simp [opened]⟩
  by_cases hclosed : st.closed = true
  · left
    simp [step, hclosed, hr]
  right
  have hne : st.goroutines ≠ [] := (hserved.helped (Or.inr ⟨r, hr⟩)).resolve_right hclosed
  have hlen : st.goroutines.length = 1 :=
    Nat.le_antisymm horderly.one (List.length_pos_iff.mpr hne)
  obtain ⟨g, hg⟩ := List.length_eq_one_iff.mp hlen
  have hwaiting : st.caller = .waiting true := by
    cases r with
    | true => exact hr
    | false => exact absurd (hserved.waiting hr) hclosed
  cases g with
  | started => exact Or.inr (Or.inl hg)
  | receiving r' => exact Or.inr (Or.inr ⟨r', hg⟩)
  | notifying r' item =>
    left
    have hr' : r' = true := by
      by_contra hfalse
      have hchannel := hserved.channel (.notifying r' item) (by simp [hg])
      rw [Bool.not_eq_true] at hfalse
      exact hclosed (hchannel (by rw [hfalse]; rfl))
    cases item with
    | request m => simp [step, hg, hr', hwaiting]
    | error => simp [step, hg, hr', hwaiting]

end

theorem secondReceived_runs : (runs hexText (opened (limited 5)) secondReceived).isSome := by
  decide +kernel

def afterSecond : State :=
  (runs hexText (opened (limited 5)) secondReceived).get secondReceived_runs

theorem receive_served_second : (step hexText afterSecond .cancel).isSome ∨
    (step hexText afterSecond (.notify 0)).isSome ∨ afterSecond.goroutines = [.started] ∨
    ∃ r, afterSecond.goroutines = [.receiving r] := by
  have hreach : (wrapping hexText (limited 5)).Reachable afterSecond :=
    runs_reachable (.start rfl) (Option.some_get secondReceived_runs).symm
  have hwaiting : afterSecond.caller = .waiting true := by decide +kernel
  exact receive_served hreach hwaiting

end Mmmbbb.StreamWrapper
