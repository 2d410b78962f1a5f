import Mmmbbb.FlowControl
import Mmmbbb.PushStreamer
import Mmmbbb.StreamWrapper

/-!
# The streamer of a streaming pull

A message streamer over the connection of a streaming pull: its reader calls
`Receive` when it is ready for a request, and receives what that hands over.
-/

set_option autoImplicit false

namespace Mmmbbb.PullStreamer
open Programs Windows Mmmbbb.Schema Mmmbbb.Listing Mmmbbb.Streaming
open Mmmbbb.StreamWrapper (PbStreamingPullRequest adaptAll)

structure State where
  conn : StreamWrapper.State
  ms : Streaming.State

inductive Step
  | conn (s : StreamWrapper.Step)
  | ms (s : Streaming.Step)

def Begins : StreamWrapper.Step → Prop
  | .first | .call => True
  | _ => False

instance (s : StreamWrapper.Step) : Decidable (Begins s) := by
  induction s using StreamWrapper.Step.casesOn <;> unfold Begins <;> infer_instance

def Own : Streaming.Step → Prop
  | .receive _ => False
  | _ => True

instance (s : Streaming.Step) : Decidable (Own s) := by
  induction s using Streaming.Step.casesOn <;> unfold Own <;> infer_instance

def handOver (ms : MessageStreamer) (p : State) (conn : StreamWrapper.State) :
    Option State :=
  match conn.returned.drop p.conn.returned.length with
  | [] => some { p with conn := conn }
  | msg :: _ => (Streaming.step ms p.ms (.receive msg)).map (fun st => ⟨conn, st⟩)

def step (text : UUIDText) (ms : MessageStreamer) (p : State) : Step → Option State
  | .conn s =>
    if Begins s ∧ p.ms.reader ≠ .receiving then none
    else (StreamWrapper.step text p.conn s).bind (handOver ms p)
  | .ms s =>
    if Own s then (Streaming.step ms p.ms s).map (fun st => { p with ms := st })
    else none

def streamed (text : UUIDText) (ms : MessageStreamer) (initial : PbStreamingPullRequest) :
    System State Step where
  init p := p.conn = StreamWrapper.opened initial ∧ Streaming.Init p.ms
  step p s p' := step text ms p s = some p'

def limits (initial : PbStreamingPullRequest) : Streaming.FlowControl :=
  StreamWrapper.effectiveFlowControl initial.maxOutstandingMessages initial.maxOutstandingBytes

theorem limits_pos (initial : PbStreamingPullRequest) :
    0 < (limits initial).maxMessages ∧ 0 < (limits initial).maxBytes :=
  ⟨StreamWrapper.effectiveLimit_pos (by norm_num) _,
    StreamWrapper.effectiveLimit_pos (by norm_num) _⟩

def limited (ms : MessageStreamer) (fc : Streaming.FlowControl) :
    System Streaming.State Streaming.Step :=
  (streaming ms).within (FlowControl.Controlled fc.maxMessages.toNat fc.maxBytes.toNat)

section
variable {text : UUIDText} {ms : MessageStreamer} {initial : PbStreamingPullRequest}
  {p p' : State}

/-- Both sides are where their own steps lead, and the limits are those of the
first request once it has been received. -/
structure Follows (text : UUIDText) (ms : MessageStreamer) (initial : PbStreamingPullRequest)
    (p : State) : Prop where
  conn : (StreamWrapper.wrapping text initial).Reachable p.conn
  ms : (limited ms (limits initial)).Reachable p.ms
  fc : p.ms.fc = if p.conn.taken = [] then ⟨1, 1⟩ else limits initial

theorem limits_nat (initial : PbStreamingPullRequest) :
    (⟨((limits initial).maxMessages.toNat : ℤ), ((limits initial).maxBytes.toNat : ℤ)⟩ :
      Streaming.FlowControl) = limits initial := by
  obtain ⟨hmessages, hbytes⟩ := limits_pos initial
  rw [Int.toNat_of_nonneg hmessages.le, Int.toNat_of_nonneg hbytes.le]

theorem handed_follows (h : Follows text ms initial p) {conn : StreamWrapper.State}
    {m : PbStreamingPullRequest} {msg : MessageStreamRequest}
    (hconn : (StreamWrapper.wrapping text initial).Reachable conn)
    (hands : StreamWrapper.HandsOver text p.conn m msg conn) {st : Streaming.State}
    (hst : Streaming.step ms p.ms (.receive msg) = some st) :
    Follows text ms initial ⟨conn, st⟩ := by
  have hfirst : p.conn.taken = [] → m = initial := by
    intro hnil
    refine StreamWrapper.taken_first hconn ?_
    rw [hands.taken, hnil]
    rfl
  have hflow := StreamWrapper.adaptIn_flowControl hands.adapted
  have hlimits : msg.flowControl = if p.conn.taken = [] then some (limits initial) else none := by
    rw [hflow]
    by_cases hnil : p.conn.taken = []
    · simp [hnil, hfirst hnil, limits]
    · simp [hnil]
  refine ⟨hconn, .next (.receive msg) h.ms ⟨hst, ?_⟩, ?_⟩
  · show msg.flowControl = none ∨ msg.flowControl = some _
    rw [limits_nat, hlimits]
    by_cases hnil : p.conn.taken = [] <;> simp [hnil]
  · have hreceived : st.fc = msg.flowControl.getD p.ms.fc := by
      cases step_next hst with
      | receive => exact PushStreamer.received_limit p.ms msg
    have htaken : conn.taken ≠ [] := by simp [hands.taken]
    show st.fc = if conn.taken = [] then ⟨1, 1⟩ else limits initial
    rw [hreceived, hlimits, if_neg htaken]
    by_cases hnil : p.conn.taken = []
    · rw [if_pos hnil]
      rfl
    · rw [if_neg hnil, Option.getD_none, h.fc, if_neg hnil]

theorem conn_follows (h : Follows text ms initial p) {s : StreamWrapper.Step}
    (hs : step text ms p (.conn s) = some p') : Follows text ms initial p' := by
  simp only [step] at hs
  split at hs
  · cases hs
  · obtain ⟨conn, hconn, hover⟩ := Option.bind_eq_some_iff.mp hs
    have hreach : (StreamWrapper.wrapping text initial).Reachable conn := .next s h.conn hconn
    have horderly := StreamWrapper.reachable_orderly h.conn
    unfold handOver at hover
    rcases StreamWrapper.next_hands horderly (StreamWrapper.step_next hconn) with
      ⟨htaken, hreturned⟩ | ⟨m, msg, hands⟩
    · rw [hreturned, List.drop_length] at hover
      obtain rfl := Option.some.inj hover
      refine ⟨hreach, h.ms, ?_⟩
      show p.ms.fc = if conn.taken = [] then ⟨1, 1⟩ else limits initial
      rw [htaken]
      exact h.fc
    · rw [hands.returned, List.drop_left] at hover
      obtain ⟨st, hst, rfl⟩ := Option.map_eq_some_iff.mp hover
      exact handed_follows h hreach hands hst

theorem ms_follows (h : Follows text ms initial p) {s : Streaming.Step}
    (hs : step text ms p (.ms s) = some p') : Follows text ms initial p' := by
  simp only [step] at hs
  split at hs
  · rename_i hown
    obtain ⟨st, hst, rfl⟩ := Option.map_eq_some_iff.mp hs
    have hno : ∀ msg, s ≠ .receive msg := fun msg hmsg => by rw [hmsg] at hown; exact hown
    refine ⟨h.conn, .next s h.ms ⟨hst, ?_⟩, ?_⟩
    · cases s with
      | receive msg => exact absurd rfl (hno msg)
      | _ => trivial
    · show st.fc = _
      rw [PushStreamer.fc_next (step_next hst) hno]
      exact h.fc
  · cases hs

/-- The first request sets the limits of the stream for good, whatever later
ones ask for, and they hold in every state: before that it has room for one. -/
theorem first_request_limits (h : (streamed text ms initial).Reachable p) :
    p.ms.fc = (if p.conn.taken = [] then ⟨1, 1⟩ else limits initial) ∧
      (size p.ms.pending : ℤ) ≤ (limits initial).maxMessages ∧
      ((load PendingMessage.bytes p.ms.pending : ℤ) ≤ (limits initial).maxBytes ∨
        size p.ms.pending = 1) := by
  have hfollows : Follows text ms initial p := by
    refine h.invariant (I := Follows text ms initial) (fun p hinit => ?_)
      (fun p s p' hi hs => ?_)
    · obtain ⟨hconn, hms⟩ := hinit
      refine ⟨hconn ▸ .start rfl, .start hms, ?_⟩
      obtain ⟨-, -, -, hfc, -⟩ := hms
      rw [hconn, hfc]
      rfl
    · cases s with
      | conn s => exact conn_follows hi hs
      | ms s => exact ms_follows hi hs
  obtain ⟨hmessages, hbytes⟩ := limits_pos initial
  have hbounded := FlowControl.reachable_bounded (by omega) (by omega) hfollows.ms
  have hsize := hbounded.window.size
  have hload := hbounded.window.load
  exact ⟨hfollows.fc, by omega, hload.imp_left (fun hle => by omega)⟩

end

def runs (text : UUIDText) (ms : MessageStreamer) (p : State) (steps : List Step) :
    Option State :=
  steps.foldlM (step text ms) p

def asksForMore : List Step := [
  .conn .first, .ms .senderStart, .ms .budget, .ms (.touch (.plain 5 50)),
  .ms (.query (.plain 6 60)), .ms .insert, .conn (.send (StreamWrapper.limited 7)), .conn .call,
  .conn .channel, .conn (.start 0), .conn (.recv 0), .conn (.notify 0)]

def asking : State := ⟨StreamWrapper.opened (StreamWrapper.limited 2), Streaming.opened workerDB⟩

theorem asksForMore_runs : (runs hexText worker asking asksForMore).isSome := by decide +kernel

def afterAsking : State := (runs hexText worker asking asksForMore).get asksForMore_runs

theorem first_request_limits_asking : afterAsking.conn.returned.length = 2 ∧
    size afterAsking.ms.pending = 2 ∧ afterAsking.ms.fc.maxMessages = 2 := by
  have hreach : (streamed hexText worker (StreamWrapper.limited 2)).Reachable afterAsking :=
    System.Reachable.foldlM (fun _ _ _ hstep => hstep) (.start ⟨rfl, opened_init workerDB⟩)
      (Option.some_get asksForMore_runs).symm
  obtain ⟨hfc, -, -⟩ := first_request_limits hreach
  have htaken : afterAsking.conn.taken ≠ [] := by decide +kernel
  refine ⟨by decide +kernel, by decide +kernel, ?_⟩
  rw [hfc, if_neg htaken]
  decide +kernel

end Mmmbbb.PullStreamer
