import Mmmbbb.PushConnection

/-!
# The streamer of a push subscription

A message streamer over the connection of a push subscription: what the
streamer receives is what a receive of the connection returns, and each
message that it sends starts a send. The limit of the streamer is that of the
connection.
-/

set_option autoImplicit false

namespace Mmmbbb.PushStreamer
open Programs Mmmbbb.Schema Mmmbbb.Streaming

structure HttpPushStreamer where
  conn : PushConnection.State
  ms : Streaming.State

/-- A receive and a send are steps of both; the other steps are of one. -/
inductive Step
  | receive
  | send
  | conn (s : PushConnection.Step)
  | ms (s : Streaming.Step)

def Inner : PushConnection.Step → Prop
  | .send _ | .finish => False
  | _ => True

instance (s : PushConnection.Step) : Decidable (Inner s) := by
  cases s <;> unfold Inner <;> infer_instance

def Outer : Streaming.Step → Prop
  | .receive _ | .send => False
  | _ => True

instance (s : Streaming.Step) : Decidable (Outer s) := by
  induction s using Streaming.Step.casesOn <;> unfold Outer <;> infer_instance

def sendAll (ids : List UUID) (conn : PushConnection.State) : PushConnection.State :=
  { conn with inFlight := conn.inFlight ++ ids }

def step (ms : MessageStreamer) (p : HttpPushStreamer) : Step → Option HttpPushStreamer
  | .receive =>
    match p.conn.draining with
    | some (q, ids) => do
      let conn ← PushConnection.step p.conn .finish
      let st ← Streaming.step ms p.ms (.receive (PushConnection.report q ids p.conn.conn))
      pure ⟨conn, st⟩
    | none => none
  | .send =>
    match p.ms.sender with
    | .sending results => (Streaming.step ms p.ms .send).map (fun st =>
        ⟨sendAll (results.map (·.id)) p.conn, st⟩)
    | _ => none
  | .conn s =>
    if Inner s then (PushConnection.step p.conn s).map (fun conn => { p with conn := conn })
    else none
  | .ms s =>
    if Outer s then (Streaming.step ms p.ms s).map (fun st => { p with ms := st })
    else none

def pushed (ms : MessageStreamer) : System HttpPushStreamer Step where
  init p := p.conn = PushConnection.opened ∧ Streaming.Init p.ms
  step p s p' := step ms p s = some p'

section
variable {ms : MessageStreamer} {st st' : Streaming.State} {p p' : HttpPushStreamer}

theorem received_limit (st : Streaming.State) (msg : MessageStreamRequest) :
    (st.received msg).fc = msg.flowControl.getD st.fc := by
  unfold State.received
  cases msg.flowControl <;> rfl

theorem fc_next {s : Streaming.Step} (h : Next ms st s st') (hs : ∀ msg, s ≠ .receive msg) :
    st'.fc = st.fc := by
  cases h with
  | receive => exact absurd rfl (hs _)
  | @delay _ msg tx =>
    obtain ⟨owed, heq⟩ := delayed_only (st.committed tx) ⟨msg.delay, msg.delayFor⟩
    rw [heq]
    rfl
  | @budget anyPending =>
    obtain ⟨sender, heq, -⟩ := budgeted_only ms st anyPending
    rw [heq]
  | @commit e _ tx =>
    obtain ⟨owed, heq⟩ := nackedBy_only (st.committed tx) e.action
    rw [heq]
    rfl
  | _ => rfl

structure Agrees (p : HttpPushStreamer) : Prop where
  limit : p.ms.fc.maxMessages = p.conn.conn.maxMessages
  conn : PushConnection.pushing.Reachable p.conn

theorem sendAll_reachable {ids : List UUID} {conn : PushConnection.State}
    (h : PushConnection.pushing.Reachable conn) :
    PushConnection.pushing.Reachable (sendAll ids conn) := by
  induction ids generalizing conn with
  | nil =>
    have hsame : sendAll [] conn = conn := by simp [sendAll]
    rwa [hsame]
  | cons id ids ih =>
    have hfirst : PushConnection.pushing.Reachable
        { conn with inFlight := conn.inFlight ++ [id] } := .next (.send id) h rfl
    have hrest := ih hfirst
    simpa [sendAll] using hrest

theorem inner_limit {s : PushConnection.Step} {conn conn' : PushConnection.State} (hi : Inner s)
    (h : PushConnection.step conn s = some conn') :
    conn'.conn.maxMessages = conn.conn.maxMessages := by
  by_cases hm : PushConnection.Moves s
  · exact (PushConnection.moved h hm).2.1
  · cases s with
    | complete k dur resp =>
      obtain ⟨id, rest, -, rfl⟩ := PushConnection.step_outcome h
      rfl
    | send id => exact hi.elim
    | finish => exact hi.elim
    | enqueue k => exact absurd trivial hm
    | take q => exact absurd trivial hm
    | lock k => exact absurd trivial hm
    | drain => exact absurd trivial hm

theorem receive_agrees (h : Agrees p) (hs : step ms p .receive = some p') : Agrees p' := by
  simp only [step] at hs
  split at hs
  · rename_i q ids hholder
    obtain ⟨conn, hconn, hrest⟩ := Option.bind_eq_some_iff.mp hs
    obtain ⟨st, hst, hp⟩ := Option.bind_eq_some_iff.mp hrest
    obtain rfl := Option.some.inj hp
    refine ⟨?_, .next .finish h.conn hconn⟩
    obtain ⟨q', ids', hholder', -, rfl⟩ := PushConnection.step_outcome hconn
    obtain ⟨rfl, rfl⟩ := Prod.mk.inj (Option.some.inj (hholder.symm.trans hholder'))
    cases step_next hst with
    | receive =>
      rw [received_limit]
      simp only [PushConnection.report, PushConnection.State.finished]
      cases PushConnection.changedLimit q p.conn.conn.maxMessages ids.length with
      | none => exact h.limit
      | some mm => rfl
  · cases hs

theorem send_agrees (h : Agrees p) (hs : step ms p .send = some p') : Agrees p' := by
  simp only [step] at hs
  split at hs
  · rename_i results hsender
    obtain ⟨st, hst, rfl⟩ := Option.map_eq_some_iff.mp hs
    have hfc := fc_next (step_next hst) (fun msg hmsg => nomatch hmsg)
    exact ⟨hfc ▸ h.limit, sendAll_reachable h.conn⟩
  · cases hs

theorem step_agrees {s : Step} (h : Agrees p) (hs : step ms p s = some p') : Agrees p' := by
  cases s with
  | receive => exact receive_agrees h hs
  | send => exact send_agrees h hs
  | conn s =>
    simp only [step] at hs
    split at hs
    · rename_i hi
      obtain ⟨conn, hconn, rfl⟩ := Option.map_eq_some_iff.mp hs
      exact ⟨h.limit.trans (inner_limit hi hconn).symm, .next s h.conn hconn⟩
    · cases hs
  | ms s =>
    simp only [step] at hs
    split at hs
    · rename_i ho
      obtain ⟨st, hst, rfl⟩ := Option.map_eq_some_iff.mp hs
      have hfc := fc_next (step_next hst) (fun msg hmsg => by rw [hmsg] at ho; exact ho)
      exact ⟨hfc ▸ h.limit, h.conn⟩
    · cases hs

/-- In every state of a push subscription the streamer and its connection have
the same limit, which is one that the connection allows. -/
theorem limits_agree (h : (pushed ms).Reachable p) :
    p.ms.fc.maxMessages = p.conn.conn.maxMessages ∧
      1 ≤ p.ms.fc.maxMessages ∧ p.ms.fc.maxMessages ≤ 1000 := by
  have hagrees : Agrees p := by
    refine h.invariant (I := Agrees) (fun p hinit => ?_) (fun _ _ _ hi hs => step_agrees hi hs)
    obtain ⟨hconn, -, -, -, hfc, -⟩ := hinit
    exact ⟨by rw [hfc, hconn]; rfl, hconn ▸ .start rfl⟩
  have hlimited := PushConnection.reachable_limited hagrees.conn
  exact ⟨hagrees.limit, hagrees.limit ▸ hlimited.low, hagrees.limit ▸ hlimited.high⟩

end

def firstPush : List Step := [
  .ms .senderStart, .ms .budget, .ms (.touch (.plain 5 50)), .ms (.query (.plain 6 60)),
  .ms .insert, .send, .conn (.complete 0 5 (.status 204)), .conn (.enqueue 0),
  .conn (.take .fastAck), .conn (.lock 0), .receive]

def starting : HttpPushStreamer := ⟨PushConnection.opened, Streaming.opened workerDB⟩

theorem firstPush_runs : (firstPush.foldlM (step worker) starting).isSome := by decide +kernel

def afterFirst : HttpPushStreamer := (firstPush.foldlM (step worker) starting).get firstPush_runs

theorem limits_agree_first : afterFirst.ms.fc.maxMessages = 2 := by
  have hreach : (pushed worker).Reachable afterFirst :=
    System.Reachable.foldlM (fun _ _ _ hstep => hstep) (.start ⟨rfl, opened_init workerDB⟩)
      (Option.some_get firstPush_runs).symm
  have hconn : afterFirst.conn.conn.maxMessages = 2 := by decide +kernel
  exact (limits_agree hreach).1.trans hconn

end Mmmbbb.PushStreamer
