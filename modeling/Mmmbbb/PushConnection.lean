import Mmmbbb.Streaming
import Mathlib.Algebra.Order.Group.Multiset
import Mathlib.Tactic.Abel

/-!
# The connection of a push subscription

Each message is sent by a goroutine of its own. When the endpoint has
answered, the goroutine puts the delivery into one of three queues, which have
room for ten. A receive takes one from a queue, and then, with the mutex held,
all that is left in it; it reports them, and moves the limit of messages.
-/

set_option autoImplicit false

namespace Mmmbbb.PushConnection
open Programs Mmmbbb.Schema Mmmbbb.Delivering
open Mmmbbb.Streaming (FlowControl MessageStreamRequest)

inductive Queue
  | fastAck
  | slowAck
  | nack
  deriving DecidableEq

def Queue.acks : Queue → Bool
  | .fastAck | .slowAck => true
  | .nack => false

inductive Response
  | error
  | status (code : ℕ)
  deriving DecidableEq

def success (code : ℕ) : Bool := decide (code ∈ [102, 200, 201, 202, 204])

def Response.accepted : Response → Bool
  | .error => false
  | .status code => success code

def pickQueue (dur : Duration) (resp : Response) : Queue :=
  let q := if dur < second then .fastAck else .slowAck
  match resp with
  | .error => .nack
  | .status code => if success code then q else .nack

structure HttpPushStreamConn where
  queues : Queue → List UUID
  maxBytes : ℤ
  maxMessages : ℤ

def newHttpPushConn : HttpPushStreamConn := ⟨fun _ => [], 10000000, 1⟩

def room : ℕ := 10

def changedLimit (q : Queue) (maxMessages : ℤ) (n : ℕ) : Option ℤ :=
  match q with
  | .fastAck =>
    if maxMessages < 1000 then
      let mm := maxMessages + n
      some (if 1000 < mm then 1000 else mm)
    else none
  | .slowAck =>
    if 1 < maxMessages then
      let mm := maxMessages - n
      some (if mm < 1 then 1 else mm)
    else none
  | .nack =>
    if 1 < maxMessages then
      let mm := maxMessages - 10 * n
      some (if mm < 1 then 1 else mm)
    else none

def report (q : Queue) (ids : List UUID) (c : HttpPushStreamConn) : MessageStreamRequest where
  flowControl := (changedLimit q c.maxMessages ids.length).map (fun mm => ⟨mm, c.maxBytes⟩)
  ack := if q.acks then ids else []
  nack := if q.acks then [] else ids
  delay := []
  delayFor := 0

structure Completion where
  id : UUID
  dur : Duration
  resp : Response
  deriving DecidableEq

structure State where
  conn : HttpPushStreamConn
  /-- The sends that wait for their endpoint, and those that wait for room. -/
  inFlight : List UUID
  ready : List (Queue × UUID)
  /-- The receives that wait for the mutex, and the one that holds it. -/
  waiting : List (Queue × UUID)
  draining : Option (Queue × List UUID)
  completed : List Completion
  returned : List MessageStreamRequest

def opened : State := ⟨newHttpPushConn, [], [], [], none, [], []⟩

inductive Step
  | send (id : UUID)
  /-- The `k`-th send in flight gets its answer. -/
  | complete (k : ℕ) (dur : Duration) (resp : Response)
  | enqueue (k : ℕ)
  | take (q : Queue)
  | lock (k : ℕ)
  | drain
  | finish

def takeAt {α : Type} (k : ℕ) (xs : List α) : Option (α × List α) :=
  xs[k]?.map (fun x => (x, xs.eraseIdx k))

def HttpPushStreamConn.put (c : HttpPushStreamConn) (q : Queue) (ids : List UUID) :
    HttpPushStreamConn := { c with queues := Function.update c.queues q ids }

def State.finished (st : State) (q : Queue) (ids : List UUID) : State :=
  { st with
    conn := { st.conn with
      maxMessages := (changedLimit q st.conn.maxMessages ids.length).getD st.conn.maxMessages }
    draining := none
    returned := st.returned ++ [report q ids st.conn] }

def step (st : State) : Step → Option State
  | .send id => some { st with inFlight := st.inFlight ++ [id] }
  | .complete k dur resp =>
    match takeAt k st.inFlight with
    | some (id, rest) => some { st with
        inFlight := rest
        ready := st.ready ++ [(pickQueue dur resp, id)]
        completed := st.completed ++ [⟨id, dur, resp⟩] }
    | none => none
  | .enqueue k =>
    match takeAt k st.ready with
    | some ((q, id), rest) =>
      if (st.conn.queues q).length < room then some { st with
        conn := st.conn.put q (st.conn.queues q ++ [id])
        ready := rest }
      else none
    | none => none
  | .take q =>
    match st.conn.queues q with
    | id :: rest => some { st with
        conn := st.conn.put q rest
        waiting := st.waiting ++ [(q, id)] }
    | [] => none
  | .lock k =>
    match st.draining, takeAt k st.waiting with
    | none, some ((q, id), rest) => some { st with waiting := rest, draining := some (q, [id]) }
    | _, _ => none
  | .drain =>
    match st.draining with
    | some (q, ids) =>
      match st.conn.queues q with
      | id :: rest => some { st with
          conn := st.conn.put q rest
          draining := some (q, ids ++ [id]) }
      | [] => none
    | none => none
  | .finish =>
    match st.draining with
    | some (q, ids) => if st.conn.queues q = [] then some (st.finished q ids) else none
    | none => none

def pushing : System State Step where
  init st := st = opened
  step st s st' := step st s = some st'

abbrev Verdict := Bool × UUID

def Completion.verdict (x : Completion) : Verdict := (x.resp.accepted, x.id)

def queued (queues : Queue → List UUID) : Multiset (Queue × UUID) :=
  (queues .fastAck).map (Queue.fastAck, ·) + (queues .slowAck).map (Queue.slowAck, ·) +
    (queues .nack).map (Queue.nack, ·)

def held : Option (Queue × List UUID) → Multiset (Queue × UUID)
  | none => 0
  | some (q, ids) => ids.map (q, ·)

def State.onTheWay (st : State) : Multiset (Queue × UUID) :=
  st.ready + queued st.conn.queues + st.waiting + held st.draining

def reports (msg : MessageStreamRequest) : List Verdict :=
  msg.ack.map (true, ·) ++ msg.nack.map (false, ·)

def State.reported (st : State) : List Verdict := st.returned.flatMap reports

def Balanced (st : State) : Prop :=
  (st.reported : Multiset Verdict) + st.onTheWay.map (fun e => (e.1.acks, e.2)) =
    (st.completed.map Completion.verdict : List Verdict)

theorem takeAt_some {α : Type} {k : ℕ} {xs rest : List α} {x : α}
    (h : takeAt k xs = some (x, rest)) : (xs : Multiset α) = {x} + (rest : Multiset α) := by
  obtain ⟨y, hy, heq⟩ := Option.map_eq_some_iff.mp h
  obtain ⟨rfl, rfl⟩ := Prod.mk.inj heq
  obtain ⟨hk, rfl⟩ := List.getElem?_eq_some_iff.mp hy
  rw [Multiset.singleton_add, Multiset.cons_coe]
  exact (Multiset.coe_eq_coe.mpr (List.getElem_cons_eraseIdx_perm hk)).symm

theorem takeAt_length {α : Type} {k : ℕ} {xs rest : List α} {x : α}
    (h : takeAt k xs = some (x, rest)) : xs.length = rest.length + 1 := by
  have hcard := congrArg Multiset.card (takeAt_some h)
  simpa [add_comm] using hcard

theorem takeAt_zero {α : Type} {xs : List α} (h : xs ≠ []) : ∃ x rest,
    takeAt 0 xs = some (x, rest) := by
  cases xs with
  | nil => exact absurd rfl h
  | cons x xs => exact ⟨x, xs, rfl⟩

section
variable {queues : Queue → List UUID} {q : Queue} {id : UUID} {rest : List UUID}

theorem queued_tail (h : queues q = id :: rest) :
    queued queues = {(q, id)} + queued (Function.update queues q rest) := by
  cases q <;>
  · simp only [queued, Function.update_apply, h, List.map_cons, ← Multiset.cons_coe,
      ← Multiset.singleton_add, reduceCtorEq, if_true, if_false]
    abel

theorem queued_end : queued (Function.update queues q (queues q ++ [id])) =
    {(q, id)} + queued queues := by
  cases q <;>
  · simp only [queued, Function.update_apply, List.map_append, List.map_cons, List.map_nil,
      ← Multiset.coe_add, Multiset.coe_singleton, reduceCtorEq, if_true, if_false]
    abel

theorem held_append {ids : List UUID} :
    held (some (q, ids ++ [id])) = held (some (q, ids)) + {(q, id)} := by
  simp only [held, List.map_append, List.map_cons, List.map_nil, ← Multiset.coe_add,
    Multiset.coe_singleton]

end

theorem pickQueue_acks (dur : Duration) (resp : Response) :
    (pickQueue dur resp).acks = resp.accepted := by
  cases resp with
  | error => rfl
  | status code =>
    simp only [pickQueue, Response.accepted]
    cases hcode : success code with
    | false => rfl
    | true =>
      rw [if_pos rfl]
      split <;> rfl

theorem report_reports (q : Queue) (ids : List UUID) (c : HttpPushStreamConn) :
    reports (report q ids c) = ids.map (q.acks, ·) := by
  cases q <;> simp [reports, report, Queue.acks]

def Moves : Step → Prop
  | .enqueue _ | .take _ | .lock _ | .drain => True
  | _ => False

section
variable {st st' : State} {s : Step}

def Outcome (st : State) (s : Step) (st' : State) : Prop :=
  match s with
  | .send id => st' = { st with inFlight := st.inFlight ++ [id] }
  | .complete k dur resp => ∃ id rest, takeAt k st.inFlight = some (id, rest) ∧ st' = { st with
      inFlight := rest
      ready := st.ready ++ [(pickQueue dur resp, id)]
      completed := st.completed ++ [⟨id, dur, resp⟩] }
  | .enqueue k => ∃ q id rest, takeAt k st.ready = some ((q, id), rest) ∧
      (st.conn.queues q).length < room ∧ st' = { st with
        conn := st.conn.put q (st.conn.queues q ++ [id])
        ready := rest }
  | .take q => ∃ id rest, st.conn.queues q = id :: rest ∧ st' = { st with
      conn := st.conn.put q rest
      waiting := st.waiting ++ [(q, id)] }
  | .lock k => ∃ q id rest, st.draining = none ∧ takeAt k st.waiting = some ((q, id), rest) ∧
      st' = { st with waiting := rest, draining := some (q, [id]) }
  | .drain => ∃ q ids id rest, st.draining = some (q, ids) ∧ st.conn.queues q = id :: rest ∧
      st' = { st with
        conn := st.conn.put q rest
        draining := some (q, ids ++ [id]) }
  | .finish => ∃ q ids, st.draining = some (q, ids) ∧ st.conn.queues q = [] ∧
      st' = st.finished q ids

theorem step_outcome (hs : step st s = some st') : Outcome st s st' := by
  cases s with
  | send id => exact (Option.some.inj hs).symm
  | complete k dur resp =>
    simp only [step] at hs
    split at hs
    · rename_i id rest htake
      exact ⟨id, rest, htake, (Option.some.inj hs).symm⟩
    · cases hs
  | enqueue k =>
    simp only [step] at hs
    split at hs
    · rename_i q id rest htake
      split at hs
      · rename_i hroom
        exact ⟨q, id, rest, htake, hroom, (Option.some.inj hs).symm⟩
      · cases hs
    · cases hs
  | take q =>
    simp only [step] at hs
    split at hs
    · rename_i id rest hq
      exact ⟨id, rest, hq, (Option.some.inj hs).symm⟩
    · cases hs
  | lock k =>
    simp only [step] at hs
    split at hs
    · rename_i q id rest hnone htake
      exact ⟨q, id, rest, hnone, htake, (Option.some.inj hs).symm⟩
    · cases hs
  | drain =>
    simp only [step] at hs
    split at hs
    · rename_i q ids hholder
      split at hs
      · rename_i id rest hq
        exact ⟨q, ids, id, rest, hholder, hq, (Option.some.inj hs).symm⟩
      · cases hs
    · cases hs
  | finish =>
    simp only [step] at hs
    split at hs
    · rename_i q ids hholder
      split at hs
      · rename_i hempty
        exact ⟨q, ids, hholder, hempty, (Option.some.inj hs).symm⟩
      · cases hs
    · cases hs

theorem moved (hs : step st s = some st') (hm : Moves s) : st'.onTheWay = st.onTheWay ∧
    st'.conn.maxMessages = st.conn.maxMessages ∧ st'.completed = st.completed ∧
      st'.returned = st.returned := by
  cases s with
  | send id => exact hm.elim
  | complete k dur resp => exact hm.elim
  | finish => exact hm.elim
  | enqueue k =>
    obtain ⟨q, id, rest, htake, -, rfl⟩ := step_outcome hs
    refine ⟨?_, rfl, rfl, rfl⟩
    simp only [State.onTheWay, HttpPushStreamConn.put, takeAt_some htake, queued_end]
    abel
  | take q =>
    obtain ⟨id, rest, hq, rfl⟩ := step_outcome hs
    refine ⟨?_, rfl, rfl, rfl⟩
    simp only [State.onTheWay, HttpPushStreamConn.put, queued_tail hq, ← Multiset.coe_add,
      Multiset.coe_singleton]
    abel
  | lock k =>
    obtain ⟨q, id, rest, hnone, htake, rfl⟩ := step_outcome hs
    refine ⟨?_, rfl, rfl, rfl⟩
    have hone : held (some (q, [id])) = {(q, id)} := rfl
    have hzero : held none = 0 := rfl
    simp only [State.onTheWay, hnone, takeAt_some htake, hone, hzero]
    abel
  | drain =>
    obtain ⟨q, ids, id, rest, hholder, hq, rfl⟩ := step_outcome hs
    refine ⟨?_, rfl, rfl, rfl⟩
    simp only [State.onTheWay, HttpPushStreamConn.put, hholder, queued_tail hq, held_append]
    abel

theorem balanced_step (h : Balanced st) (hs : step st s = some st') : Balanced st' := by
  by_cases hm : Moves s
  · obtain ⟨honTheWay, -, hcompleted, hreturned⟩ := moved hs hm
    unfold Balanced State.reported at h ⊢
    rw [honTheWay, hcompleted, hreturned]
    exact h
  · unfold Balanced at h ⊢
    cases s with
    | send id =>
      obtain rfl := step_outcome hs
      exact h
    | complete k dur resp =>
      obtain ⟨id, rest, -, rfl⟩ := step_outcome hs
      have hverdict : Completion.verdict ⟨id, dur, resp⟩ =
          ((pickQueue dur resp).acks, id) := by rw [pickQueue_acks]; rfl
      simp only [State.onTheWay, ← Multiset.coe_add, Multiset.coe_singleton, Multiset.map_add,
        Multiset.map_singleton, List.map_append, List.map_cons, List.map_nil, hverdict] at h ⊢
      rw [← h]
      simp only [State.reported]
      abel
    | finish =>
      obtain ⟨q, ids, hholder, -, rfl⟩ := step_outcome hs
      have hheld : (held (some (q, ids))).map (fun e => (e.1.acks, e.2)) =
          (ids.map (q.acks, ·) : List Verdict) := by
        rw [held, Multiset.map_coe, List.map_map]
        rfl
      have hnone : held none = 0 := rfl
      simp only [State.onTheWay, hholder, Multiset.map_add, hheld] at h
      simp only [State.onTheWay, State.finished, State.reported, List.flatMap_append,
        List.flatMap_cons, List.flatMap_nil, List.append_nil, report_reports, hnone,
        ← Multiset.coe_add, Multiset.map_add, Multiset.map_zero]
      rw [← h]
      simp only [State.reported]
      abel
    | enqueue k => exact absurd trivial hm
    | take q => exact absurd trivial hm
    | lock k => exact absurd trivial hm
    | drain => exact absurd trivial hm

/-- The limit of the last flow control that was returned, one before any. -/
def returnedLimit (returned : List MessageStreamRequest) : ℤ :=
  ((returned.filterMap (·.flowControl)).getLast?.map (·.maxMessages)).getD 1

structure Limited (st : State) : Prop where
  low : 1 ≤ st.conn.maxMessages
  high : st.conn.maxMessages ≤ 1000
  returned : st.conn.maxMessages = returnedLimit st.returned

theorem changedLimit_range {q : Queue} {m mm : ℤ} {n : ℕ} (hlow : 1 ≤ m) (hhigh : m ≤ 1000)
    (h : changedLimit q m n = some mm) : 1 ≤ mm ∧ mm ≤ 1000 := by
  cases q with
  | fastAck =>
    simp only [changedLimit] at h
    split at h
    · obtain rfl := Option.some.inj h
      constructor <;> split <;> omega
    · cases h
  | slowAck =>
    simp only [changedLimit] at h
    split at h
    · obtain rfl := Option.some.inj h
      constructor <;> split <;> omega
    · cases h
  | nack =>
    simp only [changedLimit] at h
    split at h
    · obtain rfl := Option.some.inj h
      constructor <;> split <;> omega
    · cases h

theorem returnedLimit_none {returned : List MessageStreamRequest} {msg : MessageStreamRequest}
    (h : msg.flowControl = none) : returnedLimit (returned ++ [msg]) = returnedLimit returned := by
  simp [returnedLimit, h]

theorem returnedLimit_some {returned : List MessageStreamRequest} {msg : MessageStreamRequest}
    {fc : FlowControl} (h : msg.flowControl = some fc) :
    returnedLimit (returned ++ [msg]) = fc.maxMessages := by
  simp [returnedLimit, h]

theorem limited_finished (h : Limited st) (q : Queue) (ids : List UUID) :
    Limited (st.finished q ids) := by
  cases hlimit : changedLimit q st.conn.maxMessages ids.length with
  | none =>
    have hreport : (report q ids st.conn).flowControl = none := by rw [report, hlimit]; rfl
    have hsame : (st.finished q ids).conn.maxMessages = st.conn.maxMessages := by
      simp [State.finished, hlimit]
    refine ⟨hsame ▸ h.low, hsame ▸ h.high, ?_⟩
    rw [hsame, State.finished, returnedLimit_none hreport]
    exact h.returned
  | some mm =>
    have hreport : (report q ids st.conn).flowControl = some ⟨mm, st.conn.maxBytes⟩ := by
      rw [report, hlimit]
      rfl
    have hnew : (st.finished q ids).conn.maxMessages = mm := by simp [State.finished, hlimit]
    obtain ⟨hlow, hhigh⟩ := changedLimit_range h.low h.high hlimit
    refine ⟨hnew ▸ hlow, hnew ▸ hhigh, ?_⟩
    rw [hnew, State.finished, returnedLimit_some hreport]

theorem limited_step (h : Limited st) (hs : step st s = some st') : Limited st' := by
  by_cases hm : Moves s
  · obtain ⟨-, hlimit, -, hreturned⟩ := moved hs hm
    exact ⟨hlimit ▸ h.low, hlimit ▸ h.high, by rw [hlimit, hreturned]; exact h.returned⟩
  · cases s with
    | send id =>
      obtain rfl := step_outcome hs
      exact ⟨h.low, h.high, h.returned⟩
    | complete k dur resp =>
      obtain ⟨id, rest, -, rfl⟩ := step_outcome hs
      exact ⟨h.low, h.high, h.returned⟩
    | finish =>
      obtain ⟨q, ids, -, -, rfl⟩ := step_outcome hs
      exact limited_finished h q ids
    | enqueue k => exact absurd trivial hm
    | take q => exact absurd trivial hm
    | lock k => exact absurd trivial hm
    | drain => exact absurd trivial hm

def GoesOn (s : Step) : Prop := Moves s ∨ s = .finish

def State.remaining (st : State) : ℕ :=
  4 * st.ready.length + 3 * (queued st.conn.queues).card + 2 * st.waiting.length +
    (if st.draining.isSome then 1 else 0)

theorem remaining_lt (hs : step st s = some st') (hg : GoesOn s) :
    st'.remaining < st.remaining := by
  cases s with
  | send id => exact absurd hg (by simp [GoesOn, Moves])
  | complete k dur resp => exact absurd hg (by simp [GoesOn, Moves])
  | enqueue k =>
    obtain ⟨q, id, rest, htake, -, rfl⟩ := step_outcome hs
    have hlength := takeAt_length htake
    simp only [State.remaining, HttpPushStreamConn.put, queued_end, Multiset.card_add,
      Multiset.card_singleton]
    omega
  | take q =>
    obtain ⟨id, rest, hq, rfl⟩ := step_outcome hs
    simp only [State.remaining, HttpPushStreamConn.put, queued_tail hq, Multiset.card_add,
      Multiset.card_singleton, List.length_append, List.length_singleton]
    omega
  | lock k =>
    obtain ⟨q, id, rest, hnone, htake, rfl⟩ := step_outcome hs
    have hlength := takeAt_length htake
    simp only [State.remaining, hnone, Option.isSome_none, Option.isSome_some, if_true]
    omega
  | drain =>
    obtain ⟨q, ids, id, rest, hholder, hq, rfl⟩ := step_outcome hs
    simp only [State.remaining, HttpPushStreamConn.put, queued_tail hq, Multiset.card_add,
      Multiset.card_singleton, hholder, Option.isSome_some, if_true]
    omega
  | finish =>
    obtain ⟨q, ids, hholder, -, rfl⟩ := step_outcome hs
    simp only [State.remaining, State.finished, hholder, Option.isSome_none, Option.isSome_some,
      Bool.false_eq_true, if_true, if_false]
    omega

theorem settled (h : ∀ s, GoesOn s → step st s = none) : st.onTheWay = 0 := by
  have hholder : st.draining = none := by
    by_contra hsome
    obtain ⟨⟨q, ids⟩, hholder⟩ := Option.ne_none_iff_exists'.mp hsome
    cases hq : st.conn.queues q with
    | nil =>
      have hfinish := h .finish (Or.inr rfl)
      simp [step, hholder, hq] at hfinish
    | cons id rest =>
      have hdrain := h .drain (Or.inl trivial)
      simp [step, hholder, hq] at hdrain
  have hwaiting : st.waiting = [] := by
    by_contra hne
    obtain ⟨⟨q, id⟩, rest, htake⟩ := takeAt_zero hne
    have hlock := h (.lock 0) (Or.inl trivial)
    simp [step, hholder, htake] at hlock
  have hqueues : ∀ q, st.conn.queues q = [] := by
    intro q
    cases hq : st.conn.queues q with
    | nil => rfl
    | cons id rest =>
      have htake := h (.take q) (Or.inl trivial)
      simp [step, hq] at htake
  have hready : st.ready = [] := by
    by_contra hne
    obtain ⟨⟨q, id⟩, rest, htake⟩ := takeAt_zero hne
    have henqueue := h (.enqueue 0) (Or.inl trivial)
    simp [step, htake, hqueues, room] at henqueue
  simp [State.onTheWay, queued, held, hholder, hwaiting, hqueues, hready]

theorem opened_balanced : Balanced opened := rfl

theorem opened_limited : Limited opened := ⟨le_refl _, by decide, rfl⟩

theorem reachable_balanced (h : pushing.Reachable st) : Balanced st := by
  refine h.invariant (I := Balanced) (fun st hinit => ?_) (fun _ _ _ hi hs => balanced_step hi hs)
  obtain rfl : st = opened := hinit
  exact opened_balanced

theorem reachable_limited (h : pushing.Reachable st) : Limited st := by
  refine h.invariant (I := Limited) (fun st hinit => ?_) (fun _ _ _ hi hs => limited_step hi hs)
  obtain rfl : st = opened := hinit
  exact opened_limited

theorem reported_once (h : Balanced st) :
    st.reported.Subperm (st.completed.map Completion.verdict) := by
  have hle : (st.reported : Multiset Verdict) ≤
      (st.completed.map Completion.verdict : List Verdict) := by
    rw [← h]
    exact Multiset.le_add_right _ _
  exact Multiset.coe_le.mp hle

theorem reported_all (h : Balanced st) (hnone : st.onTheWay = 0) :
    st.reported.Perm (st.completed.map Completion.verdict) := by
  unfold Balanced at h
  rw [hnone, Multiset.map_zero, add_zero] at h
  exact Multiset.coe_eq_coe.mp h

/-- No send is reported twice or otherwise than its endpoint has answered; in
the end, which comes after so many steps, each one is reported; and the limit
is the one that was returned last. -/
theorem push_accounting (h : pushing.Reachable st) :
    st.reported.Subperm (st.completed.map Completion.verdict) ∧
    ((∀ s, GoesOn s → step st s = none) →
      st.reported.Perm (st.completed.map Completion.verdict)) ∧
    (∀ s st', GoesOn s → step st s = some st' → st'.remaining < st.remaining) ∧
    1 ≤ st.conn.maxMessages ∧ st.conn.maxMessages ≤ 1000 ∧
    st.conn.maxMessages = returnedLimit st.returned := by
  have hbalanced := reachable_balanced h
  have hlimited := reachable_limited h
  refine ⟨reported_once hbalanced, fun hend => reported_all hbalanced (settled hend), ?_,
    hlimited.low, hlimited.high, hlimited.returned⟩
  exact fun s st' hg hs => remaining_lt hs hg

end

def runs (st : State) (steps : List Step) : Option State := steps.foldlM step st

theorem runs_reachable {steps : List Step} {st st' : State} (h : pushing.Reachable st)
    (hrun : runs st steps = some st') : pushing.Reachable st' :=
  h.foldlM (fun _ _ _ hstep => hstep) hrun

def threeSends : List Step := [
  .send 31, .send 41, .send 51, .complete 1 5 (.status 204), .enqueue 0, .take .fastAck,
  .complete 0 8 (.status 200), .lock 0, .enqueue 0, .drain, .finish,
  .complete 0 (2 * second) (.status 500), .enqueue 0, .take .nack, .lock 0, .finish]

theorem threeSends_runs : (runs opened threeSends).isSome := by decide +kernel

def afterThree : State := (runs opened threeSends).get threeSends_runs

theorem push_accounting_three :
    afterThree.reported.Subperm [(true, 41), (true, 31), (false, 51)] ∧
      1 = returnedLimit afterThree.returned := by
  have hreach : pushing.Reachable afterThree :=
    runs_reachable (.start rfl) (Option.some_get threeSends_runs).symm
  obtain ⟨hsub, -, -, -, -, hlimit⟩ := push_accounting hreach
  have hverdicts : afterThree.completed.map Completion.verdict =
      [(true, 41), (true, 31), (false, 51)] := by decide +kernel
  have hone : afterThree.conn.maxMessages = 1 := by decide +kernel
  exact ⟨hverdicts ▸ hsub, hone ▸ hlimit⟩

end Mmmbbb.PushConnection
