import Mmmbbb.Relaying

/-!
# Waiting for another process

Several processes share a database. In each of them the hooks of a notifier
hand what is published or modified to its queue, which sends it to every
process that listens. A process whose connection was down wakes everything
when it listens again. A queue that gets no connection keeps its sets for the
next round; a statement that fails loses its event.
-/

set_option autoImplicit false

namespace Mmmbbb.Processes
open Programs Mmmbbb.Schema Mmmbbb.Relaying
open Mmmbbb.Notify (Registry Wait Ends Stepped)

def listenChannels : List String :=
  [subPublishedChannelName, topicModifiedChannelName, subModifiedChannelName]

/-- A connection that listens to some of the channels, and one that listens to
all of them after everything has been woken; each with what it has been sent. -/
inductive Connection
  | listening (channels : ℕ) (received : List Notification)
  | awake (received : List Notification)
  deriving DecidableEq

def Connection.channels : Connection → List String
  | .listening n _ => listenChannels.take n
  | .awake _ => listenChannels

def Connection.heard (k : Connection) (ns : List Notification) : List Notification :=
  ns.filter (fun n => decide (n.channel ∈ k.channels))

def Connection.deliver (ns : List Notification) : Connection → Connection
  | .listening n received =>
    .listening n (received ++ (Connection.listening n received).heard ns)
  | .awake received => .awake (received ++ (Connection.awake received).heard ns)

structure Process where
  registry : Registry
  queue : State
  conn : Option Connection
  started : List Notify.Event

/-- What a call under the lock leaves. The default is for the panic of closing
a channel twice, which `next_ok` excludes. -/
def next (r : Registry) (e : Notify.Event) : Registry := (Notify.step r e).getD r

def Process.initial : Process where
  registry := [Notify.HookKind.publish, .topicModify, .subscriptionModify].foldl
    (fun r kind => Notify.addHook kind r) .initial
  queue := Relaying.initial
  conn := none
  started := []

inductive Step
  | call (e : Notify.Event)
  | relay (e : Relaying.Step)
  /-- No connection for the round: nothing is sent and the sets are kept. -/
  | noConn
  /-- The statements of some events fail. -/
  | sendSome (ps : List UUID) (ts ss : List IDName) (failed : List Event)
  | connect
  | listen
  | wakeAll
  | receive
  | wake (i : ℕ)
  | lose

def hooked (r : Registry) : Notify.Event → Option Event
  | .wakePublishListeners onlyInternal id =>
    if Notify.reaches onlyInternal r.pubNotifyHooks then none else some (.published id)
  | .wakeTopicListeners onlyInternal id name =>
    if Notify.reaches onlyInternal r.topicModifyHooks then none
    else some (.topicModified ⟨id, name⟩)
  | .wakeSubscriptionListeners onlyInternal id name =>
    if Notify.reaches onlyInternal r.subModifyHooks then none
    else some (.subModified ⟨id, name⟩)
  | _ => none

def enqueue : Event → Relaying.Step
  | .published id => .publish id
  | .topicModified k => .modifyTopic k
  | .subModified k => .modifySub k

def announce : Event → Notify.Event
  | .published id => .wakePublishListeners false id
  | .topicModified k => .wakeTopicListeners false k.id k.name
  | .subModified k => .wakeSubscriptionListeners false k.id k.name

def Room (st : State) : Event → Prop
  | .published _ => st.pubNotifies.length < pubCapacity
  | .topicModified _ => st.topicNotifies.length < modifyCapacity
  | .subModified _ => st.subNotifies.length < modifyCapacity

instance (st : State) (x : Event) : Decidable (Room st x) := by
  cases x <;> unfold Room <;> infer_instance

def installs : Notify.Event → Bool
  | .addHook _ => true
  | .removeHook _ _ => true
  | _ => false

def enqueues : Relaying.Step → Bool
  | .publish _ => true
  | .modifyTopic _ => true
  | .modifySub _ => true
  | _ => false

/-- The lock is held while a hook waits for its channel. -/
def Process.call (text : PlainText) (p : Process) (e : Notify.Event) : Process :=
  if installs e then p
  else match hooked p.registry e with
    | none => { p with registry := next p.registry e }
    | some x =>
      if Room p.queue x then
        { p with registry := next p.registry e, queue := p.queue.after text (enqueue x) }
      else p

def Process.after (text : PlainText) (p : Process) : Step → Process
  | .call e => p.call text e
  | .relay e => if enqueues e then p else { p with queue := p.queue.after text e }
  | .noConn =>
    if p.queue.phase = .sending then { p with queue := { p.queue with phase := .waiting } } else p
  | .sendSome ps ts ss _ => { p with queue := p.queue.after text (.send ps ts ss) }
  | .connect =>
    match p.conn with
    | none => { p with conn := some (.listening 0 []) }
    | some _ => p
  | .listen =>
    match p.conn with
    | some (.listening n received) =>
      if n < listenChannels.length then { p with conn := some (.listening (n + 1) received) } else p
    | _ => p
  | .wakeAll =>
    match p.conn with
    | some (.listening n received) =>
      if n < listenChannels.length then p
      else { p with registry := next p.registry .wakeAllInternal, conn := some (.awake received) }
    | _ => p
  | .receive =>
    match p.conn with
    | some (.awake (n :: rest)) =>
      { p with conn := some (.awake rest), started := p.started ++ receive text n }
    | _ => p
  | .wake i =>
    match p.started[i]? with
    | none => p
    | some e => { p with registry := next p.registry e, started := p.started.eraseIdx i }
  | .lose => { p with conn := none }

def Process.sent (text : PlainText) (p : Process) : Step → List Notification
  | .relay (.send ps ts ss) =>
    if p.queue.Sends ps ts ss then (sendEvents ps ts ss).map (Event.notify text) else []
  | .sendSome ps ts ss failed =>
    if p.queue.Sends ps ts ss then
      ((sendEvents ps ts ss).filter (fun x => decide (x ∉ failed))).map (Event.notify text)
    else []
  | _ => []

def Process.deliver (ns : List Notification) (p : Process) : Process :=
  { p with conn := p.conn.map (Connection.deliver ns) }

section
variable {ι : Type} [DecidableEq ι]

def after (text : PlainText) (s : ι → Process) (e : ι × Step) : ι → Process :=
  fun q => (Function.update s e.1 ((s e.1).after text e.2) q).deliver ((s e.1).sent text e.2)

def run (text : PlainText) (es : List (ι × Step)) : ι → Process :=
  es.foldl (after text) (fun _ => .initial)

end

section
variable {r r' : Registry} {e : Notify.Event} {w : Wait} {c : WaitSets.Channel}

theorem next_ok (hs : Notify.Sound r) (e : Notify.Event) : Notify.step r e = some (next r e) := by
  obtain ⟨r', hr', -⟩ := Notify.step_stepped hs e
  rw [next, hr', Option.getD_some]

theorem next_stepped (hs : Notify.Sound r) (e : Notify.Event) : Stepped r e (next r e) :=
  Notify.stepped_of hs (next_ok hs e)

theorem next_closed (hs : Notify.Sound r) (e : Notify.Event) (hc : c ∈ r.closed) :
    c ∈ (next r e).closed := by
  have hst := next_stepped hs e
  generalize next r e = r' at hst
  cases hst with
  | await _ =>
    rw [Notify.await_closed]
    exact hc
  | cancel _ =>
    rw [Notify.cancel_closed]
    exact hc
  | wake _ _ hw => exact (hw.closed c).mpr (Or.inl hc)

theorem next_waiting (hs : Notify.Sound r) (hc : c ∈ r.waiting w)
    (he : e ≠ .cancel w (some c)) :
    c ∈ (next r e).closed ∨ c ∈ (next r e).waiting w ∧ ¬ Ends r e w := by
  rcases (next_stepped hs e).registered hs hc with ⟨-, hclosed, -⟩ | ⟨hcancel, -, -⟩ |
      ⟨hends, -, hmem⟩
  · exact Or.inl hclosed
  · exact absurd hcancel he
  · exact Or.inr ⟨hmem, hends⟩

end

def queued (st : State) : List Event :=
  st.pubNotifies.map .published ++ st.topicNotifies.map .topicModified ++
    st.subNotifies.map .subModified ++ st.dequeued

def onChannels (st : State) : ℕ :=
  st.pubNotifies.length + st.topicNotifies.length + st.subNotifies.length

/-- No round sends more than this. -/
def held (st : State) : ℕ := onChannels st + (st.pn.card + st.tn.card + st.sn.card)

structure Drained (st : State) : Prop where
  channels : onChannels st = 0
  phase : st.phase = .waiting

inductive Moved (text : PlainText) (st : State) : Relaying.Step → State → Prop
  | still (e : Relaying.Step) : Moved text st e st
  | enqueued {x : Event} {st' : State} :
      (∀ y, y ∈ queued st' ↔ y = x ∨ y ∈ queued st) → Moved text st (enqueue x) st'
  | took {e : Relaying.Step} {st' : State} : enqueues e = false →
      (∀ y, y ∈ queued st' ↔ y ∈ queued st) → onChannels st' + 1 = onChannels st →
      held st' ≤ held st → Moved text st e st'
  | drained : st.phase = .draining → Moved text st .drained { st with phase := .sending }
  | sent {ps : List UUID} {ts ss : List IDName} {st' : State} : st.Sends ps ts ss →
      Moved text st (.send ps ts ss) st'

section
variable {text : PlainText} {st st' : State} {e : Relaying.Step} {x : Event}

theorem mem_queued {y : Event} : y ∈ queued st ↔
    (∃ id ∈ st.pubNotifies, y = .published id) ∨ (∃ k ∈ st.topicNotifies, y = .topicModified k) ∨
      (∃ k ∈ st.subNotifies, y = .subModified k) ∨ y ∈ st.dequeued := by
  simp only [queued, List.mem_append, List.mem_map, or_assoc, eq_comm]

theorem took_pub {p : UUID} {rest : List UUID} (h : st.pubNotifies = p :: rest) :
    Moved text st .takePub { st with
      pubNotifies := rest
      pn := insert p st.pn
      phase := st.phase.next (insert p st.pn).card
      dequeued := st.dequeued ++ [.published p] } := by
  have hcard := Finset.card_insert_le p st.pn
  refine .took rfl (fun y => ?_) ?_ ?_
  · simp only [mem_queued, h, List.exists_mem_cons_iff, List.mem_append, List.mem_singleton]
    simp only [or_assoc, or_comm, or_left_comm]
  · simp only [onChannels, h, List.length_cons]
    omega
  · simp only [held, onChannels, h, List.length_cons]
    omega

theorem took_topic {t : IDName} {rest : List IDName} (h : st.topicNotifies = t :: rest) :
    Moved text st .takeTopic { st with
      topicNotifies := rest
      tn := insert t st.tn
      phase := st.phase.next (insert t st.tn).card
      dequeued := st.dequeued ++ [.topicModified t] } := by
  have hcard := Finset.card_insert_le t st.tn
  refine .took rfl (fun y => ?_) ?_ ?_
  · simp only [mem_queued, h, List.exists_mem_cons_iff, List.mem_append, List.mem_singleton]
    simp only [or_assoc, or_comm, or_left_comm]
  · simp only [onChannels, h, List.length_cons]
    omega
  · simp only [held, onChannels, h, List.length_cons]
    omega

theorem took_sub {k : IDName} {rest : List IDName} (h : st.subNotifies = k :: rest) :
    Moved text st .takeSub { st with
      subNotifies := rest
      sn := insert k st.sn
      phase := st.phase.next (insert k st.sn).card
      dequeued := st.dequeued ++ [.subModified k] } := by
  have hcard := Finset.card_insert_le k st.sn
  refine .took rfl (fun y => ?_) ?_ ?_
  · simp only [mem_queued, h, List.exists_mem_cons_iff, List.mem_append, List.mem_singleton]
    simp only [or_assoc, or_comm, or_left_comm]
  · simp only [onChannels, h, List.length_cons]
    omega
  · simp only [held, onChannels, h, List.length_cons]
    omega

theorem enqueued_pub (id : UUID) : Moved text st (.publish id)
    { st with pubNotifies := st.pubNotifies ++ [id] } := by
  refine .enqueued (x := .published id) fun y => ?_
  simp only [mem_queued, List.mem_append, List.mem_singleton, or_and_right, exists_or,
    exists_eq_left]
  simp only [or_assoc, or_comm, or_left_comm]

theorem enqueued_topic (k : IDName) : Moved text st (.modifyTopic k)
    { st with topicNotifies := st.topicNotifies ++ [k] } := by
  refine .enqueued (x := .topicModified k) fun y => ?_
  simp only [mem_queued, List.mem_append, List.mem_singleton, or_and_right, exists_or,
    exists_eq_left]
  simp only [or_assoc, or_comm, or_left_comm]

theorem enqueued_sub (k : IDName) : Moved text st (.modifySub k)
    { st with subNotifies := st.subNotifies ++ [k] } := by
  refine .enqueued (x := .subModified k) fun y => ?_
  simp only [mem_queued, List.mem_append, List.mem_singleton, or_and_right, exists_or,
    exists_eq_left]
  simp only [or_assoc, or_comm, or_left_comm]

theorem after_moved (text : PlainText) (st : State) (e : Relaying.Step) :
    Moved text st e (st.after text e) := by
  cases e with
  | publish id =>
    simp only [State.after]
    split
    · exact enqueued_pub id
    · exact .still _
  | modifyTopic k =>
    simp only [State.after]
    split
    · exact enqueued_topic k
    · exact .still _
  | modifySub k =>
    simp only [State.after]
    split
    · exact enqueued_sub k
    · exact .still _
  | takePub =>
    simp only [State.after]
    split
    · exact .still _
    · rename_i hpub
      split
      · exact .still _
      · exact took_pub hpub
  | takeTopic =>
    simp only [State.after]
    split
    · exact .still _
    · rename_i htopic
      split
      · exact .still _
      · exact took_topic htopic
  | takeSub =>
    simp only [State.after]
    split
    · exact .still _
    · rename_i hsub
      split
      · exact .still _
      · exact took_sub hsub
  | drained =>
    simp only [State.after]
    split
    · rename_i hempty
      exact .drained hempty.1
    · exact .still _
  | send ps ts ss =>
    simp only [State.after]
    split
    · rename_i hsends
      exact .sent hsends
    · exact .still _

theorem queued_enqueue (h : Room st x) : x ∈ queued (st.after text (enqueue x)) := by
  cases x with
  | published id =>
    have hroom : st.pubNotifies.length < pubCapacity := h
    simp [enqueue, State.after, hroom, queued]
  | topicModified k =>
    have hroom : st.topicNotifies.length < modifyCapacity := h
    simp [enqueue, State.after, hroom, queued]
  | subModified k =>
    have hroom : st.subNotifies.length < modifyCapacity := h
    simp [enqueue, State.after, hroom, queued]

variable (text) in
/-- It stays so until a round is sent, and that round sends it. -/
theorem queued_after (h : Relaying.Sound st) (hx : x ∈ queued st) (e : Relaying.Step) :
    x ∈ queued (st.after text e) ∨
      ∃ ps ts ss, e = .send ps ts ss ∧ st.Sends ps ts ss ∧ x ∈ sendEvents ps ts ss := by
  by_cases hsend : ∃ ps ts ss, e = .send ps ts ss ∧ st.Sends ps ts ss
  · obtain ⟨ps, ts, ss, rfl, hsends⟩ := hsend
    by_cases hd : x ∈ st.dequeued
    · exact Or.inr ⟨ps, ts, ss, rfl, hsends, (mem_sent h hsends).mpr (Or.inl hd)⟩
    · left
      rw [mem_queued] at hx ⊢
      simpa [State.after, hsends, hd] using hx
  · left
    have hmoved := after_moved text st e
    generalize st.after text e = st' at hmoved
    cases hmoved with
    | still _ => exact hx
    | enqueued hmem => exact (hmem x).mpr (Or.inr hx)
    | took _ hmem _ _ => exact (hmem x).mpr hx
    | drained _ => exact hx
    | sent hsends => exact absurd ⟨_, _, _, rfl, hsends⟩ hsend

end

structure SameHooks (r r' : Registry) : Prop where
  pub : r'.pubNotifyHooks = r.pubNotifyHooks
  topic : r'.topicModifyHooks = r.topicModifyHooks
  sub : r'.subModifyHooks = r.subModifyHooks

section
variable {r r' : Registry} {e : Notify.Event}

theorem step_hooks (he : installs e = false) (h : Notify.step r e = some r') : SameHooks r r' := by
  cases e with
  | await w =>
    obtain rfl := Option.some.inj h
    cases w <;> exact ⟨rfl, rfl, rfl⟩
  | cancel w c =>
    obtain rfl := Option.some.inj h
    cases w <;> cases c <;> exact ⟨rfl, rfl, rfl⟩
  | wakePublishListeners onlyInternal id =>
    simp only [Notify.step, Notify.wakePublishListeners] at h
    split at h
    · obtain ⟨st, -, h⟩ := Option.bind_eq_some_iff.mp h
      obtain rfl := Option.some.inj h
      exact ⟨rfl, rfl, rfl⟩
    · exact Option.some.inj h ▸ ⟨rfl, rfl, rfl⟩
  | wakeTopicListeners onlyInternal id name =>
    simp only [Notify.step, Notify.wakeTopicListeners] at h
    split at h
    · obtain ⟨st, -, h⟩ := Option.bind_eq_some_iff.mp h
      obtain rfl := Option.some.inj h
      exact ⟨rfl, rfl, rfl⟩
    · exact Option.some.inj h ▸ ⟨rfl, rfl, rfl⟩
  | wakeSubscriptionListeners onlyInternal id name =>
    simp only [Notify.step, Notify.wakeSubscriptionListeners] at h
    split at h
    · obtain ⟨st, -, h⟩ := Option.bind_eq_some_iff.mp h
      obtain rfl := Option.some.inj h
      exact ⟨rfl, rfl, rfl⟩
    · exact Option.some.inj h ▸ ⟨rfl, rfl, rfl⟩
  | wakeAllInternal =>
    obtain ⟨_, -, h⟩ := Option.bind_eq_some_iff.mp h
    obtain ⟨_, -, h⟩ := Option.bind_eq_some_iff.mp h
    obtain ⟨_, -, h⟩ := Option.bind_eq_some_iff.mp h
    obtain ⟨_, -, h⟩ := Option.bind_eq_some_iff.mp h
    obtain ⟨_, -, h⟩ := Option.bind_eq_some_iff.mp h
    obtain rfl := Option.some.inj h
    exact ⟨rfl, rfl, rfl⟩
  | addHook kind => cases he
  | removeHook kind handle => cases he

theorem hooked_call (hpub : r.pubNotifyHooks ≠ ∅) (htopic : r.topicModifyHooks ≠ ∅)
    (hsub : r.subModifyHooks ≠ ∅) (x : Event) : hooked r (announce x) = some x := by
  cases x <;> simp [hooked, announce, Notify.reaches, hpub, htopic, hsub]

end

def isWake : Notify.Event → Bool
  | .wakePublishListeners _ _ => true
  | .wakeTopicListeners _ _ _ => true
  | .wakeSubscriptionListeners _ _ _ => true
  | .wakeAllInternal => true
  | _ => false

structure Internal (e : Notify.Event) : Prop where
  wake : isWake e = true
  unhooked : ∀ r, hooked r e = none

inductive Acts (text : PlainText) (p : Process) : Step → Process → Prop
  | still (e : Step) : Acts text p e p
  | called {e : Notify.Event} : installs e = false →
      Acts text p (.call e) { p with registry := next p.registry e }
  | handed {e : Notify.Event} {x : Event} : installs e = false → hooked p.registry e = some x →
      Room p.queue x → Acts text p (.call e)
        { p with registry := next p.registry e, queue := p.queue.after text (enqueue x) }
  | relayed {e : Relaying.Step} : enqueues e = false →
      Acts text p (.relay e) { p with queue := p.queue.after text e }
  | unsent : p.queue.phase = .sending →
      Acts text p .noConn { p with queue := { p.queue with phase := .waiting } }
  | someSent {ps : List UUID} {ts ss : List IDName} {failed : List Event} :
      Acts text p (.sendSome ps ts ss failed)
        { p with queue := p.queue.after text (.send ps ts ss) }
  | connected : p.conn = none → Acts text p .connect { p with conn := some (.listening 0 []) }
  | listened {n : ℕ} {received : List Notification} : p.conn = some (.listening n received) →
      n < listenChannels.length →
      Acts text p .listen { p with conn := some (.listening (n + 1) received) }
  | awoke {n : ℕ} {received : List Notification} : p.conn = some (.listening n received) →
      Acts text p .wakeAll
        { p with registry := next p.registry .wakeAllInternal, conn := some (.awake received) }
  | received {n : Notification} {rest : List Notification} : p.conn = some (.awake (n :: rest)) →
      Acts text p .receive
        { p with conn := some (.awake rest), started := p.started ++ receive text n }
  | woke {i : ℕ} {e : Notify.Event} : p.started[i]? = some e → Acts text p (.wake i)
      { p with registry := next p.registry e, started := p.started.eraseIdx i }
  | lost : Acts text p .lose { p with conn := none }

theorem process_acts (text : PlainText) (p : Process) (e : Step) :
    Acts text p e (p.after text e) := by
  cases e with
  | call e =>
    simp only [Process.after, Process.call]
    split
    · exact .still _
    · rename_i hplain
      rw [Bool.not_eq_true] at hplain
      split
      · exact .called hplain
      · rename_i x hx
        split
        · rename_i hroom
          exact .handed hplain hx hroom
        · exact .still _
  | relay e =>
    simp only [Process.after]
    split
    · exact .still _
    · rename_i hloop
      exact .relayed (Bool.not_eq_true _ ▸ hloop)
  | noConn =>
    simp only [Process.after]
    split
    · rename_i hsending
      exact .unsent hsending
    · exact .still _
  | sendSome ps ts ss failed => exact .someSent
  | connect =>
    simp only [Process.after]
    split
    · rename_i hnone
      exact .connected hnone
    · exact .still _
  | listen =>
    simp only [Process.after]
    split
    · rename_i hconn
      split
      · rename_i hlt
        exact .listened hconn hlt
      · exact .still _
    · exact .still _
  | wakeAll =>
    simp only [Process.after]
    split
    · rename_i hconn
      split
      · exact .still _
      · exact .awoke hconn
    · exact .still _
  | receive =>
    simp only [Process.after]
    split
    · rename_i hconn
      exact .received hconn
    · exact .still _
  | wake i =>
    simp only [Process.after]
    split
    · exact .still _
    · rename_i hget
      exact .woke hget
  | lose => exact .lost

/-- The registry of a process does not panic, its hooks are those of the
notifier, and what its goroutines are started for stays within it. -/
structure Healthy (p : Process) : Prop where
  registry : Notify.Sound p.registry
  pub : p.registry.pubNotifyHooks ≠ ∅
  topic : p.registry.topicModifyHooks ≠ ∅
  sub : p.registry.subModifyHooks ≠ ∅
  queue : Relaying.Sound p.queue
  started : ∀ e ∈ p.started, Internal e

section
variable {text : PlainText} {p : Process} {e : Notify.Event} {n : Notification} {x : Event}

theorem Internal.plain (h : Internal e) : installs e = false := by
  have hwake := h.wake
  cases e <;> first | rfl | cases hwake

theorem receive_internal (he : e ∈ receive text n) : Internal e := by
  have hpub : ∀ id, Internal (.wakePublishListeners true id) := fun _ => ⟨rfl, fun _ => rfl⟩
  have htopic : ∀ id name, Internal (.wakeTopicListeners true id name) :=
    fun _ _ => ⟨rfl, fun _ => rfl⟩
  have hsub : ∀ id name, Internal (.wakeSubscriptionListeners true id name) :=
    fun _ _ => ⟨rfl, fun _ => rfl⟩
  unfold receive at he
  split at he
  · split at he
    · cases he
    · obtain rfl := List.mem_singleton.mp he
      exact hpub _
  · split at he
    · split at he
      · cases he
      · obtain rfl := List.mem_singleton.mp he
        exact htopic _ _
    · split at he
      · split at he
        · cases he
        · rcases List.mem_cons.mp he with rfl | he
          · exact hsub _ _
          · obtain rfl := List.mem_singleton.mp he
            exact hpub _
      · cases he

theorem Healthy.hooked (h : Healthy p) (x : Event) : hooked p.registry (announce x) = some x :=
  hooked_call h.pub h.topic h.sub x

theorem Healthy.next (h : Healthy p) (he : installs e = false) {conn : Option Connection}
    {started : List Notify.Event} (hstarted : ∀ e ∈ started, Internal e) {queue : State}
    (hqueue : Relaying.Sound queue) : Healthy ⟨next p.registry e, queue, conn, started⟩ := by
  have hsame := step_hooks he (next_ok h.registry e)
  constructor
  · exact (next_stepped h.registry e).sound h.registry
  · exact hsame.pub ▸ h.pub
  · exact hsame.topic ▸ h.topic
  · exact hsame.sub ▸ h.sub
  · exact hqueue
  · exact hstarted

theorem healthy_after (h : Healthy p) (e : Step) : Healthy (p.after text e) := by
  have hwith : ∀ conn, Healthy { p with conn := conn } :=
    fun _ => ⟨h.registry, h.pub, h.topic, h.sub, h.queue, h.started⟩
  have hqueued : ∀ queue, Relaying.Sound queue → Healthy { p with queue := queue } :=
    fun _ hq => ⟨h.registry, h.pub, h.topic, h.sub, hq, h.started⟩
  have hact := process_acts text p e
  generalize p.after text e = p' at hact
  cases hact with
  | still _ => exact h
  | called hplain => exact h.next hplain h.started h.queue
  | handed hplain _ _ => exact h.next hplain h.started (sound_after h.queue _)
  | relayed _ => exact hqueued _ (sound_after h.queue _)
  | unsent _ => exact hqueued _ ⟨h.queue.pub, h.queue.topic, h.queue.sub⟩
  | someSent => exact hqueued _ (sound_after h.queue _)
  | connected _ => exact hwith _
  | listened _ _ => exact hwith _
  | awoke _ => exact h.next rfl h.started h.queue
  | received _ =>
    refine ⟨h.registry, h.pub, h.topic, h.sub, h.queue, fun e he => ?_⟩
    rcases List.mem_append.mp he with he | he
    · exact h.started e he
    · exact receive_internal he
  | woke hget =>
    have hmem := List.mem_of_getElem? hget
    exact h.next (h.started _ hmem).plain
      (fun e he => h.started e (List.mem_of_mem_eraseIdx he)) h.queue
  | lost => exact hwith _

theorem healthy_deliver (h : Healthy p) (ns : List Notification) : Healthy (p.deliver ns) :=
  ⟨h.registry, h.pub, h.topic, h.sub, h.queue, h.started⟩

theorem initial_healthy : Healthy Process.initial where
  registry := by
    have hadd : ∀ r kind, Notify.Sound r → Notify.Sound (Notify.addHook kind r) :=
      fun r kind hs => (next_stepped hs (.addHook kind)).sound hs
    exact hadd _ .subscriptionModify (hadd _ .topicModify (hadd _ .publish Notify.initial_sound))
  pub := Finset.insert_ne_empty _ _
  topic := Finset.insert_ne_empty _ _
  sub := Finset.insert_ne_empty _ _
  queue := initial_sound
  started := fun _ he => by cases he

end

section
variable {ι : Type} [DecidableEq ι] {text : PlainText} {s : ι → Process}

theorem healthy_step (h : ∀ q, Healthy (s q)) (e : ι × Step) (q : ι) :
    Healthy (after text s e q) := by
  refine healthy_deliver ?_ _
  by_cases hq : q = e.1
  · subst hq
    rw [Function.update_self]
    exact healthy_after (h _) _
  · rw [Function.update_of_ne hq]
    exact h q

theorem healthy_run (text : PlainText) (es : List (ι × Step)) (q : ι) :
    Healthy (run text es q) := by
  have hall : ∀ q, Healthy (run text es q) :=
    foldl_invariant (I := fun s : ι → Process => ∀ q, Healthy (s q))
      (fun _ e h => healthy_step h e) (fun _ => initial_healthy) es
  exact hall q

end

def Wakes (x : Event) (w : Wait) : Prop := ∃ e ∈ x.wakes, Ends .initial e w

/-- What has been sent is received, and the wakes for it are run. A process that
is not awake does not miss it either. -/
inductive Reaching (text : PlainText) (q : Process) (x : Event) (w : Wait) : Prop
  | asleep : (∀ received, q.conn ≠ some (.awake received)) → Reaching text q x w
  | received {received : List Notification} : q.conn = some (.awake received) →
      x.notify text ∈ received → Reaching text q x w
  | started {e : Notify.Event} : e ∈ q.started → Ends .initial e w → Reaching text q x w

/-- The waiter has been woken, or the event is on its way to it. -/
def Followed (text : PlainText) (p q : Process) (x : Event) (w : Wait) (c : WaitSets.Channel) :
    Prop :=
  c ∈ q.registry.closed ∨
    c ∈ q.registry.waiting w ∧ (x ∈ queued p.queue ∨ Reaching text q x w)

section
variable {text : PlainText} {p q : Process} {x : Event} {w : Wait} {c : WaitSets.Channel}

theorem ends_internal {e : Notify.Event} (he : Internal e) (hends : Ends .initial e w)
    (r : Registry) : Ends r e w := by
  have hnone := he.unhooked Process.initial.registry
  cases e with
  | await w' => exact hends
  | cancel w' c => exact hends
  | wakePublishListeners onlyInternal id =>
    cases onlyInternal with
    | false => cases hnone.symm.trans (initial_healthy.hooked (.published id))
    | true => cases w <;> exact hends
  | wakeTopicListeners onlyInternal id name =>
    cases onlyInternal with
    | false => cases hnone.symm.trans (initial_healthy.hooked (.topicModified ⟨id, name⟩))
    | true => cases w <;> exact hends
  | wakeSubscriptionListeners onlyInternal id name =>
    cases onlyInternal with
    | false => cases hnone.symm.trans (initial_healthy.hooked (.subModified ⟨id, name⟩))
    | true => cases w <;> exact hends
  | wakeAllInternal => exact hends
  | addHook kind => exact hends
  | removeHook kind handle => exact hends

theorem notify_channel (text : PlainText) (x : Event) :
    (x.notify text).channel ∈ listenChannels := by
  cases x <;> simp [Event.notify, listenChannels]

theorem deliver_conn (ns : List Notification) (p : Process) :
    (p.deliver ns).conn = p.conn.map (Connection.deliver ns) := rfl

theorem Reaching.deliver (h : Reaching text q x w) (ns : List Notification) :
    Reaching text (q.deliver ns) x w := by
  cases h with
  | asleep hconn =>
    refine .asleep fun received heq => ?_
    rw [deliver_conn] at heq
    obtain ⟨k, hk, hdeliver⟩ := Option.map_eq_some_iff.mp heq
    cases k with
    | listening n rest => cases hdeliver
    | awake rest => exact hconn rest hk
  | @received rest hconn hmem =>
    have hnew : (q.deliver ns).conn =
        some (.awake (rest ++ (Connection.awake rest).heard ns)) := by
      rw [deliver_conn, hconn]
      rfl
    exact .received hnew (List.mem_append_left _ hmem)
  | started he hends => exact .started he hends

theorem reaching_sent {ns : List Notification} (hx : x.notify text ∈ ns) (q : Process) :
    Reaching text (q.deliver ns) x w := by
  by_cases hawake : ∃ rest, q.conn = some (.awake rest)
  · obtain ⟨rest, hrest⟩ := hawake
    have hheard : x.notify text ∈ (Connection.awake rest).heard ns :=
      List.mem_filter.mpr ⟨hx, decide_eq_true (notify_channel text x)⟩
    have hnew : (q.deliver ns).conn =
        some (.awake (rest ++ (Connection.awake rest).heard ns)) := by
      rw [deliver_conn, hrest]
      rfl
    exact .received hnew (List.mem_append_right rest hheard)
  · exact Reaching.deliver (.asleep fun received heq => hawake ⟨received, heq⟩) ns

def Keeps (x : Event) : Step → Prop
  | .sendSome _ _ _ failed => x ∉ failed
  | _ => True

instance (x : Event) (e : Step) : Decidable (Keeps x e) := by
  cases e <;> unfold Keeps <;> infer_instance

theorem queued_step (h : Healthy p) (hx : x ∈ queued p.queue) {e : Step} (he : Keeps x e) :
    x ∈ queued (p.after text e).queue ∨ x.notify text ∈ p.sent text e := by
  have hact := process_acts text p e
  generalize p.after text e = p' at hact
  cases hact with
  | @handed _ y _ _ _ =>
    rcases queued_after text h.queue hx (enqueue y) with hx | ⟨_, _, _, hsend, -, -⟩
    · exact Or.inl hx
    · cases y <;> cases hsend
  | @relayed e _ =>
    rcases queued_after text h.queue hx e with hx | ⟨ps, ts, ss, rfl, hsends, hmem⟩
    · exact Or.inl hx
    · right
      rw [Process.sent, if_pos hsends]
      exact List.mem_map_of_mem hmem
  | @someSent ps ts ss failed =>
    rcases queued_after text h.queue hx (.send ps ts ss) with hx | ⟨_, _, _, hsend, hsends, hmem⟩
    · exact Or.inl hx
    · right
      obtain ⟨rfl, rfl, rfl⟩ := Relaying.Step.send.inj hsend
      rw [Process.sent, if_pos hsends]
      exact List.mem_map_of_mem (List.mem_filter.mpr ⟨hmem, decide_eq_true he⟩)
  | _ => exact Or.inl hx

variable (text) in
theorem waiting_step (h : Healthy q) (hc : c ∈ q.registry.waiting w) {e : Step}
    (he : e ≠ .call (.cancel w (some c))) :
    c ∈ (q.after text e).registry.closed ∨ c ∈ (q.after text e).registry.waiting w := by
  have hnext : ∀ e', e' ≠ .cancel w (some c) →
      c ∈ (next q.registry e').closed ∨ c ∈ (next q.registry e').waiting w :=
    fun e' he' => (next_waiting h.registry hc he').imp_right And.left
  have hact := process_acts text q e
  generalize q.after text e = q' at hact
  cases hact with
  | called _ => exact hnext _ fun heq => he (congrArg _ heq)
  | handed _ _ _ => exact hnext _ fun heq => he (congrArg _ heq)
  | awoke _ => exact hnext _ (by simp)
  | woke hget =>
    have hwake := (h.started _ (List.mem_of_getElem? hget)).wake
    refine hnext _ fun heq => ?_
    rw [heq] at hwake
    cases hwake
  | _ => exact Or.inr hc

theorem closed_step (h : Healthy q) (hc : c ∈ q.registry.closed) (e : Step) :
    c ∈ (q.after text e).registry.closed := by
  have hact := process_acts text q e
  generalize q.after text e = q' at hact
  cases hact with
  | called _ => exact next_closed h.registry _ hc
  | handed _ _ _ => exact next_closed h.registry _ hc
  | awoke _ => exact next_closed h.registry _ hc
  | woke _ => exact next_closed h.registry _ hc
  | _ => exact hc

/-- What reaches a process still does, or the waiter has been woken. -/
theorem reaching_step (h : Healthy q) (hc : c ∈ q.registry.waiting w) (hx : Wakes x w)
    (hreach : Reaching text q x w) (e : Step) :
    c ∈ (q.after text e).registry.closed ∨ Reaching text (q.after text e) x w := by
  have hends : ∀ e', Ends q.registry e' w → c ∈ (next q.registry e').closed := by
    intro e' he'
    rcases (next_stepped h.registry e').registered h.registry hc with ⟨-, hclosed, -⟩ |
        ⟨hcancel, -, -⟩ | ⟨hnot, -, -⟩
    · exact hclosed
    · rw [hcancel] at he'
      exact he'.elim
    · exact absurd he' hnot
  have hact := process_acts text q e
  generalize q.after text e = q' at hact
  cases hreach with
  | asleep hconn =>
    cases hact with
    | connected _ => exact Or.inr (.asleep (by simp))
    | listened _ _ => exact Or.inr (.asleep (by simp))
    | awoke _ => exact Or.inl (hends _ trivial)
    | received hawake => exact absurd hawake (hconn _)
    | lost => exact Or.inr (.asleep (by simp))
    | _ => exact Or.inr (.asleep hconn)
  | received hconn hmem =>
    cases hact with
    | connected hnone => cases hnone.symm.trans hconn
    | listened hlistening _ => cases hlistening.symm.trans hconn
    | awoke hlistening => cases hlistening.symm.trans hconn
    | @received n rest hawake =>
      obtain rfl := Connection.awake.inj (Option.some.inj (hawake.symm.trans hconn))
      rcases List.mem_cons.mp hmem with rfl | hmem
      · obtain ⟨e', he', hwakes⟩ := hx
        rw [← receive_notify text] at he'
        exact Or.inr (.started (List.mem_append_right _ he') hwakes)
      · exact Or.inr (.received rfl hmem)
    | lost => exact Or.inr (.asleep (by simp))
    | _ => exact Or.inr (.received hconn hmem)
  | @started e' hmem hwakes =>
    cases hact with
    | received _ => exact Or.inr (.started (List.mem_append_left _ hmem) hwakes)
    | @woke i e'' hget =>
      by_cases heq : e' = e''
      · subst heq
        exact Or.inl (hends _ (ends_internal (h.started _ hmem) hwakes _))
      · obtain ⟨j, hj⟩ := List.mem_iff_getElem?.mp hmem
        have hne : j ≠ i := by
          rintro rfl
          exact heq (Option.some.inj (hj.symm.trans hget))
        refine Or.inr (.started (List.mem_eraseIdx_iff_getElem?.mpr ⟨j, hne, hj⟩) hwakes)
    | _ => exact Or.inr (.started hmem hwakes)

end

section
variable {ι : Type} [DecidableEq ι] {text : PlainText} {s : ι → Process} {p q : ι} {x : Event}
variable {w : Wait} {c : WaitSets.Channel}

theorem followed_after (h : ∀ r, Healthy (s r)) (hx : Wakes x w)
    (hf : Followed text (s p) (s q) x w c) {e : ι × Step}
    (he : e ≠ (q, .call (.cancel w (some c)))) (hkeeps : e.1 = p → Keeps x e.2) :
    Followed text (after text s e p) (after text s e q) x w c := by
  obtain ⟨r, e⟩ := e
  have hother : ∀ o, o ≠ r → after text s (r, e) o = (s o).deliver ((s r).sent text e) := by
    intro o ho
    rw [after, Function.update_of_ne ho]
  have hself : after text s (r, e) r = ((s r).after text e).deliver ((s r).sent text e) := by
    rw [after, Function.update_self]
  -- the registry of the receiver
  have hwait : c ∈ (s q).registry.waiting w →
      c ∈ (after text s (r, e) q).registry.closed ∨
        c ∈ (after text s (r, e) q).registry.waiting w := by
    intro hc
    by_cases hq : q = r
    · subst hq
      rw [hself]
      exact waiting_step text (h q) hc fun heq => he (congrArg _ heq)
    · rw [hother q hq]
      exact Or.inr hc
  -- what is sent in the step reaches the receiver
  have hsent : x.notify text ∈ (s r).sent text e → Reaching text (after text s (r, e) q) x w :=
    fun hmem => reaching_sent hmem _
  rcases hf with hclosed | ⟨hc, hqueued | hreach⟩
  · left
    by_cases hq : q = r
    · subst hq
      rw [hself]
      exact closed_step (h q) hclosed e
    · rw [hother q hq]
      exact hclosed
  · refine (hwait hc).imp_right fun hc' => ⟨hc', ?_⟩
    by_cases hp : p = r
    · subst hp
      rcases queued_step (h p) hqueued (hkeeps rfl) with hqueued | hmem
      · rw [hself]
        exact Or.inl hqueued
      · exact Or.inr (hsent hmem)
    · rw [hother p hp]
      exact Or.inl hqueued
  · by_cases hq : q = r
    · subst hq
      rcases reaching_step (h q) hc hx hreach e with hclosed | hreach
      · rw [hself]
        exact Or.inl hclosed
      · refine (hwait hc).imp_right fun hc' => ⟨hc', Or.inr ?_⟩
        rw [hself]
        exact hreach.deliver _
    · refine (hwait hc).imp_right fun hc' => ⟨hc', Or.inr ?_⟩
      rw [hother q hq]
      exact hreach.deliver _

structure Quiet (p : Process) : Prop where
  queue : Drained p.queue
  conn : p.conn = some (.awake [])
  started : p.started = []

theorem run_append (text : PlainText) (es es' : List (ι × Step)) :
    run text (es ++ es') = es'.foldl (after text) (run text es) := List.foldl_append

theorem Followed.woken {p q : Process} (h : Followed text p q x w c) (hp : x ∉ queued p.queue)
    (hq : Quiet q) : c ∈ q.registry.closed := by
  rcases h with hclosed | ⟨-, hqueued | hreach⟩
  · exact hclosed
  · exact absurd hqueued hp
  · cases hreach with
    | asleep hconn => exact absurd hq.conn (hconn [])
    | received hconn hmem =>
      obtain rfl := Connection.awake.inj (Option.some.inj (hconn.symm.trans hq.conn))
      cases hmem
    | started hmem _ =>
      rw [hq.started] at hmem
      cases hmem

theorem followed_call (h : ∀ r, Healthy (s r)) (hroom : Room (s p).queue x)
    (hc : c ∈ (s q).registry.waiting w) :
    Followed text (after text s (p, .call (announce x)) p)
      (after text s (p, .call (announce x)) q) x w c := by
  have hplain : installs (announce x) = false := by cases x <;> rfl
  have hcall : (s p).after text (.call (announce x)) = { s p with
      registry := next (s p).registry (announce x)
      queue := (s p).queue.after text (enqueue x) } := by
    simp only [Process.after, Process.call, hplain, (h p).hooked x, hroom, if_pos]
    rfl
  have hqueued : x ∈ queued (after text s (p, .call (announce x)) p).queue := by
    rw [after, Function.update_self, hcall]
    exact queued_enqueue hroom
  by_cases hq : q = p
  · subst hq
    have hne : Step.call (announce x) ≠ .call (.cancel w (some c)) := by
      cases x <;> simp [announce]
    have hwait := waiting_step text (h q) hc hne
    rw [after, Function.update_self]
    rw [after, Function.update_self] at hqueued
    exact hwait.imp_right fun hc' => ⟨hc', Or.inl hqueued⟩
  · refine Or.inr ⟨?_, Or.inl hqueued⟩
    rw [after, Function.update_of_ne hq]
    exact hc

/-- Whatever the processes do in between, and whatever connections fail, to
listen or to send: once an event that was handed to a hook has left its queue,
and nothing is under way any more, whoever waited for it in any process has been
woken, unless the wait was cancelled or the statement of the event failed. -/
theorem woken_when_quiet (text : PlainText) (before later : List (ι × Step))
    (hroom : Room (run text before p).queue x) (hc : c ∈ (run text before q).registry.waiting w)
    (hx : Wakes x w) (hkeep : (q, .call (.cancel w (some c))) ∉ later)
    (hfailed : ∀ e ∈ later, e.1 = p → Keeps x e.2)
    (hp : x ∉ queued (run text (before ++ (p, .call (announce x)) :: later) p).queue)
    (hq : Quiet (run text (before ++ (p, .call (announce x)) :: later) q)) :
    c ∈ (run text (before ++ (p, .call (announce x)) :: later) q).registry.closed := by
  have hfollowed : ∀ later : List (ι × Step), (q, .call (.cancel w (some c))) ∉ later →
      (∀ e ∈ later, e.1 = p → Keeps x e.2) →
      Followed text (run text (before ++ (p, .call (announce x)) :: later) p)
        (run text (before ++ (p, .call (announce x)) :: later) q) x w c := by
    intro later
    induction later using List.reverseRecOn with
    | nil =>
      intro _ _
      rw [run_append]
      exact followed_call (healthy_run text before) hroom hc
    | append_singleton later e ih =>
      intro hkeep hfailed
      rw [List.mem_append, not_or] at hkeep
      rw [List.forall_mem_append] at hfailed
      have hne : e ≠ (q, .call (.cancel w (some c))) :=
        fun heq => hkeep.2 (List.mem_singleton.mpr heq.symm)
      rw [← List.cons_append, ← List.append_assoc, run_append text _ [e]]
      exact followed_after (healthy_run text _) hx (ih hkeep.1 hfailed.1) hne
        (hfailed.2 e (List.mem_singleton_self e))
  exact (hfollowed later hkeep hfailed).woken hp hq

end

def listening : List (Bool × Step) :=
  [(true, .connect), (true, .listen), (true, .listen), (true, .listen), (true, .wakeAll),
    (true, .call (.await (.publish 7)))]

/-- There is no connection for the round of the publish. It is sent in the next
one, in which another statement fails. -/
def relaying : List (Bool × Step) :=
  [(false, .relay .takePub), (false, .relay .drained), (false, .noConn),
    (false, .call (announce (.published 8))), (false, .relay .takePub), (false, .relay .drained),
    (false, .sendSome [8, 7] [] [] [.published 8]), (true, .receive), (true, .wake 0)]

def relayed : List (Bool × Step) :=
  listening ++ (false, .call (announce (.published 7))) :: relaying

theorem woken_when_quiet_publish : 0 ∈ (run hexPlain relayed true).registry.closed := by
  have hroom : Room (run hexPlain listening false).queue (.published 7) := by decide +kernel
  have hwaits : 0 ∈ (run hexPlain listening true).registry.waiting (.publish 7) := by
    decide +kernel
  have hwakes : Wakes (.published 7) (.publish 7) :=
    ⟨.wakePublishListeners true 7, by decide, by decide⟩
  have hsent : .published 7 ∉ queued (run hexPlain relayed false).queue := by decide +kernel
  have hdrained : Drained (run hexPlain relayed true).queue :=
    ⟨by decide +kernel, by decide +kernel⟩
  have hconn : (run hexPlain relayed true).conn = some (.awake []) := by decide +kernel
  have hstarted : (run hexPlain relayed true).started = [] := by decide +kernel
  have hkeep : (true, Step.call (.cancel (.publish 7) (some 0))) ∉ relaying := by
    simp [relaying, announce]
  have hkept : ∀ e ∈ relaying, e.1 = false → Keeps (.published 7) e.2 := by decide
  have hquiet : Quiet (run hexPlain relayed true) := ⟨hdrained, hconn, hstarted⟩
  have hall := woken_when_quiet (p := false) (q := true) (x := .published 7) (w := .publish 7)
    (c := 0) hexPlain listening relaying
  exact hall hroom hwaits hwakes hkeep hkept hsent hquiet

end Mmmbbb.Processes
