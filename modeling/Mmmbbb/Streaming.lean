import Mmmbbb.Windows
import Mmmbbb.Pulling
import Mathlib.Data.Finset.Card

/-!
# The message streamer

Four goroutines of one stream share the window of pending deliveries: the
reader of requests, the sender, the refresher, and the one that delays what
the client is still working on. Each access to the window is one step, and so
is each transaction; commit hooks run one by one, and other parties take
steps in between.
-/

set_option autoImplicit false

namespace Mmmbbb.Streaming
open KeyedRows WaitSets Windows Programs Mmmbbb.Schema Mmmbbb.Database Mmmbbb.Delivering
open Mmmbbb.Consuming Mmmbbb.Runs Mmmbbb.Notify
open Mmmbbb.Pulling (runHook)

structure MessageStreamer where
  subscriptionID : UUID
  subscriptionName : String
  automaticNack : Bool

structure FlowControl where
  maxMessages : ℤ
  maxBytes : ℤ
  deriving DecidableEq, Repr

/-- `delayFor` is the duration that the source makes of `DelaySeconds`. -/
structure MessageStreamRequest where
  flowControl : Option FlowControl
  ack : List UUID
  nack : List UUID
  delay : List UUID
  delayFor : Duration
  deriving DecidableEq, Repr

structure PendingMessage where
  bytes : ℕ
  nextAttemptAt : Time
  deriving DecidableEq, Repr

abbrev Pending := Window UUID PendingMessage

inductive Reader
  | receiving
  | received (msg : MessageStreamRequest)
  | settled (msg : MessageStreamRequest) (k : ℕ)
  | removed (msg : MessageStreamRequest)
  | delayed (k : ℕ)
  deriving DecidableEq

deriving instance DecidableEq for GetSubscriptionMessagesParams

inductive Sender
  | starting
  | budgeting (anyPending : Bool)
  | waiting (anyPending : Bool)
  | entering (p : GetSubscriptionMessagesParams)
  | fetching (p : GetSubscriptionMessagesParams)
  | fetched (results : List SubscriptionMessageDelivery) (k : ℕ)
  | sending (results : List SubscriptionMessageDelivery)
  deriving DecidableEq

inductive Refresher
  | starting
  | waiting (pubNotify : Channel)
  | notified
  | awake (pubNotify : Channel)
  | querying (pubNotify : Channel) (ids : List UUID) (now : Time)
  | dropping (pubNotify : Channel) (ids : List UUID) (rows : List Delivery)
  deriving DecidableEq

inductive AutoDelay
  | starting
  | ticking (delayAmount checkInterval : Duration)
  | delaying (delayAmount checkInterval : Duration) (ids : List UUID) (now : Time)
  | delayed (delayAmount checkInterval : Duration) (ids : List UUID) (now : Time) (k : ℕ)

structure State where
  db : DB
  registry : Registry
  hooks : List (List Hook)
  /-- What publish hooks have passed on, for others to announce. -/
  notices : List UUID
  fc : FlowControl
  pending : Pending
  wakeSend : Bool
  reader : Reader
  sender : Sender
  senderNotify : Option Channel
  refresher : Refresher
  autoDelay : AutoDelay
  sent : List SubscriptionMessageDelivery
  /-- What has been nacked while pending, and not been handed out since. -/
  owed : List UUID

def budget (fc : FlowControl) (pending : Pending) : FlowControl :=
  pending.entries.foldl (fun c e => ⟨c.maxMessages - 1, c.maxBytes - e.2.bytes⟩) fc

/-- What to ask for with a budget: not too many at a time, and no oversized
message once one has been outstanding. -/
def fetchParams (ms : MessageStreamer) (curFc : FlowControl) (anyPending : Bool) :
    GetSubscriptionMessagesParams where
  name := ms.subscriptionName
  id := some ms.subscriptionID
  maxMessages := min curFc.maxMessages 100
  maxBytes := curFc.maxBytes
  maxBytesStrict := anyPending

def insertPending (results : List SubscriptionMessageDelivery) (pending : Pending) : Pending :=
  insertAll SubscriptionMessageDelivery.id
    (fun del => ⟨del.payload.length, del.nextAttemptAt⟩) results pending

def stillPending (ids : List UUID) (now : Time) (d : Delivery) : Bool :=
  decide (d.id ∈ ids) && d.completedAt.isNone && decide (now ≤ d.expiresAt)

def later (nextAttemptAt : Time) (id : UUID) (pending : Pending) : Pending :=
  match pending.lookup id with
  | none => pending
  | some pm =>
    if pm.nextAttemptAt < nextAttemptAt then
      pending.insert id { pm with nextAttemptAt := nextAttemptAt }
    else pending

def refreshOne (rows : List Delivery) (pending : Pending) (id : UUID) : Pending :=
  match fetch Delivery.id id rows with
  | none => pending.erase id
  | some del => later del.attemptAt id pending

def refresh (rows : List Delivery) (ids : List UUID) (pending : Pending) : Pending :=
  ids.foldl (refreshOne rows) pending

def removesPending (rows : List Delivery) (ids : List UUID) : Bool :=
  ids.any (fun id => decide (¬ Has Delivery.id id rows))

/-- The amount, and the interval at which the window is checked. The product
is that of 64 bits. -/
def delayAmounts (s : Subscription) : Duration × Duration :=
  let delayAmount := match s.minBackoff with
    | some minBackoff => minBackoff.tdiv 2
    | none => defaultMinDelay.tdiv 2
  (if delayAmount < second then second else delayAmount,
    ((delayAmount * 9).bmod (2 ^ 64)).tdiv 10)

def dueIDs (nextCheck : Time) (pending : Pending) : List UUID :=
  (pending.entries.filter (fun e => decide (e.2.nextAttemptAt < nextCheck))).map Sigma.fst

def renew (nextAttempt : Time) (ids : List UUID) (pending : Pending) : Pending :=
  ids.foldl (fun pending id => later nextAttempt id pending) pending

def doAcksNacks (env env' : Env) (msg : MessageStreamRequest) (tx : Tx) :
    Except Error (NackDeliveriesResults × Tx) :=
  nackDeliveries env' msg.nack (ackDeliveries env msg.ack tx).2

def Sender.results : Sender → List SubscriptionMessageDelivery
  | .fetched results _ => results
  | _ => []

/-- No new delivery has the identifier of one that the stream holds. -/
def Unused (st : State) (tx : Tx) : Prop :=
  ∀ d ∈ tx.db.deliveries, Has Delivery.id d.id st.db.deliveries ∨
    d.id ∉ st.pending ∧ d.id ∉ st.sender.results.map (·.id)

instance (st : State) (tx : Tx) : Decidable (Unused st tx) :=
  inferInstanceAs (Decidable (∀ d ∈ tx.db.deliveries, _ ∨ _ ∧ _))

def State.committed (st : State) (tx : Tx) : State :=
  { st with db := tx.db, hooks := st.hooks ++ [tx.onCommit.reverse] }

/-- A transaction that commits; one that fails ends the stream, or changes
nothing. -/
def transact {α : Type} (st : State) (x : Except Error (α × Tx)) : Option (α × State) :=
  match x with
  | .error _ => none
  | .ok (a, tx) => if Unused st tx then some (a, st.committed tx) else none

theorem transact_some {α : Type} {st st' : State} {x : Except Error (α × Tx)}
    {f : α × State → State} (h : (transact st x).map f = some st') :
    ∃ a tx, x = .ok (a, tx) ∧ Unused st tx ∧ st' = f (a, st.committed tx) := by
  obtain ⟨r, hr, rfl⟩ := Option.map_eq_some_iff.mp h
  unfold transact at hr
  split at hr
  · cases hr
  · rename_i a tx
    split at hr
    · rename_i hunused
      cases hr
      exact ⟨a, tx, rfl, hunused, rfl⟩
    · cases hr

def State.Done (st : State) (k : ℕ) : Prop := st.hooks[k]? = some []

instance (st : State) (k : ℕ) : Decidable (st.Done k) := inferInstanceAs (Decidable (_ = _))

inductive Step
  /-- The client sends a request; its flow control takes effect at once. -/
  | receive (msg : MessageStreamRequest)
  | settle (env env' : Env)
  | remove
  | delay (env : Env)
  | delayDone
  | senderStart
  | budget
  | wokenBySend
  | wokenByNotify
  | touch (env : Env)
  /-- The query of a fetch, which is repeated until it finds something. -/
  | query (env : Env)
  | giveUp (env : Env)
  | insert
  | send
  | refresherStart
  | wokenToRefresh
  | awaitAgain
  | readIDs (now : Time)
  | refreshQuery
  | drop
  | loadDelay
  | tick (now : Time)
  | autoDelay (env : Env)
  | renew
  | commit (e : Runs.Event)
  | hook (k : ℕ)
  /-- A notice comes back, to be announced to those who wait here. -/
  | notice (k : ℕ)
  | other (e : Notify.Event)

def afterRemove (msg : MessageStreamRequest) : Reader :=
  if msg.delay = [] then .receiving else .removed msg

def afterReceive (msg : MessageStreamRequest) : Reader :=
  if msg.ack = [] ∧ msg.nack = [] then afterRemove msg else .received msg

def State.received (st : State) (msg : MessageStreamRequest) : State :=
  match msg.flowControl with
  | none => { st with reader := afterReceive msg }
  | some fc => { st with fc := fc, wakeSend := true, reader := afterReceive msg }

def State.removed (st : State) (msg : MessageStreamRequest) : State :=
  { st with
    pending := eraseAll msg.nack (eraseAll msg.ack st.pending)
    wakeSend := true
    reader := afterRemove msg }

def State.nacked (st : State) (ids : List UUID) : State :=
  { st with owed := st.owed ++ ids.filter (fun id => decide (id ∈ st.pending)) }

def State.delayed (st : State) (p : DelayDeliveriesParams) : State :=
  if p.delay ≤ 0 then st.nacked p.ids else st

def State.budgeted (ms : MessageStreamer) (st : State) (anyPending : Bool) : State :=
  let curFc := budget st.fc st.pending
  let anyPending := anyPending || decide (st.pending.entries ≠ [])
  if 0 < curFc.maxBytes ∧ 0 < curFc.maxMessages then
    { st with sender := .entering (fetchParams ms curFc anyPending) }
  else { st with sender := .waiting anyPending }

def State.inserted (st : State) (results : List SubscriptionMessageDelivery) : State :=
  { st with
    pending := insertPending results st.pending
    sender := if results = [] then .budgeting false else .sending results
    owed := st.owed.filter (fun id => decide (id ∉ results.map (·.id))) }

def State.dropped (st : State) (c : Channel) (ids : List UUID) (rows : List Delivery) : State :=
  { st with
    pending := refresh rows ids st.pending
    wakeSend := st.wakeSend || removesPending rows ids
    refresher := .waiting c }

def Refresher.channel : Refresher → Option Channel
  | .waiting c | .awake c | .querying c _ _ | .dropping c _ _ => some c
  | _ => none

def Foreign (st : State) : Notify.Event → Prop
  | .cancel _ c => c = none ∨ c ≠ st.senderNotify ∧ c ≠ st.refresher.channel
  | _ => True

instance (st : State) (e : Notify.Event) : Decidable (Foreign st e) := by
  induction e using Notify.Event.casesOn <;> unfold Foreign <;> infer_instance

def passedOn (r : Registry) : Hook → List UUID
  | .wakePublishListeners false subIDs =>
    (List.replicate r.pubNotifyHooks.card subIDs).flatten
  | _ => []

def State.nackedBy (st : State) : Action → State
  | .delay p => st.delayed p
  | _ => st

theorem received_only (st : State) (msg : MessageStreamRequest) : ∃ fc wakeSend,
    st.received msg =
      { st with fc := fc, wakeSend := wakeSend, reader := afterReceive msg } := by
  unfold State.received
  split
  · exact ⟨st.fc, st.wakeSend, rfl⟩
  · exact ⟨_, _, rfl⟩

theorem delayed_only (st : State) (p : DelayDeliveriesParams) :
    ∃ owed, st.delayed p = { st with owed := owed } := by
  unfold State.delayed
  split
  · exact ⟨_, rfl⟩
  · exact ⟨st.owed, rfl⟩

theorem nackedBy_only (st : State) (a : Action) :
    ∃ owed, st.nackedBy a = { st with owed := owed } := by
  unfold State.nackedBy
  split
  · exact delayed_only st _
  · exact ⟨st.owed, rfl⟩

theorem budgeted_only (ms : MessageStreamer) (st : State) (anyPending : Bool) : ∃ sender,
    st.budgeted ms anyPending = { st with sender := sender } ∧
      ((∃ pending, sender = .waiting pending) ∨
        ∃ curFc pending, sender = .entering (fetchParams ms curFc pending)) := by
  unfold State.budgeted
  dsimp only
  split
  · exact ⟨_, rfl, Or.inr ⟨_, _, rfl⟩⟩
  · exact ⟨_, rfl, Or.inl ⟨_, rfl⟩⟩

def step (ms : MessageStreamer) (st : State) : Step → Option State
  | .receive msg =>
    match st.reader with
    | .receiving => some (st.received msg)
    | _ => none
  | .settle env env' =>
    match st.reader with
    | .received msg => (transact st (doAcksNacks env env' msg (.begin st.db))).map (fun r =>
        { r.2.nacked msg.nack with reader := .settled msg st.hooks.length })
    | _ => none
  | .remove =>
    match st.reader with
    | .settled msg k => if st.Done k then some (st.removed msg) else none
    | _ => none
  | .delay env =>
    match st.reader with
    | .removed msg =>
      (transact st (.ok (delayDeliveries env ⟨msg.delay, msg.delayFor⟩ (.begin st.db)))).map
        (fun r => { r.2.delayed ⟨msg.delay, msg.delayFor⟩ with reader := .delayed st.hooks.length })
    | _ => none
  | .delayDone =>
    match st.reader with
    | .delayed k => if st.Done k then some { st with reader := .receiving } else none
    | _ => none
  | .senderStart =>
    match st.sender with
    | .starting => some { st with
        registry := publishAwaiter ms.subscriptionID st.registry
        senderNotify := some st.registry.made
        sender := .budgeting false }
    | _ => none
  | .budget =>
    match st.sender with
    | .budgeting anyPending => some (st.budgeted ms anyPending)
    | _ => none
  | .wokenBySend =>
    match st.sender with
    | .waiting anyPending =>
      if st.wakeSend then some { st with wakeSend := false, sender := .budgeting anyPending }
      else none
    | _ => none
  | .wokenByNotify =>
    match st.sender, st.senderNotify with
    | .waiting anyPending, some c =>
      if c ∈ st.registry.closed then some { st with
        registry := publishAwaiter ms.subscriptionID st.registry
        senderNotify := some st.registry.made
        sender := .budgeting anyPending }
      else none
    | _, _ => none
  | .touch env =>
    match st.sender with
    | .entering p => (transact st ((touchSubscription env p (.begin st.db)).map (((), ·)))).map
        (fun r => { r.2 with sender := .fetching p })
    | _ => none
  | .query env =>
    match st.sender with
    | .fetching p =>
      match verifySub p st.db.toTables with
      | .error _ => none
      | .ok sub =>
        if queryAndLockDeliveriesOnce env st.db.toTables sub p = [] then some st
        else (transact st (getSubscriptionMessages env p (.begin st.db))).map (fun r =>
          { r.2 with sender := .fetched r.1.deliveries st.hooks.length })
    | _ => none
  | .giveUp env =>
    match st.sender with
    | .fetching p =>
      match verifySub p st.db.toTables with
      | .error _ => none
      | .ok sub => (transact st (applyResults env p sub [] (.begin st.db))).map (fun r =>
          { r.2 with sender := .fetched r.1.deliveries st.hooks.length })
    | _ => none
  | .insert =>
    match st.sender with
    | .fetched results k => if st.Done k then some (st.inserted results) else none
    | _ => none
  | .send =>
    match st.sender with
    | .sending results => some { st with sent := st.sent ++ results, sender := .budgeting false }
    | _ => none
  | .refresherStart =>
    match st.refresher with
    | .starting => some { st with
        registry := publishAwaiter ms.subscriptionID st.registry
        refresher := .waiting st.registry.made }
    | _ => none
  | .wokenToRefresh =>
    match st.refresher with
    | .waiting c => if c ∈ st.registry.closed then some { st with refresher := .notified } else none
    | _ => none
  | .awaitAgain =>
    match st.refresher with
    | .notified => some { st with
        registry := publishAwaiter ms.subscriptionID st.registry
        refresher := .awake st.registry.made }
    | _ => none
  | .readIDs now =>
    match st.refresher with
    | .awake c =>
      if st.pending.keys = [] then some { st with refresher := .waiting c }
      else some { st with refresher := .querying c st.pending.keys now }
    | _ => none
  | .refreshQuery =>
    match st.refresher with
    | .querying c ids now => some { st with
        refresher := .dropping c ids (st.db.deliveries.filter (stillPending ids now)) }
    | _ => none
  | .drop =>
    match st.refresher with
    | .dropping c ids rows => some (st.dropped c ids rows)
    | _ => none
  | .loadDelay =>
    match st.autoDelay, fetch Subscription.id ms.subscriptionID st.db.subscriptions with
    | .starting, some s =>
      if ms.automaticNack then none
      else some { st with autoDelay := .ticking (delayAmounts s).1 (delayAmounts s).2 }
    | _, _ => none
  | .tick now =>
    match st.autoDelay with
    | .ticking d i =>
      if dueIDs (now + i) st.pending = [] then some st
      else some { st with autoDelay := .delaying d i (dueIDs (now + i) st.pending) now }
    | _ => none
  | .autoDelay env =>
    match st.autoDelay with
    | .delaying d i ids now =>
      (transact st (.ok (delayDeliveries env ⟨ids, d⟩ (.begin st.db)))).map (fun r =>
        { r.2 with autoDelay := .delayed d i ids now st.hooks.length })
    | _ => none
  | .renew =>
    match st.autoDelay with
    | .delayed d i ids now k =>
      if st.Done k then some { st with
        pending := renew (now + d) ids st.pending
        autoDelay := .ticking d i }
      else none
    | _ => none
  | .commit e =>
    (transact st (exec e.env e.action (.begin st.db))).map (fun r => r.2.nackedBy e.action)
  | .hook k =>
    match st.hooks[k]? with
    | some (h :: rest) => (runHook st.registry h).map (fun r => { st with
        registry := r
        hooks := st.hooks.set k rest
        notices := st.notices ++ passedOn st.registry h })
    | _ => none
  | .notice k =>
    match st.notices[k]? with
    | some id => (wakePublishListeners true [id] st.registry).map (fun r => { st with
        registry := r
        notices := st.notices.eraseIdx k })
    | none => none
  | .other e =>
    if Foreign st e then (Notify.step st.registry e).map (fun r => { st with registry := r })
    else none

inductive Next (ms : MessageStreamer) (st : State) : Step → State → Prop
  | receive {msg : MessageStreamRequest} : st.reader = .receiving →
      Next ms st (.receive msg) (st.received msg)
  | settle {env env' : Env} {msg : MessageStreamRequest} {res : NackDeliveriesResults} {tx : Tx} :
      st.reader = .received msg → doAcksNacks env env' msg (.begin st.db) = .ok (res, tx) →
      Unused st tx → Next ms st (.settle env env')
        { (st.committed tx).nacked msg.nack with reader := .settled msg st.hooks.length }
  | remove {msg : MessageStreamRequest} {k : ℕ} : st.reader = .settled msg k → st.Done k →
      Next ms st .remove (st.removed msg)
  | delay {env : Env} {msg : MessageStreamRequest} {tx : Tx} : st.reader = .removed msg →
      (delayDeliveries env ⟨msg.delay, msg.delayFor⟩ (.begin st.db)).2 = tx → Unused st tx →
      Next ms st (.delay env) { (st.committed tx).delayed ⟨msg.delay, msg.delayFor⟩ with
        reader := .delayed st.hooks.length }
  | delayDone {k : ℕ} : st.reader = .delayed k → Next ms st .delayDone { st with reader := .receiving }
  | senderStart : st.sender = .starting → Next ms st .senderStart { st with
      registry := publishAwaiter ms.subscriptionID st.registry
      senderNotify := some st.registry.made
      sender := .budgeting false }
  | budget {anyPending : Bool} : st.sender = .budgeting anyPending →
      Next ms st .budget (st.budgeted ms anyPending)
  | wokenBySend {anyPending : Bool} : st.sender = .waiting anyPending →
      Next ms st .wokenBySend { st with wakeSend := false, sender := .budgeting anyPending }
  | wokenByNotify {anyPending : Bool} : st.sender = .waiting anyPending →
      Next ms st .wokenByNotify { st with
        registry := publishAwaiter ms.subscriptionID st.registry
        senderNotify := some st.registry.made
        sender := .budgeting anyPending }
  | touch {env : Env} {p : GetSubscriptionMessagesParams} {tx : Tx} : st.sender = .entering p →
      touchSubscription env p (.begin st.db) = .ok tx → Unused st tx →
      Next ms st (.touch env) { st.committed tx with sender := .fetching p }
  | park {env : Env} : Next ms st (.query env) st
  | query {env : Env} {p : GetSubscriptionMessagesParams} {res : GetSubscriptionMessagesResults}
      {tx : Tx} : st.sender = .fetching p →
      getSubscriptionMessages env p (.begin st.db) = .ok (res, tx) → Unused st tx →
      Next ms st (.query env) { st.committed tx with
        sender := .fetched res.deliveries st.hooks.length }
  | giveUp {env : Env} {p : GetSubscriptionMessagesParams} {sub : Subscription}
      {res : GetSubscriptionMessagesResults} {tx : Tx} : st.sender = .fetching p →
      applyResults env p sub [] (.begin st.db) = .ok (res, tx) → Unused st tx →
      Next ms st (.giveUp env) { st.committed tx with
        sender := .fetched res.deliveries st.hooks.length }
  | insert {results : List SubscriptionMessageDelivery} {k : ℕ} : st.sender = .fetched results k →
      st.Done k → Next ms st .insert (st.inserted results)
  | send {results : List SubscriptionMessageDelivery} : st.sender = .sending results →
      Next ms st .send { st with sent := st.sent ++ results, sender := .budgeting false }
  | refresherStart : st.refresher = .starting → Next ms st .refresherStart { st with
      registry := publishAwaiter ms.subscriptionID st.registry
      refresher := .waiting st.registry.made }
  | wokenToRefresh {c : Channel} : st.refresher = .waiting c →
      Next ms st .wokenToRefresh { st with refresher := .notified }
  | awaitAgain : st.refresher = .notified → Next ms st .awaitAgain { st with
      registry := publishAwaiter ms.subscriptionID st.registry
      refresher := .awake st.registry.made }
  | readNone {now : Time} {c : Channel} : st.refresher = .awake c → st.pending.keys = [] →
      Next ms st (.readIDs now) { st with refresher := .waiting c }
  | readIDs {now : Time} {c : Channel} : st.refresher = .awake c →
      Next ms st (.readIDs now) { st with refresher := .querying c st.pending.keys now }
  | refreshQuery {c : Channel} {ids : List UUID} {now : Time} :
      st.refresher = .querying c ids now → Next ms st .refreshQuery { st with
        refresher := .dropping c ids (st.db.deliveries.filter (stillPending ids now)) }
  | drop {c : Channel} {ids : List UUID} {rows : List Delivery} :
      st.refresher = .dropping c ids rows → Next ms st .drop (st.dropped c ids rows)
  | loadDelay {s : Subscription} : st.autoDelay = .starting → Next ms st .loadDelay
      { st with autoDelay := .ticking (delayAmounts s).1 (delayAmounts s).2 }
  | tickNone {now : Time} : Next ms st (.tick now) st
  | tick {now : Time} {d i : Duration} : st.autoDelay = .ticking d i →
      Next ms st (.tick now) { st with
        autoDelay := .delaying d i (dueIDs (now + i) st.pending) now }
  | autoDelay {env : Env} {d i : Duration} {ids : List UUID} {now : Time} {tx : Tx} :
      st.autoDelay = .delaying d i ids now →
      (delayDeliveries env ⟨ids, d⟩ (.begin st.db)).2 = tx → Unused st tx →
      Next ms st (.autoDelay env) { st.committed tx with
        autoDelay := .delayed d i ids now st.hooks.length }
  | renew {d i : Duration} {ids : List UUID} {now : Time} {k : ℕ} :
      st.autoDelay = .delayed d i ids now k → Next ms st .renew { st with
        pending := renew (now + d) ids st.pending
        autoDelay := .ticking d i }
  | commit {e : Runs.Event} {given : List SubscriptionMessageDelivery} {tx : Tx} :
      exec e.env e.action (.begin st.db) = .ok (given, tx) → Unused st tx →
      Next ms st (.commit e) ((st.committed tx).nackedBy e.action)
  | hook {k : ℕ} {h : Hook} {rest : List Hook} {r : Registry} :
      st.hooks[k]? = some (h :: rest) → runHook st.registry h = some r →
      Next ms st (.hook k) { st with
        registry := r
        hooks := st.hooks.set k rest
        notices := st.notices ++ passedOn st.registry h }
  | notice {k : ℕ} {id : UUID} {r : Registry} : st.notices[k]? = some id →
      wakePublishListeners true [id] st.registry = some r →
      Next ms st (.notice k) { st with registry := r, notices := st.notices.eraseIdx k }
  | other {e : Notify.Event} {r : Registry} : Foreign st e → Notify.step st.registry e = some r →
      Next ms st (.other e) { st with registry := r }

section
variable {ms : MessageStreamer} {st st' : State} {s : Step}

theorem step_next (h : step ms st s = some st') : Next ms st s st' := by
  cases s with
  | receive msg =>
    simp only [step] at h
    split at h
    · rename_i hr
      exact Option.some.inj h ▸ .receive hr
    · cases h
  | settle env env' =>
    simp only [step] at h
    split at h
    · rename_i msg hr
      obtain ⟨a, tx, hx, hu, rfl⟩ := transact_some h
      exact .settle hr hx hu
    · cases h
  | remove =>
    simp only [step] at h
    split at h
    · rename_i msg k hr
      split at h
      · rename_i hd
        exact Option.some.inj h ▸ .remove hr hd
      · cases h
    · cases h
  | delay env =>
    simp only [step] at h
    split at h
    · rename_i msg hr
      obtain ⟨a, tx, hx, hu, rfl⟩ := transact_some h
      exact .delay hr (congrArg Prod.snd (Except.ok.inj hx)) hu
    · cases h
  | delayDone =>
    simp only [step] at h
    split at h
    · rename_i k hr
      split at h
      · exact Option.some.inj h ▸ .delayDone hr
      · cases h
    · cases h
  | senderStart =>
    simp only [step] at h
    split at h
    · rename_i hs
      exact Option.some.inj h ▸ .senderStart hs
    · cases h
  | budget =>
    simp only [step] at h
    split at h
    · rename_i any hs
      exact Option.some.inj h ▸ .budget hs
    · cases h
  | wokenBySend =>
    simp only [step] at h
    split at h
    · rename_i any hs
      split at h
      · exact Option.some.inj h ▸ .wokenBySend hs
      · cases h
    · cases h
  | wokenByNotify =>
    simp only [step] at h
    split at h
    · rename_i any c hs hc
      split at h
      · exact Option.some.inj h ▸ .wokenByNotify hs
      · cases h
    · cases h
  | touch env =>
    simp only [step] at h
    split at h
    · rename_i p hs
      obtain ⟨a, tx, hx, hu, rfl⟩ := transact_some h
      obtain ⟨tx', hx', heq⟩ := map_ok.mp hx
      obtain ⟨-, rfl⟩ := Prod.mk.inj heq
      exact .touch hs hx' hu
    · cases h
  | query env =>
    simp only [step] at h
    split at h
    · rename_i p hs
      split at h
      · cases h
      · split at h
        · exact Option.some.inj h ▸ .park
        · obtain ⟨a, tx, hx, hu, rfl⟩ := transact_some h
          exact .query hs hx hu
    · cases h
  | giveUp env =>
    simp only [step] at h
    split at h
    · rename_i p hs
      split at h
      · cases h
      · obtain ⟨a, tx, hx, hu, rfl⟩ := transact_some h
        exact .giveUp hs hx hu
    · cases h
  | insert =>
    simp only [step] at h
    split at h
    · rename_i results k hs
      split at h
      · rename_i hd
        exact Option.some.inj h ▸ .insert hs hd
      · cases h
    · cases h
  | send =>
    simp only [step] at h
    split at h
    · rename_i results hs
      exact Option.some.inj h ▸ .send hs
    · cases h
  | refresherStart =>
    simp only [step] at h
    split at h
    · rename_i hr
      exact Option.some.inj h ▸ .refresherStart hr
    · cases h
  | wokenToRefresh =>
    simp only [step] at h
    split at h
    · rename_i c hr
      split at h
      · exact Option.some.inj h ▸ .wokenToRefresh hr
      · cases h
    · cases h
  | awaitAgain =>
    simp only [step] at h
    split at h
    · rename_i hr
      exact Option.some.inj h ▸ .awaitAgain hr
    · cases h
  | readIDs now =>
    simp only [step] at h
    split at h
    · rename_i c hr
      split at h
      · rename_i hnone
        exact Option.some.inj h ▸ .readNone hr hnone
      · exact Option.some.inj h ▸ .readIDs hr
    · cases h
  | refreshQuery =>
    simp only [step] at h
    split at h
    · rename_i c ids now hr
      exact Option.some.inj h ▸ .refreshQuery hr
    · cases h
  | drop =>
    simp only [step] at h
    split at h
    · rename_i c ids rows hr
      exact Option.some.inj h ▸ .drop hr
    · cases h
  | loadDelay =>
    simp only [step] at h
    split at h
    · rename_i sub ha hs
      split at h
      · cases h
      · exact Option.some.inj h ▸ .loadDelay ha
    · cases h
  | tick now =>
    simp only [step] at h
    split at h
    · rename_i d i ha
      split at h
      · exact Option.some.inj h ▸ .tickNone
      · exact Option.some.inj h ▸ .tick ha
    · cases h
  | autoDelay env =>
    simp only [step] at h
    split at h
    · rename_i d i ids now ha
      obtain ⟨a, tx, hx, hu, rfl⟩ := transact_some h
      exact .autoDelay ha (congrArg Prod.snd (Except.ok.inj hx)) hu
    · cases h
  | renew =>
    simp only [step] at h
    split at h
    · rename_i d i ids now k ha
      split at h
      · exact Option.some.inj h ▸ .renew ha
      · cases h
    · cases h
  | commit e =>
    obtain ⟨a, tx, hx, hu, rfl⟩ := transact_some h
    exact .commit hx hu
  | hook k =>
    simp only [step] at h
    split at h
    · rename_i hk rest hhooks
      obtain ⟨r, hr, rfl⟩ := Option.map_eq_some_iff.mp h
      exact .hook hhooks hr
    · cases h
  | notice k =>
    simp only [step] at h
    split at h
    · rename_i id hid
      obtain ⟨r, hr, rfl⟩ := Option.map_eq_some_iff.mp h
      exact .notice hid hr
    · cases h
  | other e =>
    simp only [step] at h
    split at h
    · rename_i hforeign
      obtain ⟨r, hr, rfl⟩ := Option.map_eq_some_iff.mp h
      exact .other hforeign hr
    · cases h

end

def Init (st : State) : Prop :=
  Sound st.registry ∧ st.hooks = [] ∧ st.notices = [] ∧ st.fc = ⟨1, 1⟩ ∧ st.pending = ∅ ∧
    st.reader = .receiving ∧ st.sender = .starting ∧ st.senderNotify = none ∧
    st.refresher = .starting ∧ st.autoDelay = .starting ∧ st.owed = []

def streaming (ms : MessageStreamer) : System State Step where
  init := Init
  step st s st' := step ms st s = some st'

def runs (ms : MessageStreamer) (ok : State → Step → State → Prop)
    [∀ st s st', Decidable (ok st s st')] (st : State) (steps : List Step) : Option State :=
  steps.foldlM (fun st s => (step ms st s).filter (fun st' => decide (ok st s st'))) st

theorem runs_reachable {ms : MessageStreamer} {ok : State → Step → State → Prop}
    [∀ st s st', Decidable (ok st s st')] {steps : List Step} {st st' : State}
    (h : ((streaming ms).within ok).Reachable st) (hrun : runs ms ok st steps = some st') :
    ((streaming ms).within ok).Reachable st' := by
  refine h.foldlM (fun st s mid hmid => ?_) hrun
  obtain ⟨hstep, hok⟩ := Option.filter_eq_some_iff.mp hmid
  exact ⟨hstep, of_decide_eq_true hok⟩

def opened (db : DB) : State :=
  ⟨db, .initial, [], [], ⟨1, 1⟩, ∅, false, .receiving, .starting, none, .starting, .starting, [], []⟩

theorem opened_init (db : DB) : Init (opened db) :=
  ⟨Notify.initial_sound, rfl, rfl, rfl, rfl, rfl, rfl, rfl, rfl, rfl, rfl⟩

def workerDB : DB := (World.initial.run [
  Sample.ordersTopic 1 10,
  Sample.worker 2 20,
  Sample.publish "123" "" 3 30,
  Sample.publish "4" "" 4 40]).db

def worker : MessageStreamer := ⟨20, "worker", true⟩

end Mmmbbb.Streaming
