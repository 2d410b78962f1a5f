import Mmmbbb.Leasing
import Mmmbbb.Publishers
import Mmmbbb.SettledOnce

/-!
# Pulls that run at once

Pulls as the statements that they send, at READ COMMITTED, among acks, nacks,
delays, publish calls and sweeps of other connections. A query locks what it
selects and skips what others have locked.
-/

set_option autoImplicit false

namespace Mmmbbb.Competing
open KeyedRows Programs ReadCommitted Leasing Mmmbbb.Schema Mmmbbb.Database Mmmbbb.Delivering
open Mmmbbb.Consuming
open Mmmbbb.Settling (forwardRows update)

inductive Write
  | lock (ids : List UUID)
  /-- `asked` is when the delivery was selected. -/
  | attempt (x : SubscriptionMessageDelivery) (asked now : Time)
  | complete (ids : List UUID) (now : Time)
  | reschedule (ids : List UUID) (attemptAt : Time)
  | insert (d : Delivery)
  | message (m : Message)
  | extend (subscriptionID : UUID) (expiresAt : Time)

def Write.touches : Write → List UUID
  | .lock ids | .complete ids _ | .reschedule ids _ => ids
  | .attempt x _ _ => [x.id]
  | .insert d => [d.id]
  | .message _ | .extend _ _ => []

def Write.inserts : Write → List UUID
  | .insert d => [d.id]
  | _ => []

def Write.moves : Write → List UUID
  | .reschedule ids _ => ids
  | .attempt x _ _ => [x.id]
  | _ => []

def Write.completes : Write → List UUID
  | .complete ids _ => ids
  | _ => []

def Write.clash (w w' : Write) : Bool :=
  w.touches.any (fun k => decide (k ∈ w'.touches)) ||
    match w, w' with
    | .message m, .message m' => decide (m.id = m'.id)
    | .extend k _, .extend k' _ => decide (k = k')
    | _, _ => false

def dueAgain (x : SubscriptionMessageDelivery) : Time := x.nextAttemptAt + x.fuzzDelay

def Write.apply (t : Tables) : Write → Tables
  | .lock _ => t
  | .attempt x _ now =>
    update [x.id] ⟨some (dueAgain x), some now, 1, none, none⟩ t
  | .complete ids now => update ids { completedAt := some (some now) } t
  | .reschedule ids attemptAt => update ids { attemptAt := some attemptAt } t
  | .insert d => { t with deliveries := t.deliveries ++ [d] }
  | .message m => { t with messages := t.messages ++ [m] }
  | .extend k expiresAt => { t with
      subscriptions := t.subscriptions.map (setWhere (fun s => decide (s.id = k))
        (SubscriptionUpdate.apply { expiresAt := some expiresAt })) }

structure Ledger where
  tables : Tables
  history : List Write

def Ledger.apply (t : Ledger) (w : Write) : Ledger := ⟨w.apply t.tables, t.history ++ [w]⟩

/-- `asked` is the time of the query, `env` that of what is done with it. -/
structure Pull where
  p : GetSubscriptionMessagesParams
  sub : Subscription
  asked : Time
  env : Env

def queryAndSkipLocked (env : Env) (t : Tables) (sub : Subscription)
    (p : GetSubscriptionMessagesParams) (skipped : List UUID) : List (Delivery × Message) :=
  let rows := t.deliveries.filter (buildDeliveryQuery env.now t sub
    (fun d => decide (d.attemptAt ≤ env.now) && decide (d.id ∉ skipped)))
  let rows := (orderBy Delivery.attemptAt (env.deliveries.run rows)).take p.maxMessages.toNat
  rows.filterMap (fun d => (fetch Message.id d.messageID t.messages).map (fun m => (d, m)))

theorem queryAndSkipLocked_mem {env : Env} {t : Tables} {sub : Subscription}
    {p : GetSubscriptionMessagesParams} {skipped : List UUID} {x : Delivery × Message}
    (h : x ∈ queryAndSkipLocked env t sub p skipped) :
    x.1 ∈ t.deliveries ∧ x.1.attemptAt ≤ env.now ∧ x.1.completedAt = none := by
  obtain ⟨d, hd, hload⟩ := List.mem_filterMap.mp h
  obtain ⟨m, -, rfl⟩ := Option.map_eq_some_iff.mp hload
  have hd := List.mem_of_mem_take hd
  simp only [mem_orderBy, ScanOrder.mem_run, List.mem_filter, buildDeliveryQuery,
    Bool.and_eq_true, decide_eq_true_eq, Option.isNone_iff_eq_none] at hd
  obtain ⟨hmem, ⟨⟨⟨-, hdue, -⟩, hopen⟩, -⟩, -⟩ := hd
  exact ⟨hmem, hdue, hopen⟩

theorem queryAndSkipLocked_nodup (env : Env) {t : Tables} (sub : Subscription)
    (p : GetSubscriptionMessagesParams) (skipped : List UUID)
    (h : UniqueKeys Delivery.id t.deliveries) :
    ((queryAndSkipLocked env t sub p skipped).map (fun x => x.1.id)).Nodup := by
  have hload : ∀ rows : List Delivery, UniqueKeys Delivery.id rows →
      ((rows.filterMap (fun d => (fetch Message.id d.messageID t.messages).map
        (fun m => (d, m)))).map (fun x => x.1.id)).Nodup := by
    intro rows hunique
    have hsub := (loaded_sublist t rows).map Delivery.id
    rw [List.map_map] at hsub
    exact List.Nodup.sublist hsub hunique
  have hperm : ∀ rows : List Delivery, UniqueKeys Delivery.id rows →
      UniqueKeys Delivery.id (orderBy Delivery.attemptAt (env.deliveries.run rows)) := by
    intro rows hunique
    exact (((orderBy_perm _ _).trans (env.deliveries.perm rows)).map _).nodup_iff.mpr hunique
  refine hload _ (List.Nodup.sublist ((List.take_sublist _ _).map _) ?_)
  exact hperm _ (h.filter _)

inductive Progress
  | deadLetter (topicID : UUID) (d : Delivery) (i : ℕ) (rest : List (Delivery × Message))
      (bytes : ℤ) (results : List SubscriptionMessageDelivery)
  | finished (results : List SubscriptionMessageDelivery)

def Pull.advance (u : Pull) : ℕ → List (Delivery × Message) → ℤ →
    List SubscriptionMessageDelivery → Progress
  | _, [], _, results => .finished results
  | i, (d, m) :: rest, bytes, results =>
    if (u.p.maxBytesStrict || decide (0 < i)) &&
        decide (u.p.maxBytes < bytes + m.payload.length) then
      u.advance (i + 1) rest bytes results
    else
      match u.sub.deadLetterTopicFor d with
      | some topicID => .deadLetter topicID d (i + 1) rest bytes results
      | none =>
        if u.p.maxMessages ≤ (i : ℤ) + 1 then .finished (results ++ [handOut u.env u.sub d m])
        else u.advance (i + 1) rest (bytes + m.payload.length)
          (results ++ [handOut u.env u.sub d m])

inductive Point
  | ready
  | verified (p : GetSubscriptionMessagesParams) (sub : Subscription)
  | found (p : GetSubscriptionMessagesParams) (sub : Subscription) (asked : Time)
      (rows : List (Delivery × Message))
  | applying (u : Pull) (drawn i : ℕ) (rest : List (Delivery × Message)) (bytes : ℤ)
      (results : List SubscriptionMessageDelivery)
  | forwarded (u : Pull) (drawn : ℕ) (d : Delivery) (i : ℕ) (rest : List (Delivery × Message))
      (bytes : ℤ) (results : List SubscriptionMessageDelivery)
  | attempting (u : Pull) (todo : List SubscriptionMessageDelivery)
  | settling (q : Settling.Point)
  | publishing (q : Publishers.Point)

inductive Statement
  | verify (p : GetSubscriptionMessagesParams)
  /-- `skipped` is what others have locked. -/
  | select (env : Env) (skipped : List UUID)
  | refresh (env : Env)
  | next
  /-- Updates one of the results; the source has sorted them. -/
  | attempt (k : ℕ)
  | delay (env : Env) (p : DelayDeliveriesParams)
  | settle (a : Settling.Statement)
  | publish (a : Publishers.Statement)

def ofSettling : Settling.Write → List Write
  | .forward _ rows => rows.map .insert
  | .deadLetter id now => [.complete [id] now]
  | .ack ids now => [.complete ids now]
  | .reschedule id attemptAt => [.reschedule [id] attemptAt]

def ofPublishers : Publishers.Insert → Write
  | .message m => .message m
  | .delivery d => .insert d

def settle (a : Settling.Statement) (q : Settling.Point) (t : Tables) :
    Except Error (List Write × Point) :=
  (Settling.statement a q ⟨t, []⟩).map (fun r => (r.1.flatMap ofSettling,
    match r.2 with
    | .ready => .ready
    | q' => .settling q'))

def publish (a : Publishers.Statement) (q : Publishers.Point) (t : Tables) :
    Except Error (List Write × Point) :=
  (Publishers.statement a q t).map (fun r => (r.1.map ofPublishers,
    match r.2 with
    | .ready => .ready
    | q' => .publishing q'))

def delayed (env : Env) (p : DelayDeliveriesParams) (t : Tables) : List UUID :=
  (t.deliveries.filter (delayPredicates env p)).map Delivery.id

def statement : Statement → Point → Ledger → Except Error (List Write × Point)
  | .verify p, .ready, t => (verifySub p t.tables).map (fun sub => ([], .verified p sub))
  | .select env skipped, .verified p sub, t =>
    -- what finds nothing ends its transaction, and waits
    if queryAndSkipLocked env t.tables sub p skipped = [] then .ok ([], .ready)
    else .ok ([.lock ((queryAndSkipLocked env t.tables sub p skipped).map (fun x => x.1.id))],
      .found p sub env.now (queryAndSkipLocked env t.tables sub p skipped))
  | .refresh env, .found p sub asked rows, _ =>
    .ok ([.extend sub.id (env.now + sub.ttl)], .applying ⟨p, sub, asked, env⟩ 0 0 rows 0 [])
  | .next, .applying u drawn i rest bytes results, t =>
    match u.advance i rest bytes results with
    | .finished results => .ok ([], .attempting u results)
    | .deadLetter topicID d i rest bytes results => do
      let rows ← forwardRows u.env drawn (deadLetterDataFromEntities d topicID) t.tables
      failWhen (¬ ((rows.map Delivery.id).Nodup ∧
        ∀ r ∈ rows, ¬ Has Delivery.id r.id t.tables.deliveries)) .constraint
      pure (rows.map .insert, .forwarded u (drawn + rows.length) d i rest bytes results)
  | .next, .forwarded u drawn d i rest bytes results, t => do
    failWhen (¬ Has Delivery.id d.id t.tables.deliveries) .errNotFound
    pure ([.complete [d.id] u.env.now], .applying u drawn i rest bytes results)
  | .next, .attempting _ [], _ => .ok ([], .ready)
  | .attempt k, .attempting u todo, t =>
    match todo[k]? with
    | none => .error .panic
    | some x => do
      failWhen (¬ Has Delivery.id x.id t.tables.deliveries) .errNotFound
      pure ([.attempt x u.asked u.env.now], .attempting u (todo.eraseIdx k))
  | .delay env p, .ready, t =>
    .ok ([.reschedule (delayed env p t.tables) (env.now + p.delay)], .ready)
  | .settle a, .ready, t => settle a .ready t.tables
  | .settle a, .settling q, t => settle a q t.tables
  | .publish a, .ready, t => publish a .ready t.tables
  | .publish a, .publishing q, t => publish a q t.tables
  | _, _, _ => .error .panic

def competing : Program Statement Ledger Write Point Error where
  start := .ready
  apply := Ledger.apply
  clash := Write.clash
  statement := statement
  ready
    | .ready => true
    | _ => false

abbrev Sessions (n : ℕ) := State n Ledger Write Point

structure Holding where
  id : UUID
  count : ℕ
  asked : Time

def held (asked : Time) (x : Delivery × Message) : Holding := ⟨x.1.id, x.1.attempts + 1, asked⟩

def heldResult (asked : Time) (x : SubscriptionMessageDelivery) : Holding :=
  ⟨x.id, x.numAttempts, asked⟩

def Point.holds : Point → List Holding
  | .found _ _ asked rows => rows.map (held asked)
  | .applying u _ _ rest _ results =>
    results.map (heldResult u.asked) ++ rest.map (held u.asked)
  | .forwarded u _ d _ rest _ results => results.map (heldResult u.asked) ++
      ⟨d.id, d.attempts + 1, u.asked⟩ :: rest.map (held u.asked)
  | .attempting u todo => todo.map (heldResult u.asked)
  | _ => []

def Progress.holds (asked : Time) : Progress → List Holding
  | .deadLetter _ d _ rest _ results => results.map (heldResult asked) ++
      ⟨d.id, d.attempts + 1, asked⟩ :: rest.map (held asked)
  | .finished results => results.map (heldResult asked)

theorem advance_holds (u : Pull) (i : ℕ) (rest : List (Delivery × Message)) (bytes : ℤ)
    (results : List SubscriptionMessageDelivery) :
    ((u.advance i rest bytes results).holds u.asked).Sublist
      (results.map (heldResult u.asked) ++ rest.map (held u.asked)) := by
  induction rest generalizing i bytes results with
  | nil => simp [Pull.advance, Progress.holds]
  | cons x rest ih =>
    obtain ⟨d, m⟩ := x
    have hmore : (results ++ [handOut u.env u.sub d m]).map (heldResult u.asked) ++
        rest.map (held u.asked) =
          results.map (heldResult u.asked) ++ ((d, m) :: rest).map (held u.asked) := by
      simp [heldResult, held, handOut]
    rw [Pull.advance]
    split
    · refine (ih _ _ _).trans ?_
      exact (List.Sublist.refl _).append (List.sublist_cons_self _ _)
    · split
      · exact List.Sublist.refl _
      · split
        · show ((results ++ [handOut u.env u.sub d m]).map (heldResult u.asked)).Sublist _
          rw [← hmore]
          exact List.sublist_append_left _ _
        · rw [← hmore]
          exact ih _ _ _

inductive Does (t : Ledger) : Statement → Point → List Write → Point → Prop
  | verify {p : GetSubscriptionMessagesParams} {sub : Subscription} :
      Does t (.verify p) .ready [] (.verified p sub)
  | wait {env : Env} {skipped : List UUID} {p : GetSubscriptionMessagesParams}
      {sub : Subscription} : Does t (.select env skipped) (.verified p sub) [] .ready
  | select {env : Env} {skipped : List UUID} {p : GetSubscriptionMessagesParams}
      {sub : Subscription} {rows : List (Delivery × Message)} :
      queryAndSkipLocked env t.tables sub p skipped = rows →
      Does t (.select env skipped) (.verified p sub) [.lock (rows.map (fun x => x.1.id))]
        (.found p sub env.now rows)
  | refresh {env : Env} {p : GetSubscriptionMessagesParams} {sub : Subscription} {asked : Time}
      {rows : List (Delivery × Message)} :
      Does t (.refresh env) (.found p sub asked rows) [.extend sub.id (env.now + sub.ttl)]
        (.applying ⟨p, sub, asked, env⟩ 0 0 rows 0 [])
  | looped {u : Pull} {drawn i : ℕ} {rest : List (Delivery × Message)} {bytes : ℤ}
      {results results' : List SubscriptionMessageDelivery} :
      u.advance i rest bytes results = .finished results' →
      Does t .next (.applying u drawn i rest bytes results) [] (.attempting u results')
  | forward {u : Pull} {drawn i i' : ℕ} {rest rest' : List (Delivery × Message)} {bytes bytes' : ℤ}
      {results results' : List SubscriptionMessageDelivery} {topicID : UUID} {d : Delivery}
      {rows : List Delivery} :
      u.advance i rest bytes results = .deadLetter topicID d i' rest' bytes' results' →
      (rows.map Delivery.id).Nodup → (∀ r ∈ rows, ¬ Has Delivery.id r.id t.tables.deliveries) →
      Does t .next (.applying u drawn i rest bytes results) (rows.map .insert)
        (.forwarded u (drawn + rows.length) d i' rest' bytes' results')
  | complete {u : Pull} {drawn i : ℕ} {d : Delivery} {rest : List (Delivery × Message)} {bytes : ℤ}
      {results : List SubscriptionMessageDelivery} : Has Delivery.id d.id t.tables.deliveries →
      Does t .next (.forwarded u drawn d i rest bytes results) [.complete [d.id] u.env.now]
        (.applying u drawn i rest bytes results)
  | done {u : Pull} : Does t .next (.attempting u []) [] .ready
  | attempt {u : Pull} {k : ℕ} {todo : List SubscriptionMessageDelivery}
      {x : SubscriptionMessageDelivery} : todo[k]? = some x →
      Does t (.attempt k) (.attempting u todo) [.attempt x u.asked u.env.now]
        (.attempting u (todo.eraseIdx k))
  | delay {env : Env} {p : DelayDeliveriesParams} : Does t (.delay env p) .ready
      [.reschedule (delayed env p t.tables) (env.now + p.delay)] .ready
  | settle {a : Settling.Statement} {q q' : Point} {r r' : Settling.Point}
      {ws : List Settling.Write} : q.holds = [] → q'.holds = [] →
      Settling.Does ⟨t.tables, []⟩ a r ws r' → Does t (.settle a) q (ws.flatMap ofSettling) q'
  | publish {a : Publishers.Statement} {q q' : Point} {r r' : Publishers.Point}
      {ws : List Publishers.Insert} : q.holds = [] → q'.holds = [] →
      Publishers.statement a r t.tables = .ok (ws, r') →
      Does t (.publish a) q (ws.map ofPublishers) q'

theorem settle_does {t : Ledger} {a : Settling.Statement} {q q' : Point} {r : Settling.Point}
    {ws : List Write} (hq : q.holds = []) (h : settle a r t.tables = .ok (ws, q')) :
    Does t (.settle a) q ws q' := by
  obtain ⟨⟨ws', r'⟩, hr, h⟩ := map_ok.mp h
  obtain ⟨rfl, rfl⟩ := Prod.mk.inj h
  refine .settle hq ?_ (Settling.statement_does hr)
  cases r' <;> rfl

theorem publish_does {t : Ledger} {a : Publishers.Statement} {q q' : Point} {r : Publishers.Point}
    {ws : List Write} (hq : q.holds = []) (h : publish a r t.tables = .ok (ws, q')) :
    Does t (.publish a) q ws q' := by
  obtain ⟨⟨ws', r'⟩, hr, h⟩ := map_ok.mp h
  obtain ⟨rfl, rfl⟩ := Prod.mk.inj h
  refine .publish hq ?_ hr
  cases r' <;> rfl

theorem statement_does {t : Ledger} {a : Statement} {q q' : Point} {ws : List Write}
    (h : statement a q t = .ok (ws, q')) : Does t a q ws q' := by
  unfold statement at h
  split at h
  · obtain ⟨sub, -, h⟩ := map_ok.mp h
    obtain ⟨rfl, rfl⟩ := Prod.mk.inj h
    exact .verify
  · split at h
    · cases h
      exact .wait
    · cases h
      exact .select rfl
  · cases h
    exact .refresh
  · split at h
    · cases h
      exact .looped ‹_›
    · obtain ⟨rows, -, h⟩ := bind_ok.mp h
      obtain ⟨u, hu, h⟩ := bind_ok.mp h
      obtain ⟨rfl, rfl⟩ := Prod.mk.inj (pure_ok.mp h)
      obtain ⟨hnodup, hfresh⟩ := not_not.mp (failWhen_ok.mp hu)
      exact .forward ‹_› hnodup hfresh
  · obtain ⟨u, hu, h⟩ := bind_ok.mp h
    obtain ⟨rfl, rfl⟩ := Prod.mk.inj (pure_ok.mp h)
    exact .complete (not_not.mp (failWhen_ok.mp hu))
  · cases h
    exact .done
  · split at h
    · cases h
    · obtain ⟨u, hu, h⟩ := bind_ok.mp h
      obtain ⟨rfl, rfl⟩ := Prod.mk.inj (pure_ok.mp h)
      exact .attempt ‹_›
  · cases h
    exact .delay
  · exact settle_does rfl h
  · exact settle_does rfl h
  · exact publish_does rfl h
  · exact publish_does rfl h
  · cases h

def leaseOf (d : Delivery) : Lease Time := ⟨d.attempts, d.attemptAt, d.completedAt.isSome⟩

def lease (t : Tables) (id : UUID) : Option (Lease Time) :=
  (fetch Delivery.id id t.deliveries).map leaseOf

def Write.op (id : UUID) : Write → Option (Op Time)
  | .attempt x asked _ => if x.id = id then some (.give asked (dueAgain x) x.numAttempts) else none
  | .complete ids _ => if id ∈ ids then some .finish else none
  | .reschedule ids attemptAt => if id ∈ ids then some (.move attemptAt) else none
  | .insert d => if d.id = id then some (.create (leaseOf d)) else none
  | _ => none

def ops (id : UUID) (log : List Write) : List (Op Time) := log.filterMap (Write.op id)

def ids (t : Ledger) : List UUID := t.tables.deliveries.map Delivery.id

def insertions (log : List Write) : List UUID := log.flatMap Write.inserts

def seen (t : Ledger) (log : List Write) : Ledger := log.foldl Ledger.apply t

section
variable {t : Ledger} {id : UUID} {w : Write} {log : List Write}

theorem ops_append (log log' : List Write) : ops id (log ++ log') = ops id log ++ ops id log' :=
  List.filterMap_append

theorem op_untouched (h : id ∉ w.touches) : w.op id = none := by
  cases w with
  | attempt x asked now =>
    have hne : x.id ≠ id := fun heq => h (by simp [Write.touches, heq])
    simp [Write.op, hne]
  | complete ids now => simp only [Write.op, if_neg (show id ∉ ids from h)]
  | reschedule ids attemptAt => simp only [Write.op, if_neg (show id ∉ ids from h)]
  | insert d =>
    have hne : d.id ≠ id := fun heq => h (by simp [Write.touches, heq])
    simp [Write.op, hne]
  | lock ids => rfl
  | message m => rfl
  | extend k expiresAt => rfl

theorem ops_untouched (h : ∀ w ∈ log, id ∉ w.touches) : ops id log = [] :=
  List.filterMap_eq_nil_iff.mpr fun w hw => op_untouched (h w hw)

theorem lease_update (ms : List UUID) (u : DeliveryUpdate) (t : Tables) :
    lease (update ms u t) id =
      (fetch Delivery.id id t.deliveries).map
        (fun d => leaseOf (if id ∈ ms then u.apply d else d)) := by
  have hfetch : fetch Delivery.id id (update ms u t).deliveries =
      (fetch Delivery.id id t.deliveries).map (setWhere (fun d => decide (d.id ∈ ms)) u.apply) :=
    fetch_map (fun r => setWhere_id _ r) t.deliveries
  rw [lease, hfetch, Option.map_map]
  refine Option.map_congr fun d hd => ?_
  have hid : d.id = id := (fetch_mem hd).2
  simp [setWhere, hid]

theorem lease_apply (t : Tables) (w : Write) (id : UUID) :
    lease (w.apply t) id = (w.op id).toList.foldl after (lease t id) := by
  cases w with
  | lock ids => rfl
  | message m => rfl
  | extend k expiresAt => rfl
  | attempt x asked now =>
    rw [Write.apply, lease_update]
    by_cases hid : x.id = id
    · simp [Write.op, hid, lease, after, Function.comp_def, leaseOf, DeliveryUpdate.apply]
    · have hne : id ≠ x.id := fun heq => hid heq.symm
      simp [Write.op, hid, hne, lease]
  | complete ms now =>
    rw [Write.apply, lease_update]
    by_cases hid : id ∈ ms
    · simp [Write.op, hid, lease, after, Function.comp_def, leaseOf, DeliveryUpdate.apply]
    · simp [Write.op, hid, lease]
  | reschedule ms attemptAt =>
    rw [Write.apply, lease_update]
    by_cases hid : id ∈ ms
    · simp [Write.op, hid, lease, after, Function.comp_def, leaseOf, DeliveryUpdate.apply]
    · simp [Write.op, hid, lease]
  | insert d =>
    have hfetch : fetch Delivery.id id (t.deliveries ++ [d]) =
        (fetch Delivery.id id t.deliveries <|> if d.id = id then some d else none) := by
      rw [fetch, List.find?_append]
      by_cases hid : d.id = id <;> simp [fetch, hid]
    rw [Write.apply, lease, hfetch, lease]
    by_cases hid : d.id = id
    · cases hold : fetch Delivery.id id t.deliveries <;> simp [Write.op, hid, after]
    · cases hold : fetch Delivery.id id t.deliveries <;> simp [Write.op, hid]

theorem lease_seen (t : Ledger) (log : List Write) (id : UUID) :
    lease (seen t log).tables id = (ops id log).foldl after (lease t.tables id) := by
  induction log generalizing t with
  | nil => rfl
  | cons w log ih =>
    show lease (seen (t.apply w) log).tables id = _
    rw [ih, show lease (t.apply w).tables id = _ from lease_apply t.tables w id]
    cases hop : w.op id <;> simp [ops, hop]

theorem lease_untouched (h : ∀ w ∈ log, id ∉ w.touches) :
    lease (seen t log).tables id = lease t.tables id := by
  rw [lease_seen, ops_untouched h]
  rfl

theorem lease_some : lease t.tables id ≠ none ↔ id ∈ ids t := by
  constructor
  · intro h
    cases hd : fetch Delivery.id id t.tables.deliveries with
    | none => exact absurd (by simp [lease, hd]) h
    | some d =>
      obtain ⟨hmem, rfl⟩ := fetch_mem hd
      exact List.mem_map_of_mem hmem
  · intro h
    obtain ⟨d, hd⟩ := fetch_isSome (List.mem_map.mp h)
    simp [lease, hd]

theorem ids_apply (t : Ledger) (w : Write) : ids (t.apply w) = ids t ++ w.inserts := by
  cases w <;> simp [ids, Ledger.apply, Write.apply, Write.inserts, update, Function.comp_def]

theorem ids_seen (t : Ledger) (log : List Write) : ids (seen t log) = ids t ++ insertions log := by
  induction log generalizing t with
  | nil => simp [seen, insertions]
  | cons w log ih =>
    have hrest := ih (t.apply w)
    rw [ids_apply, List.append_assoc] at hrest
    exact hrest

theorem history_seen (t : Ledger) (log : List Write) :
    (seen t log).history = t.history ++ log := by
  induction log generalizing t with
  | nil => simp [seen]
  | cons w log ih =>
    refine (ih (t.apply w)).trans ?_
    simp [Ledger.apply]

theorem seen_append (t : Ledger) (log ws : List Write) :
    seen t (log ++ ws) = seen (seen t log) ws := List.foldl_append

end

structure Holds (t : Ledger) (log : List Write) (k : Holding) : Prop where
  locked : ∃ w ∈ log, k.id ∈ w.touches
  lease : ∃ x, Competing.lease (seen t log).tables k.id = some x ∧ x.finished = false ∧
    x.due ≤ k.asked ∧ k.count = x.count + 1

structure Leased (start : Tables) (t : Ledger) (s : Session Write Point) : Prop where
  keys : (ids (seen t s.log)).Nodup
  history : ∀ id, Lawful (lease start id) (ops id t.history)
  result : ∀ id, (ops id t.history).foldl after (lease start id) = lease t.tables id
  log : ∀ id, Lawful (lease t.tables id) (ops id s.log)
  held : ∀ k ∈ s.point.holds, Holds t s.log k
  apart : (s.point.holds.map Holding.id).Nodup

def NoClash (s s' : Session Write Point) : Prop :=
  ∀ w ∈ s.log, ∀ w' ∈ s'.log, Write.clash w w' = false

structure Fine (held : List UUID) (t : Ledger) (w : Write) : Prop where
  fresh : ∀ k ∈ w.inserts, k ∉ ids t
  allowed : ∀ id, ∀ op ∈ w.op id, Allowed (lease t.tables id) op (after (lease t.tables id) op)
  kept : ∀ k ∈ held, lease (w.apply t.tables) k = lease t.tables k

def AllFine (held : List UUID) : Ledger → List Write → Prop
  | _, [] => True
  | t, w :: ws => Fine held t w ∧ AllFine held (t.apply w) ws

section
variable {start : Tables} {t : Ledger} {s s' : Session Write Point} {w : Write} {ws : List Write}
  {held : List UUID}

theorem Fine.lawful (h : Fine held t w) (id : UUID) :
    Lawful (lease t.tables id) (w.op id).toList := by
  cases hop : w.op id with
  | none => exact trivial
  | some op => exact ⟨h.allowed id op hop, trivial⟩

theorem Fine.keys (h : Fine held t w) (hkeys : (ids t).Nodup) : (ids (t.apply w)).Nodup := by
  rw [ids_apply]
  have hinserts : w.inserts.Nodup := by cases w <;> simp [Write.inserts]
  exact List.nodup_append.mpr ⟨hkeys, hinserts, fun a ha b hb hab => h.fresh b hb (hab ▸ ha)⟩

theorem allFine_seen (h : AllFine held t ws) (hkeys : (ids t).Nodup) :
    (ids (seen t ws)).Nodup ∧ (∀ id, Lawful (lease t.tables id) (ops id ws)) ∧
      ∀ k ∈ held, lease (seen t ws).tables k = lease t.tables k := by
  induction ws generalizing t with
  | nil => exact ⟨hkeys, fun id => trivial, fun k hk => rfl⟩
  | cons w ws ih =>
    obtain ⟨hkeys', hlog, hkept⟩ := ih h.2 (h.1.keys hkeys)
    refine ⟨hkeys', fun id => ?_, fun k hk => ?_⟩
    · have hcons : ops id (w :: ws) = (w.op id).toList ++ ops id ws := by
        cases hop : w.op id <;> simp [ops, hop]
      rw [hcons]
      refine lawful_append.mpr ⟨h.1.lawful id, ?_⟩
      rw [← lease_apply]
      exact hlog id
    · exact (hkept k hk).trans (h.1.kept k hk)

theorem Leased.write (h : Leased start t s) {q : Point}
    (hfine : AllFine (q.holds.map Holding.id) (seen t s.log) ws)
    (hq : q.holds.Sublist s.point.holds) : Leased start t ⟨s.log ++ ws, q⟩ := by
  obtain ⟨hkeys, hlog, hkept⟩ := allFine_seen hfine h.keys
  refine ⟨?_, h.history, h.result, fun id => ?_, fun k hk => ?_, h.apart.sublist (hq.map _)⟩
  · rw [seen_append]
    exact hkeys
  · rw [ops_append]
    refine lawful_append.mpr ⟨h.log id, ?_⟩
    rw [← lease_seen]
    exact hlog id
  · obtain ⟨⟨w, hw, htouch⟩, x, hx, hready⟩ := h.held k (hq.subset hk)
    refine ⟨⟨w, List.mem_append_left _ hw, htouch⟩, x, ?_, hready⟩
    rw [seen_append, hkept k.id (List.mem_map_of_mem hk)]
    exact hx

theorem Leased.read (h : Leased start t s) {q : Point} (hq : q.holds.Sublist s.point.holds) :
    Leased start t ⟨s.log ++ [], q⟩ := h.write trivial hq

theorem Leased.fresh (h : Leased start t s) : Leased start t competing.fresh := by
  refine ⟨?_, h.history, h.result, fun id => trivial, fun k hk => ?_, List.nodup_nil⟩
  · have hkeys := h.keys
    rw [ids_seen] at hkeys
    exact hkeys.sublist (List.sublist_append_left _ _)
  · cases hk

theorem NoClash.apart (h : NoClash s s') {id : UUID} (hw' : ∃ w' ∈ s'.log, id ∈ w'.touches) :
    ∀ w ∈ s.log, id ∉ w.touches := by
  intro w hw hin
  obtain ⟨w', hw', hin'⟩ := hw'
  have hfree := (Bool.or_eq_false_iff.mp (h w hw w' hw')).1
  exact List.any_eq_false.mp hfree id hin (decide_eq_true hin')

theorem inserts_touches {k : UUID} (h : k ∈ w.inserts) : k ∈ w.touches := by
  cases w with
  | insert d => exact h
  | lock => cases h
  | attempt => cases h
  | complete => cases h
  | reschedule => cases h
  | message => cases h
  | extend => cases h

/-- What two transactions have each done alone, they may do one after the
other. -/
theorem Leased.commit (h : Leased start t s) (h' : Leased start t s') (hfree : NoClash s s') :
    Leased start (seen t s.log) s' := by
  have hsame : ∀ id, (∃ w' ∈ s'.log, id ∈ w'.touches) →
      lease (seen t s.log).tables id = lease t.tables id :=
    fun id hw' => lease_untouched (hfree.apart hw')
  refine ⟨?_, fun id => ?_, fun id => ?_, fun id => ?_, fun k hk => ?_, h'.apart⟩
  · have hkeys := h.keys
    have hkeys' := h'.keys
    rw [ids_seen] at hkeys hkeys'
    rw [ids_seen, ids_seen]
    refine SettledOnce.nodup_three hkeys hkeys' (SettledOnce.flatMap_apart ?_)
    intro w hw w' hw' k hk hk'
    exact hfree.apart ⟨w', hw', inserts_touches hk'⟩ w hw (inserts_touches hk)
  · rw [history_seen, ops_append]
    refine lawful_append.mpr ⟨h.history id, ?_⟩
    rw [h.result]
    exact h.log id
  · rw [history_seen, ops_append, List.foldl_append, h.result, ← lease_seen]
  · by_cases htouched : ∃ w' ∈ s'.log, id ∈ w'.touches
    · rw [hsame id htouched]
      exact h'.log id
    · have hnone : ops id s'.log = [] :=
        ops_untouched fun w' hw' hin => htouched ⟨w', hw', hin⟩
      rw [hnone]
      trivial
  · obtain ⟨hlocked, x, hx, hready⟩ := h'.held k hk
    refine ⟨hlocked, x, ?_, hready⟩
    rw [lease_seen, hsame k.id hlocked, ← lease_seen]
    exact hx

theorem fine_silent (hinserts : w.inserts = []) (hop : ∀ id, w.op id = none) : Fine held t w where
  fresh := by simp [hinserts]
  allowed := fun id op h => by simp [hop id] at h
  kept := fun k _ => by
    rw [lease_apply, hop k]
    rfl

theorem fine_known (hinserts : w.inserts = []) (hknown : ∀ k ∈ w.touches, k ∈ ids t)
    (hheld : ∀ k ∈ held, k ∉ w.touches)
    (hop : ∀ id, ∀ op ∈ w.op id, op = .finish ∨ ∃ due, op = .move due) : Fine held t w where
  fresh := by simp [hinserts]
  allowed := fun id op h => by
    have htouched : id ∈ w.touches := by
      by_contra hno
      rw [op_untouched hno] at h
      cases h
    cases hl : lease t.tables id with
    | none => exact absurd hl (lease_some.mpr (hknown id htouched))
    | some x => rcases hop id op h with rfl | ⟨due, rfl⟩ <;> trivial
  kept := fun k hk => by
    rw [lease_apply, op_untouched (hheld k hk)]
    rfl

theorem fine_complete {ms : List UUID} {now : Time} (hknown : ∀ k ∈ ms, k ∈ ids t)
    (hheld : ∀ k ∈ held, k ∉ ms) : Fine held t (.complete ms now) := by
  refine fine_known rfl hknown hheld fun id op h => ?_
  by_cases hid : id ∈ ms
  · simp only [Write.op, if_pos hid, Option.mem_def, Option.some.injEq] at h
    exact Or.inl h.symm
  · simp [Write.op, hid] at h

theorem fine_reschedule {ms : List UUID} {attemptAt : Time} (hknown : ∀ k ∈ ms, k ∈ ids t)
    (hheld : ∀ k ∈ held, k ∉ ms) : Fine held t (.reschedule ms attemptAt) := by
  refine fine_known rfl hknown hheld fun id op h => ?_
  by_cases hid : id ∈ ms
  · simp only [Write.op, if_pos hid, Option.mem_def, Option.some.injEq] at h
    exact Or.inr ⟨attemptAt, h.symm⟩
  · simp [Write.op, hid] at h

theorem fine_insert {d : Delivery} (hd : d.id ∉ ids t) (hheld : ∀ k ∈ held, k ∈ ids t) :
    Fine held t (.insert d) where
  fresh := fun k hk => by rwa [List.mem_singleton.mp hk]
  allowed := fun id op h => by
    by_cases hid : d.id = id
    · simp only [Write.op, if_pos hid, Option.mem_def, Option.some.injEq] at h
      have hnone : lease t.tables id = none := by
        by_contra hsome
        exact hd (hid ▸ lease_some.mp hsome)
      rw [hnone, ← h]
      trivial
    · simp [Write.op, hid] at h
  kept := fun k hk => by
    have hne : d.id ≠ k := fun heq => hd (heq ▸ hheld k hk)
    rw [lease_apply]
    simp [Write.op, hne]

theorem fine_inserts {rows : List Delivery} (hnodup : (rows.map Delivery.id).Nodup)
    (hfresh : ∀ r ∈ rows, r.id ∉ ids t) (hheld : ∀ k ∈ held, k ∈ ids t) :
    AllFine held t (rows.map .insert) := by
  induction rows generalizing t with
  | nil => trivial
  | cons d rows ih =>
    obtain ⟨hd, hrest⟩ := List.nodup_cons.mp hnodup
    refine ⟨fine_insert (hfresh d List.mem_cons_self) hheld, ih hrest (fun r hr hin => ?_) ?_⟩
    · rw [ids_apply] at hin
      rcases List.mem_append.mp hin with hin | hin
      · exact hfresh r (List.mem_cons_of_mem _ hr) hin
      · rw [← List.mem_singleton.mp hin] at hd
        exact hd (List.mem_map_of_mem hr)
    · intro k hk
      rw [ids_apply]
      exact List.mem_append_left _ (hheld k hk)

theorem fine_attempt {x : SubscriptionMessageDelivery} {asked now : Time} {l : Lease Time}
    (hl : lease t.tables x.id = some l)
    (hready : l.finished = false ∧ l.due ≤ asked ∧ x.numAttempts = l.count + 1)
    (hheld : ∀ k ∈ held, k ≠ x.id) : Fine held t (.attempt x asked now) where
  fresh := by simp [Write.inserts]
  allowed := fun id op h => by
    by_cases hid : x.id = id
    · simp only [Write.op, if_pos hid, Option.mem_def, Option.some.injEq] at h
      rw [← hid, hl, ← h]
      exact hready
    · simp [Write.op, hid] at h
  kept := fun k hk => by
    rw [lease_apply]
    simp [Write.op, (hheld k hk).symm]

theorem allFine_one (h : Fine held t w) : AllFine held t [w] := ⟨h, trivial⟩

theorem Leased.held_known (h : Leased start t s) :
    ∀ k ∈ s.point.holds.map Holding.id, k ∈ ids (seen t s.log) := by
  intro k hk
  obtain ⟨hold, hhold, rfl⟩ := List.mem_map.mp hk
  obtain ⟨x, hx, -⟩ := (h.held hold hhold).lease
  exact lease_some.mp (by simp [hx])

theorem select_leased (h : Leased start t s) {env : Env} {skipped : List UUID}
    {p : GetSubscriptionMessagesParams} {sub : Subscription} {rows : List (Delivery × Message)}
    (hrows : queryAndSkipLocked env (seen t s.log).tables sub p skipped = rows) :
    Leased start t ⟨s.log ++ [.lock (rows.map (fun x => x.1.id))], .found p sub env.now rows⟩ := by
  have hsilent : AllFine ([] : List UUID) (seen t s.log) [.lock (rows.map (fun x => x.1.id))] :=
    allFine_one (fine_silent rfl fun _ => rfl)
  obtain ⟨hkeys, hlog, -⟩ := allFine_seen hsilent h.keys
  have hunique : UniqueKeys Delivery.id (seen t s.log).tables.deliveries := h.keys
  refine ⟨by rwa [seen_append], h.history, h.result, fun id => ?_, fun k hk => ?_, ?_⟩
  · rw [ops_append]
    refine lawful_append.mpr ⟨h.log id, ?_⟩
    rw [← lease_seen]
    exact hlog id
  · obtain ⟨x, hx, rfl⟩ := List.mem_map.mp hk
    refine ⟨⟨_, List.mem_append_right _ List.mem_cons_self, List.mem_map_of_mem hx⟩, ?_⟩
    subst hrows
    obtain ⟨hmem, hdue, hopen⟩ := queryAndSkipLocked_mem hx
    refine ⟨leaseOf x.1, ?_, ?_, hdue, rfl⟩
    · rw [seen_append]
      show (fetch Delivery.id x.1.id (seen t s.log).tables.deliveries).map leaseOf = _
      rw [fetch_of_mem hunique hmem]
      rfl
    · simp [leaseOf, hopen]
  · show ((rows.map (held env.now)).map Holding.id).Nodup
    subst hrows
    have hnodup := queryAndSkipLocked_nodup env sub p skipped hunique
    simpa [List.map_map, Function.comp_def, held] using hnodup

theorem attempt_leased (h : Leased start t s) {u : Pull} {todo : List SubscriptionMessageDelivery}
    (hpoint : s.point = .attempting u todo) {k : ℕ} {x : SubscriptionMessageDelivery}
    (hk : todo[k]? = some x) :
    Leased start t ⟨s.log ++ [.attempt x u.asked u.env.now], .attempting u (todo.eraseIdx k)⟩ := by
  obtain ⟨hlt, rfl⟩ := List.getElem?_eq_some_iff.mp hk
  have hholds : s.point.holds = todo.map (heldResult u.asked) := by rw [hpoint]; rfl
  obtain ⟨l, hl, hready⟩ := (h.held (heldResult u.asked todo[k])
    (hholds ▸ List.mem_map_of_mem (List.getElem_mem hlt))).lease
  have hapart : (todo[k].id :: (todo.eraseIdx k).map SubscriptionMessageDelivery.id).Nodup := by
    have hnodup := h.apart
    rw [hholds, List.map_map] at hnodup
    exact ((List.getElem_cons_eraseIdx_perm hlt).map _).nodup_iff.mpr hnodup
  refine h.write (allFine_one (fine_attempt hl hready fun m hm heq => ?_)) ?_
  · obtain ⟨y, hy, rfl⟩ := List.mem_map.mp hm
    obtain ⟨z, hz, rfl⟩ := List.mem_map.mp hy
    exact (List.nodup_cons.mp hapart).1 (heq ▸ List.mem_map_of_mem hz)
  · rw [hholds]
    exact (List.eraseIdx_sublist todo k).map _

theorem complete_leased (h : Leased start t s) {u : Pull} {drawn i : ℕ} {d : Delivery}
    {rest : List (Delivery × Message)} {bytes : ℤ} {results : List SubscriptionMessageDelivery}
    (hpoint : s.point = .forwarded u drawn d i rest bytes results) :
    Leased start t ⟨s.log ++ [.complete [d.id] u.env.now],
      .applying u drawn i rest bytes results⟩ := by
  have hholds : s.point.holds = results.map (heldResult u.asked) ++
      ⟨d.id, d.attempts + 1, u.asked⟩ :: rest.map (held u.asked) := by rw [hpoint]; rfl
  have hapart : (d.id :: (Point.applying u drawn i rest bytes results).holds.map
      Holding.id).Nodup := by
    have hnodup := h.apart
    rw [hholds] at hnodup
    exact (List.perm_middle.map Holding.id).nodup_iff.mp hnodup
  have hknown : d.id ∈ ids (seen t s.log) := by
    refine h.held_known d.id ?_
    rw [hholds]
    simp
  refine h.write (allFine_one (fine_complete (fun k hk => ?_) fun k hk hin => ?_)) ?_
  · rwa [List.mem_singleton.mp hk]
  · exact (List.nodup_cons.mp hapart).1 (List.mem_singleton.mp hin ▸ hk)
  · rw [hholds]
    exact (List.Sublist.refl _).append (List.sublist_cons_self _ _)

theorem settle_fine {a : Settling.Statement} {r r' : Settling.Point} {ws : List Settling.Write}
    (h : Settling.Does ⟨t.tables, []⟩ a r ws r') : AllFine [] t (ws.flatMap ofSettling) := by
  cases h with
  | sweep => trivial
  | nack => trivial
  | finish => trivial
  | @ack env ms =>
    refine allFine_one (fine_complete (fun k hk => ?_) (by simp))
    obtain ⟨d, hd, rfl⟩ := List.mem_map.mp hk
    exact List.mem_map_of_mem (List.mem_of_mem_filter hd)
  | @forward env drawn data tasks rows _ hnodup hfresh =>
    have hall : AllFine [] t (rows.map Write.insert) := fine_inserts hnodup
      (fun r hr hin => hfresh r hr (List.mem_map.mp hin)) (by simp)
    simpa [ofSettling] using hall
  | @complete env drawn data tasks hhas =>
    refine allFine_one (fine_complete (fun k hk => ?_) (by simp))
    rw [List.mem_singleton.mp hk]
    exact List.mem_map.mpr hhas
  | @reschedule env drawn id attemptAt tasks hhas =>
    refine allFine_one (fine_reschedule (fun k hk => ?_) (by simp))
    rw [List.mem_singleton.mp hk]
    exact List.mem_map.mpr hhas

theorem publish_fine {a : Publishers.Statement} {r r' : Publishers.Point}
    {ws : List Publishers.Insert} (h : Publishers.statement a r t.tables = .ok (ws, r')) :
    AllFine [] t (ws.map ofPublishers) := by
  cases a with
  | execute env p =>
    obtain ⟨topic, -, rfl, -⟩ := Publishers.execute_ok h
    exact allFine_one (fine_silent rfl fun _ => rfl)
  | setUp =>
    obtain ⟨-, -, -, -, -, -, rfl, -⟩ := Publishers.setUp_ok h
    trivial
  | save =>
    cases r with
    | ready => cases h
    | delivering env m subs dc =>
      cases subs with
      | cons s subs => cases h
      | nil =>
        obtain ⟨u, hu, h⟩ := bind_ok.mp h
        obtain ⟨rfl, -⟩ := Prod.mk.inj (pure_ok.mp h)
        obtain ⟨hnodup, hfresh⟩ := not_not.mp (failWhen_ok.mp hu)
        have hall : AllFine [] t ((deliveryRows env 1 dc).map Write.insert) :=
          fine_inserts hnodup (fun r hr hin => hfresh r hr (List.mem_map.mp hin)) (by simp)
        simpa [ofPublishers, Function.comp_def] using hall

theorem does_leased (h : Leased start t s) {a : Statement} {q : Point}
    (hdoes : Does (seen t s.log) a s.point ws q) : Leased start t ⟨s.log ++ ws, q⟩ := by
  obtain ⟨log, point⟩ := s
  cases hdoes with
  | verify => exact h.read (List.Sublist.refl _)
  | wait => exact h.read (List.Sublist.refl _)
  | select hrows => exact select_leased h hrows
  | refresh => exact h.write (allFine_one (fine_silent rfl fun _ => rfl)) (List.Sublist.refl _)
  | @looped u drawn i rest bytes results results' hadvance =>
    refine h.read ?_
    have hsub := advance_holds u i rest bytes results
    rw [hadvance] at hsub
    exact hsub
  | @forward u drawn i i' rest rest' bytes bytes' results results' topicID d rows hadvance hnodup
      hfresh =>
    have hsub := advance_holds u i rest bytes results
    rw [hadvance] at hsub
    refine h.write (fine_inserts hnodup (fun r hr hin => hfresh r hr (List.mem_map.mp hin)) ?_) hsub
    exact fun k hk => h.held_known k ((hsub.map Holding.id).subset hk)
  | complete _ => exact complete_leased h rfl
  | done => exact h.read (List.Sublist.refl _)
  | attempt hk => exact attempt_leased h rfl hk
  | @delay env p =>
    refine h.write (allFine_one (fine_reschedule (fun k hk => ?_) (by simp [Point.holds])))
      (List.Sublist.refl _)
    obtain ⟨d, hd, rfl⟩ := List.mem_map.mp hk
    exact List.mem_map_of_mem (List.mem_of_mem_filter hd)
  | @settle a q q' r r' ws hq hq' hdoes =>
    refine h.write ?_ (by simp [hq'])
    rw [hq']
    exact settle_fine hdoes
  | @publish a q q' r r' ws hq hq' hst =>
    refine h.write ?_ (by simp [hq'])
    rw [hq']
    exact publish_fine hst

end

end Mmmbbb.Competing
