import Mmmbbb.Delivering
import Mmmbbb.JsonText

/-!
# Publishing and consuming messages

The actions a publisher and a subscriber run: publish, get, ack, nack and
delay, and the background sweep that dead-letters what has used up its
attempts. Each is the body of one transaction.
-/

set_option autoImplicit false

namespace Mmmbbb.Consuming
open KeyedRows Programs Mmmbbb.Schema Mmmbbb.Database Mmmbbb.Delivering

def only {α : Type} (p : α → Bool) (rows : List α) : Except Error α :=
  match rows.filter p with
  | [] => .error .errNotFound
  | [r] => .ok r
  | _ => .error .notSingular

theorem only_ok {α : Type} {p : α → Bool} {rows : List α} {r : α} (h : only p rows = .ok r) :
    r ∈ rows ∧ p r = true := by
  unfold only at h
  split at h
  · cases h
  · rename_i x hf
    cases h
    exact List.mem_filter.mp (hf ▸ List.mem_singleton_self _)
  · cases h

theorem only_eq {α : Type} {p : α → Bool} {rows : List α} {r x : α} (h : only p rows = .ok r)
    (hx : x ∈ rows) (hp : p x = true) : r = x := by
  unfold only at h
  have hmem : x ∈ rows.filter p := List.mem_filter.mpr ⟨hx, hp⟩
  split at h
  · cases h
  · rename_i y hf
    cases h
    rw [hf, List.mem_singleton] at hmem
    exact hmem.symm
  · cases h

theorem only_unique {α : Type} {p : α → Bool} {rows : List α} {r : α} (hn : rows.Nodup)
    (hu : ∀ a ∈ rows, p a = true → a = r) (hr : r ∈ rows) (hp : p r = true) :
    only p rows = .ok r := by
  have hmem : r ∈ rows.filter p := List.mem_filter.mpr ⟨hr, hp⟩
  have hall : ∀ a ∈ rows.filter p, a = r := fun a ha =>
    hu a (List.mem_filter.mp ha).1 (List.mem_filter.mp ha).2
  have hnodup : (rows.filter p).Nodup := hn.filter p
  unfold only
  split
  · rename_i hf
    simp [hf] at hmem
  · rename_i x hf
    rw [hall x (by simp [hf])]
  · rename_i hne hone
    match hf : rows.filter p with
    | [] => exact absurd hf hne
    | [x] => exact absurd hf (hone x)
    | x :: y :: rest =>
      have hx := hall x (by simp [hf])
      have hy := hall y (by simp [hf])
      simp [hf, hx, hy] at hnodup

/-- The predicates of a lookup by name, by id or by both: an empty name and an
absent id are not looked at. -/
def nameMatches (wanted : String) (name : String) : Bool := wanted = "" || decide (name = wanted)

def idMatches (wanted : Option UUID) (id : UUID) : Bool :=
  match wanted with
  | none => true
  | some k => decide (id = k)

def subMatch (name : String) (id : Option UUID) (s : Subscription) : Bool :=
  s.deletedAt.isNone && idMatches id s.id && nameMatches name s.name

structure PublishMessageParams where
  topicName : String
  topicID : Option UUID
  payload : List UInt8
  attributes : List (String × String)
  orderKey : String

structure PublishMessageResults where
  id : UUID
  numDeliveries : ℕ
  deriving DecidableEq, Repr

def publishTopic (p : PublishMessageParams) (t : Tables) : Except Error Topic :=
  only (fun r : Topic => r.deletedAt.isNone && idMatches p.topicID r.id &&
    nameMatches p.topicName r.name) t.topics

/-- The payload as it is read back; nothing if it is not JSON, or the database
refuses it. -/
def storedPayload (env : Env) (payload : List UInt8) : Option (List UInt8) :=
  (JsonText.marshal payload).bind env.jsonColumn

def newMessage (env : Env) (id topicID : UUID) (p : PublishMessageParams) : Message where
  id := id
  topicID := topicID
  payload := (storedPayload env p.payload).getD []
  attributes := p.attributes
  publishedAt := env.now
  orderKey := if p.orderKey = "" then none else some p.orderKey

def publishMessage (env : Env) (p : PublishMessageParams) (tx : Tx) :
    Except Error (PublishMessageResults × Tx) := do
  let t ← publishTopic p tx.db.toTables
  let subs := liveSubscriptions env tx.db.toTables t.id
  let m := newMessage env (env.uuid tx.drawn) t.id p
  failWhen (storedPayload env p.payload = none) .invalidPayload
  let db ← tx.db.insertMessage m
  let (dc, tx) := deliverAll env subs m { tx with db := db, drawn := tx.drawn + 1 }
  let tx ← createBulk env dc tx
  pure (⟨m.id, dc.length⟩, tx)

structure GetSubscriptionMessagesParams where
  name : String
  id : Option UUID
  maxMessages : ℤ
  maxBytes : ℤ
  maxBytesStrict : Bool

structure SubscriptionMessageDelivery where
  id : UUID
  messageID : UUID
  publishedAt : Time
  numAttempts : ℕ
  nextAttemptAt : Time
  fuzzDelay : Duration
  orderKey : Option String
  payload : List UInt8
  attributes : List (String × String)
  deriving DecidableEq, Repr

structure GetSubscriptionMessagesResults where
  deliveries : List SubscriptionMessageDelivery
  numDeadLettered : ℕ
  deriving DecidableEq, Repr

def verifySub (p : GetSubscriptionMessagesParams) (t : Tables) : Except Error Subscription :=
  only (subMatch p.name p.id) t.subscriptions

/-- The left join of the in-order check: no predecessor, or a predecessor that
is completed or expired. -/
def orderingCondition (now : Time) (t : Tables) (d : Delivery) : Bool :=
  match d.notBeforeID with
  | none => true
  | some k =>
    match fetch Delivery.id k t.deliveries with
    | none => false
    | some b => b.completedAt.isSome || decide (b.expiresAt ≤ now)

/-- The predicates of `buildDeliveryQuery`; the first is only there for an
ordered subscription. -/
def buildDeliveryQuery (now : Time) (t : Tables) (sub : Subscription)
    (extraPredicates : Delivery → Bool) (d : Delivery) : Bool :=
  (!sub.orderedDelivery || orderingCondition now t d) && extraPredicates d &&
    d.completedAt.isNone && decide (now < d.expiresAt) && decide (d.subscriptionID = sub.id)

/-- The due deliveries, each loaded with its message. Under serialised
transactions no row is locked by another one, so none is skipped. -/
def queryAndLockDeliveriesOnce (env : Env) (t : Tables) (sub : Subscription)
    (p : GetSubscriptionMessagesParams) : List (Delivery × Message) :=
  let rows := t.deliveries.filter
    (buildDeliveryQuery env.now t sub (fun d => decide (d.attemptAt ≤ env.now)))
  let rows := (orderBy Delivery.attemptAt (env.deliveries.run rows)).take p.maxMessages.toNat
  rows.filterMap (fun d => (fetch Message.id d.messageID t.messages).map (fun m => (d, m)))

theorem queryAndLockDeliveriesOnce_mem {env : Env} {t : Tables} {sub : Subscription}
    {p : GetSubscriptionMessagesParams} {x : Delivery × Message}
    (h : x ∈ queryAndLockDeliveriesOnce env t sub p) :
    x.1 ∈ t.deliveries ∧
      buildDeliveryQuery env.now t sub (fun d => decide (d.attemptAt ≤ env.now)) x.1 = true ∧
      x.2 ∈ t.messages ∧ x.2.id = x.1.messageID := by
  obtain ⟨d, hd, hx⟩ := List.mem_filterMap.mp h
  obtain ⟨m, hf, rfl⟩ := Option.map_eq_some_iff.mp hx
  have hd := List.mem_of_mem_take hd
  simp only [mem_orderBy, ScanOrder.mem_run, List.mem_filter] at hd
  exact ⟨hd.1, hd.2, fetch_mem hf⟩

theorem loaded_sublist (t : Tables) (rows : List Delivery) :
    ((rows.filterMap (fun d => (fetch Message.id d.messageID t.messages).map
      (fun m => (d, m)))).map Prod.fst).Sublist rows := by
  have hfst : ∀ (d : Delivery) x, (fetch Message.id d.messageID t.messages).map
      (fun m => (d, m)) = some x → x.1 = id d := by
    intro d x hx
    obtain ⟨m, -, rfl⟩ := Option.map_eq_some_iff.mp hx
    rfl
  have hsub := filterMap_keys id Prod.fst hfst rows
  rwa [List.map_id] at hsub

theorem queryAndLockDeliveriesOnce_sublist (env : Env) (t : Tables) (sub : Subscription)
    (p : GetSubscriptionMessagesParams) :
    ∃ rows : List Delivery, rows.Perm (t.deliveries.filter
        (buildDeliveryQuery env.now t sub (fun d => decide (d.attemptAt ≤ env.now)))) ∧
      ((queryAndLockDeliveriesOnce env t sub p).map Prod.fst).Sublist
        (rows.take p.maxMessages.toNat) :=
  ⟨_, (orderBy_perm _ _).trans (env.deliveries.perm _), loaded_sublist _ _⟩

theorem queryAndLockDeliveriesOnce_length (env : Env) (t : Tables) (sub : Subscription)
    (p : GetSubscriptionMessagesParams) :
    (queryAndLockDeliveriesOnce env t sub p).length ≤ p.maxMessages.toNat := by
  obtain ⟨rows, -, hsub⟩ := queryAndLockDeliveriesOnce_sublist env t sub p
  have hlen := hsub.length_le
  rw [List.length_map, List.length_take] at hlen
  omega

theorem queryAndLockDeliveriesOnce_nodup (env : Env) (db : DB) (sub : Subscription)
    (p : GetSubscriptionMessagesParams) :
    ((queryAndLockDeliveriesOnce env db.toTables sub p).map (fun x => x.1.id)).Nodup := by
  obtain ⟨rows, hperm, hsub⟩ := queryAndLockDeliveriesOnce_sublist env db.toTables sub p
  have hrows : (rows.map Delivery.id).Nodup :=
    ((hperm.map Delivery.id).nodup_iff).mpr (db.sound.delivery_pk.filter _)
  have := (hsub.trans (List.take_sublist _ _)).map Delivery.id
  rw [List.map_map] at this
  exact hrows.sublist this

structure Applied where
  tx : Tx
  bytes : ℤ
  deliveries : List SubscriptionMessageDelivery
  numDeadLettered : ℕ

def Applied.deliver (st : Applied) (x : SubscriptionMessageDelivery) : Applied :=
  { st with bytes := st.bytes + x.payload.length, deliveries := st.deliveries ++ [x] }

def handOut (env : Env) (sub : Subscription) (d : Delivery) (m : Message) :
    SubscriptionMessageDelivery where
  id := d.id
  messageID := m.id
  publishedAt := m.publishedAt
  numAttempts := d.attempts + 1
  nextAttemptAt := env.now + (nextDelayFor sub (d.attempts + 1)).1
  fuzzDelay := (nextDelayFor sub (d.attempts + 1)).2 - (nextDelayFor sub (d.attempts + 1)).1
  orderKey := m.orderKey
  payload := m.payload
  attributes := m.attributes

/-- The loop over the selected deliveries: what does not fit into the budget
is left alone, what has used up its attempts is dead-lettered, and the rest is
handed out. -/
def applyLoop (env : Env) (p : GetSubscriptionMessagesParams) (sub : Subscription) :
    ℕ → List (Delivery × Message) → Applied → Except Error Applied
  | _, [], st => .ok st
  | i, (d, m) :: rest, st =>
    if (p.maxBytesStrict || decide (0 < i)) &&
        decide (p.maxBytes < st.bytes + m.payload.length) then
      applyLoop env p sub (i + 1) rest st
    else
      match sub.deadLetterTopicFor d with
      | some deadLetterTopicID =>
        match deadLetterDelivery env (deadLetterDataFromEntities d deadLetterTopicID) st.tx with
        | .error e => .error e
        | .ok tx =>
          applyLoop env p sub (i + 1) rest
            { st with tx := tx, numDeadLettered := st.numDeadLettered + 1 }
      | none =>
        if p.maxMessages ≤ (i : ℤ) + 1 then .ok (st.deliver (handOut env sub d m))
        else applyLoop env p sub (i + 1) rest (st.deliver (handOut env sub d m))

def Applied.Weighed (st : Applied) : Prop :=
  st.bytes = (st.deliveries.map (fun x => (x.payload.length : ℤ))).sum

theorem Applied.Weighed.deliver {st : Applied} (h : st.Weighed) (x : SubscriptionMessageDelivery) :
    (st.deliver x).Weighed := by
  simp only [Applied.Weighed, Applied.deliver, List.map_append, List.sum_append] at h ⊢
  simp [h]

section
variable {env : Env} {p : GetSubscriptionMessagesParams} {sub : Subscription} {i : ℕ}
  {rest : List (Delivery × Message)} {st st' : Applied}

theorem applyLoop_weighed (h : applyLoop env p sub i rest st = .ok st') (hw : st.Weighed) :
    st'.Weighed ∧ st.bytes ≤ st'.bytes := by
  induction rest generalizing i st with
  | nil =>
    cases h
    exact ⟨hw, le_refl _⟩
  | cons x rest ih =>
    obtain ⟨d, m⟩ := x
    have hgrow : st.bytes ≤ (st.deliver (handOut env sub d m)).bytes := by
      have := Int.natCast_nonneg (handOut env sub d m).payload.length
      simp only [Applied.deliver]
      omega
    rw [applyLoop] at h
    split at h
    · exact ih h hw
    · split at h
      · split at h
        · cases h
        · have hrun := ih h hw
          exact hrun
      · split at h
        · cases h
          exact ⟨hw.deliver _, hgrow⟩
        · obtain ⟨hw', hle⟩ := ih h (hw.deliver _)
          exact ⟨hw', hgrow.trans hle⟩

theorem applyLoop_given (h : applyLoop env p sub i rest st = .ok st') :
    ∀ x ∈ st'.deliveries, x ∈ st.deliveries ∨
      ∃ y ∈ rest, x = handOut env sub y.1 y.2 ∧ sub.deadLetterTopicFor y.1 = none := by
  induction rest generalizing i st with
  | nil =>
    cases h
    exact fun x hx => Or.inl hx
  | cons y rest ih =>
    obtain ⟨d, m⟩ := y
    have hlater : ∀ {x}, (∃ y ∈ rest, x = handOut env sub y.1 y.2 ∧
        sub.deadLetterTopicFor y.1 = none) → ∃ y ∈ (d, m) :: rest,
        x = handOut env sub y.1 y.2 ∧ sub.deadLetterTopicFor y.1 = none :=
      fun ⟨y, hy, hrest⟩ => ⟨y, List.mem_cons_of_mem _ hy, hrest⟩
    rw [applyLoop] at h
    split at h
    · exact fun x hx => (ih h x hx).imp_right hlater
    · split at h
      · split at h
        · cases h
        · exact fun x hx => (ih h x hx).imp_right hlater
      · rename_i hnone
        have hgiven : ∀ x ∈ (st.deliver (handOut env sub d m)).deliveries, x ∈ st.deliveries ∨
            ∃ y ∈ (d, m) :: rest, x = handOut env sub y.1 y.2 ∧
              sub.deadLetterTopicFor y.1 = none := by
          intro x hx
          simp only [Applied.deliver, List.mem_append, List.mem_singleton] at hx
          rcases hx with hx | hx
          · exact Or.inl hx
          · exact Or.inr ⟨(d, m), by simp, hx, hnone⟩
        split at h
        · cases h
          exact hgiven
        · intro x hx
          rcases ih h x hx with hx | hx
          · exact hgiven x hx
          · exact Or.inr (hlater hx)

end

def attemptUpdate (env : Env) (x : SubscriptionMessageDelivery) : DeliveryUpdate where
  lastAttemptedAt := some env.now
  addAttempts := 1
  attemptAt := some (x.nextAttemptAt + x.fuzzDelay)

/-- The source touches the rows in another order, to avoid deadlocks; they are
different rows, so the order does not show. -/
def markAttempted (env : Env) (results : List SubscriptionMessageDelivery) (tx : Tx) :
    Except Error Tx :=
  results.foldlM (fun tx x => tx.updateDelivery x.id (attemptUpdate env x)) tx

def refreshExpiration (env : Env) (sub : Subscription) (tx : Tx) : Except Error Tx := do
  let db ← tx.db.updateSubscriptions (fun s => decide (s.id = sub.id))
    { expiresAt := some (env.now + sub.ttl) }
  pure { tx with db := db }

theorem refreshExpiration_ok {env : Env} {sub : Subscription} {tx tx' : Tx}
    (h : refreshExpiration env sub tx = .ok tx') :
    tx.db.updateSubscriptions (fun s => decide (s.id = sub.id))
      { expiresAt := some (env.now + sub.ttl) } = .ok tx'.db := by
  obtain ⟨db, hdb, h⟩ := bind_ok.mp h
  obtain rfl := pure_ok.mp h
  exact hdb

def applyResults (env : Env) (p : GetSubscriptionMessagesParams) (sub : Subscription)
    (deliveries : List (Delivery × Message)) (tx : Tx) :
    Except Error (GetSubscriptionMessagesResults × Tx) := do
  let tx ← refreshExpiration env sub tx
  let st ← applyLoop env p sub 0 deliveries ⟨tx, 0, [], 0⟩
  let tx ← markAttempted env st.deliveries st.tx
  pure (⟨st.deliveries, st.numDeadLettered⟩, tx)

theorem applyResults_nil {env : Env} {p : GetSubscriptionMessagesParams} {sub : Subscription}
    {tx tx' : Tx} {res : GetSubscriptionMessagesResults}
    (h : applyResults env p sub [] tx = .ok (res, tx')) : res.deliveries = [] := by
  obtain ⟨t, -, h⟩ := bind_ok.mp h
  obtain ⟨last, hloop, h⟩ := bind_ok.mp h
  obtain ⟨t', -, h⟩ := bind_ok.mp h
  obtain ⟨rfl, -⟩ := Prod.mk.inj (pure_ok.mp h)
  exact Except.ok.inj hloop ▸ rfl

/-- One round of the action: the transaction that finds something to hand out,
or the one that gives up with an empty result. -/
def getSubscriptionMessages (env : Env) (p : GetSubscriptionMessagesParams) (tx : Tx) :
    Except Error (GetSubscriptionMessagesResults × Tx) := do
  let sub ← verifySub p tx.db.toTables
  applyResults env p sub (queryAndLockDeliveriesOnce env tx.db.toTables sub p) tx

structure AckDeliveriesResults where
  numAcked : ℕ
  deriving DecidableEq, Repr

def ackPredicates (ids : List UUID) (d : Delivery) : Bool :=
  decide (d.id ∈ ids) && d.completedAt.isNone

def distinctSubscriptions (env : Env) (rows : List Delivery) : List UUID :=
  ((env.deliveries.run rows).map Delivery.subscriptionID).dedup

def ackDeliveries (env : Env) (ids : List UUID) (tx : Tx) : AckDeliveriesResults × Tx :=
  let rows := tx.db.deliveries.filter (ackPredicates ids)
  let subIDs := distinctSubscriptions env rows
  (⟨rows.length⟩, {
    db := tx.db.updateDeliveries (ackPredicates ids) { completedAt := some (some env.now) }
    drawn := tx.drawn
    onCommit := tx.onCommit ++ subIDs.map (fun s => .wakePublishListeners false [s]) })

structure NackDeliveriesResults where
  numNacked : ℕ
  numDeadLettered : ℕ
  deriving DecidableEq, Repr

def nackPredicates (now : Time) (ids : List UUID) (d : Delivery) : Bool :=
  decide (d.id ∈ ids) && d.completedAt.isNone && decide (now < d.expiresAt)

def nackOne (env : Env) (subs : List Subscription) (st : Tx × ℕ) (d : Delivery) :
    Except Error (Tx × ℕ) :=
  match fetch Subscription.id d.subscriptionID subs with
  | none => .error .panic
  | some sub =>
    match sub.deadLetterTopicFor d with
    | some deadLetterTopicID =>
      (deadLetterDelivery env (deadLetterDataFromEntities d deadLetterTopicID) st.1).map
        (·, st.2 + 1)
    | none =>
      (st.1.updateDelivery d.id
        { attemptAt := some (env.now + (nextDelayFor sub d.attempts).2) }).map (·, st.2)

def nackDeliveries (env : Env) (ids : List UUID) (tx : Tx) :
    Except Error (NackDeliveriesResults × Tx) := do
  let rows := orderBy (fun d => (d.id : ℤ))
    (env.deliveries.run (tx.db.deliveries.filter (nackPredicates env.now ids)))
  let (tx, numDeadLettered) ← rows.foldlM (nackOne env tx.db.subscriptions) (tx, 0)
  pure (⟨rows.length, numDeadLettered⟩, tx)

structure DelayDeliveriesParams where
  ids : List UUID
  delay : Duration

structure DelayDeliveriesResults where
  numDelayed : ℕ
  deriving DecidableEq, Repr

/-- Not a nack: only move the next attempt later, never sooner. -/
def delayPredicates (env : Env) (p : DelayDeliveriesParams) (d : Delivery) : Bool :=
  decide (d.id ∈ p.ids) && d.completedAt.isNone &&
    (decide (p.delay ≤ 0) || decide (d.attemptAt < env.now + p.delay))

def delayDeliveries (env : Env) (p : DelayDeliveriesParams) (tx : Tx) :
    DelayDeliveriesResults × Tx :=
  let rows := tx.db.deliveries.filter (delayPredicates env p)
  let subIDs := if p.delay ≤ 0 then distinctSubscriptions env rows else []
  (⟨rows.length⟩, {
    db := tx.db.updateDeliveries (delayPredicates env p)
      { attemptAt := some (env.now + p.delay) }
    drawn := tx.drawn
    onCommit := tx.onCommit ++ if subIDs = [] then [] else [.wakePublishListeners false subIDs] })

structure DeadLetterDeliveriesResults where
  numDeadLettered : ℕ
  deriving DecidableEq, Repr

/-- The dead-letter topic that the join with the subscription yields, for a
delivery the sweep selects. -/
def deadLetterTarget (now : Time) (t : Tables) (d : Delivery) : Option UUID :=
  match fetch Subscription.id d.subscriptionID t.subscriptions with
  | none => none
  | some s =>
    match s.maxDeliveryAttempts, s.deadLetterTopicID with
    | some maxDeliveryAttempts, some deadLetterTopicID =>
      if s.deletedAt = none ∧ 0 < maxDeliveryAttempts ∧ maxDeliveryAttempts ≤ d.attempts ∧
          d.completedAt = none ∧ now < d.expiresAt ∧ d.attemptAt ≤ now then
        some deadLetterTopicID
      else none
    | _, _ => none

/-- The limit as the sweep's join tests it is the limit of the other paths. -/
theorem deadLetterTarget_some {now : Time} {t : Tables} {d : Delivery} {k : UUID} :
    deadLetterTarget now t d = some k ↔
      ∃ s, fetch Subscription.id d.subscriptionID t.subscriptions = some s ∧
        s.deletedAt = none ∧ d.Outstanding now ∧ d.attemptAt ≤ now ∧
        s.deadLetterTopicFor d = some k := by
  unfold deadLetterTarget
  split
  · rename_i hf
    simp [hf]
  · rename_i s hf
    simp only [hf, Option.some.injEq, exists_eq_left', Subscription.deadLetterTopicFor_some,
      Subscription.deadLetterConfig_eq, Delivery.Outstanding]
    split
    · rename_i n k' hn hk
      simp only [hn, hk]
      split <;> grind
    · rename_i hnone
      constructor
      · intro h
        cases h
      · rintro ⟨-, -, -, n, ⟨hn, hk, -⟩, -⟩
        exact absurd hk (hnone n k hn)

def deadLetterSelection (env : Env) (t : Tables) (maxDeliveries : ℕ) : List DeadLetterData :=
  ((env.deliveries.run
    (t.deliveries.filter (fun d => (deadLetterTarget env.now t d).isSome))).take
      maxDeliveries).filterMap (fun d =>
        (deadLetterTarget env.now t d).map (deadLetterDataFromEntities d))

def deadLetterDeliveries (env : Env) (maxDeliveries : ℕ) (tx : Tx) :
    Except Error (DeadLetterDeliveriesResults × Tx) := do
  let deliveryData := deadLetterSelection env tx.db.toTables maxDeliveries
  let tx ← deliveryData.foldlM (fun tx datum => deadLetterDelivery env datum tx) tx
  pure (⟨deliveryData.length⟩, tx)

end Mmmbbb.Consuming
