import Mmmbbb.Consuming

/-!
# Topics and subscriptions

Creating, updating and deleting topics and subscriptions. A delete is soft:
it marks the row, and a later pruning removes it.
-/

set_option autoImplicit false

namespace Mmmbbb.Administering
open KeyedRows Programs Mmmbbb.Schema Mmmbbb.Database Mmmbbb.Delivering Mmmbbb.Consuming

def liveTopicNamed (name : String) (t : Topic) : Bool := decide (t.name = name) && t.deletedAt.isNone

def liveSubscriptionNamed (name : String) (s : Subscription) : Bool :=
  decide (s.name = name) && s.deletedAt.isNone

def findTopic (name : String) (t : Tables) : Except Error Topic :=
  only (liveTopicNamed name) t.topics

structure CreateTopicParams where
  name : String
  labels : Labels

/-- The name is unique among the live topics, so the insert that follows the
check cannot be refused for its name; a refusal is a reused identifier. -/
def createTopic (env : Env) (p : CreateTopicParams) (tx : Tx) : Except Error (UUID × Tx) := do
  failWhen (tx.db.topics.any (liveTopicNamed p.name)) .errExists
  let t : Topic := ⟨env.uuid tx.drawn, p.name, none, p.labels⟩
  let db ← tx.db.insertTopic t
  pure (t.id, { tx with db := db, drawn := tx.drawn + 1 }.hook (.wakeTopicListeners t.id t.name))

def deleteTopic (env : Env) (name : String) (tx : Tx) : Except Error (ℕ × Tx) := do
  let topics := tx.db.topics.filter (liveTopicNamed name)
  failWhen (topics = []) .errNotFound
  let ids := topics.map Topic.id
  let db := tx.db.updateTopics (fun t => decide (t.id ∈ ids)) { deletedAt := some env.now }
  let db := db.deleteSnapshots (fun s => decide (s.topicID ∈ ids))
  pure (topics.length, { tx with
    db := db
    onCommit := tx.onCommit ++ topics.map (fun t => .wakeTopicListeners t.id t.name) })

structure UpdateTopicRequest where
  name : String
  updateMask : List String
  labels : Labels

def updateTopicPath (req : UpdateTopicRequest) (u : TopicUpdate) (path : String) :
    Except Error TopicUpdate :=
  match path with
  | "name" => .error (.invalidArgument "Topics cannot be renamed")
  | "labels" => .ok { u with labels := some req.labels }
  | "message_storage_policy" | "kms_key_name" | "schema_settings" | "satisfies_pzs" =>
    .error (.unimplemented ("Modifying Topic." ++ path ++ " is not supported"))
  | _ => .error (.invalidArgument
      ("Modifying Topic." ++ path ++ " is not a recognized topic property"))

def updateTopic (req : UpdateTopicRequest) (tx : Tx) : Except Error (Option Topic × Tx) := do
  let t ← only (liveTopicNamed req.name) tx.db.topics
  let u ← req.updateMask.foldlM (updateTopicPath req) {}
  if u = {} then pure (none, tx)
  else
    pure (some (u.apply t), { tx with db := tx.db.updateTopics (fun r => decide (r.id = t.id)) u
      }.hook (.wakeTopicListeners t.id t.name))

/-- `NotifyModifySubscription`: one commit hook that wakes two kinds of
listeners. -/
def notifyModifySubscription (id : UUID) (name : String) : List Hook :=
  [.wakeSubscriptionListeners id name, .wakePublishListeners true [id]]

structure CreateSubscriptionParams where
  topicName : String
  name : String
  ttl : Duration
  messageTTL : Duration
  orderedDelivery : Bool
  labels : Labels
  pushEndpoint : String
  minBackoff : Duration
  maxBackoff : Duration
  filter : String
  maxDeliveryAttempts : ℤ
  deadLetterTopic : String

def CreateSubscriptionParams.Valid (p : CreateSubscriptionParams) : Prop :=
  0 < p.ttl ∧ 0 < p.messageTTL ∧ 0 ≤ p.maxDeliveryAttempts ∧
    (p.maxDeliveryAttempts ≠ 0 ↔ p.deadLetterTopic ≠ "")

instance (p : CreateSubscriptionParams) : Decidable p.Valid :=
  inferInstanceAs (Decidable (_ ∧ _ ∧ _ ∧ _))

def nonEmpty (s : String) : Option String := if s = "" then none else some s

def positive (d : Duration) : Option Duration := if 0 < d then some d else none

def findDeadLetterTopic (name : String) (t : Tables) : Except Error (Option Topic) :=
  if name = "" then .ok none else (findTopic name t).map some

def createSubscription (env : Env) (p : CreateSubscriptionParams) (tx : Tx) :
    Except Error (Subscription × Tx) := do
  failWhen (tx.db.subscriptions.any (liveSubscriptionNamed p.name)) .errExists
  let topic ← findTopic p.topicName tx.db.toTables
  failWhen (p.filter ≠ "" ∧ (env.parseFilter p.filter).isOk = false) .invalidFilter
  let deadLetterTopic ← findDeadLetterTopic p.deadLetterTopic tx.db.toTables
  let s : Subscription := {
    id := env.uuid tx.drawn
    topicID := topic.id
    name := p.name
    expiresAt := env.now + p.ttl
    deletedAt := none
    ttl := p.ttl
    messageTTL := p.messageTTL
    orderedDelivery := p.orderedDelivery
    labels := p.labels
    minBackoff := positive p.minBackoff
    maxBackoff := positive p.maxBackoff
    pushEndpoint := nonEmpty p.pushEndpoint
    messageFilter := nonEmpty p.filter
    maxDeliveryAttempts := if p.maxDeliveryAttempts = 0 then none else some p.maxDeliveryAttempts
    deadLetterTopicID := deadLetterTopic.map Topic.id
    deliveryDelay := 0 }
  let db ← tx.db.insertSubscription s
  pure (s, { tx with
    db := db
    drawn := tx.drawn + 1
    onCommit := tx.onCommit ++ notifyModifySubscription s.id s.name })

def markDeleted (env : Env) (subs : List Subscription) (tx : Tx) : Except Error (ℕ × Tx) := do
  let ids := subs.map Subscription.id
  let db ← tx.db.updateSubscriptions (fun s => decide (s.id ∈ ids)) { deletedAt := some env.now }
  pure (subs.length, { tx with
    db := db
    onCommit := tx.onCommit ++ subs.flatMap (fun s => notifyModifySubscription s.id s.name) })

def deleteSubscription (env : Env) (name : String) (tx : Tx) : Except Error (ℕ × Tx) := do
  let subs := tx.db.subscriptions.filter (liveSubscriptionNamed name)
  failWhen (subs = []) .errNotFound
  markDeleted env subs tx

def deleteExpiredSubscriptions (env : Env) (maxDelete : ℕ) (tx : Tx) : Except Error (ℕ × Tx) :=
  markDeleted env ((env.subscriptions.run (tx.db.subscriptions.filter (fun s =>
    decide (s.expiresAt < env.now) && s.deletedAt.isNone))).take maxDelete) tx

structure PushConfig where
  pushEndpoint : String
  attributes : List (String × String)
  hasAuthenticationMethod : Bool

structure DeadLetterPolicy where
  deadLetterTopic : String
  maxDeliveryAttempts : ℤ

/-- The fields of the request that an update mask can name. An unset duration
reads as zero. -/
structure UpdateSubscriptionRequest where
  name : String
  updateMask : List String
  labels : Labels
  expirationTTL : Duration
  messageRetentionDuration : Duration
  enableMessageOrdering : Bool
  minimumBackoff : Option Duration
  maximumBackoff : Option Duration
  pushConfig : Option PushConfig
  filter : String
  deadLetterPolicy : Option DeadLetterPolicy

def defaultSubscriptionTTL : Duration := 30 * 24 * hour
def defaultSubscriptionMessageTTL : Duration := 7 * 24 * hour
def defaultDeadLetterMaxAttempts : ℤ := 5

def orDefault (default d : Duration) : Duration := if d = 0 then default else d

/-- A missing configuration is dereferenced after its attributes are checked. -/
def validatePushConfig (cfg : Option PushConfig) : Except Error Unit :=
  match cfg with
  | none => .error .panic
  | some cfg =>
    match cfg.attributes.find? (fun kv => decide (kv.1 ≠ "x-goog-version" ∨ kv.2 ≠ "v1")) with
    | some kv =>
      if kv.1 ≠ "x-goog-version" then .error (.invalidArgument ("Unsupported attribute " ++ kv.1))
      else .error (.invalidArgument ("Unsupported 'x-goog-version': " ++ kv.2))
    | none =>
      if cfg.hasAuthenticationMethod then
        .error (.unimplemented "PushConfig.AuthenticationMethod not supported")
      else .ok ()

def updatePath (env : Env) (t : Tables) (req : UpdateSubscriptionRequest) (u : SubscriptionUpdate)
    (path : String) : Except Error SubscriptionUpdate :=
  match path with
  | "name" => .error (.invalidArgument "Subscriptions cannot be renamed")
  | "topic" => .error (.invalidArgument "Subscriptions cannot be moved between topics")
  | "labels" => .ok { u with labels := some req.labels }
  | "expiration_policy" =>
    let ttl := orDefault defaultSubscriptionTTL req.expirationTTL
    .ok { u with ttl := some ttl, expiresAt := some (env.now + ttl) }
  | "message_retention_duration" =>
    let messageTTL := orDefault defaultSubscriptionMessageTTL req.messageRetentionDuration
    .ok { u with messageTTL := some messageTTL }
  | "enable_message_ordering" => .ok { u with orderedDelivery := some req.enableMessageOrdering }
  | "retry_policy" =>
    .ok { u with minBackoff := some req.minimumBackoff, maxBackoff := some req.maximumBackoff }
  | "push_config" => do
    validatePushConfig req.pushConfig
    pure { u with pushEndpoint := some (req.pushConfig.bind (fun c => nonEmpty c.pushEndpoint)) }
  | "filter" =>
    if req.filter = "" then .ok { u with messageFilter := some none }
    else
      match env.parseFilter req.filter with
      | .error e => .error (.invalidArgument ("Invalid filter: " ++ e))
      | .ok _ => .ok { u with messageFilter := some (some req.filter) }
  | "dead_letter_policy" =>
    match req.deadLetterPolicy with
    | none => .ok { u with deadLetterTopicID := some none, maxDeliveryAttempts := some none }
    | some dlp =>
      if dlp.deadLetterTopic = "" then
        .ok { u with deadLetterTopicID := some none, maxDeliveryAttempts := some none }
      else do
        let dlt ← findTopic dlp.deadLetterTopic t
        let attempts := if dlp.maxDeliveryAttempts ≠ 0 then dlp.maxDeliveryAttempts
          else defaultDeadLetterMaxAttempts
        pure { u with
          deadLetterTopicID := some (some dlt.id)
          maxDeliveryAttempts := some (some attempts) }
  | "ack_deadline_seconds" | "retain_acked_messages" | "detached" =>
    .error (.invalidArgument ("Modifying Subscription." ++ path ++ " is not supported"))
  | _ => .error (.invalidArgument
      ("Modifying Subscription." ++ path ++ " is not a recognized subscription property"))

/-- The body of the `UpdateSubscription` call: nothing is saved, and there is
no response, when no path of the mask has set or cleared anything. -/
def updateSubscription (env : Env) (req : UpdateSubscriptionRequest) (tx : Tx) :
    Except Error (Option Subscription × Tx) := do
  let sub ← only (liveSubscriptionNamed req.name) tx.db.subscriptions
  let u ← req.updateMask.foldlM (updatePath env tx.db.toTables req) {}
  if u = {} then pure (none, tx)
  else do
    let db ← tx.db.updateSubscriptions (fun s => decide (s.id = sub.id)) u
    pure (some (u.apply sub), { tx with
      db := db
      onCommit := tx.onCommit ++ notifyModifySubscription sub.id sub.name })

def modifyPushConfig (name : String) (cfg : Option PushConfig) (tx : Tx) : Except Error Tx := do
  validatePushConfig cfg
  let sub ← only (liveSubscriptionNamed name) tx.db.subscriptions
  let db ← tx.db.updateSubscriptions (fun s => decide (s.id = sub.id))
    { pushEndpoint := some (cfg.bind (fun c => nonEmpty c.pushEndpoint)) }
  pure { tx with
    db := db
    onCommit := tx.onCommit ++ notifyModifySubscription sub.id sub.name }

def putDelay (name : String) (delay : Duration) (tx : Tx) : Except Error Tx := do
  failWhen (delay < 0) (.invalidArgument "delay must be >= 0")
  failWhen (tx.db.subscriptions.all (fun s => !liveSubscriptionNamed name s)) .errNotFound
  let db ← tx.db.updateSubscriptions (liveSubscriptionNamed name) { deliveryDelay := some delay }
  pure { tx with db := db }

end Mmmbbb.Administering
