import Mmmbbb.Messages

/-!
# The unary methods

Every handler of the publisher and the subscriber service: it checks its
request, builds an action and runs it in a transaction. The constructor of an
action panics on parameters it does not accept, and so does the use of a
sub-message that is absent.
-/

set_option autoImplicit false

namespace Mmmbbb.Handlers
open KeyedRows Programs Mmmbbb.Schema Mmmbbb.Database Mmmbbb.Delivering Mmmbbb.Consuming
open Mmmbbb.Seeking Mmmbbb.Administering Mmmbbb.Runs Mmmbbb.Listing Mmmbbb.Messages

def deref {α : Type} (x : Option α) : Except Error α := x.elim (.error .panic) .ok

def construct (a : Action) : Except Error Unit := failWhen (¬ a.Valid) .panic

def transact {α : Type} (db : DB) (body : Tx → Except Error (α × Tx)) : Except Error (α × DB) :=
  (body (.begin db)).map (fun r => (r.1, r.2.db))

def unsupportedPath (kind name : String) : Error :=
  .invalidArgument ("Unsupported project / " ++ kind ++ " path " ++ name)

def checkTopicName (name : String) : Except Error Unit :=
  failWhen (isValidTopicName name = false) (unsupportedPath "topic" name)

def checkSubscriptionName (name : String) : Except Error Unit :=
  failWhen (isValidSubscriptionName name = false) (unsupportedPath "subscription" name)

def checkSnapshotName (name : String) : Except Error Unit :=
  failWhen (isValidSnapshotName name = false) (unsupportedPath "snapshot" name)

def lastOfPage {α : Type} (pageSize : ℤ) (page : Page α) : Except Error Unit :=
  failWhen (effectivePageSize pageSize ≤ page.rows.length ∧ page.rows = []) .panic

def uuidsFromStrings (text : UUIDText) (values : List String) : Except Error (List UUID) :=
  values.foldlM (fun ids value =>
    match text.parse value with
    | .error e => .error (.invalidArgument e)
    | .ok id => .ok (ids ++ [id])) []

def createTopic (env : Env) (req : PbTopic) (db : DB) : Except Error (PbTopic × DB) := do
  checkTopicName req.name
  failWhen (req.hasMessageStoragePolicy ∨ req.kmsKeyName ≠ "" ∨ req.hasSchemaSettings)
    (.unimplemented "Advanced features not supported")
  let p : CreateTopicParams := ⟨req.name, req.labels⟩
  construct (.createTopic p)
  let (_, db) ← transact db (Administering.createTopic env p)
  pure (req, db)

def getTopic (name : String) (db : DB) : Except Error PbTopic := do
  checkTopicName name
  let t ← only (liveTopicNamed name) db.topics
  pure (entTopicToGrpc t)

structure PbUpdateTopicRequest where
  topic : Option PbTopic
  updateMask : Option (List String)

def updateTopicRequest (t : PbTopic) (mask : Option (List String)) : UpdateTopicRequest :=
  ⟨t.name, mask.getD [], t.labels⟩

def updateTopic (req : PbUpdateTopicRequest) (db : DB) : Except Error (Option PbTopic × DB) := do
  let topic ← deref req.topic
  checkTopicName topic.name
  let (saved, db) ← transact db (Administering.updateTopic (updateTopicRequest topic req.updateMask))
  pure (saved.map entTopicToGrpc, db)

def deleteTopic (env : Env) (name : String) (db : DB) : Except Error (Unit × DB) := do
  checkTopicName name
  construct (.deleteTopic name)
  let (_, db) ← transact db (Administering.deleteTopic env name)
  pure ((), db)

structure PbListRequest where
  parent : String
  pageSize : Int32
  pageToken : String

def listTopics (text : UUIDText) (env : Env) (req : PbListRequest) (db : DB) :
    Except Error (List PbTopic × String) := do
  let page ← Listing.listTopics text ⟨env, db, req.pageSize.toInt⟩ req.parent req.pageToken
  lastOfPage req.pageSize.toInt page
  pure (page.rows.map entTopicToGrpc, page.nextPageToken)

def listTopicSubscriptions (text : UUIDText) (env : Env) (req : PbListRequest) (db : DB) :
    Except Error (List String × String) := do
  let page ← Listing.listTopicSubscriptions text ⟨env, db, req.pageSize.toInt⟩ req.parent
    req.pageToken
  lastOfPage req.pageSize.toInt page
  pure (page.rows.map Subscription.name, page.nextPageToken)

structure PbPublishRequest where
  topic : String
  messages : List PbPubsubMessage

def publishOne (text : UUIDText) (env : Env) (t : Topic) (st : List String × Tx)
    (m : PbPubsubMessage) : Except Error (List String × Tx) := do
  let p : PublishMessageParams := ⟨t.name, some t.id, m.data, m.attributes, m.orderingKey⟩
  construct (.publish p)
  let (results, tx) ← publishMessage env p st.2
  pure (st.1 ++ [text.string results.id], tx)

def publish (text : UUIDText) (env : Env) (req : PbPublishRequest) (db : DB) :
    Except Error (List String × DB) := do
  checkTopicName req.topic
  transact db (fun tx => do
    let t ← only (liveTopicNamed req.topic) tx.db.topics
    req.messages.foldlM (publishOne text env t) ([], tx))

def checkNewPushConfig (cfg : PbPushConfig) : Except Error Unit := do
  failWhen (cfg.attributes ≠ [])
    (.unimplemented "Advanced features not supported (PushConfig.Attributes)")
  failWhen cfg.hasAuthenticationMethod
    (.unimplemented "Advanced features not supported (PushConfig.AuthenticationMethod)")
  failWhen (cfg.wrapper = some .noWrapper)
    (.unimplemented "Advanced features not supported (PushConfig.Wrapper unwrapped)")

/-- An absent policy leaves both settings empty; one without a limit gets the
default limit. -/
def createParams (req : PbSubscription) : CreateSubscriptionParams where
  topicName := req.topic
  name := req.name
  ttl := orDefault defaultSubscriptionTTL (asDuration (req.expirationPolicy.bind (·.ttl)))
  messageTTL := orDefault defaultSubscriptionMessageTTL (asDuration req.messageRetentionDuration)
  orderedDelivery := req.enableMessageOrdering
  labels := req.labels
  pushEndpoint := (req.pushConfig.map (·.pushEndpoint)).getD ""
  minBackoff := (req.retryPolicy.map (fun p => asDuration p.minimumBackoff)).getD 0
  maxBackoff := (req.retryPolicy.map (fun p => asDuration p.maximumBackoff)).getD 0
  filter := req.filter
  maxDeliveryAttempts :=
    match req.deadLetterPolicy with
    | none => 0
    | some p => if p.maxDeliveryAttempts = 0 then defaultDeadLetterMaxAttempts
        else p.maxDeliveryAttempts.toInt
  deadLetterTopic := (req.deadLetterPolicy.map (·.deadLetterTopic)).getD ""

def createSubscription (env : Env) (req : PbSubscription) (db : DB) :
    Except Error (PbSubscription × DB) := do
  checkSubscriptionName req.name
  failWhen req.detached (.invalidArgument "Cannot create detached subscription")
  req.pushConfig.elim (.ok ()) checkNewPushConfig
  let p := createParams req
  construct (.createSubscription p)
  let (s, db) ← transact db (Administering.createSubscription env p)
  pure (entSubscriptionToGrpc s none none p.topicName p.deadLetterTopic, db)

theorem liveTopic_only {db : DB} {name : String} {t : Topic} :
    only (liveTopicNamed name) db.topics = .ok t ↔
      t ∈ db.topics ∧ liveTopicNamed name t = true := by
  constructor
  · exact only_ok
  · rintro ⟨ht, hp⟩
    refine only_unique db.sound.topic_pk.nodup (fun a ha hpa => ?_) ht hp
    simp only [liveTopicNamed, Bool.and_eq_true, decide_eq_true_eq, Option.isNone_iff_eq_none]
      at hp hpa
    exact db.sound.topic_pk.eq ha ht
      (db.sound.topic_name_live a ha t ht hpa.2 hp.2 (hpa.1.trans hp.1.symm))

theorem liveSubscription_only {db : DB} {name : String} {s : Subscription} :
    only (liveSubscriptionNamed name) db.subscriptions = .ok s ↔
      s ∈ db.subscriptions ∧ liveSubscriptionNamed name s = true := by
  constructor
  · exact only_ok
  · rintro ⟨hs, hp⟩
    refine only_unique db.sound.subscription_pk.nodup (fun a ha hpa => ?_) hs hp
    simp only [liveSubscriptionNamed, Bool.and_eq_true, decide_eq_true_eq,
      Option.isNone_iff_eq_none] at hp hpa
    exact db.sound.subscription_pk.eq ha hs
      (db.sound.subscription_name_live a ha s hs hpa.2 hp.2 (hpa.1.trans hp.1.symm))

def topicEdge (db : DB) (s : Subscription) : Option Topic := fetch Topic.id s.topicID db.topics

def deadLetterTopicEdge (db : DB) (s : Subscription) : Option Topic :=
  s.deadLetterTopicID.bind (fun k => fetch Topic.id k db.topics)

theorem topicEdge_found {db : DB} {s : Subscription} (hs : s ∈ db.subscriptions) :
    ∃ t, topicEdge db s = some t ∧ t ∈ db.topics ∧ t.id = s.topicID := by
  obtain ⟨t, ht⟩ := fetch_isSome (db.sound.subscription_topic s hs)
  exact ⟨t, ht, fetch_mem ht⟩

def loadedSubscription (db : DB) (s : Subscription) : PbSubscription :=
  entSubscriptionToGrpc s (topicEdge db s) (deadLetterTopicEdge db s) "" ""

def getSubscription (name : String) (db : DB) : Except Error PbSubscription := do
  checkSubscriptionName name
  let s ← only (liveSubscriptionNamed name) db.subscriptions
  pure (loadedSubscription db s)

structure PbUpdateSubscriptionRequest where
  subscription : Option PbSubscription
  updateMask : Option (List String)

def updateSubscriptionRequest (s : PbSubscription) (mask : Option (List String)) :
    UpdateSubscriptionRequest where
  name := s.name
  updateMask := mask.getD []
  labels := s.labels
  expirationTTL := asDuration (s.expirationPolicy.bind (·.ttl))
  messageRetentionDuration := asDuration s.messageRetentionDuration
  enableMessageOrdering := s.enableMessageOrdering
  minimumBackoff := (s.retryPolicy.bind (·.minimumBackoff)).map PbDuration.asDuration
  maximumBackoff := (s.retryPolicy.bind (·.maximumBackoff)).map PbDuration.asDuration
  pushConfig := s.pushConfig.map (·.toPushConfig)
  filter := s.filter
  deadLetterPolicy :=
    s.deadLetterPolicy.map (fun p => ⟨p.deadLetterTopic, p.maxDeliveryAttempts.toInt⟩)

/-- The variable that the loop over the mask keeps next to the update. The
topic that is found for a name has that name. -/
def deadLetterTopicNameAfter (req : UpdateSubscriptionRequest) (known path : String) : String :=
  if path = "dead_letter_policy" then (req.deadLetterPolicy.map (·.deadLetterTopic)).getD ""
  else known

/-- The names of the topics are kept from before the row is saved, because the
saved row comes without them. -/
def updateSubscription (env : Env) (req : PbUpdateSubscriptionRequest) (db : DB) :
    Except Error (Option PbSubscription × DB) := do
  let subscription ← deref req.subscription
  checkSubscriptionName subscription.name
  transact db (fun tx => do
    let sub ← only (liveSubscriptionNamed subscription.name) tx.db.subscriptions
    let topic ← deref (topicEdge tx.db sub)
    let deadLetterTopicName := ((deadLetterTopicEdge tx.db sub).map Topic.name).getD ""
    let r := updateSubscriptionRequest subscription req.updateMask
    let (saved, tx) ← Administering.updateSubscription env r tx
    pure (saved.map (fun s => entSubscriptionToGrpc s none none topic.name
      (r.updateMask.foldl (deadLetterTopicNameAfter r) deadLetterTopicName)), tx))

def listSubscriptions (text : UUIDText) (env : Env) (req : PbListRequest) (db : DB) :
    Except Error (List PbSubscription × String) := do
  let page ← Listing.listSubscriptions text ⟨env, db, req.pageSize.toInt⟩ req.parent req.pageToken
  lastOfPage req.pageSize.toInt page
  pure (page.rows.map (loadedSubscription db), page.nextPageToken)

def deleteSubscription (env : Env) (name : String) (db : DB) : Except Error (Unit × DB) := do
  checkSubscriptionName name
  construct (.deleteSubscription name)
  let (_, db) ← transact db (Administering.deleteSubscription env name)
  pure ((), db)

structure PbModifyPushConfigRequest where
  subscription : String
  pushConfig : Option PbPushConfig

def modifyPushConfig (req : PbModifyPushConfigRequest) (db : DB) : Except Error (Unit × DB) := do
  checkSubscriptionName req.subscription
  transact db (fun tx => (Administering.modifyPushConfig req.subscription
    (req.pushConfig.map (·.toPushConfig)) tx).map (fun tx => ((), tx)))

structure PbModifyAckDeadlineRequest where
  subscription : String
  ackIds : List String
  ackDeadlineSeconds : Int32

def modifyAckDeadline (text : UUIDText) (env : Env) (req : PbModifyAckDeadlineRequest) (db : DB) :
    Except Error (Unit × DB) := do
  checkSubscriptionName req.subscription
  let ids ← uuidsFromStrings text req.ackIds
  let p : DelayDeliveriesParams := ⟨ids, req.ackDeadlineSeconds.toInt * second⟩
  construct (.delay p)
  transact db (fun tx => .ok ((), (delayDeliveries env p tx).2))

structure PbAcknowledgeRequest where
  subscription : String
  ackIds : List String

def acknowledge (text : UUIDText) (env : Env) (req : PbAcknowledgeRequest) (db : DB) :
    Except Error (Unit × DB) := do
  checkSubscriptionName req.subscription
  let ids ← uuidsFromStrings text req.ackIds
  construct (.ack ids)
  transact db (fun tx => .ok ((), (ackDeliveries env ids tx).2))

structure PbPullRequest where
  subscription : String
  maxMessages : Int32

def PbPullRequest.params (req : PbPullRequest) : GetSubscriptionMessagesParams where
  name := req.subscription
  id := none
  maxMessages := req.maxMessages.toInt
  maxBytes := 10 * 1024 * 1024
  maxBytesStrict := false

structure Moment where
  env : Env
  db : DB

/-- The rounds of a pull, and the transaction with which it gives up. The row
that was found before is still there then. -/
def retryPull (p : GetSubscriptionMessagesParams) (last : Moment) :
    List Moment → Except Error (GetSubscriptionMessagesResults × DB)
  | [] => do
    let sub ← verifySub p last.db.toTables
    transact last.db (applyResults last.env p sub [])
  | round :: rest => do
    let sub ← verifySub p round.db.toTables
    if queryAndLockDeliveriesOnce round.env round.db.toTables sub p = [] then
      retryPull p last rest
    else transact round.db (getSubscriptionMessages round.env p)

def pull (text : UUIDText) (first : Moment) (rounds : List Moment) (last : Moment)
    (req : PbPullRequest) : Except Error (List PbReceivedMessage × DB) := do
  checkSubscriptionName req.subscription
  let p := req.params
  construct (.get p)
  let sub ← verifySub p first.db.toTables
  let _ ← transact first.db (fun tx => (touchSubscription first.env p tx).map (fun tx => ((), tx)))
  let (results, db) ← retryPull { p with id := some sub.id } last rounds
  pure (results.deliveries.map (entDeliveryToGrpc text), db)

inductive SeekTarget
  | time (t : Option PbTimestamp)
  | snapshot (name : String)

structure PbSeekRequest where
  subscription : String
  target : Option SeekTarget

def seek (env : Env) (req : PbSeekRequest) (db : DB) : Except Error (Unit × DB) := do
  checkSubscriptionName req.subscription
  match req.target with
  | some (.time t) =>
    let p : SeekSubscriptionToTimeParams := ⟨req.subscription, none, asTime t⟩
    construct (.seekToTime p)
    let (_, db) ← transact db (seekSubscriptionToTime env p)
    pure ((), db)
  | some (.snapshot name) =>
    let p : SeekSubscriptionToSnapshotParams := ⟨req.subscription, none, name, none⟩
    construct (.seekToSnapshot p)
    let (_, db) ← transact db (seekSubscriptionToSnapshot env p)
    pure ((), db)
  | none => .error (.invalidArgument "Invalid type for SeekRequest.Target")

def loadedSnapshot (db : DB) (s : Snapshot) : PbSnapshot :=
  entSnapshotToGrpc s (fetch Topic.id s.topicID db.topics) ""

def getSnapshot (name : String) (db : DB) : Except Error PbSnapshot := do
  checkSnapshotName name
  let s ← only (fun s : Snapshot => decide (s.name = name)) db.snapshots
  pure (loadedSnapshot db s)

/-- The prefix is the one of the subscriptions of the project. -/
def listSnapshots (text : UUIDText) (req : PbListRequest) (db : DB) :
    Except Error (List PbSnapshot × String) := do
  let cursor ← pageID text req.pageToken
  let page := listRows text Snapshot.id (.insertion Snapshot)
    (fun s => hasPrefix s.name (projectSubscriptionPrefix req.parent))
    (effectivePageSize req.pageSize.toInt) cursor db.snapshots
  lastOfPage req.pageSize.toInt page
  pure (page.rows.map (loadedSnapshot db), page.nextPageToken)

structure PbCreateSnapshotRequest where
  name : String
  subscription : String
  labels : Labels

def createSnapshot (env : Env) (req : PbCreateSnapshotRequest) (db : DB) :
    Except Error (PbSnapshot × DB) := do
  checkSnapshotName req.name
  checkSubscriptionName req.subscription
  let p : CreateSnapshotParams := ⟨req.subscription, req.name, req.labels⟩
  construct (.createSnapshot p)
  let (results, db) ← transact db (Seeking.createSnapshot env p)
  pure (entSnapshotToGrpc results.snapshot none results.topicName, db)

def updateSnapshot : Except Error (PbSnapshot × DB) :=
  .error (.unimplemented "method UpdateSnapshot not implemented")

def deleteSnapshot (name : String) (db : DB) : Except Error (Unit × DB) := do
  checkSnapshotName name
  transact db (fun tx => (Seeking.deleteSnapshot name tx).map (fun tx => ((), tx)))

inductive Request
  | createTopic (req : PbTopic)
  | getTopic (name : String)
  | updateTopic (req : PbUpdateTopicRequest)
  | deleteTopic (name : String)
  | listTopics (req : PbListRequest)
  | listTopicSubscriptions (req : PbListRequest)
  | publish (req : PbPublishRequest)
  | createSubscription (req : PbSubscription)
  | getSubscription (name : String)
  | updateSubscription (req : PbUpdateSubscriptionRequest)
  | listSubscriptions (req : PbListRequest)
  | deleteSubscription (name : String)
  | modifyPushConfig (req : PbModifyPushConfigRequest)
  | modifyAckDeadline (req : PbModifyAckDeadlineRequest)
  | acknowledge (req : PbAcknowledgeRequest)
  | pull (req : PbPullRequest)
  | seek (req : PbSeekRequest)
  | getSnapshot (name : String)
  | listSnapshots (req : PbListRequest)
  | createSnapshot (req : PbCreateSnapshotRequest)
  | updateSnapshot
  | deleteSnapshot (name : String)

structure Occasion where
  text : UUIDText
  first : Moment
  rounds : List Moment
  last : Moment

def ran {α : Type} (x : Except Error α) : Except Error Unit := x.map (fun _ => ())

def handle (o : Occasion) : Request → Except Error Unit
  | .createTopic req => ran (createTopic o.first.env req o.first.db)
  | .getTopic name => ran (getTopic name o.first.db)
  | .updateTopic req => ran (updateTopic req o.first.db)
  | .deleteTopic name => ran (deleteTopic o.first.env name o.first.db)
  | .listTopics req => ran (listTopics o.text o.first.env req o.first.db)
  | .listTopicSubscriptions req =>
    ran (listTopicSubscriptions o.text o.first.env req o.first.db)
  | .publish req => ran (publish o.text o.first.env req o.first.db)
  | .createSubscription req => ran (createSubscription o.first.env req o.first.db)
  | .getSubscription name => ran (getSubscription name o.first.db)
  | .updateSubscription req => ran (updateSubscription o.first.env req o.first.db)
  | .listSubscriptions req => ran (listSubscriptions o.text o.first.env req o.first.db)
  | .deleteSubscription name => ran (deleteSubscription o.first.env name o.first.db)
  | .modifyPushConfig req => ran (modifyPushConfig req o.first.db)
  | .modifyAckDeadline req => ran (modifyAckDeadline o.text o.first.env req o.first.db)
  | .acknowledge req => ran (acknowledge o.text o.first.env req o.first.db)
  | .pull req => ran (pull o.text o.first o.rounds o.last req)
  | .seek req => ran (seek o.first.env req o.first.db)
  | .getSnapshot name => ran (getSnapshot name o.first.db)
  | .listSnapshots req => ran (listSnapshots o.text req o.first.db)
  | .createSnapshot req => ran (createSnapshot o.first.env req o.first.db)
  | .updateSnapshot => ran updateSnapshot
  | .deleteSnapshot name => ran (deleteSnapshot name o.first.db)

end Mmmbbb.Handlers
