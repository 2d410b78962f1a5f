import Mmmbbb.Handlers

/-!
# Requests that panic

Which requests a handler does not answer. Where the parameters come from the
request unchecked, the constructor of the action is what refuses them; the
transactions themselves never panic.
-/

set_option autoImplicit false

namespace Mmmbbb.Panics
open KeyedRows Programs Mmmbbb.Schema Mmmbbb.Database Mmmbbb.Delivering Mmmbbb.Consuming
open Mmmbbb.Seeking Mmmbbb.Administering Mmmbbb.Runs Mmmbbb.Listing Mmmbbb.Messages
open Mmmbbb.Handlers

/-- The call returns, with a response or with an error. -/
abbrev Calm {α : Type} (x : Except Error α) : Prop := Avoids .panic x

@[simp] theorem only_calm {α : Type} (p : α → Bool) (rows : List α) : Calm (only p rows) := by
  unfold only
  split <;> simp

@[simp] theorem insertTopic_calm (db : DB) (r : Topic) : Calm (db.insertTopic r) := by
  unfold DB.insertTopic
  split <;> simp

@[simp] theorem insertSubscription_calm (db : DB) (r : Subscription) :
    Calm (db.insertSubscription r) := by
  unfold DB.insertSubscription
  split <;> simp

@[simp] theorem insertMessage_calm (db : DB) (r : Message) : Calm (db.insertMessage r) := by
  unfold DB.insertMessage
  split <;> simp

@[simp] theorem insertDelivery_calm (db : DB) (r : Delivery) : Calm (db.insertDelivery r) := by
  unfold DB.insertDelivery
  split <;> simp

@[simp] theorem insertSnapshot_calm (db : DB) (r : Snapshot) : Calm (db.insertSnapshot r) := by
  unfold DB.insertSnapshot
  split <;> simp

@[simp] theorem updateSubscriptions_calm (db : DB) (p : Subscription → Bool)
    (u : SubscriptionUpdate) : Calm (db.updateSubscriptions p u) := by
  unfold DB.updateSubscriptions
  split <;> simp

@[simp] theorem updateDelivery_calm (tx : Tx) (id : UUID) (u : DeliveryUpdate) :
    Calm (tx.updateDelivery id u) := by
  unfold Tx.updateDelivery
  split <;> simp

@[simp] theorem findTopic_calm (name : String) (t : Tables) : Calm (findTopic name t) :=
  only_calm _ _

@[simp] theorem verifySub_calm (p : GetSubscriptionMessagesParams) (t : Tables) :
    Calm (verifySub p t) := only_calm _ _

@[simp] theorem publishTopic_calm (p : PublishMessageParams) (t : Tables) :
    Calm (publishTopic p t) := only_calm _ _

theorem createTopic_calm (env : Env) (p : CreateTopicParams) (tx : Tx) :
    Calm (Administering.createTopic env p tx) := by
  simp [Administering.createTopic, avoids_bind]

theorem updateTopicPath_calm (req : UpdateTopicRequest) (u : TopicUpdate) (path : String) :
    Calm (updateTopicPath req u path) := by
  unfold updateTopicPath
  split <;> simp

theorem updateTopic_calm (req : UpdateTopicRequest) (tx : Tx) :
    Calm (Administering.updateTopic req tx) := by
  unfold Administering.updateTopic
  refine avoids_bind.mpr ⟨only_calm _ _, fun t _ => ?_⟩
  refine avoids_bind.mpr ⟨avoids_loop (updateTopicPath_calm req) _ _, fun u _ => ?_⟩
  split <;> simp

theorem deleteTopic_calm (env : Env) (name : String) (tx : Tx) :
    Calm (Administering.deleteTopic env name tx) := by
  simp [Administering.deleteTopic]

theorem createSubscription_calm (env : Env) (p : CreateSubscriptionParams) (tx : Tx) :
    Calm (Administering.createSubscription env p tx) := by
  have hdeadLetter : Calm (findDeadLetterTopic p.deadLetterTopic tx.db.toTables) := by
    unfold findDeadLetterTopic
    split <;> simp
  simp [Administering.createSubscription, avoids_bind, hdeadLetter]

theorem deleteSubscription_calm (env : Env) (name : String) (tx : Tx) :
    Calm (Administering.deleteSubscription env name tx) := by
  simp [Administering.deleteSubscription, markDeleted, avoids_bind]

theorem refreshExpiration_calm (env : Env) (sub : Subscription) (tx : Tx) :
    Calm (refreshExpiration env sub tx) := by
  simp [refreshExpiration]

theorem createBulk_calm (env : Env) (dc : List DeliveryCreate) (tx : Tx) :
    Calm (createBulk env dc tx) := by
  refine avoids_loop (fun tx c => ?_) dc tx
  simp

theorem publishMessage_calm (env : Env) (p : PublishMessageParams) (tx : Tx) :
    Calm (publishMessage env p tx) := by
  simp [publishMessage, avoids_bind, createBulk_calm]

theorem deadLetterDelivery_calm (env : Env) (data : DeadLetterData) (tx : Tx) :
    Calm (deadLetterDelivery env data tx) := by
  have hdeliver : Calm (deliverDeadLetter env data tx) := by
    unfold deliverDeadLetter
    split
    · simp
    · dsimp only
      split
      · simp
      · split
        · simp
        · exact createBulk_calm _ _ _
  simp [deadLetterDelivery, avoids_bind, hdeliver]

theorem applyLoop_calm (env : Env) (p : GetSubscriptionMessagesParams) (sub : Subscription)
    (rest : List (Delivery × Message)) (i : ℕ) (st : Applied) :
    Calm (applyLoop env p sub i rest st) := by
  induction rest generalizing i st with
  | nil => simp [applyLoop]
  | cons x rest ih =>
    obtain ⟨d, m⟩ := x
    rw [applyLoop]
    split
    · exact ih _ _
    · split
      · rename_i k _
        have hdead := deadLetterDelivery_calm env (deadLetterDataFromEntities d k) st.tx
        split
        · rename_i e he
          rw [he] at hdead
          simpa using hdead
        · exact ih _ _
      · split
        · simp
        · exact ih _ _

theorem applyResults_calm (env : Env) (p : GetSubscriptionMessagesParams) (sub : Subscription)
    (deliveries : List (Delivery × Message)) (tx : Tx) :
    Calm (applyResults env p sub deliveries tx) := by
  have hmark : ∀ results tx, Calm (markAttempted env results tx) := by
    intro results tx
    unfold markAttempted
    exact avoids_loop (fun tx x => updateDelivery_calm tx x.id (attemptUpdate env x)) results tx
  simp [applyResults, avoids_bind, refreshExpiration_calm, applyLoop_calm, hmark]

theorem getSubscriptionMessages_calm (env : Env) (p : GetSubscriptionMessagesParams) (tx : Tx) :
    Calm (getSubscriptionMessages env p tx) := by
  simp [getSubscriptionMessages, avoids_bind, applyResults_calm]

theorem touchSubscription_calm (env : Env) (p : GetSubscriptionMessagesParams) (tx : Tx) :
    Calm (touchSubscription env p tx) := by
  simp [touchSubscription, avoids_bind, refreshExpiration_calm]

theorem seekSubscriptionToTime_calm (env : Env) (p : SeekSubscriptionToTimeParams) (tx : Tx) :
    Calm (seekSubscriptionToTime env p tx) := by
  simp [seekSubscriptionToTime]

theorem seekSubscriptionToSnapshot_calm (env : Env) (p : SeekSubscriptionToSnapshotParams)
    (tx : Tx) : Calm (seekSubscriptionToSnapshot env p tx) := by
  simp [seekSubscriptionToSnapshot, avoids_bind]

theorem createSnapshot_calm (env : Env) (p : CreateSnapshotParams) (tx : Tx) :
    Calm (Seeking.createSnapshot env p tx) := by
  unfold Seeking.createSnapshot
  refine avoids_bind.mpr ⟨by simp, fun _ _ => ?_⟩
  refine avoids_bind.mpr ⟨only_calm _ _, fun sub hsub => ?_⟩
  refine avoids_bind.mpr ⟨insertSnapshot_calm _ _, fun db hdb => ?_⟩
  have htopic := tx.db.sound.subscription_topic sub (only_ok hsub).1
  have htopics : db.topics = tx.db.topics := by rw [(DB.insertSnapshot_ok hdb).2]
  rw [← htopics] at htopic
  obtain ⟨t, ht⟩ := fetch_isSome htopic
  simp [ht]

theorem deleteSnapshot_calm (name : String) (tx : Tx) : Calm (Seeking.deleteSnapshot name tx) := by
  unfold Seeking.deleteSnapshot
  split <;> simp

@[simp] theorem construct_calm (a : Action) : Calm (construct a) ↔ a.Valid := by
  simp [construct]

@[simp] theorem deref_calm {α : Type} (x : Option α) : Calm (deref x) ↔ x ≠ none := by
  cases x <;> simp [deref]

@[simp] theorem transact_calm {α : Type} (db : DB) (body : Tx → Except Error (α × Tx)) :
    Calm (transact db body) ↔ Calm (body (.begin db)) := by
  simp [transact]

@[simp] theorem ran_calm {α : Type} (x : Except Error α) : Calm (ran x) ↔ Calm x := by
  simp [ran]

@[simp] theorem checkTopicName_calm (name : String) : Calm (checkTopicName name) := by
  simp [checkTopicName, unsupportedPath]

@[simp] theorem checkSubscriptionName_calm (name : String) :
    Calm (checkSubscriptionName name) := by
  simp [checkSubscriptionName, unsupportedPath]

@[simp] theorem checkSnapshotName_calm (name : String) : Calm (checkSnapshotName name) := by
  simp [checkSnapshotName, unsupportedPath]

theorem checkSubscriptionName_ok {name : String} {u : Unit} :
    checkSubscriptionName name = .ok u ↔ isValidSubscriptionName name = true := by
  simp [checkSubscriptionName, failWhen_ok]

theorem isValidName_ne {kind name : String} (h : isValidName kind name = true) : name ≠ "" := by
  rintro rfl
  simp [isValidName] at h

@[simp] theorem lastOfPage_calm {α : Type} (pageSize : ℤ) (page : Page α) :
    Calm (lastOfPage pageSize page) := by
  have hpos := effectivePageSize_pos pageSize
  simp only [lastOfPage, avoids_failWhen]
  rintro ⟨hfull, hempty⟩
  rw [hempty, List.length_nil] at hfull
  omega

@[simp] theorem pageID_calm (text : UUIDText) (pageToken : String) :
    Calm (pageID text pageToken) := by
  unfold pageID
  split
  · simp
  · split <;> simp

@[simp] theorem uuidsFromStrings_calm (text : UUIDText) (values : List String) :
    Calm (uuidsFromStrings text values) := by
  refine avoids_loop (fun ids value => ?_) values []
  split <;> simp

def Negative (d : Option PbDuration) : Prop :=
  ∃ x, d = some x ∧ x.seconds.toInt * 1000000000 + x.nanos.toInt < 0

def PushConfigAllowed (cfg : PbPushConfig) : Prop :=
  cfg.attributes = [] ∧ cfg.hasAuthenticationMethod = false ∧ cfg.wrapper ≠ some .noWrapper

/-- A negative time to live or limit, or a dead-letter policy without a topic. -/
def Unbuildable (req : PbSubscription) : Prop :=
  Negative (req.expirationPolicy.bind (·.ttl)) ∨ Negative req.messageRetentionDuration ∨
    ∃ p, req.deadLetterPolicy = some p ∧
      (p.maxDeliveryAttempts.toInt < 0 ∨ p.deadLetterTopic = "")

def PathAccepted (env : Env) (db : DB) (s : PbSubscription) (path : String) : Prop :=
  path ∈ ["labels", "expiration_policy", "message_retention_duration",
      "enable_message_ordering", "retry_policy"] ∨
    path = "filter" ∧ (s.filter = "" ∨ (env.parseFilter s.filter).isOk = true) ∨
    path = "dead_letter_policy" ∧ ∀ p, s.deadLetterPolicy = some p → p.deadLetterTopic = "" ∨
      ∃ t ∈ db.topics, liveTopicNamed p.deadLetterTopic t = true

def ReachesPushConfig (env : Env) (db : DB) (s : PbSubscription) (mask : List String) : Prop :=
  ∃ before after, mask = before ++ "push_config" :: after ∧
    ∀ path ∈ before, PathAccepted env db s path

def Panicking (o : Occasion) : Request → Prop
  | .updateTopic req => req.topic = none
  | .createSubscription req => isValidSubscriptionName req.name = true ∧ req.detached = false ∧
      (∀ cfg, req.pushConfig = some cfg → PushConfigAllowed cfg) ∧ Unbuildable req
  | .updateSubscription req =>
    match req.subscription with
    | none => True
    | some s => isValidSubscriptionName s.name = true ∧ s.pushConfig = none ∧
        (∃ row ∈ o.first.db.subscriptions, liveSubscriptionNamed s.name row = true) ∧
        ReachesPushConfig o.first.env o.first.db s (req.updateMask.getD [])
  | .modifyPushConfig req => isValidSubscriptionName req.subscription = true ∧ req.pushConfig = none
  | .pull req => isValidSubscriptionName req.subscription = true ∧ req.maxMessages.toInt < 1
  | .seek req => isValidSubscriptionName req.subscription = true ∧
      ((∃ t, req.target = some (.time (some t)) ∧
          t.seconds.toInt * 1000000000 + t.nanos.toInt = zeroTime) ∨
        req.target = some (.snapshot ""))
  | _ => False

theorem orDefault_pos {default d : Duration} (h : 0 < default) :
    0 < orDefault default d ↔ ¬ d < 0 := by
  unfold orDefault
  split
  · rename_i hd
    simp [hd, h]
  · rename_i hd
    constructor
    · intro hpos hneg
      exact lt_asymm hpos hneg
    · intro hneg
      exact lt_of_le_of_ne (not_lt.mp hneg) (Ne.symm hd)

theorem createParams_valid (req : PbSubscription) :
    (createParams req).Valid ↔ ¬ Unbuildable req := by
  have httl := orDefault_pos (d := asDuration (req.expirationPolicy.bind (·.ttl)))
    (show 0 < defaultSubscriptionTTL by decide)
  have hmessageTTL := orDefault_pos (d := asDuration req.messageRetentionDuration)
    (show 0 < defaultSubscriptionMessageTTL by decide)
  rw [asDuration_neg] at httl hmessageTTL
  simp only [CreateSubscriptionParams.Valid, createParams, httl, hmessageTTL, Unbuildable,
    Negative, not_or]
  cases req.deadLetterPolicy with
  | none => simp
  | some p =>
    by_cases hzero : p.maxDeliveryAttempts = 0
    · simp [hzero, defaultDeadLetterMaxAttempts]
    · have hne : p.maxDeliveryAttempts.toInt ≠ 0 := by
        intro h
        exact hzero (Int32.toInt_inj.mp (h.trans Int32.toInt_zero.symm))
      simp [hzero, hne]

theorem checkNewPushConfig_calm (cfg : PbPushConfig) : Calm (checkNewPushConfig cfg) := by
  simp [checkNewPushConfig, avoids_bind]

theorem checkNewPushConfig_ok {cfg : PbPushConfig} {u : Unit} :
    checkNewPushConfig cfg = .ok u ↔ PushConfigAllowed cfg := by
  simp [checkNewPushConfig, PushConfigAllowed, bind_ok, failWhen_ok]

theorem checkPushConfig_ok {cfg : Option PbPushConfig} {u : Unit} :
    cfg.elim (.ok ()) checkNewPushConfig = .ok u ↔ ∀ c, cfg = some c → PushConfigAllowed c := by
  cases cfg with
  | none => simp
  | some c => simp [checkNewPushConfig_ok]

theorem newSubscription_calm (env : Env) (req : PbSubscription) (db : DB) :
    Calm (Handlers.createSubscription env req db) ↔
      ¬ (isValidSubscriptionName req.name = true ∧ req.detached = false ∧
        (∀ cfg, req.pushConfig = some cfg → PushConfigAllowed cfg) ∧ Unbuildable req) := by
  have hcfg : Calm (req.pushConfig.elim (.ok ()) checkNewPushConfig) := by
    cases req.pushConfig with
    | none => simp
    | some c => exact checkNewPushConfig_calm c
  simp only [Handlers.createSubscription, avoids_bind, checkSubscriptionName_calm,
    checkSubscriptionName_ok, avoids_failWhen, failWhen_ok, hcfg, checkPushConfig_ok,
    construct_calm, transact_calm, createSubscription_calm, avoids_pure, Action.Valid,
    createParams_valid]
  simp

@[simp] theorem validatePushConfig_calm (cfg : Option PushConfig) :
    Calm (validatePushConfig cfg) ↔ cfg ≠ none := by
  unfold validatePushConfig
  split
  · simp
  · split
    · split <;> simp
    · split <;> simp

section
variable {env : Env} {db : DB} {s : PbSubscription} {mask : Option (List String)}

theorem updatePath_calm {u : SubscriptionUpdate} {path : String}
    (h : path ≠ "push_config" ∨ s.pushConfig ≠ none) :
    Calm (updatePath env db.toTables (updateSubscriptionRequest s mask) u path) := by
  unfold updatePath
  split <;> try simp
  · simpa [updateSubscriptionRequest] using h
  · split
    · simp
    · split <;> simp
  · split
    · simp
    · split <;> simp

theorem updatePath_ok (hcfg : s.pushConfig = none) {u : SubscriptionUpdate} {path : String} :
    (∃ u', updatePath env db.toTables (updateSubscriptionRequest s mask) u path = .ok u') ↔
      PathAccepted env db s path := by
  unfold updatePath
  split <;> try simp [PathAccepted]
  · simp [updateSubscriptionRequest, hcfg, validatePushConfig]
  · by_cases hf : s.filter = ""
    · simp [updateSubscriptionRequest, hf]
    · simp only [updateSubscriptionRequest, hf, if_false, false_or]
      cases env.parseFilter s.filter <;> simp [Except.isOk, Except.toBool]
  · cases hp : s.deadLetterPolicy with
    | none => simp [updateSubscriptionRequest, hp]
    | some p =>
      by_cases hn : p.deadLetterTopic = ""
      · simp [updateSubscriptionRequest, hp, hn]
      · simp only [updateSubscriptionRequest, hp, Option.map_some, hn, if_false,
          Option.some.injEq, forall_eq', false_or]
        constructor
        · rintro ⟨u', hu'⟩
          obtain ⟨t, ht, -⟩ := map_ok.mp hu'
          exact ⟨t, liveTopic_only.mp ht⟩
        · rintro ⟨t, ht⟩
          exact ⟨_, map_ok.mpr ⟨t, liveTopic_only.mpr ht, rfl⟩⟩
  · rename_i h1 h2 h3 h4 h5 h6 h7 h8 h9 h10 h11 h12 h13
    simp_all

theorem reachesPushConfig_cons {path : String} {rest : List String} :
    ReachesPushConfig env db s (path :: rest) ↔
      path = "push_config" ∨ PathAccepted env db s path ∧ ReachesPushConfig env db s rest := by
  constructor
  · rintro ⟨before, after, heq, hall⟩
    cases before with
    | nil => exact Or.inl (List.cons.inj heq).1
    | cons x before =>
      obtain ⟨rfl, hrest⟩ := List.cons.inj heq
      exact Or.inr ⟨hall _ (by simp), before, after, hrest, fun y hy => hall y (by simp [hy])⟩
  · rintro (rfl | ⟨hpath, before, after, rfl, hall⟩)
    · exact ⟨[], rest, rfl, by simp⟩
    · exact ⟨path :: before, after, rfl, by simpa using ⟨hpath, hall⟩⟩

theorem not_reachesPushConfig_nil : ¬ ReachesPushConfig env db s [] := by
  rintro ⟨before, after, heq, -⟩
  simp at heq

/-- The loop over the mask panics when it comes to a push configuration that
is absent. -/
theorem updateLoop_calm (hcfg : s.pushConfig = none) (paths : List String)
    (u : SubscriptionUpdate) :
    Calm (paths.foldlM (updatePath env db.toTables (updateSubscriptionRequest s mask)) u) ↔
      ¬ ReachesPushConfig env db s paths := by
  induction paths generalizing u with
  | nil => simp [not_reachesPushConfig_nil]
  | cons path rest ih =>
    rw [List.foldlM_cons, reachesPushConfig_cons]
    refine avoids_bind.trans ?_
    by_cases hpath : path = "push_config"
    · have hpanic : updatePath env db.toTables (updateSubscriptionRequest s mask) u "push_config" =
          .error .panic := by
        have hnone : (updateSubscriptionRequest s mask).pushConfig = none := by
          simp only [updateSubscriptionRequest, hcfg, Option.map_none]
        unfold updatePath
        dsimp only
        rw [hnone]
        rfl
      rw [hpath, hpanic]
      simp
    · have hcalm := @updatePath_calm env db s mask u path (Or.inl hpath)
      have haccepted := @updatePath_ok env db s mask hcfg u path
      simp only [hcalm, ih, hpath, false_or, true_and, ← haccepted]
      constructor
      · rintro h ⟨⟨u', hu'⟩, hrest⟩
        exact h u' hu' hrest
      · intro h u' hu' hrest
        exact h ⟨⟨u', hu'⟩, hrest⟩

theorem savedSubscription_calm {tx : Tx} {row : Subscription}
    (hrow : only (liveSubscriptionNamed s.name) tx.db.subscriptions = .ok row) :
    Calm (Administering.updateSubscription env (updateSubscriptionRequest s mask) tx) ↔
      ¬ (s.pushConfig = none ∧ ReachesPushConfig env tx.db s (mask.getD [])) := by
  have hsave : ∀ u : SubscriptionUpdate, Calm (if u = {} then pure (none, tx) else do
      let db ← tx.db.updateSubscriptions (fun r => decide (r.id = row.id)) u
      pure (some (u.apply row), { tx with
        db := db
        onCommit := tx.onCommit ++ notifyModifySubscription row.id row.name })) := by
    intro u
    split <;> simp
  have hloop : Calm ((mask.getD []).foldlM
      (updatePath env tx.db.toTables (updateSubscriptionRequest s mask)) {}) ↔
      ¬ (s.pushConfig = none ∧ ReachesPushConfig env tx.db s (mask.getD [])) := by
    by_cases hcfg : s.pushConfig = none
    · simp [updateLoop_calm hcfg, hcfg]
    · simp only [hcfg, false_and, not_false_eq_true, iff_true]
      exact avoids_loop (fun u path => updatePath_calm (Or.inr hcfg)) _ _
  rw [← hloop]
  unfold Administering.updateSubscription
  rw [show (updateSubscriptionRequest s mask).name = s.name from rfl, hrow]
  refine avoids_bind.trans ?_
  constructor
  · rintro ⟨-, h⟩
    exact (avoids_bind.mp (h row rfl)).1
  · intro h
    refine ⟨by simp, fun r hr => ?_⟩
    cases hr
    exact avoids_bind.mpr ⟨h, fun u _ => hsave u⟩

end

theorem updatedSubscription_calm (env : Env) (req : PbUpdateSubscriptionRequest) (db : DB) :
    Calm (Handlers.updateSubscription env req db) ↔
      ¬ match req.subscription with
        | none => True
        | some s => isValidSubscriptionName s.name = true ∧ s.pushConfig = none ∧
            (∃ row ∈ db.subscriptions, liveSubscriptionNamed s.name row = true) ∧
            ReachesPushConfig env db s (req.updateMask.getD []) := by
  unfold Handlers.updateSubscription
  refine avoids_bind.trans ?_
  cases req.subscription with
  | none => simp
  | some s =>
    simp only [deref_calm, ne_eq, reduceCtorEq, not_false_eq_true, true_and]
    simp only [deref, Option.elim, Except.ok.injEq, forall_eq']
    refine avoids_bind.trans ?_
    simp only [checkSubscriptionName_calm, checkSubscriptionName_ok, true_and, transact_calm,
      Tx.begin]
    constructor
    · rintro h ⟨hvalid, hcfg, ⟨row, hrow⟩, hreach⟩
      have hfound := liveSubscription_only.mpr hrow
      have hbody := (avoids_bind.mp (h () hvalid)).2 row hfound
      obtain ⟨t, ht, -⟩ := topicEdge_found hrow.1
      have hsaved := (avoids_bind.mp ((avoids_bind.mp hbody).2 t (by rw [ht]))).1
      exact (savedSubscription_calm hfound).mp hsaved ⟨hcfg, hreach⟩
    · intro h _ hvalid
      refine avoids_bind.mpr ⟨only_calm _ _, fun row hfound => ?_⟩
      have hrow := liveSubscription_only.mp hfound
      obtain ⟨t, ht, -⟩ := topicEdge_found hrow.1
      refine avoids_bind.mpr ⟨by rw [ht]; simp, fun topic _ => ?_⟩
      refine avoids_bind.mpr ⟨?_, fun saved _ => avoids_pure⟩
      exact (savedSubscription_calm hfound).mpr
        (fun hpanic => h ⟨hvalid, hpanic.1, ⟨row, hrow⟩, hpanic.2⟩)

theorem retryPull_calm (p : GetSubscriptionMessagesParams) (last : Moment) (rounds : List Moment) :
    Calm (retryPull p last rounds) := by
  induction rounds with
  | nil =>
    rw [retryPull]
    refine avoids_bind.mpr ⟨verifySub_calm _ _, fun sub _ => ?_⟩
    simpa using applyResults_calm last.env p sub [] (.begin last.db)
  | cons round rest ih =>
    rw [retryPull]
    refine avoids_bind.mpr ⟨verifySub_calm _ _, fun sub _ => ?_⟩
    split
    · exact ih
    · simpa using getSubscriptionMessages_calm round.env p (.begin round.db)

theorem pull_calm (text : UUIDText) (first : Moment) (rounds : List Moment) (last : Moment)
    (req : PbPullRequest) :
    Calm (pull text first rounds last req) ↔
      ¬ (isValidSubscriptionName req.subscription = true ∧ req.maxMessages.toInt < 1) := by
  have hvalid : isValidSubscriptionName req.subscription = true →
      ((Action.get req.params).Valid ↔ ¬ req.maxMessages.toInt < 1) := by
    intro hname
    simp [Action.Valid, PbPullRequest.params, isValidName_ne hname]
  simp only [pull, avoids_bind, checkSubscriptionName_calm, checkSubscriptionName_ok,
    construct_calm, verifySub_calm, transact_calm, avoids_map, touchSubscription_calm,
    retryPull_calm, avoids_pure]
  simp +contextual [hvalid]

theorem seek_calm (env : Env) (req : PbSeekRequest) (db : DB) :
    Calm (seek env req db) ↔
      ¬ (isValidSubscriptionName req.subscription = true ∧
        ((∃ t, req.target = some (.time (some t)) ∧
            t.seconds.toInt * 1000000000 + t.nanos.toInt = zeroTime) ∨
          req.target = some (.snapshot ""))) := by
  unfold seek
  refine avoids_bind.trans ?_
  simp only [checkSubscriptionName_calm, checkSubscriptionName_ok, true_and]
  cases req.target with
  | none => simp
  | some target =>
    cases target with
    | time t =>
      have hvalid : isValidSubscriptionName req.subscription = true →
          ((Action.seekToTime ⟨req.subscription, none, asTime t⟩).Valid ↔
            ¬ ∃ x, t = some x ∧ x.seconds.toInt * 1000000000 + x.nanos.toInt = zeroTime) := by
        intro hname
        simp only [Action.Valid, ne_eq, asTime_zero]
        simp [isValidName_ne hname]
      simp only [avoids_bind, construct_calm, transact_calm, seekSubscriptionToTime_calm,
        avoids_pure]
      simp +contextual [hvalid]
    | snapshot name =>
      have hvalid : isValidSubscriptionName req.subscription = true →
          ((Action.seekToSnapshot ⟨req.subscription, none, name, none⟩).Valid ↔ ¬ name = "") := by
        intro hname
        simp [Action.Valid, isValidName_ne hname]
      simp only [avoids_bind, construct_calm, transact_calm, seekSubscriptionToSnapshot_calm,
        avoids_pure]
      simp +contextual [hvalid]

theorem modifyPushConfig_calm (req : PbModifyPushConfigRequest) (db : DB) :
    Calm (Handlers.modifyPushConfig req db) ↔
      ¬ (isValidSubscriptionName req.subscription = true ∧ req.pushConfig = none) := by
  have hbody : ∀ cfg tx, Calm (Administering.modifyPushConfig req.subscription cfg tx) ↔
      cfg ≠ none := by
    intro cfg tx
    simp [Administering.modifyPushConfig, avoids_bind]
  simp [Handlers.modifyPushConfig, avoids_bind, checkSubscriptionName_ok, hbody]

theorem publish_calm (text : UUIDText) (env : Env) (req : PbPublishRequest) (db : DB) :
    Calm (publish text env req db) := by
  have hone : ∀ t st m, Calm (publishOne text env t st m) := by
    intro t st m
    simp [publishOne, avoids_bind, Action.Valid, publishMessage_calm]
  unfold publish
  refine avoids_bind.mpr ⟨checkTopicName_calm _, fun _ _ => ?_⟩
  refine (transact_calm _ _).mpr ?_
  exact avoids_bind.mpr ⟨only_calm _ _, fun t _ => avoids_loop (hone t) _ _⟩

theorem updatedTopic_calm (req : PbUpdateTopicRequest) (db : DB) :
    Calm (Handlers.updateTopic req db) ↔ ¬ req.topic = none := by
  simp [Handlers.updateTopic, avoids_bind, updateTopic_calm]

theorem newTopic_calm (env : Env) (req : PbTopic) (db : DB) :
    Calm (Handlers.createTopic env req db) := by
  have hvalid : ∀ u, checkTopicName req.name = .ok u → ¬ req.name = "" := by
    intro u hu
    have hname : isValidTopicName req.name = true := by
      simpa using failWhen_ok.mp hu
    exact isValidName_ne hname
  simp +contextual [Handlers.createTopic, avoids_bind, createTopic_calm, Action.Valid, hvalid]

theorem newSnapshot_calm (env : Env) (req : PbCreateSnapshotRequest) (db : DB) :
    Calm (Handlers.createSnapshot env req db) := by
  have hvalid : ∀ u, checkSnapshotName req.name = .ok u → ¬ req.name = "" := by
    intro u hu
    have hname : isValidSnapshotName req.name = true := by
      simpa using failWhen_ok.mp hu
    exact isValidName_ne hname
  have hvalid' : isValidSubscriptionName req.subscription = true → ¬ req.subscription = "" :=
    isValidName_ne
  simp +contextual [Handlers.createSnapshot, avoids_bind, createSnapshot_calm, Action.Valid,
    hvalid, hvalid', checkSubscriptionName_ok]

theorem lists_calm (text : UUIDText) (v : Visit) (parent pageToken : String) :
    Calm (Listing.listTopics text v parent pageToken) ∧
      Calm (Listing.listSubscriptions text v parent pageToken) ∧
      Calm (Listing.listTopicSubscriptions text v parent pageToken) := by
  refine ⟨?_, ?_, ?_⟩
  · simp [Listing.listTopics, avoids_bind]
  · simp [Listing.listSubscriptions, avoids_bind]
  · simp [Listing.listTopicSubscriptions, avoids_bind]

/-- A call returns a response or an error unless its request is one of those
that panic. -/
theorem answers_unless_panicking (o : Occasion) (req : Request) :
    handle o req ≠ .error .panic ↔ ¬ Panicking o req := by
  change Calm (handle o req) ↔ _
  cases req with
  | updateTopic req => exact (ran_calm _).trans (updatedTopic_calm req o.first.db)
  | createSubscription req =>
    exact (ran_calm _).trans (newSubscription_calm o.first.env req o.first.db)
  | updateSubscription req =>
    exact (ran_calm _).trans (updatedSubscription_calm o.first.env req o.first.db)
  | modifyPushConfig req => exact (ran_calm _).trans (modifyPushConfig_calm req o.first.db)
  | pull req => exact (ran_calm _).trans (pull_calm o.text o.first o.rounds o.last req)
  | seek req => exact (ran_calm _).trans (seek_calm o.first.env req o.first.db)
  | createTopic req => simp [handle, Panicking, newTopic_calm]
  | getTopic name => simp [handle, Panicking, getTopic, avoids_bind]
  | deleteTopic name =>
    simp [handle, Panicking, Handlers.deleteTopic, avoids_bind, Action.Valid, deleteTopic_calm]
  | listTopics req => simp [handle, Panicking, Handlers.listTopics, avoids_bind, lists_calm]
  | listTopicSubscriptions req =>
    simp [handle, Panicking, Handlers.listTopicSubscriptions, avoids_bind, lists_calm]
  | publish req => simp [handle, Panicking, publish_calm]
  | getSubscription name => simp [handle, Panicking, getSubscription, avoids_bind]
  | listSubscriptions req =>
    simp [handle, Panicking, Handlers.listSubscriptions, avoids_bind, lists_calm]
  | deleteSubscription name =>
    simp [handle, Panicking, Handlers.deleteSubscription, avoids_bind, Action.Valid,
      deleteSubscription_calm]
  | modifyAckDeadline req =>
    simp [handle, Panicking, modifyAckDeadline, avoids_bind, Action.Valid]
  | acknowledge req => simp [handle, Panicking, acknowledge, avoids_bind, Action.Valid]
  | getSnapshot name => simp [handle, Panicking, getSnapshot, avoids_bind]
  | listSnapshots req => simp [handle, Panicking, listSnapshots, avoids_bind]
  | createSnapshot req => simp [handle, Panicking, newSnapshot_calm]
  | updateSnapshot => simp [handle, Panicking, updateSnapshot]
  | deleteSnapshot name =>
    simp [handle, Panicking, Handlers.deleteSnapshot, avoids_bind, deleteSnapshot_calm]

def emptyOccasion : Occasion :=
  ⟨hexText, ⟨.plain 0 1, .empty⟩, [], ⟨.plain 0 1, .empty⟩⟩

/-- A pull that asks for no messages panics. -/
theorem answers_fails_empty_pull :
    ¬ ∀ (o : Occasion) (req : Request), handle o req ≠ .error .panic := by
  intro h
  exact h emptyOccasion (.pull ⟨"projects/p/subscriptions/s", 0⟩) (by decide +kernel)

end Mmmbbb.Panics
