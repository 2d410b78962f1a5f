import Mmmbbb.Database
import Mmmbbb.Filter
import Mathlib.Data.Rat.Floor

/-!
# Delivering a message to a subscription

What one transaction runs with, how it creates deliveries, and how it sends a
delivery to the dead-letter topic of its subscription. The commit hooks that
wake sleeping subscribers are recorded in the order they are registered.
-/

set_option autoImplicit false

namespace Mmmbbb.Delivering
open KeyedRows Programs Mmmbbb.Schema Mmmbbb.Database

/-- What the runtime and the database supply to one transaction: its instant,
the results of `uuid.New`, the order in which its statements return rows, the
filter parser, and what a JSON column gives back of a text, unless the database
refuses it. -/
structure Env where
  now : Time
  uuid : ℕ → UUID
  topics : ScanOrder Topic
  subscriptions : ScanOrder Subscription
  messages : ScanOrder Message
  deliveries : ScanOrder Delivery
  parseFilter : String → Except String Filter.Condition
  jsonColumn : List UInt8 → Option (List UInt8)

/-- Statements return rows in insertion order, identifiers count up, no filter
parses, and a JSON column is one of text, as in SQLite. -/
def Env.plain (now : Time) (firstID : ℕ) : Env where
  now := now
  uuid i := firstID + i
  topics := .insertion Topic
  subscriptions := .insertion Subscription
  messages := .insertion Message
  deliveries := .insertion Delivery
  parseFilter _ := .error "no filter"
  jsonColumn text := some text

inductive Hook
  | wakePublishListeners (onlyInternal : Bool) (subIDs : List UUID)
  | wakeTopicListeners (id : UUID) (name : String)
  | wakeSubscriptionListeners (id : UUID) (name : String)
  deriving DecidableEq, Repr

/-- A transaction in progress: what it sees, how many identifiers it has
drawn, and the hooks to run after its commit. -/
structure Tx where
  db : DB
  drawn : ℕ
  onCommit : List Hook

def Tx.begin (db : DB) : Tx := ⟨db, 0, []⟩

def Tx.hook (tx : Tx) (h : Hook) : Tx := { tx with onCommit := tx.onCommit ++ [h] }

@[simp] theorem Tx.hook_db (tx : Tx) (h : Hook) : (tx.hook h).db = tx.db := rfl

def Tx.updateDelivery (tx : Tx) (id : UUID) (u : DeliveryUpdate) : Except Error Tx :=
  if Has Delivery.id id tx.db.deliveries then
    .ok { tx with db := tx.db.updateDeliveries (fun d => decide (d.id = id)) u }
  else .error .errNotFound

theorem Tx.updateDelivery_ok {tx tx' : Tx} {id : UUID} {u : DeliveryUpdate}
    (h : tx.updateDelivery id u = .ok tx') :
    tx'.db = tx.db.updateDeliveries (fun d => decide (d.id = id)) u := by
  unfold Tx.updateDelivery at h
  split at h
  · cases h
    rfl
  · cases h

def defaultMinDelay : Duration := 10 * second
def defaultMaxDelay : Duration := 10 * minute
def retryBackoffFactor : ℚ := 11 / 10

def crc32Byte (crc byte : ℕ) : ℕ :=
  Nat.repeat (fun c => if c % 2 = 1 then c / 2 ^^^ 0xEDB88320 else c / 2) 8 (crc ^^^ byte)

def crc32 (bytes : List ℕ) : ℕ := bytes.foldl crc32Byte 0xFFFFFFFF ^^^ 0xFFFFFFFF

def uuidBytes (id : UUID) : List ℕ := (List.range 16).map (fun i => id / 256 ^ (15 - i) % 256)

def int32Bytes (n : ℕ) : List ℕ := (List.range 4).map (fun i => n / 256 ^ i % 256)

def positiveOr (default : Duration) : Option Duration → Duration
  | some d => if 0 < d then d else default
  | none => default

/-- The nominal and the fuzzed delay after so many attempts. The source
computes the power in floating point; here it is exact. -/
def nextDelayFor (sub : Subscription) (attempts : ℕ) : Duration × Duration :=
  let minDelay := positiveOr defaultMinDelay sub.minBackoff
  let maxDelay := positiveOr defaultMaxDelay sub.maxBackoff
  let delay : ℚ := min (retryBackoffFactor ^ attempts * minDelay) maxDelay
  let fuzzNanos : ℕ :=
    if delay > (second : ℚ) / 2 then
      crc32 (uuidBytes sub.id ++ int32Bytes attempts) % 1000000000
    else 0
  (delay.floor, delay.floor + fuzzNanos)

def attributeBytes (m : Message) : Filter.Attributes :=
  m.attributes.map (fun kv => (Runes.bytes kv.1, Runes.bytes kv.2))

def filterAccepts (env : Env) (s : Subscription) (m : Message) : Bool :=
  match s.messageFilter with
  | none => true
  | some text =>
    if text = "" then true
    else
      match env.parseFilter text with
      | .error _ => false
      | .ok f =>
        match f.evaluate (attributeBytes m) with
        | .error _ => false
        | .ok accepted => accepted

def predecessorOf (env : Env) (t : Tables) (s : Subscription) (m : Message) (d : Delivery) : Bool :=
  decide (d.subscriptionID = s.id) && decide (env.now < d.expiresAt) &&
    t.messages.any (fun x => decide (x.id = d.messageID) && decide (x.topicID = m.topicID))

def lastDelivery (env : Env) (t : Tables) (s : Subscription) (m : Message) : Option Delivery :=
  (orderBy (fun d => -d.publishedAt)
    (env.deliveries.run (t.deliveries.filter (predecessorOf env t s m)))).head?

theorem lastDelivery_some {env : Env} {t : Tables} {s : Subscription} {m : Message} {e : Delivery}
    (h : lastDelivery env t s m = some e) :
    e ∈ t.deliveries ∧ predecessorOf env t s m e = true ∧
      ∀ x ∈ t.deliveries, predecessorOf env t s m x = true → x.publishedAt ≤ e.publishedAt := by
  obtain ⟨hm, hmax⟩ := orderBy_head h
  simp only [ScanOrder.mem_run, List.mem_filter] at hm hmax
  refine ⟨hm.1, hm.2, fun x hx hp => ?_⟩
  exact neg_le_neg_iff.mp (hmax x ⟨hx, hp⟩)

theorem lastDelivery_none {env : Env} {t : Tables} {s : Subscription} {m : Message}
    (h : lastDelivery env t s m = none) :
    ∀ x ∈ t.deliveries, predecessorOf env t s m x = false := by
  have he := orderBy_head_none h
  intro x hx
  by_contra hp
  have : x ∈ env.deliveries.run (t.deliveries.filter (predecessorOf env t s m)) := by
    simpa using ⟨hx, by simpa using hp⟩
  simp [he] at this

structure DeliveryCreate where
  messageID : UUID
  subscriptionID : UUID
  expiresAt : Time
  publishedAt : Time
  attemptAt : Time
  notBeforeID : Option UUID
  deriving DecidableEq

def DeliveryCreate.row (c : DeliveryCreate) (id : UUID) : Delivery where
  id := id
  messageID := c.messageID
  subscriptionID := c.subscriptionID
  publishedAt := c.publishedAt
  attemptAt := c.attemptAt
  lastAttemptedAt := none
  attempts := 0
  completedAt := none
  expiresAt := c.expiresAt
  notBeforeID := c.notBeforeID

def setUpDelivery (env : Env) (t : Tables) (s : Subscription) (m : Message) : DeliveryCreate where
  messageID := m.id
  subscriptionID := s.id
  expiresAt := env.now + s.messageTTL
  publishedAt := env.now
  attemptAt := env.now + s.deliveryDelay
  notBeforeID :=
    if s.orderedDelivery = true ∧ m.Keyed then (lastDelivery env t s m).map Delivery.id else none

def deliverToSubscription (env : Env) (t : Tables) (s : Subscription) (m : Message) :
    Option DeliveryCreate :=
  if filterAccepts env s m then some (setUpDelivery env t s m) else none

theorem deliverToSubscription_some {env : Env} {t : Tables} {s : Subscription} {m : Message}
    {c : DeliveryCreate} :
    deliverToSubscription env t s m = some c ↔
      filterAccepts env s m = true ∧ setUpDelivery env t s m = c := by
  simp [deliverToSubscription]

theorem setUpDelivery_append {env : Env} {t : Tables} {s : Subscription} {m : Message}
    {r : Delivery} (hr : r.subscriptionID ≠ s.id) :
    setUpDelivery env { t with deliveries := t.deliveries ++ [r] } s m =
      setUpDelivery env t s m := by
  have hp : predecessorOf env t s m r = false := by simp [predecessorOf, hr]
  have hl : lastDelivery env { t with deliveries := t.deliveries ++ [r] } s m =
      lastDelivery env t s m := by
    change (orderBy _ (env.deliveries.run
      ((t.deliveries ++ [r]).filter (predecessorOf env t s m)))).head? = _
    rw [List.filter_append, List.filter_cons_of_neg (by simp [hp]), List.filter_nil,
      List.append_nil]
    rfl
  simp [setUpDelivery, hl]

/-- The loops over the subscriptions of a topic: one delivery for each whose
filter accepts the message, and one commit hook for each delivery. -/
def deliverAll (env : Env) (subs : List Subscription) (m : Message) (tx : Tx) :
    List DeliveryCreate × Tx :=
  let dc := subs.filterMap (fun s => deliverToSubscription env tx.db.toTables s m)
  (dc, { tx with
    onCommit := tx.onCommit ++ dc.map (fun c => .wakePublishListeners false [c.subscriptionID]) })

/-- `CreateBulk(...).Save`: the identifiers are drawn as the rows are saved. -/
def createBulk (env : Env) (dc : List DeliveryCreate) (tx : Tx) : Except Error Tx :=
  dc.foldlM (fun tx c => do
    let db ← tx.db.insertDelivery (c.row (env.uuid tx.drawn))
    pure { tx with db := db, drawn := tx.drawn + 1 }) tx

def deliveryRows (env : Env) (drawn : ℕ) (dc : List DeliveryCreate) : List Delivery :=
  dc.mapIdx (fun i c => c.row (env.uuid (i + drawn)))

theorem mem_deliveryRows {env : Env} {drawn : ℕ} {dc : List DeliveryCreate} {r : Delivery} :
    r ∈ deliveryRows env drawn dc ↔
      ∃ k, ∃ hk : k < dc.length, dc[k].row (env.uuid (k + drawn)) = r := List.mem_mapIdx

theorem deliveryRows_cons (env : Env) (drawn : ℕ) (c : DeliveryCreate) (dc : List DeliveryCreate) :
    deliveryRows env drawn (c :: dc) =
      c.row (env.uuid drawn) :: deliveryRows env (drawn + 1) dc := by
  simp [deliveryRows, List.mapIdx_cons, Nat.add_comm, Nat.add_left_comm]

@[simp] theorem deliveryRows_length (env : Env) (drawn : ℕ) (dc : List DeliveryCreate) :
    (deliveryRows env drawn dc).length = dc.length := by simp [deliveryRows]

theorem deliveryRows_subscriptions (env : Env) (drawn : ℕ) (dc : List DeliveryCreate) :
    (deliveryRows env drawn dc).map Delivery.subscriptionID =
      dc.map DeliveryCreate.subscriptionID := by
  induction dc generalizing drawn with
  | nil => rfl
  | cons c dc ih =>
    rw [deliveryRows_cons, List.map_cons, List.map_cons, ih]
    rfl

theorem createBulk_rows {env : Env} {dc : List DeliveryCreate} {tx tx' : Tx}
    (h : createBulk env dc tx = .ok tx') :
    ((deliveryRows env tx.drawn dc).map Delivery.id).Nodup ∧
      (∀ r ∈ deliveryRows env tx.drawn dc, ¬ Has Delivery.id r.id tx.db.deliveries) ∧
      tx'.db.toTables = { tx.db.toTables with
        deliveries := tx.db.deliveries ++ deliveryRows env tx.drawn dc } ∧
      tx'.drawn = tx.drawn + dc.length := by
  induction dc generalizing tx with
  | nil =>
    obtain rfl : tx = tx' := by simpa [createBulk] using h
    simp [deliveryRows]
  | cons c dc ih =>
    rw [createBulk, List.foldlM_cons] at h
    obtain ⟨mid, hm, hrest⟩ := bind_ok.mp h
    obtain ⟨db, hdb, hmid⟩ := bind_ok.mp hm
    obtain rfl := pure_ok.mp hmid
    obtain ⟨hfresh, ht⟩ := DB.insertDelivery_ok hdb
    obtain ⟨hnodup, hnew, htables, hdrawn⟩ := ih hrest
    simp only [ht] at hnodup hnew htables hdrawn
    rw [deliveryRows_cons]
    refine ⟨?_, ?_, ?_, ?_⟩
    · rw [List.map_cons, List.nodup_cons]
      refine ⟨fun hmem => ?_, hnodup⟩
      obtain ⟨r, hr, hid⟩ := List.mem_map.mp hmem
      exact hnew r hr ⟨c.row (env.uuid tx.drawn), by simp, hid.symm⟩
    · intro r hr
      rcases List.mem_cons.mp hr with rfl | hr
      · exact hfresh
      · intro hhas
        exact hnew r hr (hhas.append_left _)
    · rw [htables]
      simp
    · rw [hdrawn, List.length_cons]
      omega

theorem createBulk_ok {env : Env} {dc : List DeliveryCreate} {tx tx' : Tx}
    (h : createBulk env dc tx = .ok tx') :
    ∃ new, tx'.db.toTables = { tx.db.toTables with deliveries := tx.db.deliveries ++ new } ∧
      (∀ x ∈ new, ¬ Has Delivery.id x.id tx.db.deliveries) ∧
      ∀ c ∈ dc, ∃ k, c.row (env.uuid k) ∈ new := by
  obtain ⟨-, hnew, ht, -⟩ := createBulk_rows h
  refine ⟨deliveryRows env tx.drawn dc, ht, hnew, fun c hc => ?_⟩
  obtain ⟨k, hk, rfl⟩ := List.getElem_of_mem hc
  exact ⟨k + tx.drawn, mem_deliveryRows.mpr ⟨k, hk, rfl⟩⟩

def liveSubscriptions (env : Env) (t : Tables) (topicID : UUID) : List Subscription :=
  env.subscriptions.run (t.subscriptions.filter
    (fun s => decide (s.topicID = topicID) && s.deletedAt.isNone))

theorem mem_liveSubscriptions {env : Env} {t : Tables} {topicID : UUID} {s : Subscription} :
    s ∈ liveSubscriptions env t topicID ↔
      s ∈ t.subscriptions ∧ s.topicID = topicID ∧ s.deletedAt = none := by
  simp [liveSubscriptions]

theorem liveSubscriptions_nodup {env : Env} {t : Tables} {topicID : UUID}
    (h : UniqueKeys Subscription.id t.subscriptions) :
    UniqueKeys Subscription.id (liveSubscriptions env t topicID) :=
  (((env.subscriptions.perm _).map Subscription.id).nodup_iff).mpr (h.filter _)

def liveTopic (t : Tables) (topicID : UUID) : Option Topic :=
  t.topics.find? (fun r => decide (r.id = topicID) && r.deletedAt.isNone)

structure DeadLetterData where
  deliveryID : UUID
  deliverySubscriptionID : UUID
  deliveryMessageID : UUID
  deadLetterTopicID : UUID
  deriving DecidableEq, Repr

def deadLetterDataFromEntities (d : Delivery) (deadLetterTopicID : UUID) : DeadLetterData :=
  ⟨d.id, d.subscriptionID, d.messageID, deadLetterTopicID⟩

/-- The first half of dead-lettering: new deliveries of the same message in
the subscriptions of the dead-letter topic, unless that was deleted. -/
def deliverDeadLetter (env : Env) (data : DeadLetterData) (tx : Tx) : Except Error Tx :=
  match liveTopic tx.db.toTables data.deadLetterTopicID with
  | none => .ok tx
  | some dlTopic =>
    let subs := liveSubscriptions env tx.db.toTables dlTopic.id
    if subs = [] then .ok tx
    else
      match fetch Message.id data.deliveryMessageID tx.db.messages with
      | none => .error .errNotFound
      | some m =>
        let (dlc, tx) := deliverAll env subs m tx
        createBulk env dlc tx

def deadLetterDelivery (env : Env) (data : DeadLetterData) (tx : Tx) : Except Error Tx := do
  let tx ← deliverDeadLetter env data tx
  let tx ← tx.updateDelivery data.deliveryID { completedAt := some (some env.now) }
  pure (tx.hook (.wakePublishListeners false [data.deliverySubscriptionID]))

theorem deliverDeadLetter_ok {env : Env} {data : DeadLetterData} {tx tx' : Tx}
    (h : deliverDeadLetter env data tx = .ok tx') :
    ∃ new, tx'.db.toTables = { tx.db.toTables with deliveries := tx.db.deliveries ++ new } ∧
      (∀ x ∈ new, ¬ Has Delivery.id x.id tx.db.deliveries) ∧
      (liveTopic tx.db.toTables data.deadLetterTopicID ≠ none →
        ∀ s ∈ liveSubscriptions env tx.db.toTables data.deadLetterTopicID,
        ∀ m ∈ tx.db.messages, m.id = data.deliveryMessageID → filterAccepts env s m = true →
          ∃ k, (setUpDelivery env tx.db.toTables s m).row (env.uuid k) ∈ new) := by
  unfold deliverDeadLetter at h
  split at h
  · rename_i hnone
    cases h
    exact ⟨[], by simp [hnone]⟩
  · rename_i dlTopic hsome
    have hid : dlTopic.id = data.deadLetterTopicID := by
      have := List.find?_some hsome
      simp_all
    rw [hid] at h
    dsimp only at h
    split at h
    · rename_i hsubs
      cases h
      exact ⟨[], by simp [hsubs]⟩
    · split at h
      · cases h
      · rename_i m hf
        obtain ⟨hm, hmid⟩ := fetch_mem hf
        obtain ⟨new, ht, hnew, hall⟩ := createBulk_ok h
        refine ⟨new, ht, hnew, fun _ s hs m' hm' hid' hacc => ?_⟩
        obtain rfl : m' = m := tx.db.sound.message_pk.eq hm' hm (hid'.trans hmid.symm)
        exact hall _ (List.mem_filterMap.mpr
          ⟨s, hs, deliverToSubscription_some.mpr ⟨hacc, rfl⟩⟩)

theorem deadLetterDelivery_ok {env : Env} {data : DeadLetterData} {tx tx' : Tx}
    (h : deadLetterDelivery env data tx = .ok tx') :
    ∃ mid, deliverDeadLetter env data tx = .ok mid ∧
      tx'.db = mid.db.updateDeliveries (fun d => decide (d.id = data.deliveryID))
        { completedAt := some (some env.now) } := by
  obtain ⟨mid, hmid, h⟩ := bind_ok.mp h
  obtain ⟨last, hlast, h⟩ := bind_ok.mp h
  obtain rfl := pure_ok.mp h
  exact ⟨mid, hmid, (Tx.hook_db last _).trans (Tx.updateDelivery_ok hlast)⟩

end Mmmbbb.Delivering
