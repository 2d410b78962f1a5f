import Mmmbbb.Schema
import Mmmbbb.Programs

/-!
# The database

The tables together with the primary keys, unique indexes and foreign keys of
the migrations. A state that breaks one of them cannot be built: an insert or
a delete that would is an error, and the two references declared
`ON DELETE SET NULL` are cleared. An update names only the columns it sets.
-/

set_option autoImplicit false

namespace Mmmbbb.Database
open KeyedRows Mmmbbb.Schema

inductive Error
  | errNotFound
  | errExists
  | notSingular
  | constraint
  | invalidPayload
  | invalidFilter
  | invalidArgument (text : String)
  | unimplemented (text : String)
  | panic
  deriving DecidableEq, Repr

structure Sound (t : Tables) : Prop where
  topic_pk : UniqueKeys Topic.id t.topics
  subscription_pk : UniqueKeys Subscription.id t.subscriptions
  message_pk : UniqueKeys Message.id t.messages
  delivery_pk : UniqueKeys Delivery.id t.deliveries
  snapshot_pk : UniqueKeys Snapshot.id t.snapshots
  topic_name_live : UniqueWhere Topic.id (·.deletedAt = none) Topic.name t.topics
  subscription_name_live :
    UniqueWhere Subscription.id (·.deletedAt = none) Subscription.name t.subscriptions
  snapshot_name : UniqueWhere Snapshot.id (fun _ => True) Snapshot.name t.snapshots
  subscription_topic : ∀ s ∈ t.subscriptions, Has Topic.id s.topicID t.topics
  subscription_deadLetterTopic : ∀ s ∈ t.subscriptions, ∀ k ∈ s.deadLetterTopicID,
    Has Topic.id k t.topics
  message_topic : ∀ m ∈ t.messages, Has Topic.id m.topicID t.topics
  delivery_message : ∀ d ∈ t.deliveries, Has Message.id d.messageID t.messages
  delivery_subscription : ∀ d ∈ t.deliveries, Has Subscription.id d.subscriptionID t.subscriptions
  delivery_notBefore : ∀ d ∈ t.deliveries, ∀ k ∈ d.notBeforeID, Has Delivery.id k t.deliveries
  snapshot_topic : ∀ s ∈ t.snapshots, Has Topic.id s.topicID t.topics

structure DB extends Tables where
  sound : Sound toTables

theorem DB.ext' {a b : DB} (h : a.toTables = b.toTables) : a = b := by
  cases a; cases b; cases h; rfl

theorem empty_sound : Sound ⟨[], [], [], [], []⟩ := by
  constructor <;> simp [UniqueKeys, UniqueWhere]

def DB.empty : DB := ⟨⟨[], [], [], [], []⟩, empty_sound⟩

theorem insertTopic_sound {t : Tables} (h : Sound t) {r : Topic} (hk : ¬ Has Topic.id r.id t.topics)
    (hn : r.deletedAt = none → ∀ a ∈ t.topics, a.deletedAt = none → a.name ≠ r.name) :
    Sound { t with topics := t.topics ++ [r] } where
  __ := h
  topic_pk := h.topic_pk.append_one hk
  topic_name_live := h.topic_name_live.append_one hn
  subscription_topic := fun s hs => (h.subscription_topic s hs).append_left _
  subscription_deadLetterTopic := fun s hs k hk =>
    (h.subscription_deadLetterTopic s hs k hk).append_left _
  message_topic := fun m hm => (h.message_topic m hm).append_left _
  snapshot_topic := fun s hs => (h.snapshot_topic s hs).append_left _

def DB.insertTopic (db : DB) (r : Topic) : Except Error DB :=
  if h : ¬ Has Topic.id r.id db.topics ∧
      (r.deletedAt = none → ∀ a ∈ db.topics, a.deletedAt = none → a.name ≠ r.name) then
    .ok ⟨{ db.toTables with topics := db.topics ++ [r] }, insertTopic_sound db.sound h.1 h.2⟩
  else .error .constraint

theorem DB.insertTopic_ok {db db' : DB} {r : Topic} (h : db.insertTopic r = .ok db') :
    ¬ Has Topic.id r.id db.topics ∧
      db'.toTables = { db.toTables with topics := db.topics ++ [r] } := by
  unfold DB.insertTopic at h
  split at h
  · rename_i hc
    cases h
    exact ⟨hc.1, rfl⟩
  · cases h

theorem insertSubscription_sound {t : Tables} (h : Sound t) {r : Subscription}
    (hk : ¬ Has Subscription.id r.id t.subscriptions)
    (hn : r.deletedAt = none → ∀ a ∈ t.subscriptions, a.deletedAt = none → a.name ≠ r.name)
    (ht : Has Topic.id r.topicID t.topics)
    (hd : ∀ k ∈ r.deadLetterTopicID, Has Topic.id k t.topics) :
    Sound { t with subscriptions := t.subscriptions ++ [r] } where
  __ := h
  subscription_pk := h.subscription_pk.append_one hk
  subscription_name_live := h.subscription_name_live.append_one hn
  subscription_topic := forall_append_one h.subscription_topic ht
  subscription_deadLetterTopic := forall_append_one h.subscription_deadLetterTopic hd
  delivery_subscription := fun d hd => (h.delivery_subscription d hd).append_left _

def DB.insertSubscription (db : DB) (r : Subscription) : Except Error DB :=
  if h : ¬ Has Subscription.id r.id db.subscriptions ∧
      (r.deletedAt = none → ∀ a ∈ db.subscriptions, a.deletedAt = none → a.name ≠ r.name) ∧
      Has Topic.id r.topicID db.topics ∧
      ∀ k ∈ r.deadLetterTopicID, Has Topic.id k db.topics then
    .ok ⟨{ db.toTables with subscriptions := db.subscriptions ++ [r] },
      insertSubscription_sound db.sound h.1 h.2.1 h.2.2.1 h.2.2.2⟩
  else .error .constraint

theorem DB.insertSubscription_ok {db db' : DB} {r : Subscription} (h : db.insertSubscription r = .ok db') :
    ¬ Has Subscription.id r.id db.subscriptions ∧
      db'.toTables = { db.toTables with subscriptions := db.subscriptions ++ [r] } := by
  unfold DB.insertSubscription at h
  split at h
  · rename_i hc
    cases h
    exact ⟨hc.1, rfl⟩
  · cases h

theorem insertMessage_sound {t : Tables} (h : Sound t) {r : Message}
    (hk : ¬ Has Message.id r.id t.messages) (ht : Has Topic.id r.topicID t.topics) :
    Sound { t with messages := t.messages ++ [r] } where
  __ := h
  message_pk := h.message_pk.append_one hk
  message_topic := forall_append_one h.message_topic ht
  delivery_message := fun d hd => (h.delivery_message d hd).append_left _

def DB.insertMessage (db : DB) (r : Message) : Except Error DB :=
  if h : ¬ Has Message.id r.id db.messages ∧ Has Topic.id r.topicID db.topics then
    .ok ⟨{ db.toTables with messages := db.messages ++ [r] },
      insertMessage_sound db.sound h.1 h.2⟩
  else .error .constraint

theorem DB.insertMessage_ok {db db' : DB} {r : Message} (h : db.insertMessage r = .ok db') :
    ¬ Has Message.id r.id db.messages ∧
      db'.toTables = { db.toTables with messages := db.messages ++ [r] } := by
  unfold DB.insertMessage at h
  split at h
  · rename_i hc
    cases h
    exact ⟨hc.1, rfl⟩
  · cases h

theorem insertDelivery_sound {t : Tables} (h : Sound t) {r : Delivery}
    (hk : ¬ Has Delivery.id r.id t.deliveries) (hm : Has Message.id r.messageID t.messages)
    (hs : Has Subscription.id r.subscriptionID t.subscriptions)
    (hb : ∀ k ∈ r.notBeforeID, Has Delivery.id k t.deliveries) :
    Sound { t with deliveries := t.deliveries ++ [r] } where
  __ := h
  delivery_pk := h.delivery_pk.append_one hk
  delivery_message := forall_append_one h.delivery_message hm
  delivery_subscription := forall_append_one h.delivery_subscription hs
  delivery_notBefore := forall_append_one
    (fun d hd k hk => (h.delivery_notBefore d hd k hk).append_left _)
    (fun k hk => (hb k hk).append_left _)

def DB.insertDelivery (db : DB) (r : Delivery) : Except Error DB :=
  if h : ¬ Has Delivery.id r.id db.deliveries ∧ Has Message.id r.messageID db.messages ∧
      Has Subscription.id r.subscriptionID db.subscriptions ∧
      ∀ k ∈ r.notBeforeID, Has Delivery.id k db.deliveries then
    .ok ⟨{ db.toTables with deliveries := db.deliveries ++ [r] },
      insertDelivery_sound db.sound h.1 h.2.1 h.2.2.1 h.2.2.2⟩
  else .error .constraint

theorem DB.insertDelivery_ok {db db' : DB} {r : Delivery} (h : db.insertDelivery r = .ok db') :
    ¬ Has Delivery.id r.id db.deliveries ∧
      db'.toTables = { db.toTables with deliveries := db.deliveries ++ [r] } := by
  unfold DB.insertDelivery at h
  split at h
  · rename_i hc
    cases h
    exact ⟨hc.1, rfl⟩
  · cases h

theorem insertSnapshot_sound {t : Tables} (h : Sound t) {r : Snapshot}
    (hk : ¬ Has Snapshot.id r.id t.snapshots) (hn : ∀ a ∈ t.snapshots, a.name ≠ r.name)
    (ht : Has Topic.id r.topicID t.topics) :
    Sound { t with snapshots := t.snapshots ++ [r] } where
  __ := h
  snapshot_pk := h.snapshot_pk.append_one hk
  snapshot_name := h.snapshot_name.append_one (fun _ a ha _ => hn a ha)
  snapshot_topic := forall_append_one h.snapshot_topic ht

def DB.insertSnapshot (db : DB) (r : Snapshot) : Except Error DB :=
  if h : ¬ Has Snapshot.id r.id db.snapshots ∧ (∀ a ∈ db.snapshots, a.name ≠ r.name) ∧
      Has Topic.id r.topicID db.topics then
    .ok ⟨{ db.toTables with snapshots := db.snapshots ++ [r] },
      insertSnapshot_sound db.sound h.1 h.2.1 h.2.2⟩
  else .error .constraint

theorem DB.insertSnapshot_ok {db db' : DB} {r : Snapshot} (h : db.insertSnapshot r = .ok db') :
    ¬ Has Snapshot.id r.id db.snapshots ∧
      db'.toTables = { db.toTables with snapshots := db.snapshots ++ [r] } := by
  unfold DB.insertSnapshot at h
  split at h
  · rename_i hc
    cases h
    exact ⟨hc.1, rfl⟩
  · cases h

structure TopicUpdate where
  deletedAt : Option Time := none
  labels : Option Labels := none
  deriving DecidableEq

def TopicUpdate.apply (u : TopicUpdate) (t : Topic) : Topic :=
  { t with deletedAt := u.deletedAt <|> t.deletedAt, labels := u.labels.getD t.labels }

@[simp] theorem TopicUpdate.apply_id (u : TopicUpdate) (t : Topic) : (u.apply t).id = t.id := rfl
@[simp] theorem TopicUpdate.apply_name (u : TopicUpdate) (t : Topic) :
    (u.apply t).name = t.name := rfl

theorem TopicUpdate.apply_live (u : TopicUpdate) (t : Topic) (h : (u.apply t).deletedAt = none) :
    t.deletedAt = none := by
  cases hu : u.deletedAt <;> simp_all [TopicUpdate.apply]

structure SubscriptionUpdate where
  expiresAt : Option Time := none
  deletedAt : Option Time := none
  ttl : Option Duration := none
  messageTTL : Option Duration := none
  orderedDelivery : Option Bool := none
  labels : Option Labels := none
  minBackoff : Option (Option Duration) := none
  maxBackoff : Option (Option Duration) := none
  pushEndpoint : Option (Option String) := none
  messageFilter : Option (Option String) := none
  maxDeliveryAttempts : Option (Option ℤ) := none
  deadLetterTopicID : Option (Option UUID) := none
  deliveryDelay : Option Duration := none
  deriving DecidableEq

def SubscriptionUpdate.apply (u : SubscriptionUpdate) (s : Subscription) : Subscription :=
  { s with
    expiresAt := u.expiresAt.getD s.expiresAt
    deletedAt := u.deletedAt <|> s.deletedAt
    ttl := u.ttl.getD s.ttl
    messageTTL := u.messageTTL.getD s.messageTTL
    orderedDelivery := u.orderedDelivery.getD s.orderedDelivery
    labels := u.labels.getD s.labels
    minBackoff := u.minBackoff.getD s.minBackoff
    maxBackoff := u.maxBackoff.getD s.maxBackoff
    pushEndpoint := u.pushEndpoint.getD s.pushEndpoint
    messageFilter := u.messageFilter.getD s.messageFilter
    maxDeliveryAttempts := u.maxDeliveryAttempts.getD s.maxDeliveryAttempts
    deadLetterTopicID := u.deadLetterTopicID.getD s.deadLetterTopicID
    deliveryDelay := u.deliveryDelay.getD s.deliveryDelay }

section
variable (u : SubscriptionUpdate) (s : Subscription)
@[simp] theorem SubscriptionUpdate.apply_id : (u.apply s).id = s.id := rfl
@[simp] theorem SubscriptionUpdate.apply_topicID : (u.apply s).topicID = s.topicID := rfl
@[simp] theorem SubscriptionUpdate.apply_name : (u.apply s).name = s.name := rfl

theorem SubscriptionUpdate.apply_live (h : (u.apply s).deletedAt = none) : s.deletedAt = none := by
  cases hu : u.deletedAt <;> simp_all [SubscriptionUpdate.apply]
end

structure DeliveryUpdate where
  attemptAt : Option Time := none
  lastAttemptedAt : Option Time := none
  addAttempts : ℕ := 0
  completedAt : Option (Option Time) := none
  expiresAt : Option Time := none

def DeliveryUpdate.apply (u : DeliveryUpdate) (d : Delivery) : Delivery :=
  { d with
    attemptAt := u.attemptAt.getD d.attemptAt
    lastAttemptedAt := u.lastAttemptedAt <|> d.lastAttemptedAt
    attempts := d.attempts + u.addAttempts
    completedAt := u.completedAt.getD d.completedAt
    expiresAt := u.expiresAt.getD d.expiresAt }

section
variable (u : DeliveryUpdate) (d : Delivery)
@[simp] theorem DeliveryUpdate.apply_id : (u.apply d).id = d.id := rfl
@[simp] theorem DeliveryUpdate.apply_messageID : (u.apply d).messageID = d.messageID := rfl
@[simp] theorem DeliveryUpdate.apply_subscriptionID :
    (u.apply d).subscriptionID = d.subscriptionID := rfl
@[simp] theorem DeliveryUpdate.apply_publishedAt : (u.apply d).publishedAt = d.publishedAt := rfl
@[simp] theorem DeliveryUpdate.apply_notBeforeID : (u.apply d).notBeforeID = d.notBeforeID := rfl
end

def setWhere {α : Type} (p : α → Bool) (f : α → α) (r : α) : α := if p r then f r else r

theorem setWhere_keeps {α β : Type} {p : α → Bool} {f : α → α} (k : α → β)
    (hf : ∀ r, k (f r) = k r) (r : α) : k (setWhere p f r) = k r := by
  unfold setWhere
  split
  · exact hf r
  · rfl

section
variable (p : Delivery → Bool) {u : DeliveryUpdate} (d : Delivery)

@[simp] theorem setWhere_id : (setWhere p u.apply d).id = d.id :=
  setWhere_keeps Delivery.id u.apply_id d

@[simp] theorem setWhere_messageID : (setWhere p u.apply d).messageID = d.messageID :=
  setWhere_keeps Delivery.messageID u.apply_messageID d

@[simp] theorem setWhere_subscriptionID :
    (setWhere p u.apply d).subscriptionID = d.subscriptionID :=
  setWhere_keeps Delivery.subscriptionID u.apply_subscriptionID d

@[simp] theorem setWhere_publishedAt : (setWhere p u.apply d).publishedAt = d.publishedAt :=
  setWhere_keeps Delivery.publishedAt u.apply_publishedAt d

@[simp] theorem setWhere_notBeforeID : (setWhere p u.apply d).notBeforeID = d.notBeforeID :=
  setWhere_keeps Delivery.notBeforeID u.apply_notBeforeID d

theorem setWhere_completedAt (hu : u.completedAt = none) :
    (setWhere p u.apply d).completedAt = d.completedAt :=
  setWhere_keeps Delivery.completedAt (fun r => by simp [DeliveryUpdate.apply, hu]) d

theorem setWhere_expiresAt (hu : u.expiresAt = none) :
    (setWhere p u.apply d).expiresAt = d.expiresAt :=
  setWhere_keeps Delivery.expiresAt (fun r => by simp [DeliveryUpdate.apply, hu]) d

theorem setWhere_attempts (hu : u.addAttempts = 0) :
    (setWhere p u.apply d).attempts = d.attempts :=
  setWhere_keeps Delivery.attempts (fun r => by simp [DeliveryUpdate.apply, hu]) d

end

theorem setWhere_live {α : Type} {p : α → Bool} {f : α → α} (live : α → Prop)
    (hf : ∀ r, live (f r) → live r) (r : α) (h : live (setWhere p f r)) : live r := by
  unfold setWhere at h
  split at h
  · exact hf r h
  · exact h

theorem updateTopics_sound {t : Tables} (h : Sound t) (p : Topic → Bool) (u : TopicUpdate) :
    Sound { t with topics := t.topics.map (setWhere p u.apply) } where
  __ := h
  topic_pk := h.topic_pk.map (setWhere_keeps Topic.id u.apply_id)
  topic_name_live := h.topic_name_live.map (setWhere_keeps Topic.id u.apply_id)
    (setWhere_keeps Topic.name u.apply_name)
    (setWhere_live (fun r : Topic => r.deletedAt = none) u.apply_live)
  subscription_topic := fun s hs =>
    (h.subscription_topic s hs).map (setWhere_keeps Topic.id u.apply_id)
  subscription_deadLetterTopic := fun s hs k hk =>
    (h.subscription_deadLetterTopic s hs k hk).map (setWhere_keeps Topic.id u.apply_id)
  message_topic := fun m hm => (h.message_topic m hm).map (setWhere_keeps Topic.id u.apply_id)
  snapshot_topic := fun s hs => (h.snapshot_topic s hs).map (setWhere_keeps Topic.id u.apply_id)

def DB.updateTopics (db : DB) (p : Topic → Bool) (u : TopicUpdate) : DB :=
  ⟨{ db.toTables with topics := db.topics.map (setWhere p u.apply) },
    updateTopics_sound db.sound p u⟩

theorem updateSubscriptions_sound {t : Tables} (h : Sound t) (p : Subscription → Bool)
    (u : SubscriptionUpdate) (hd : ∀ o ∈ u.deadLetterTopicID, ∀ k ∈ o, Has Topic.id k t.topics) :
    Sound { t with subscriptions := t.subscriptions.map (setWhere p u.apply) } where
  __ := h
  subscription_pk := h.subscription_pk.map (setWhere_keeps Subscription.id u.apply_id)
  subscription_name_live := h.subscription_name_live.map
    (setWhere_keeps Subscription.id u.apply_id) (setWhere_keeps Subscription.name u.apply_name)
    (setWhere_live (fun r : Subscription => r.deletedAt = none) u.apply_live)
  subscription_topic := by
    intro s hs
    obtain ⟨r, hr, rfl⟩ := List.mem_map.mp hs
    rw [setWhere_keeps Subscription.topicID u.apply_topicID]
    exact h.subscription_topic r hr
  subscription_deadLetterTopic := by
    intro s hs k hk
    obtain ⟨r, hr, rfl⟩ := List.mem_map.mp hs
    unfold setWhere at hk
    split at hk
    · cases hu : u.deadLetterTopicID with
      | none =>
        simp only [SubscriptionUpdate.apply, hu, Option.getD_none] at hk
        exact h.subscription_deadLetterTopic r hr k hk
      | some o =>
        simp only [SubscriptionUpdate.apply, hu, Option.getD_some] at hk
        exact hd o (by simp [hu]) k hk
    · exact h.subscription_deadLetterTopic r hr k hk
  delivery_subscription := fun d hd =>
    (h.delivery_subscription d hd).map (setWhere_keeps Subscription.id u.apply_id)

/-- The check constraint on `max_delivery_attempts` and the reference to the
dead-letter topic are those of the migrations. -/
def DB.updateSubscriptions (db : DB) (p : Subscription → Bool) (u : SubscriptionUpdate) :
    Except Error DB :=
  if h : (∀ o ∈ u.deadLetterTopicID, ∀ k ∈ o, Has Topic.id k db.topics) ∧
      ∀ o ∈ u.maxDeliveryAttempts, ∀ n ∈ o, 0 ≤ n then
    .ok ⟨{ db.toTables with subscriptions := db.subscriptions.map (setWhere p u.apply) },
      updateSubscriptions_sound db.sound p u h.1⟩
  else .error .constraint

theorem DB.updateSubscriptions_ok {db db' : DB} {p : Subscription → Bool} {u : SubscriptionUpdate}
    (h : db.updateSubscriptions p u = .ok db') :
    db'.toTables = { db.toTables with
      subscriptions := db.subscriptions.map (setWhere p u.apply) } := by
  unfold DB.updateSubscriptions at h
  split at h
  · cases h
    rfl
  · cases h

theorem updateDeliveries_sound {t : Tables} (h : Sound t) (p : Delivery → Bool)
    (u : DeliveryUpdate) :
    Sound { t with deliveries := t.deliveries.map (setWhere p u.apply) } where
  __ := h
  delivery_pk := h.delivery_pk.map (setWhere_keeps Delivery.id u.apply_id)
  delivery_message := by
    intro d hd
    obtain ⟨r, hr, rfl⟩ := List.mem_map.mp hd
    rw [setWhere_keeps Delivery.messageID u.apply_messageID]
    exact h.delivery_message r hr
  delivery_subscription := by
    intro d hd
    obtain ⟨r, hr, rfl⟩ := List.mem_map.mp hd
    rw [setWhere_keeps Delivery.subscriptionID u.apply_subscriptionID]
    exact h.delivery_subscription r hr
  delivery_notBefore := by
    intro d hd k hk
    obtain ⟨r, hr, rfl⟩ := List.mem_map.mp hd
    rw [setWhere_keeps Delivery.notBeforeID u.apply_notBeforeID] at hk
    exact (h.delivery_notBefore r hr k hk).map (setWhere_keeps Delivery.id u.apply_id)

def DB.updateDeliveries (db : DB) (p : Delivery → Bool) (u : DeliveryUpdate) : DB :=
  ⟨{ db.toTables with deliveries := db.deliveries.map (setWhere p u.apply) },
    updateDeliveries_sound db.sound p u⟩

theorem DB.mem_updateDeliveries {db : DB} {p : Delivery → Bool} {u : DeliveryUpdate}
    {x : Delivery} :
    x ∈ (db.updateDeliveries p u).deliveries ↔ ∃ r ∈ db.deliveries, setWhere p u.apply r = x :=
  List.mem_map

theorem DB.updateDeliveries_row {db : DB} (p : Delivery → Bool) (u : DeliveryUpdate) {r : Delivery}
    (h : r ∈ db.deliveries) : setWhere p u.apply r ∈ (db.updateDeliveries p u).deliveries :=
  DB.mem_updateDeliveries.mpr ⟨r, h, rfl⟩

theorem DB.updateDeliveries_hit {db : DB} {p : Delivery → Bool} {u : DeliveryUpdate} {r : Delivery}
    (h : r ∈ db.deliveries) (hp : p r = true) :
    u.apply r ∈ (db.updateDeliveries p u).deliveries :=
  DB.mem_updateDeliveries.mpr ⟨r, h, by simp [setWhere, hp]⟩

theorem DB.updateDeliveries_miss {db : DB} {p : Delivery → Bool} {u : DeliveryUpdate}
    {r : Delivery} (h : r ∈ db.deliveries) (hp : p r = false) :
    r ∈ (db.updateDeliveries p u).deliveries :=
  DB.mem_updateDeliveries.mpr ⟨r, h, by simp [setWhere, hp]⟩

def Subscription.forgetTopics (gone : List UUID) (s : Subscription) : Subscription :=
  { s with deadLetterTopicID := s.deadLetterTopicID.filter (fun k => decide (k ∉ gone)) }

theorem deleteTopics_sound {t : Tables} (h : Sound t) (p : Topic → Bool)
    (hs : ∀ s ∈ t.subscriptions, ∀ r ∈ t.topics, r.id = s.topicID → p r = false)
    (hm : ∀ m ∈ t.messages, ∀ r ∈ t.topics, r.id = m.topicID → p r = false)
    (hn : ∀ s ∈ t.snapshots, ∀ r ∈ t.topics, r.id = s.topicID → p r = false) :
    Sound { t with
      topics := t.topics.filter (fun r => !p r)
      subscriptions := t.subscriptions.map
        (Subscription.forgetTopics ((t.topics.filter p).map Topic.id)) } where
  __ := h
  topic_pk := h.topic_pk.filter _
  subscription_pk := h.subscription_pk.map (fun _ => rfl)
  topic_name_live := h.topic_name_live.filter _
  subscription_name_live := h.subscription_name_live.map (fun _ => rfl) (fun _ => rfl)
    (fun _ hl => hl)
  subscription_topic := by
    intro x hx
    obtain ⟨s, hm, rfl⟩ := List.mem_map.mp hx
    exact (h.subscription_topic s hm).filter
      (fun r hr hk => by simpa using hs s hm r hr hk)
  subscription_deadLetterTopic := by
    intro x hx k hk
    obtain ⟨s, hm, rfl⟩ := List.mem_map.mp hx
    obtain ⟨hk, hgone⟩ : k ∈ s.deadLetterTopicID ∧ k ∉ (t.topics.filter p).map Topic.id := by
      simpa [Subscription.forgetTopics, Option.filter_eq_some_iff] using hk
    refine (h.subscription_deadLetterTopic s hm k hk).filter (fun r hr hid => ?_)
    by_contra hp
    exact hgone (List.mem_map.mpr ⟨r, List.mem_filter.mpr ⟨hr, by simpa using hp⟩, hid⟩)
  message_topic := fun m hm' => (h.message_topic m hm').filter
    (fun r hr hk => by simpa using hm m hm' r hr hk)
  delivery_subscription := fun d hd => (h.delivery_subscription d hd).map (fun _ => rfl)
  snapshot_topic := fun s hs' => (h.snapshot_topic s hs').filter
    (fun r hr hk => by simpa using hn s hs' r hr hk)

def DB.deleteTopics (db : DB) (p : Topic → Bool) : Except Error DB :=
  if h : (∀ s ∈ db.subscriptions, ∀ r ∈ db.topics, r.id = s.topicID → p r = false) ∧
      (∀ m ∈ db.messages, ∀ r ∈ db.topics, r.id = m.topicID → p r = false) ∧
      ∀ s ∈ db.snapshots, ∀ r ∈ db.topics, r.id = s.topicID → p r = false then
    .ok ⟨_, deleteTopics_sound db.sound p h.1 h.2.1 h.2.2⟩
  else .error .constraint

theorem deleteSubscriptions_sound {t : Tables} (h : Sound t) (p : Subscription → Bool)
    (hd : ∀ d ∈ t.deliveries, ∀ r ∈ t.subscriptions, r.id = d.subscriptionID → p r = false) :
    Sound { t with subscriptions := t.subscriptions.filter (fun r => !p r) } where
  __ := h
  subscription_pk := h.subscription_pk.filter _
  subscription_name_live := h.subscription_name_live.filter _
  subscription_topic := fun s hs => h.subscription_topic s (List.mem_of_mem_filter hs)
  subscription_deadLetterTopic := fun s hs =>
    h.subscription_deadLetterTopic s (List.mem_of_mem_filter hs)
  delivery_subscription := fun d hd' => (h.delivery_subscription d hd').filter
    (fun r hr hk => by simpa using hd d hd' r hr hk)

def DB.deleteSubscriptions (db : DB) (p : Subscription → Bool) : Except Error DB :=
  if h : ∀ d ∈ db.deliveries, ∀ r ∈ db.subscriptions, r.id = d.subscriptionID → p r = false then
    .ok ⟨_, deleteSubscriptions_sound db.sound p h⟩
  else .error .constraint

theorem deleteMessages_sound {t : Tables} (h : Sound t) (p : Message → Bool)
    (hd : ∀ d ∈ t.deliveries, ∀ r ∈ t.messages, r.id = d.messageID → p r = false) :
    Sound { t with messages := t.messages.filter (fun r => !p r) } where
  __ := h
  message_pk := h.message_pk.filter _
  message_topic := fun m hm => h.message_topic m (List.mem_of_mem_filter hm)
  delivery_message := fun d hd' => (h.delivery_message d hd').filter
    (fun r hr hk => by simpa using hd d hd' r hr hk)

def DB.deleteMessages (db : DB) (p : Message → Bool) : Except Error DB :=
  if h : ∀ d ∈ db.deliveries, ∀ r ∈ db.messages, r.id = d.messageID → p r = false then
    .ok ⟨_, deleteMessages_sound db.sound p h⟩
  else .error .constraint

theorem DB.deleteTopics_ok {db db' : DB} {p : Topic → Bool} (h : db.deleteTopics p = .ok db') :
    db'.toTables = { db.toTables with
      topics := db.topics.filter (fun r => !p r)
      subscriptions := db.subscriptions.map
        (Subscription.forgetTopics ((db.topics.filter p).map Topic.id)) } := by
  unfold DB.deleteTopics at h
  split at h
  · cases h
    rfl
  · cases h

theorem DB.deleteSubscriptions_ok {db db' : DB} {p : Subscription → Bool}
    (h : db.deleteSubscriptions p = .ok db') :
    db'.toTables = { db.toTables with
      subscriptions := db.subscriptions.filter (fun r => !p r) } := by
  unfold DB.deleteSubscriptions at h
  split at h
  · cases h
    rfl
  · cases h

theorem DB.deleteMessages_ok {db db' : DB} {p : Message → Bool}
    (h : db.deleteMessages p = .ok db') :
    (∀ d ∈ db.deliveries, ∀ r ∈ db.messages, r.id = d.messageID → p r = false) ∧
      db'.toTables = { db.toTables with messages := db.messages.filter (fun r => !p r) } := by
  unfold DB.deleteMessages at h
  split at h
  · rename_i hc
    cases h
    exact ⟨hc, rfl⟩
  · cases h

def Delivery.forget (gone : List UUID) (d : Delivery) : Delivery :=
  { d with notBeforeID := d.notBeforeID.filter (fun k => decide (k ∉ gone)) }

theorem Delivery.forget_id (gone : List UUID) (d : Delivery) : (Delivery.forget gone d).id = d.id :=
  rfl

theorem Delivery.forget_notBefore {gone : List UUID} {d : Delivery} {k : UUID} :
    (Delivery.forget gone d).notBeforeID = some k ↔ d.notBeforeID = some k ∧ k ∉ gone := by
  simp [Delivery.forget, Option.filter_eq_some_iff]

def deliveriesWithout (p : Delivery → Bool) (rows : List Delivery) : List Delivery :=
  (rows.filter (fun r => !p r)).map (Delivery.forget ((rows.filter p).map Delivery.id))

theorem mem_deliveriesWithout {p : Delivery → Bool} {rows : List Delivery} {d : Delivery} :
    d ∈ deliveriesWithout p rows ↔
      ∃ r ∈ rows, p r = false ∧ Delivery.forget ((rows.filter p).map Delivery.id) r = d := by
  simp [deliveriesWithout, and_assoc]

theorem deleteDeliveries_sound {t : Tables} (h : Sound t) (p : Delivery → Bool) :
    Sound { t with deliveries := deliveriesWithout p t.deliveries } where
  __ := h
  delivery_pk := (h.delivery_pk.filter _).map (fun _ => rfl)
  delivery_message := by
    intro d hd
    obtain ⟨r, hr, -, rfl⟩ := mem_deliveriesWithout.mp hd
    exact h.delivery_message r hr
  delivery_subscription := by
    intro d hd
    obtain ⟨r, hr, -, rfl⟩ := mem_deliveriesWithout.mp hd
    exact h.delivery_subscription r hr
  delivery_notBefore := by
    intro d hd k hk
    obtain ⟨r, hr, -, rfl⟩ := mem_deliveriesWithout.mp hd
    obtain ⟨hk, hgone⟩ := Delivery.forget_notBefore.mp hk
    refine ((h.delivery_notBefore r hr k hk).filter (fun x hx hid => ?_)).map (fun _ => rfl)
    by_contra hp
    exact hgone (List.mem_map.mpr ⟨x, List.mem_filter.mpr ⟨hx, by simpa using hp⟩, hid⟩)

def DB.deleteDeliveries (db : DB) (p : Delivery → Bool) : DB :=
  ⟨{ db.toTables with deliveries := deliveriesWithout p db.deliveries },
    deleteDeliveries_sound db.sound p⟩

theorem deleteSnapshots_sound {t : Tables} (h : Sound t) (p : Snapshot → Bool) :
    Sound { t with snapshots := t.snapshots.filter (fun r => !p r) } where
  __ := h
  snapshot_pk := h.snapshot_pk.filter _
  snapshot_name := h.snapshot_name.filter _
  snapshot_topic := fun s hs => h.snapshot_topic s (List.mem_of_mem_filter hs)

def DB.deleteSnapshots (db : DB) (p : Snapshot → Bool) : DB :=
  ⟨{ db.toTables with snapshots := db.snapshots.filter (fun r => !p r) },
    deleteSnapshots_sound db.sound p⟩

end Mmmbbb.Database
