import Mmmbbb.KeyedRows

/-!
# The entities of the bus

Topics, subscriptions, messages, deliveries and snapshots, with the columns
that the actions read or write. The `live` column of topics and subscriptions
is non-null exactly while `deleted_at` is null, so it is not kept apart.
-/

set_option autoImplicit false

namespace Mmmbbb.Schema

abbrev UUID := ℕ

/-- Instants and durations are nanoseconds; both may be negative. -/
abbrev Time := ℤ
abbrev Duration := ℤ

def second : Duration := 1000000000
def minute : Duration := 60 * second
def hour : Duration := 60 * minute

abbrev Labels := List (String × String)

structure Topic where
  id : UUID
  name : String
  deletedAt : Option Time
  labels : Labels
  deriving DecidableEq, Repr

structure Subscription where
  id : UUID
  topicID : UUID
  name : String
  expiresAt : Time
  deletedAt : Option Time
  ttl : Duration
  messageTTL : Duration
  orderedDelivery : Bool
  labels : Labels
  minBackoff : Option Duration
  maxBackoff : Option Duration
  pushEndpoint : Option String
  messageFilter : Option String
  maxDeliveryAttempts : Option ℤ
  deadLetterTopicID : Option UUID
  deliveryDelay : Duration
  deriving DecidableEq, Repr

structure Message where
  id : UUID
  topicID : UUID
  payload : List UInt8
  attributes : List (String × String)
  publishedAt : Time
  orderKey : Option String
  deriving DecidableEq, Repr

structure Delivery where
  id : UUID
  messageID : UUID
  subscriptionID : UUID
  publishedAt : Time
  attemptAt : Time
  lastAttemptedAt : Option Time
  attempts : ℕ
  completedAt : Option Time
  expiresAt : Time
  notBeforeID : Option UUID
  deriving DecidableEq, Repr

structure Snapshot where
  id : UUID
  topicID : UUID
  name : String
  createdAt : Time
  expiresAt : Time
  labels : Labels
  ackedMessagesBefore : Time
  ackedMessageIDs : List UUID
  deriving DecidableEq, Repr

/-- `HasFullDeadLetterConfig`, together with the limit and the topic that a
full configuration has. -/
def Subscription.deadLetterConfig (s : Subscription) : Option (ℤ × UUID) :=
  match s.maxDeliveryAttempts, s.deadLetterTopicID with
  | some n, some t => if 0 < n then some (n, t) else none
  | _, _ => none

theorem Subscription.deadLetterConfig_eq {s : Subscription} {n : ℤ} {t : UUID} :
    s.deadLetterConfig = some (n, t) ↔
      s.maxDeliveryAttempts = some n ∧ s.deadLetterTopicID = some t ∧ 0 < n := by
  unfold Subscription.deadLetterConfig
  split <;> simp_all
  constructor
  · rintro ⟨h, rfl, rfl⟩
    exact ⟨rfl, rfl, h⟩
  · rintro ⟨rfl, rfl, h⟩
    exact ⟨h, rfl, rfl⟩

/-- The row without its expiration, which every get moves. -/
def Subscription.settled (s : Subscription) : Subscription := { s with expiresAt := 0 }

theorem Subscription.settled_eq {s r : Subscription} (h : r.settled = s.settled) {β : Type}
    (k : Subscription → β) (hk : ∀ x, k x.settled = k x) : k r = k s := by
  rw [← hk r, h, hk]

def Subscription.deadLetterTopicFor (s : Subscription) (d : Delivery) : Option UUID :=
  match s.deadLetterConfig with
  | some (maxDeliveryAttempts, deadLetterTopicID) =>
    if maxDeliveryAttempts ≤ d.attempts then some deadLetterTopicID else none
  | none => none

theorem Subscription.deadLetterTopicFor_some {s : Subscription} {d : Delivery} {t : UUID} :
    s.deadLetterTopicFor d = some t ↔
      ∃ n, s.deadLetterConfig = some (n, t) ∧ n ≤ (d.attempts : ℤ) := by
  unfold Subscription.deadLetterTopicFor
  split
  · rename_i n t' hc
    simp only [hc]
    split <;> grind
  · rename_i hc
    simp [hc]

theorem Subscription.deadLetterTopicFor_attempts {s : Subscription} {d : Delivery} {t : UUID}
    (h : s.deadLetterTopicFor d = some t) : 0 < d.attempts := by
  obtain ⟨n, hc, hn⟩ := Subscription.deadLetterTopicFor_some.mp h
  obtain ⟨-, -, hpos⟩ := Subscription.deadLetterConfig_eq.mp hc
  omega

def Delivery.Outstanding (now : Time) (d : Delivery) : Prop :=
  d.completedAt = none ∧ now < d.expiresAt

instance (now : Time) (d : Delivery) : Decidable (d.Outstanding now) :=
  inferInstanceAs (Decidable (_ ∧ _))

def Message.Keyed (m : Message) : Prop := ∃ k, m.orderKey = some k ∧ k ≠ ""

instance (m : Message) : Decidable m.Keyed :=
  match h : m.orderKey with
  | none => isFalse (by simp [Message.Keyed, h])
  | some k => decidable_of_iff (k ≠ "") (by simp [Message.Keyed, h])

structure Tables where
  topics : List Topic
  subscriptions : List Subscription
  messages : List Message
  deliveries : List Delivery
  snapshots : List Snapshot

end Mmmbbb.Schema
