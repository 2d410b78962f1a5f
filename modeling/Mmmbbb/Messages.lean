import Mmmbbb.Listing

/-!
# The messages of the API

What clients send and receive. A sub-message may be absent, a duration or an
instant comes as seconds and nanoseconds of fixed width, and the rows of the
database are rendered for the responses.
-/

set_option autoImplicit false

namespace Mmmbbb.Messages
open Mmmbbb.Schema Mmmbbb.Delivering Mmmbbb.Consuming Mmmbbb.Administering Mmmbbb.Runs
open Mmmbbb.Listing

structure PbDuration where
  seconds : Int64
  nanos : Int32
  deriving DecidableEq

/-- The sum in 64 bits, or the nearest bound where it does not fit. -/
def PbDuration.asDuration (x : PbDuration) : ℤ :=
  let secs := x.seconds
  let d := secs * 1000000000
  let overflow := decide (d / 1000000000 ≠ secs)
  let d := d + x.nanos.toInt64
  let overflow := overflow || (decide (secs < 0) && decide (x.nanos < 0) && decide (0 < d))
  let overflow := overflow || (decide (0 < secs) && decide (0 < x.nanos) && decide (d < 0))
  if overflow && decide (secs < 0) then Int64.minValue.toInt
  else if overflow && decide (0 < secs) then Int64.maxValue.toInt
  else d.toInt

def asDuration (x : Option PbDuration) : Duration := (x.getD ⟨0, 0⟩).asDuration

def durationpbNew (d : Duration) : PbDuration :=
  ⟨Int64.ofInt (d.tdiv second), Int32.ofInt (d.tmod second)⟩

structure PbTimestamp where
  seconds : Int64
  nanos : Int32
  deriving DecidableEq

def unixToInternal : Int64 := 62135596800

/-- `time.Unix`, which keeps the seconds since the year 1 in 64 bits. -/
def PbTimestamp.asTime (x : PbTimestamp) : ℤ :=
  let sec := x.seconds + Int64.ofInt (x.nanos.toInt / 1000000000)
  let ext := sec + unixToInternal
  (ext.toInt - unixToInternal.toInt) * 1000000000 + x.nanos.toInt % 1000000000

def asTime (x : Option PbTimestamp) : Time := (x.getD ⟨0, 0⟩).asTime

def timestamppbNew (t : Time) : PbTimestamp :=
  ⟨Int64.ofInt (t / second), Int32.ofInt (t % second)⟩

theorem bmod_wrap (x : ℤ) :
    ∃ k, x.bmod (2 ^ 64) = x + k * 2 ^ 64 ∧ -2 ^ 63 ≤ x.bmod (2 ^ 64) ∧
      x.bmod (2 ^ 64) < 2 ^ 63 := by
  rw [Int.bmod_def]
  have hdiv := Int.emod_def x ((2 ^ 64 : ℕ) : ℤ)
  split
  · refine ⟨-(x / (2 ^ 64 : ℕ)), ?_⟩
    omega
  · refine ⟨-(x / (2 ^ 64 : ℕ)) - 1, ?_⟩
    omega

theorem tdiv_near {x q : ℤ} (h : x.tdiv 1000000000 = q) :
    q * 1000000000 - 1000000000 < x ∧ x < q * 1000000000 + 1000000000 := by
  have hsum := Int.mul_tdiv_add_tmod x 1000000000
  have hlt := Int.tmod_lt_of_pos x (show (0 : ℤ) < 1000000000 by norm_num)
  have hgt := Int.lt_tmod_of_pos x (show (0 : ℤ) < 1000000000 by norm_num)
  omega

section
variable (secs : Int64)

theorem product_wrap :
    ∃ k, (secs * 1000000000).toInt = secs.toInt * 1000000000 + k * 2 ^ 64 := by
  rw [Int64.toInt_mul, show (1000000000 : Int64).toInt = 1000000000 from rfl]
  obtain ⟨k, hk, -⟩ := bmod_wrap (secs.toInt * 1000000000)
  exact ⟨k, hk⟩

theorem quotient_exact (d : Int64) : (d / 1000000000).toInt = d.toInt.tdiv 1000000000 := by
  rw [Int64.toInt_div, show (1000000000 : Int64).toInt = 1000000000 from rfl]
  have hnear := tdiv_near (x := d.toInt) rfl
  have hlt := d.toInt_lt
  have hge := d.le_toInt
  apply Int.bmod_eq_of_le
  · norm_num
    omega
  · norm_num
    omega

theorem overflow_iff : secs * 1000000000 / 1000000000 ≠ secs ↔
    (secs * 1000000000).toInt ≠ secs.toInt * 1000000000 := by
  rw [Ne, Ne, ← Int64.toInt_inj, quotient_exact]
  obtain ⟨k, hk⟩ := product_wrap secs
  constructor
  · intro hne heq
    rw [heq, Int.mul_tdiv_cancel _ (by norm_num)] at hne
    exact hne rfl
  · intro hne heq
    have hnear := tdiv_near heq
    have hzero : k = 0 := by omega
    rw [hzero] at hk
    exact hne (by omega)

end

theorem PbDuration.asDuration_neg (x : PbDuration) :
    x.asDuration < 0 ↔ x.seconds.toInt * 1000000000 + x.nanos.toInt < 0 := by
  have hs := x.seconds.toInt_lt
  have hs' := x.seconds.le_toInt
  have hn := x.nanos.toInt_lt
  have hn' := x.nanos.le_toInt
  obtain ⟨k, hk, hrange⟩ := bmod_wrap ((x.seconds * 1000000000).toInt + x.nanos.toInt)
  obtain ⟨j, hj⟩ := product_wrap x.seconds
  have hprod := (x.seconds * 1000000000).toInt_lt
  have hprod' := (x.seconds * 1000000000).le_toInt
  have hsum : (x.seconds * 1000000000 + x.nanos.toInt64).toInt =
      (x.seconds * 1000000000).toInt + x.nanos.toInt + k * 2 ^ 64 := by
    rw [Int64.toInt_add, Int32.toInt_toInt64, hk]
  have hmin : Int64.minValue.toInt = -2 ^ 63 := rfl
  have hmax : Int64.maxValue.toInt = 2 ^ 63 - 1 := rfl
  have hzero : (0 : Int64).toInt = 0 := rfl
  have hzero' : (0 : Int32).toInt = 0 := rfl
  simp only [PbDuration.asDuration, Bool.and_eq_true, Bool.or_eq_true, decide_eq_true_eq,
    overflow_iff, Int64.lt_iff_toInt_lt, Int32.lt_iff_toInt_lt, hsum, hzero, hzero']
  rw [hk] at hrange
  split
  · rw [hmin]
    omega
  · split
    · rw [hmax]
      omega
    · have hno : k = 0 := by omega
      omega

theorem asDuration_neg (x : Option PbDuration) :
    asDuration x < 0 ↔ ∃ d, x = some d ∧ d.seconds.toInt * 1000000000 + d.nanos.toInt < 0 := by
  cases x with
  | none =>
    have hnone : asDuration none = 0 := rfl
    simp [hnone]
  | some d => simp [asDuration, PbDuration.asDuration_neg]

theorem PbTimestamp.asTime_zero (x : PbTimestamp) :
    x.asTime = zeroTime ↔ x.seconds.toInt * 1000000000 + x.nanos.toInt = zeroTime := by
  have hs := x.seconds.toInt_lt
  have hs' := x.seconds.le_toInt
  have hn := x.nanos.toInt_lt
  have hn' := x.nanos.le_toInt
  have hzero : zeroTime = (-62135596800000000000 : ℤ) := rfl
  have hunix : unixToInternal.toInt = 62135596800 := rfl
  have hcarry : (Int64.ofInt (x.nanos.toInt / 1000000000)).toInt = x.nanos.toInt / 1000000000 :=
    Int64.toInt_ofInt_of_le (by omega) (by omega)
  obtain ⟨k, hk, hrange⟩ := bmod_wrap (x.seconds.toInt + x.nanos.toInt / 1000000000)
  obtain ⟨l, hl, hrange'⟩ := bmod_wrap
    (x.seconds.toInt + x.nanos.toInt / 1000000000 + k * 2 ^ 64 + 62135596800)
  rw [hk] at hrange
  rw [hl] at hrange'
  have hext : x.seconds.toInt + x.nanos.toInt / 1000000000 + k * 2 ^ 64 + 62135596800 +
      l * 2 ^ 64 = 0 ↔ x.seconds.toInt + x.nanos.toInt / 1000000000 = -62135596800 := by
    have hkl : x.seconds.toInt + x.nanos.toInt / 1000000000 + 62135596800 < 2 ^ 64 := by omega
    have hkl' : -2 ^ 64 < x.seconds.toInt + x.nanos.toInt / 1000000000 + 62135596800 := by omega
    constructor
    · intro h
      have hzero : k + l = 0 := by omega
      omega
    · intro h
      have hzero : k + l = 0 := by omega
      omega
  simp only [PbTimestamp.asTime, hzero, hunix, Int64.toInt_add, hcarry, hk, hl]
  constructor
  · intro h
    have hwhole := hext.mp (by omega)
    omega
  · intro h
    have hwhole := hext.mpr (by omega)
    omega

theorem asTime_zero (x : Option PbTimestamp) :
    asTime x = zeroTime ↔
      ∃ t, x = some t ∧ t.seconds.toInt * 1000000000 + t.nanos.toInt = zeroTime := by
  cases x with
  | none =>
    have hnone : asTime none ≠ zeroTime := by decide +kernel
    simp [hnone]
  | some t => simp [asTime, PbTimestamp.asTime_zero]

structure PbTopic where
  name : String
  labels : Labels
  hasMessageStoragePolicy : Bool
  kmsKeyName : String
  hasSchemaSettings : Bool
  satisfiesPzs : Bool
  deriving DecidableEq

inductive Wrapper
  | pubsubWrapper
  | noWrapper
  deriving DecidableEq

structure PbPushConfig extends PushConfig where
  wrapper : Option Wrapper

structure PbDeadLetterPolicy where
  deadLetterTopic : String
  maxDeliveryAttempts : Int32
  deriving DecidableEq

structure PbRetryPolicy where
  minimumBackoff : Option PbDuration
  maximumBackoff : Option PbDuration
  deriving DecidableEq

structure PbExpirationPolicy where
  ttl : Option PbDuration
  deriving DecidableEq

structure PbSubscription where
  name : String
  topic : String
  pushConfig : Option PbPushConfig
  ackDeadlineSeconds : Int32
  retainAckedMessages : Bool
  messageRetentionDuration : Option PbDuration
  labels : Labels
  enableMessageOrdering : Bool
  expirationPolicy : Option PbExpirationPolicy
  filter : String
  deadLetterPolicy : Option PbDeadLetterPolicy
  retryPolicy : Option PbRetryPolicy
  detached : Bool

structure PbSnapshot where
  name : String
  topic : String
  expireTime : Option PbTimestamp
  labels : Labels
  deriving DecidableEq

structure PbPubsubMessage where
  data : List UInt8
  attributes : List (String × String)
  messageId : String
  publishTime : Option PbTimestamp
  orderingKey : String
  deriving DecidableEq

structure PbReceivedMessage where
  ackId : String
  message : PbPubsubMessage
  deliveryAttempt : Int32
  deriving DecidableEq

def deletedTopicName : String := "_deleted-topic_"

def entTopicToGrpc (t : Topic) : PbTopic where
  name := t.name
  labels := t.labels
  hasMessageStoragePolicy := false
  kmsKeyName := ""
  hasSchemaSettings := false
  satisfiesPzs := false

def edgeName (edge : Option Topic) (known : String) : String :=
  match edge with
  | some t => if t.deletedAt.isSome then deletedTopicName else t.name
  | none => known

/-- A row with the two topics that may have been loaded with it, and the names
to use where they have not been. -/
def entSubscriptionToGrpc (s : Subscription) (topic deadLetterTopic : Option Topic)
    (topicName deadLetterTopicName : String) : PbSubscription where
  name := s.name
  topic := edgeName topic topicName
  pushConfig := s.pushEndpoint.map (fun e => ⟨⟨e, [], false⟩, none⟩)
  -- the first retry delay stands for the deadline
  ackDeadlineSeconds := Int32.ofInt ((nextDelayFor s 0).1.tdiv second)
  retainAckedMessages := false
  messageRetentionDuration := some (durationpbNew s.messageTTL)
  labels := s.labels
  enableMessageOrdering := s.orderedDelivery
  expirationPolicy := some ⟨some (durationpbNew s.ttl)⟩
  filter := s.messageFilter.getD ""
  deadLetterPolicy := s.deadLetterTopicID.map (fun _ =>
    ⟨edgeName deadLetterTopic deadLetterTopicName,
      (s.maxDeliveryAttempts.map Int32.ofInt).getD 0⟩)
  retryPolicy :=
    if s.minBackoff.isSome || s.maxBackoff.isSome then
      some ⟨s.minBackoff.map durationpbNew, s.maxBackoff.map durationpbNew⟩
    else none
  detached := false

def entSnapshotToGrpc (s : Snapshot) (topic : Option Topic) (topicName : String) : PbSnapshot where
  name := s.name
  topic := edgeName topic topicName
  expireTime := some (timestamppbNew s.expiresAt)
  labels := s.labels

def entDeliveryToGrpc (text : UUIDText) (d : SubscriptionMessageDelivery) :
    PbReceivedMessage where
  ackId := text.string d.id
  message := {
    data := d.payload
    attributes := d.attributes
    messageId := text.string d.messageID
    publishTime := some (timestamppbNew d.publishedAt)
    orderingKey := d.orderKey.getD "" }
  deliveryAttempt := Int32.ofInt d.numAttempts

end Mmmbbb.Messages
