import Mmmbbb.Consuming

/-!
# Snapshots and seeks

A snapshot holds an instant before which everything was acknowledged and the
messages after it that were. A seek rewrites the completion of the deliveries
of one subscription, to an instant or to a snapshot.
-/

set_option autoImplicit false

namespace Mmmbbb.Seeking
open KeyedRows Programs Mmmbbb.Schema Mmmbbb.Database Mmmbbb.Delivering Mmmbbb.Consuming

structure SeekResults where
  numAcked : ℕ
  numDeAcked : ℕ
  deriving DecidableEq, Repr

def updateCounting (p : Delivery → Bool) (u : DeliveryUpdate) (db : DB) : ℕ × DB :=
  ((db.deliveries.filter p).length, db.updateDeliveries p u)

def ackAll (env : Env) : DeliveryUpdate := { completedAt := some (some env.now) }

def deAckAll (env : Env) (sub : Subscription) : DeliveryUpdate where
  completedAt := some none
  expiresAt := some (env.now + sub.messageTTL)
  attemptAt := some env.now

def wakeIfSeeked (sub : Subscription) (numAcked numDeAcked : ℕ) (tx : Tx) : Tx :=
  if numAcked ≠ 0 ∨ numDeAcked ≠ 0 then tx.hook (.wakePublishListeners false [sub.id]) else tx

@[simp] theorem wakeIfSeeked_db (sub : Subscription) (numAcked numDeAcked : ℕ) (tx : Tx) :
    (wakeIfSeeked sub numAcked numDeAcked tx).db = tx.db := by
  unfold wakeIfSeeked
  split <;> rfl

structure SeekSubscriptionToTimeParams where
  name : String
  id : Option UUID
  time : Time

def seekTimeAcks (env : Env) (sub : Subscription) (time : Time) (d : Delivery) : Bool :=
  decide (d.subscriptionID = sub.id) && decide (env.now ≤ d.expiresAt) &&
    decide (d.publishedAt ≤ time) && d.completedAt.isNone

def seekTimeDeAcks (env : Env) (sub : Subscription) (time : Time) (d : Delivery) : Bool :=
  decide (d.subscriptionID = sub.id) && decide (env.now ≤ d.expiresAt) &&
    decide (time < d.publishedAt) && d.completedAt.isSome

def seekSubscriptionToTime (env : Env) (p : SeekSubscriptionToTimeParams) (tx : Tx) :
    Except Error (SeekResults × Tx) := do
  let sub ← only (subMatch p.name p.id) tx.db.subscriptions
  let (numAcked, db) := updateCounting (seekTimeAcks env sub p.time) (ackAll env) tx.db
  let (numDeAcked, db) := updateCounting (seekTimeDeAcks env sub p.time) (deAckAll env sub) db
  pure (⟨numAcked, numDeAcked⟩, wakeIfSeeked sub numAcked numDeAcked { tx with db := db })

structure SeekSubscriptionToSnapshotParams where
  subscriptionName : String
  subscriptionID : Option UUID
  snapshotName : String
  snapshotID : Option UUID

def seekSnapshotAcksBefore (env : Env) (sub : Subscription) (snap : Snapshot) (d : Delivery) :
    Bool :=
  decide (d.subscriptionID = sub.id) && decide (env.now ≤ d.expiresAt) &&
    decide (d.publishedAt < snap.ackedMessagesBefore) && d.completedAt.isNone

/-- With an empty list the source skips the statement; it would match nothing. -/
def seekSnapshotAcksListed (env : Env) (sub : Subscription) (snap : Snapshot) (d : Delivery) :
    Bool :=
  decide (d.subscriptionID = sub.id) && decide (env.now ≤ d.expiresAt) &&
    decide (d.messageID ∈ snap.ackedMessageIDs) && d.completedAt.isNone

/-- Unlike the other updates of a seek, this one takes expired deliveries too. -/
def seekSnapshotDeAcks (sub : Subscription) (snap : Snapshot) (d : Delivery) : Bool :=
  decide (d.subscriptionID = sub.id) && decide (snap.ackedMessagesBefore ≤ d.publishedAt) &&
    decide (d.messageID ∉ snap.ackedMessageIDs) && d.completedAt.isSome

def snapMatch (name : String) (id : Option UUID) (s : Snapshot) : Bool :=
  idMatches id s.id && nameMatches name s.name

def seekSubscriptionToSnapshot (env : Env) (p : SeekSubscriptionToSnapshotParams) (tx : Tx) :
    Except Error (SeekResults × Tx) := do
  let sub ← only (subMatch p.subscriptionName p.subscriptionID) tx.db.subscriptions
  let snap ← only (snapMatch p.snapshotName p.snapshotID) tx.db.snapshots
  let (before, db) := updateCounting (seekSnapshotAcksBefore env sub snap) (ackAll env) tx.db
  let (listed, db) := updateCounting (seekSnapshotAcksListed env sub snap) (ackAll env) db
  let (numDeAcked, db) := updateCounting (seekSnapshotDeAcks sub snap) (deAckAll env sub) db
  pure (⟨before + listed, numDeAcked⟩,
    wakeIfSeeked sub (before + listed) numDeAcked { tx with db := db })

structure CreateSnapshotParams where
  subscriptionName : String
  name : String
  labels : Labels

structure CreateSnapshotResults where
  topicID : UUID
  topicName : String
  subscriptionID : UUID
  snapshot : Snapshot
  deriving DecidableEq, Repr

def defaultSnapshotTTL : Duration := 7 * 24 * hour

def oldestUnAcked (env : Env) (t : Tables) (sub : Subscription) : Option Delivery :=
  (orderBy Delivery.publishedAt (env.deliveries.run (t.deliveries.filter (fun d =>
    decide (d.subscriptionID = sub.id) && d.completedAt.isNone &&
      decide (env.now < d.expiresAt))))).head?

/-- The messages of the topic since an instant, joined with their deliveries.
The `WHERE` on the joined table keeps only the deliveries of `sub`, so a
message without one is not found, whatever the outer join is for. -/
def ackedIDs (env : Env) (t : Tables) (sub : Subscription) (since : Time) : List UUID :=
  (env.messages.run (t.messages.filter (fun m =>
    decide (m.topicID = sub.topicID) && decide (since ≤ m.publishedAt)))).flatMap (fun m =>
      (env.deliveries.run (t.deliveries.filter (fun d => decide (d.messageID = m.id) &&
        decide (d.subscriptionID = sub.id) && d.completedAt.isSome))).map (fun _ => m.id))

def createSnapshot (env : Env) (p : CreateSnapshotParams) (tx : Tx) :
    Except Error (CreateSnapshotResults × Tx) := do
  failWhen (tx.db.snapshots.any (fun s => decide (s.name = p.name))) .errExists
  let sub ← only (fun s : Subscription => decide (s.name = p.subscriptionName) &&
    s.deletedAt.isNone) tx.db.subscriptions
  let acked : Time × List UUID :=
    match oldestUnAcked env tx.db.toTables sub with
    | none => (env.now, [])
    | some oldest => (oldest.publishedAt, ackedIDs env tx.db.toTables sub oldest.publishedAt)
  let snap : Snapshot := {
    id := env.uuid tx.drawn
    topicID := sub.topicID
    name := p.name
    createdAt := env.now
    expiresAt := env.now + defaultSnapshotTTL
    labels := p.labels
    ackedMessagesBefore := acked.1
    ackedMessageIDs := acked.2 }
  let db ← tx.db.insertSnapshot snap
  let topic ← (fetch Topic.id sub.topicID db.topics).elim (.error .panic) .ok
  pure (⟨sub.topicID, topic.name, sub.id, snap⟩, { tx with db := db, drawn := tx.drawn + 1 })

def deleteSnapshot (name : String) (tx : Tx) : Except Error Tx :=
  if tx.db.snapshots.any (fun s => decide (s.name = name)) then
    .ok { tx with db := tx.db.deleteSnapshots (fun s => decide (s.name = name)) }
  else .error .errNotFound

end Mmmbbb.Seeking
