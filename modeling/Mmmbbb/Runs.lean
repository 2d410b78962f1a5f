import Mmmbbb.Seeking
import Mmmbbb.Administering
import Mmmbbb.Pruning

/-!
# Runs of the whole bus

Every action as one atomic transaction, in any order and at any instant. The
world keeps, next to the database, the instant of the last transaction and
the identifiers that committed gets have handed out.
-/

set_option autoImplicit false

namespace Mmmbbb.Runs
open Programs Mmmbbb.Schema Mmmbbb.Database Mmmbbb.Delivering Mmmbbb.Consuming Mmmbbb.Seeking
open Mmmbbb.Administering Mmmbbb.Pruning

inductive Action
  | createTopic (p : CreateTopicParams)
  | updateTopic (req : UpdateTopicRequest)
  | deleteTopic (name : String)
  | createSubscription (p : CreateSubscriptionParams)
  | updateSubscription (req : UpdateSubscriptionRequest)
  | modifyPushConfig (name : String) (cfg : Option PushConfig)
  | putDelay (name : String) (delay : Duration)
  | deleteSubscription (name : String)
  | deleteExpiredSubscriptions (p : PruneCommonParams)
  | createSnapshot (p : CreateSnapshotParams)
  | deleteSnapshot (name : String)
  | touch (p : GetSubscriptionMessagesParams)
  | publish (p : PublishMessageParams)
  | get (p : GetSubscriptionMessagesParams)
  | ack (ids : List UUID)
  | nack (ids : List UUID)
  | delay (p : DelayDeliveriesParams)
  | deadLetter (maxDeliveries : ℕ)
  | seekToTime (p : SeekSubscriptionToTimeParams)
  | seekToSnapshot (p : SeekSubscriptionToSnapshotParams)
  | pruneCompletedDeliveries (p : PruneCommonParams)
  | pruneExpiredDeliveries (p : PruneCommonParams)
  | pruneDeletedSubscriptionDeliveries (p : PruneCommonParams)
  | pruneCompletedMessages (p : PruneCommonParams)
  | pruneDeletedSubscriptions (p : PruneCommonParams)
  | pruneDeletedTopics (p : PruneCommonParams)

def Action.DeadLetters (a : Action) (id : UUID) : Prop :=
  match a with
  | .get _ => True
  | .nack ids => id ∈ ids
  | .deadLetter _ => True
  | _ => False

def zeroTime : Time := -62135596800 * second

/-- What the constructor of the action insists on; it panics otherwise. -/
def Action.Valid : Action → Prop
  | .createTopic p => p.name ≠ ""
  | .createSubscription p => p.Valid
  | .createSnapshot p => p.subscriptionName ≠ "" ∧ p.name ≠ ""
  | .publish p => p.topicName ≠ "" ∨ p.topicID ≠ none
  | .touch p | .get p => 1 ≤ p.maxMessages ∧ 1 ≤ p.maxBytes ∧ (p.name ≠ "" ∨ p.id ≠ none)
  | .deadLetter maxDeliveries => 1 ≤ maxDeliveries
  | .seekToTime p => (p.name ≠ "" ∨ p.id ≠ none) ∧ p.time ≠ zeroTime
  | .seekToSnapshot p => (p.subscriptionName ≠ "" ∨ p.subscriptionID ≠ none) ∧
      (p.snapshotName ≠ "" ∨ p.snapshotID ≠ none)
  | .deleteExpiredSubscriptions p | .pruneCompletedDeliveries p | .pruneExpiredDeliveries p
  | .pruneDeletedSubscriptionDeliveries p | .pruneCompletedMessages p
  | .pruneDeletedSubscriptions p | .pruneDeletedTopics p => p.Valid
  | _ => True

instance (a : Action) : Decidable a.Valid := by
  -- the eliminator itself: `cases` would leave equations of actions in the instance
  induction a using Runs.Action.casesOn <;> unfold Action.Valid <;> infer_instance

/-- The first transaction of a get, which only keeps the subscription alive. -/
def touchSubscription (env : Env) (p : GetSubscriptionMessagesParams) (tx : Tx) :
    Except Error Tx := do
  let sub ← verifySub p tx.db.toTables
  refreshExpiration env sub tx

/-- An action as the body of its transaction. Of its results only what a get
hands out is kept. -/
def exec (env : Env) (a : Action) (tx : Tx) :
    Except Error (List SubscriptionMessageDelivery × Tx) :=
  match a with
  | .createTopic p => (createTopic env p tx).map (([], ·.2))
  | .updateTopic req => (updateTopic req tx).map (([], ·.2))
  | .deleteTopic name => (deleteTopic env name tx).map (([], ·.2))
  | .createSubscription p => (createSubscription env p tx).map (([], ·.2))
  | .updateSubscription req => (updateSubscription env req tx).map (([], ·.2))
  | .modifyPushConfig name cfg => (modifyPushConfig name cfg tx).map (([], ·))
  | .putDelay name delay => (putDelay name delay tx).map (([], ·))
  | .deleteSubscription name => (deleteSubscription env name tx).map (([], ·.2))
  | .deleteExpiredSubscriptions p =>
    (deleteExpiredSubscriptions env p.maxDelete tx).map (([], ·.2))
  | .createSnapshot p => (createSnapshot env p tx).map (([], ·.2))
  | .deleteSnapshot name => (deleteSnapshot name tx).map (([], ·))
  | .touch p => (touchSubscription env p tx).map (([], ·))
  | .publish p => (publishMessage env p tx).map (([], ·.2))
  | .get p => (getSubscriptionMessages env p tx).map (fun r => (r.1.deliveries, r.2))
  | .ack ids => .ok ([], (ackDeliveries env ids tx).2)
  | .nack ids => (nackDeliveries env ids tx).map (([], ·.2))
  | .delay p => .ok ([], (delayDeliveries env p tx).2)
  | .deadLetter n => (deadLetterDeliveries env n tx).map (([], ·.2))
  | .seekToTime p => (seekSubscriptionToTime env p tx).map (([], ·.2))
  | .seekToSnapshot p => (seekSubscriptionToSnapshot env p tx).map (([], ·.2))
  | .pruneCompletedDeliveries p => .ok ([], (pruneCompletedDeliveries env p tx).2)
  | .pruneExpiredDeliveries p => .ok ([], (pruneExpiredDeliveries env p tx).2)
  | .pruneDeletedSubscriptionDeliveries p =>
    .ok ([], (pruneDeletedSubscriptionDeliveries env p tx).2)
  | .pruneCompletedMessages p => (pruneCompletedMessages env p tx).map (([], ·.2))
  | .pruneDeletedSubscriptions p => (pruneDeletedSubscriptions env p tx).map (([], ·.2))
  | .pruneDeletedTopics p => (pruneDeletedTopics env p tx).map (([], ·.2))

section
variable {given : List SubscriptionMessageDelivery} {tx : Tx}

theorem quiet_ok {α : Type} {x : Except Error (α × Tx)}
    (h : x.map (fun r => ([], r.2)) = .ok (given, tx)) : given = [] ∧ ∃ r, x = .ok (r, tx) := by
  obtain ⟨⟨r, tx'⟩, hx, heq⟩ := map_ok.mp h
  obtain ⟨rfl, rfl⟩ := Prod.mk.inj heq
  exact ⟨rfl, r, hx⟩

theorem quiet_tx {x : Except Error Tx} (h : x.map (fun tx => ([], tx)) = .ok (given, tx)) :
    given = [] ∧ x = .ok tx := by
  obtain ⟨tx', hx, heq⟩ := map_ok.mp h
  obtain ⟨rfl, rfl⟩ := Prod.mk.inj heq
  exact ⟨rfl, hx⟩

end

structure World where
  db : DB
  clock : Time
  handedOut : List UUID

def World.at (w : World) (now : Time) : World := { w with clock := now }

def World.set (w : World) (db : DB) : World := { w with db := db }

def World.edit (w : World) (p : Delivery → Bool) (u : DeliveryUpdate) : World :=
  w.set (w.db.updateDeliveries p u)

structure Event where
  env : Env
  action : Action
  valid : action.Valid

namespace Sample

def ordersTopic (now : Time) (id : ℕ) : Event :=
  ⟨.plain now id, .createTopic ⟨"orders", []⟩, by decide⟩

def failedTopic (now : Time) (id : ℕ) : Event :=
  ⟨.plain now id, .createTopic ⟨"failed", []⟩, by decide⟩

def projectOrdersTopic (now : Time) (id : ℕ) : Event :=
  ⟨.plain now id, .createTopic ⟨"projects/p/topics/orders", []⟩, by decide⟩

def projectTopic (now : Time) (id : ℕ) : Event :=
  ⟨.plain now id, .createTopic ⟨"projects/p/topics/a", []⟩, by decide⟩

def worker (now : Time) (id : ℕ) : Event :=
  ⟨.plain now id, .createSubscription
    ⟨"orders", "worker", hour, hour, false, [], "", 0, 0, "", 0, ""⟩, by decide⟩

def failingWorker (now : Time) (id : ℕ) : Event :=
  ⟨.plain now id, .createSubscription
    ⟨"orders", "worker", hour, hour, false, [], "", 0, 0, "", 1, "failed"⟩, by decide⟩

def orderedWorker (now : Time) (id : ℕ) : Event :=
  ⟨.plain now id, .createSubscription
    ⟨"orders", "worker", 1000, 1000, true, [], "", 0, 0, "", 0, ""⟩, by decide⟩

def publish (text key : String) (now : Time) (id : ℕ) : Event :=
  ⟨.plain now id, .publish ⟨"orders", none, JsonText.escape text, [], key⟩,
    Or.inl (show "orders" ≠ "" by decide)⟩

def getSmallest (now : Time) (id : ℕ) : Event :=
  ⟨.plain now id, .get ⟨"worker", none, 1, 1, false⟩, by decide⟩

def getSmall (now : Time) (id : ℕ) : Event :=
  ⟨.plain now id, .get ⟨"worker", none, 1, 3, false⟩, by decide⟩

def getOne (now : Time) (id : ℕ) : Event :=
  ⟨.plain now id, .get ⟨"worker", none, 1, 100, false⟩, by decide⟩

def getTen (now : Time) (id : ℕ) : Event :=
  ⟨.plain now id, .get ⟨"worker", none, 10, 100, false⟩, by decide⟩

def seekToThree (now : Time) (id : ℕ) : Event :=
  ⟨.plain now id, .seekToTime ⟨"worker", none, 3⟩, by decide⟩

end Sample

/-- A transaction that fails is rolled back; only time has passed. -/
def World.after (w : World) (e : Event) : World :=
  match exec e.env e.action (Tx.begin w.db) with
  | .ok (given, tx) => ⟨tx.db, e.env.now, w.handedOut ++ given.map (·.id)⟩
  | .error _ => { w with clock := e.env.now }

section
variable {w : World} {e : Event} {given : List SubscriptionMessageDelivery} {tx : Tx}

theorem after_ok (h : exec e.env e.action (Tx.begin w.db) = .ok (given, tx)) :
    (w.after e).db = tx.db := by
  simp [World.after, h]

theorem after_failed {x : Error} (h : exec e.env e.action (Tx.begin w.db) = .error x) :
    (w.after e).db = w.db := by
  simp [World.after, h]

theorem exec_given {env : Env} {a : Action} {tx' : Tx} (h : exec env a tx = .ok (given, tx')) :
    given = [] ∨ ∃ p r, a = .get p ∧ getSubscriptionMessages env p tx = .ok (r, tx') ∧
      given = r.deliveries := by
  cases a
  case get p =>
    obtain ⟨⟨r, last⟩, hr, heq⟩ := map_ok.mp h
    obtain ⟨rfl, rfl⟩ := Prod.mk.inj heq
    exact Or.inr ⟨p, r, rfl, hr, rfl⟩
  all_goals
    left
    simp only [exec] at h
    first
      | exact (Prod.mk.inj (Except.ok.inj h)).1.symm
      | obtain ⟨r, -, heq⟩ := map_ok.mp h
        exact (Prod.mk.inj heq).1.symm

theorem handedOut_after (hget : ∀ p, e.action ≠ .get p) :
    (w.after e).handedOut = w.handedOut := by
  unfold World.after
  split
  · rename_i given tx h
    rcases exec_given h with hnone | ⟨p, r, ha, -, -⟩
    · simp [hnone]
    · exact absurd ha (hget p)
  · rfl

end

def World.initial : World := ⟨DB.empty, 0, []⟩

def World.run (w : World) (es : List Event) : World := es.foldl World.after w

def bus : System World Event where
  init w := w.db = DB.empty ∧ w.handedOut = []
  step w e w' := w' = w.after e

theorem run_reachable {w : World} (hw : bus.Reachable w) (es : List Event) :
    bus.Reachable (w.run es) := by
  induction es generalizing w with
  | nil => exact hw
  | cons e es ih => exact ih (.next e hw rfl)

theorem initial_reachable (es : List Event) : bus.Reachable (World.initial.run es) :=
  run_reachable (.start ⟨rfl, rfl⟩) es

def Allowed (ok : World → Event → World → Prop) : World → List Event → Prop
  | _, [] => True
  | w, e :: es => ok w e (w.after e) ∧ Allowed ok (w.after e) es

instance allowedDecidable (ok : World → Event → World → Prop) [∀ w e w', Decidable (ok w e w')] :
    ∀ w es, Decidable (Allowed ok w es)
  | _, [] => isTrue trivial
  | w, e :: es =>
    have := allowedDecidable ok (w.after e) es
    inferInstanceAs (Decidable (_ ∧ _))

theorem run_within {ok : World → Event → World → Prop} {w : World}
    (hw : (bus.within ok).Reachable w) {es : List Event} (h : Allowed ok w es) :
    (bus.within ok).Reachable (w.run es) := by
  induction es generalizing w with
  | nil => exact hw
  | cons e es ih => exact ih (.next e hw ⟨rfl, h.1⟩) h.2

theorem initial_within {ok : World → Event → World → Prop} {es : List Event}
    (h : Allowed ok World.initial es) : (bus.within ok).Reachable (World.initial.run es) :=
  run_within (.start ⟨rfl, rfl⟩) h

theorem allowed_iff {ok : World → Event → World → Prop} {w : World} {es : List Event} :
    Throughout World.after ok w es ↔ Allowed ok w es := by
  induction es generalizing w with
  | nil => exact Iff.rfl
  | cons e es ih => exact and_congr_right fun _ => ih

theorem throughout_iff {I : World → Prop} {ok : World → Event → World → Prop}
    (hstep : ∀ w e, I w → (I (w.after e) ↔ ok w e (w.after e))) {w : World} (hi : I w)
    (es : List Event) : (∀ pre, pre <+: es → I (w.run pre)) ↔ Allowed ok w es :=
  (Programs.throughout_iff hstep hi es).trans allowed_iff

end Mmmbbb.Runs
