import Mmmbbb.Consuming

/-!
# Pruning

The background actions that delete what is no longer needed. Each selects at
most so many rows, in an order of the database's choosing, and deletes them.
-/

set_option autoImplicit false

namespace Mmmbbb.Pruning
open KeyedRows Programs Mmmbbb.Schema Mmmbbb.Database Mmmbbb.Delivering Mmmbbb.Consuming

structure PruneCommonParams where
  minAge : Duration
  maxDelete : ℕ

def PruneCommonParams.Valid (p : PruneCommonParams) : Prop := 0 ≤ p.minAge ∧ 0 < p.maxDelete

instance (p : PruneCommonParams) : Decidable p.Valid := inferInstanceAs (Decidable (_ ∧ _))

def selectIDs {α : Type} (key : α → UUID) (scan : ScanOrder α) (p : α → Bool) (maxDelete : ℕ)
    (rows : List α) : List UUID := ((scan.run (rows.filter p)).take maxDelete).map key

theorem selectIDs_mem {α : Type} {key : α → UUID} {scan : ScanOrder α} {p : α → Bool}
    {maxDelete : ℕ} {rows : List α} {k : UUID} (h : k ∈ selectIDs key scan p maxDelete rows) :
    ∃ r ∈ rows, p r = true ∧ key r = k := by
  obtain ⟨r, hr, hk⟩ := List.mem_map.mp h
  obtain ⟨hr, hp⟩ := List.mem_filter.mp ((scan.mem_run _ r).mp (List.mem_of_mem_take hr))
  exact ⟨r, hr, hp, hk⟩

section
variable {α : Type} {key : α → UUID} {scan : ScanOrder α} {p : α → Bool} {n : ℕ} {rows : List α}

theorem selectIDs_all (h : (selectIDs key scan p n rows).length < n) {r : α} (hr : r ∈ rows)
    (hp : p r = true) : key r ∈ selectIDs key scan p n rows := by
  have hmem : r ∈ scan.run (rows.filter p) := by
    rw [ScanOrder.mem_run, List.mem_filter]
    exact ⟨hr, hp⟩
  rw [selectIDs, List.length_map, List.length_take] at h
  rw [selectIDs, List.take_of_length_le (by omega)]
  exact List.mem_map_of_mem hmem

theorem selectIDs_nodup (h : UniqueKeys key rows) : (selectIDs key scan p n rows).Nodup := by
  have hrun : ((scan.run (rows.filter p)).map key).Nodup :=
    (((scan.perm _).map key).nodup_iff).mpr (h.filter p)
  rw [selectIDs, List.map_take]
  exact hrun.sublist (List.take_sublist _ _)

end

def agedBy (env : Env) (minAge : Duration) : Option Time → Bool
  | none => false
  | some t => decide (t ≤ env.now - minAge)

def deleteDeliveryIDs (ids : List UUID) (tx : Tx) : Tx :=
  { tx with db := tx.db.deleteDeliveries (fun d => decide (d.id ∈ ids)) }

def pruneCompletedDeliveries (env : Env) (p : PruneCommonParams) (tx : Tx) : ℕ × Tx :=
  let ids := selectIDs Delivery.id env.deliveries (fun d => agedBy env p.minAge d.completedAt)
    p.maxDelete tx.db.deliveries
  (ids.length, deleteDeliveryIDs ids tx)

def pruneExpiredDeliveries (env : Env) (p : PruneCommonParams) (tx : Tx) : ℕ × Tx :=
  let ids := selectIDs Delivery.id env.deliveries (fun d => decide (d.expiresAt < env.now))
    p.maxDelete tx.db.deliveries
  let orderedSubs := env.subscriptions.run (tx.db.subscriptions.filter (fun s =>
    s.orderedDelivery &&
      tx.db.deliveries.any (fun d => decide (d.subscriptionID = s.id) && decide (d.id ∈ ids))))
  let tx := deleteDeliveryIDs ids tx
  (ids.length, { tx with
    onCommit := tx.onCommit ++ orderedSubs.map (fun s => .wakePublishListeners false [s.id]) })

def pruneDeletedSubscriptionDeliveries (env : Env) (p : PruneCommonParams) (tx : Tx) : ℕ × Tx :=
  let ids := selectIDs Delivery.id env.deliveries (fun d =>
    tx.db.subscriptions.any (fun s => decide (s.id = d.subscriptionID) &&
      agedBy env p.minAge s.deletedAt)) p.maxDelete tx.db.deliveries
  (ids.length, deleteDeliveryIDs ids tx)

def pruneCompletedMessages (env : Env) (p : PruneCommonParams) (tx : Tx) :
    Except Error (ℕ × Tx) := do
  let ids := selectIDs Message.id env.messages (fun m =>
    decide (m.publishedAt ≤ env.now - p.minAge) &&
      tx.db.deliveries.all (fun d => decide (d.messageID ≠ m.id))) p.maxDelete tx.db.messages
  let db ← tx.db.deleteMessages (fun m => decide (m.id ∈ ids))
  pure (ids.length, { tx with db := db })

def pruneDeletedSubscriptions (env : Env) (p : PruneCommonParams) (tx : Tx) :
    Except Error (ℕ × Tx) := do
  let ids := selectIDs Subscription.id env.subscriptions (fun s =>
    agedBy env p.minAge s.deletedAt &&
      tx.db.deliveries.all (fun d => decide (d.subscriptionID ≠ s.id)))
    p.maxDelete tx.db.subscriptions
  let db ← tx.db.deleteSubscriptions (fun s => decide (s.id ∈ ids))
  pure (ids.length, { tx with db := db })

def pruneDeletedTopics (env : Env) (p : PruneCommonParams) (tx : Tx) : Except Error (ℕ × Tx) := do
  let ids := selectIDs Topic.id env.topics (fun t =>
    agedBy env p.minAge t.deletedAt &&
      tx.db.subscriptions.all (fun s => decide (s.topicID ≠ t.id))) p.maxDelete tx.db.topics
  let db ← tx.db.deleteTopics (fun t => decide (t.id ∈ ids))
  pure (ids.length, { tx with db := db })

end Mmmbbb.Pruning
