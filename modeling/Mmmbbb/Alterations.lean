import Mmmbbb.Writes

/-!
# What an administrative step alters

The actions that do not work on deliveries change the other tables, or prune.
Each such change is listed once, with what the code has established by the
time it makes it.
-/

set_option autoImplicit false

namespace Mmmbbb.Alterations
open KeyedRows Programs Mmmbbb.Schema Mmmbbb.Database Mmmbbb.Delivering Mmmbbb.Consuming
open Mmmbbb.Seeking Mmmbbb.Administering Mmmbbb.Pruning Mmmbbb.Runs Mmmbbb.Writes

structure Plain (u : SubscriptionUpdate) : Prop where
  ordered : u.orderedDelivery = none
  messageTTL : u.messageTTL = none
  minBackoff : u.minBackoff = none
  attempts : u.maxDeliveryAttempts = none
  topic : u.deadLetterTopicID = none

def withoutTopics (t : Tables) (ids : List UUID) : Tables :=
  { t with
    topics := t.topics.filter (fun r => !decide (r.id ∈ ids))
    subscriptions := t.subscriptions.map
      (Subscription.forgetTopics ((t.topics.filter (fun r => decide (r.id ∈ ids))).map Topic.id)) }

theorem agedBy_some {env : Env} {minAge : Duration} {o : Option Time}
    (h : agedBy env minAge o = true) : o ≠ none := by
  rintro rfl
  simp [agedBy] at h

def prunedTopics (env : Env) (p : PruneCommonParams) (t : Tables) : List UUID :=
  selectIDs Topic.id env.topics (fun r => agedBy env p.minAge r.deletedAt &&
    t.subscriptions.all (fun s => decide (s.topicID ≠ r.id))) p.maxDelete t.topics

theorem prunedTopics_mem {env : Env} {p : PruneCommonParams} {t : Tables} {id : UUID}
    (h : id ∈ prunedTopics env p t) : ∃ r ∈ t.topics, r.id = id ∧ r.deletedAt ≠ none ∧
      ∀ s ∈ t.subscriptions, s.topicID ≠ id := by
  obtain ⟨r, hr, hp, rfl⟩ := selectIDs_mem h
  simp only [Bool.and_eq_true, List.all_eq_true, decide_eq_true_eq] at hp
  exact ⟨r, hr, rfl, agedBy_some hp.1, hp.2⟩

def prunedSubscriptions (env : Env) (p : PruneCommonParams) (t : Tables) : List UUID :=
  selectIDs Subscription.id env.subscriptions (fun s => agedBy env p.minAge s.deletedAt &&
    t.deliveries.all (fun d => decide (d.subscriptionID ≠ s.id))) p.maxDelete t.subscriptions

def Prunable (now : Time) (t : Tables) (d : Delivery) : Prop :=
  d.completedAt ≠ none ∨ d.expiresAt < now ∨
    ∃ s ∈ t.subscriptions, s.id = d.subscriptionID ∧ s.deletedAt ≠ none

def namedTopics (name : String) (t : Tables) : List UUID :=
  (t.topics.filter (liveTopicNamed name)).map Topic.id

inductive Alteration (env : Env) (t : Tables) : Action → Tables → Prop
  | idle {a : Action} : Alteration env t a t
  | createTopic {p : CreateTopicParams} {r : Topic} : r.deletedAt = none →
      Alteration env t (.createTopic p) { t with topics := t.topics ++ [r] }
  | updateTopic {req : UpdateTopicRequest} {q : Topic → Bool} {u : TopicUpdate} :
      u.deletedAt = none →
      Alteration env t (.updateTopic req) { t with topics := t.topics.map (setWhere q u.apply) }
  | deleteTopic {name : String} : Alteration env t (.deleteTopic name) { t with
      topics := t.topics.map (setWhere (fun r => decide (r.id ∈ namedTopics name t))
        (TopicUpdate.apply { deletedAt := some env.now }))
      snapshots := t.snapshots.filter (fun s => !decide (s.topicID ∈ namedTopics name t)) }
  | createSubscription {p : CreateSubscriptionParams} {s : Subscription} {r : Topic} :
      r ∈ t.topics → r.id = s.topicID → r.deletedAt = none → s.deletedAt = none →
      ¬ Has Subscription.id s.id t.subscriptions →
      Alteration env t (.createSubscription p) { t with subscriptions := t.subscriptions ++ [s] }
  | updateSubscription {req : UpdateSubscriptionRequest} {s : Subscription}
      {u : SubscriptionUpdate} : s ∈ t.subscriptions → liveSubscriptionNamed req.name s = true →
      req.updateMask.foldlM (updatePath env t req) {} = .ok u →
      Alteration env t (.updateSubscription req) { t with
        subscriptions := t.subscriptions.map (setWhere (fun r => decide (r.id = s.id)) u.apply) }
  | setSubscriptions {a : Action} {q : Subscription → Bool} {u : SubscriptionUpdate} : Plain u →
      Alteration env t a { t with subscriptions := t.subscriptions.map (setWhere q u.apply) }
  | createSnapshot {p : CreateSnapshotParams} {s : Subscription} {r : Snapshot} :
      s ∈ t.subscriptions → liveSubscriptionNamed p.subscriptionName s = true →
      r.topicID = s.topicID → r.name = p.name →
      Alteration env t (.createSnapshot p) { t with snapshots := t.snapshots ++ [r] }
  | deleteSnapshot {name : String} : Alteration env t (.deleteSnapshot name) { t with
      snapshots := t.snapshots.filter (fun s => !decide (s.name = name)) }
  | pruneDeliveries {a : Action} {q : Delivery → Bool} :
      (∀ d ∈ t.deliveries, q d = true → Prunable env.now t d) →
      Alteration env t a { t with deliveries := deliveriesWithout q t.deliveries }
  | pruneMessages {p : PruneCommonParams} {q : Message → Bool} :
      Alteration env t (.pruneCompletedMessages p) { t with
        messages := t.messages.filter (fun m => !q m) }
  | pruneSubscriptions {p : PruneCommonParams} :
      Alteration env t (.pruneDeletedSubscriptions p) { t with
        subscriptions := t.subscriptions.filter
          (fun s => !decide (s.id ∈ prunedSubscriptions env p t)) }
  | pruneTopics {p : PruneCommonParams} :
      Alteration env t (.pruneDeletedTopics p) (withoutTopics t (prunedTopics env p t))

variable {env : Env} {tx tx' : Tx}

theorem createTopic_alteration {p : CreateTopicParams} {id : UUID}
    (h : createTopic env p tx = .ok (id, tx')) :
    Alteration env tx.db.toTables (.createTopic p) tx'.db.toTables := by
  obtain ⟨-, -, h⟩ := bind_ok.mp h
  obtain ⟨db, hdb, h⟩ := bind_ok.mp h
  obtain ⟨-, rfl⟩ := Prod.mk.inj (pure_ok.mp h)
  rw [Tx.hook_db, (DB.insertTopic_ok hdb).2]
  exact .createTopic rfl

theorem updateTopicPath_deletedAt {req : UpdateTopicRequest} {u v : TopicUpdate} {path : String}
    (h : updateTopicPath req u path = .ok v) : v.deletedAt = u.deletedAt := by
  unfold updateTopicPath at h
  split at h
  all_goals cases h
  rfl

theorem updateTopic_alteration {req : UpdateTopicRequest} {r : Option Topic}
    (h : updateTopic req tx = .ok (r, tx')) :
    Alteration env tx.db.toTables (.updateTopic req) tx'.db.toTables := by
  obtain ⟨t, -, h⟩ := bind_ok.mp h
  obtain ⟨u, hu, h⟩ := bind_ok.mp h
  have hkeep : u.deletedAt = none := by
    refine loop_invariant (I := fun u : TopicUpdate => u.deletedAt = none) req.updateMask ?_ rfl hu
    intro path _ v v' hv hone
    rw [updateTopicPath_deletedAt hone, hv]
  split at h
  · obtain ⟨-, rfl⟩ := Prod.mk.inj (pure_ok.mp h)
    exact .idle
  · obtain ⟨-, rfl⟩ := Prod.mk.inj (pure_ok.mp h)
    exact .updateTopic hkeep

theorem deleteTopic_alteration {name : String} {n : ℕ}
    (h : deleteTopic env name tx = .ok (n, tx')) :
    Alteration env tx.db.toTables (.deleteTopic name) tx'.db.toTables := by
  obtain ⟨-, -, h⟩ := bind_ok.mp h
  obtain ⟨-, rfl⟩ := Prod.mk.inj (pure_ok.mp h)
  exact .deleteTopic

theorem findTopic_live {name : String} {t : Tables} {r : Topic} (h : findTopic name t = .ok r) :
    r ∈ t.topics ∧ r.deletedAt = none := by
  obtain ⟨hmem, hmatch⟩ := only_ok h
  simp only [liveTopicNamed, Bool.and_eq_true, Option.isNone_iff_eq_none] at hmatch
  exact ⟨hmem, hmatch.2⟩

theorem createSubscription_alteration {p : CreateSubscriptionParams} {s : Subscription}
    (h : createSubscription env p tx = .ok (s, tx')) :
    Alteration env tx.db.toTables (.createSubscription p) tx'.db.toTables := by
  obtain ⟨-, -, h⟩ := bind_ok.mp h
  obtain ⟨topic, htopic, h⟩ := bind_ok.mp h
  obtain ⟨-, -, h⟩ := bind_ok.mp h
  obtain ⟨deadLetterTopic, -, h⟩ := bind_ok.mp h
  obtain ⟨db, hdb, h⟩ := bind_ok.mp h
  obtain ⟨rfl, rfl⟩ := Prod.mk.inj (pure_ok.mp h)
  obtain ⟨hfresh, htab⟩ := DB.insertSubscription_ok hdb
  obtain ⟨hmem, hlive⟩ := findTopic_live htopic
  rw [show db.toTables = _ from htab]
  exact .createSubscription hmem rfl hlive rfl hfresh

theorem updateSubscription_alteration {req : UpdateSubscriptionRequest} {r : Option Subscription}
    (h : updateSubscription env req tx = .ok (r, tx')) :
    Alteration env tx.db.toTables (.updateSubscription req) tx'.db.toTables := by
  obtain ⟨sub, hsub, h⟩ := bind_ok.mp h
  obtain ⟨u, hu, h⟩ := bind_ok.mp h
  split at h
  · obtain ⟨-, rfl⟩ := Prod.mk.inj (pure_ok.mp h)
    exact .idle
  · obtain ⟨db, hdb, h⟩ := bind_ok.mp h
    obtain ⟨-, rfl⟩ := Prod.mk.inj (pure_ok.mp h)
    obtain ⟨hmem, hmatch⟩ := only_ok hsub
    rw [show db.toTables = _ from DB.updateSubscriptions_ok hdb]
    exact .updateSubscription hmem hmatch hu

theorem setSubscriptions_alteration {a : Action} {db db' : DB} {q : Subscription → Bool}
    {u : SubscriptionUpdate} (hu : Plain u) (h : db.updateSubscriptions q u = .ok db') :
    Alteration env db.toTables a db'.toTables := by
  rw [DB.updateSubscriptions_ok h]
  exact .setSubscriptions hu

theorem modifyPushConfig_alteration {name : String} {cfg : Option PushConfig}
    (h : modifyPushConfig name cfg tx = .ok tx') :
    Alteration env tx.db.toTables (.modifyPushConfig name cfg) tx'.db.toTables := by
  obtain ⟨-, -, h⟩ := bind_ok.mp h
  obtain ⟨sub, -, h⟩ := bind_ok.mp h
  obtain ⟨db, hdb, h⟩ := bind_ok.mp h
  obtain rfl := pure_ok.mp h
  exact setSubscriptions_alteration ⟨rfl, rfl, rfl, rfl, rfl⟩ hdb

theorem putDelay_alteration {name : String} {delay : Duration}
    (h : putDelay name delay tx = .ok tx') :
    Alteration env tx.db.toTables (.putDelay name delay) tx'.db.toTables := by
  obtain ⟨-, -, h⟩ := bind_ok.mp h
  obtain ⟨-, -, h⟩ := bind_ok.mp h
  obtain ⟨db, hdb, h⟩ := bind_ok.mp h
  obtain rfl := pure_ok.mp h
  exact setSubscriptions_alteration ⟨rfl, rfl, rfl, rfl, rfl⟩ hdb

theorem markDeleted_alteration {a : Action} {subs : List Subscription} {n : ℕ}
    (h : markDeleted env subs tx = .ok (n, tx')) :
    Alteration env tx.db.toTables a tx'.db.toTables := by
  obtain ⟨db, hdb, h⟩ := bind_ok.mp h
  obtain ⟨-, rfl⟩ := Prod.mk.inj (pure_ok.mp h)
  exact setSubscriptions_alteration ⟨rfl, rfl, rfl, rfl, rfl⟩ hdb

theorem deleteSubscription_alteration {name : String} {n : ℕ}
    (h : deleteSubscription env name tx = .ok (n, tx')) :
    Alteration env tx.db.toTables (.deleteSubscription name) tx'.db.toTables := by
  obtain ⟨-, -, h⟩ := bind_ok.mp h
  exact markDeleted_alteration h

theorem createSnapshot_alteration {p : CreateSnapshotParams} {r : CreateSnapshotResults}
    (h : createSnapshot env p tx = .ok (r, tx')) :
    Alteration env tx.db.toTables (.createSnapshot p) tx'.db.toTables := by
  obtain ⟨-, -, h⟩ := bind_ok.mp h
  obtain ⟨sub, hsub, h⟩ := bind_ok.mp h
  obtain ⟨db, hdb, h⟩ := bind_ok.mp h
  obtain ⟨topic, -, h⟩ := bind_ok.mp h
  obtain ⟨-, rfl⟩ := Prod.mk.inj (pure_ok.mp h)
  obtain ⟨hmem, hmatch⟩ := only_ok hsub
  rw [show db.toTables = _ from (DB.insertSnapshot_ok hdb).2]
  exact .createSnapshot hmem hmatch rfl rfl

theorem deleteSnapshot_alteration {name : String} (h : deleteSnapshot name tx = .ok tx') :
    Alteration env tx.db.toTables (.deleteSnapshot name) tx'.db.toTables := by
  unfold deleteSnapshot at h
  split at h
  · cases h
    exact .deleteSnapshot
  · cases h

theorem pruneCompletedMessages_alteration {p : PruneCommonParams} {n : ℕ}
    (h : pruneCompletedMessages env p tx = .ok (n, tx')) :
    Alteration env tx.db.toTables (.pruneCompletedMessages p) tx'.db.toTables := by
  obtain ⟨db, hdb, h⟩ := bind_ok.mp h
  obtain ⟨-, rfl⟩ := Prod.mk.inj (pure_ok.mp h)
  rw [show db.toTables = _ from (DB.deleteMessages_ok hdb).2]
  exact .pruneMessages

theorem pruneDeletedSubscriptions_alteration {p : PruneCommonParams} {n : ℕ}
    (h : pruneDeletedSubscriptions env p tx = .ok (n, tx')) :
    Alteration env tx.db.toTables (.pruneDeletedSubscriptions p) tx'.db.toTables := by
  obtain ⟨db, hdb, h⟩ := bind_ok.mp h
  obtain ⟨-, rfl⟩ := Prod.mk.inj (pure_ok.mp h)
  rw [show db.toTables = _ from DB.deleteSubscriptions_ok hdb]
  exact .pruneSubscriptions

theorem pruneDeletedTopics_alteration {p : PruneCommonParams} {n : ℕ}
    (h : pruneDeletedTopics env p tx = .ok (n, tx')) :
    Alteration env tx.db.toTables (.pruneDeletedTopics p) tx'.db.toTables := by
  obtain ⟨db, hdb, h⟩ := bind_ok.mp h
  obtain ⟨-, rfl⟩ := Prod.mk.inj (pure_ok.mp h)
  rw [show db.toTables = _ from DB.deleteTopics_ok hdb]
  exact .pruneTopics

theorem pruneDeliveries_alteration {a : Action} {db : DB} {q : Delivery → Bool} {n : ℕ}
    (hq : ∀ d ∈ db.deliveries, q d = true → Prunable env.now db.toTables d) :
    Alteration env db.toTables a { db.toTables with
      deliveries := deliveriesWithout (fun d =>
        decide (d.id ∈ selectIDs Delivery.id env.deliveries q n db.deliveries)) db.deliveries } := by
  refine .pruneDeliveries fun d hd hid => ?_
  obtain ⟨r, hr, hqr, hk⟩ := selectIDs_mem (of_decide_eq_true hid)
  have hrow : r = d := db.sound.delivery_pk.eq hr hd hk
  exact hrow ▸ hq r hr hqr

section
variable {w : World} {e : Event} {given : List SubscriptionMessageDelivery}

theorem alteration_map {β : Type} {f : Tx → Except Error (β × Tx)}
    (hf : ∀ b tx', f (.begin w.db) = .ok (b, tx') →
      Alteration e.env w.db.toTables e.action tx'.db.toTables)
    (h : (f (.begin w.db)).map (fun t => (([] : List SubscriptionMessageDelivery), t.2)) =
      .ok (given, tx')) : Alteration e.env w.db.toTables e.action tx'.db.toTables := by
  obtain ⟨-, b, hb⟩ := quiet_ok h
  exact hf b _ hb

theorem alteration_map' {f : Tx → Except Error Tx}
    (hf : ∀ tx', f (.begin w.db) = .ok tx' →
      Alteration e.env w.db.toTables e.action tx'.db.toTables)
    (h : (f (.begin w.db)).map (fun t => (([] : List SubscriptionMessageDelivery), t)) =
      .ok (given, tx')) : Alteration e.env w.db.toTables e.action tx'.db.toTables := by
  obtain ⟨-, hb⟩ := quiet_tx h
  exact hf _ hb

theorem alteration_after (w : World) (e : Event) (ha : ¬ OnDeliveries e.action) :
    Alteration e.env w.db.toTables e.action (w.after e).db.toTables := by
  unfold World.after
  split
  · rename_i given tx h
    obtain ⟨env, action, hv⟩ := e
    cases action <;> try exact absurd trivial ha
    case createTopic p => exact alteration_map (fun _ _ => createTopic_alteration) h
    case updateTopic req => exact alteration_map (fun _ _ => updateTopic_alteration) h
    case deleteTopic name => exact alteration_map (fun _ _ => deleteTopic_alteration) h
    case createSubscription p => exact alteration_map (fun _ _ => createSubscription_alteration) h
    case updateSubscription req =>
      exact alteration_map (fun _ _ => updateSubscription_alteration) h
    case modifyPushConfig name cfg => exact alteration_map' (fun _ => modifyPushConfig_alteration) h
    case putDelay name delay => exact alteration_map' (fun _ => putDelay_alteration) h
    case deleteSubscription name =>
      exact alteration_map (fun _ _ => deleteSubscription_alteration) h
    case deleteExpiredSubscriptions p => exact alteration_map (fun _ _ => markDeleted_alteration) h
    case createSnapshot p => exact alteration_map (fun _ _ => createSnapshot_alteration) h
    case deleteSnapshot name => exact alteration_map' (fun _ => deleteSnapshot_alteration) h
    case pruneCompletedMessages p =>
      exact alteration_map (fun _ _ => pruneCompletedMessages_alteration) h
    case pruneDeletedSubscriptions p =>
      exact alteration_map (fun _ _ => pruneDeletedSubscriptions_alteration) h
    case pruneDeletedTopics p => exact alteration_map (fun _ _ => pruneDeletedTopics_alteration) h
    case pruneCompletedDeliveries p =>
      obtain ⟨-, rfl⟩ := Prod.mk.inj (Except.ok.inj h)
      exact pruneDeliveries_alteration fun d _ hq => Or.inl (agedBy_some hq)
    case pruneExpiredDeliveries p =>
      obtain ⟨-, rfl⟩ := Prod.mk.inj (Except.ok.inj h)
      exact pruneDeliveries_alteration fun d _ hq => Or.inr (Or.inl (of_decide_eq_true hq))
    case pruneDeletedSubscriptionDeliveries p =>
      obtain ⟨-, rfl⟩ := Prod.mk.inj (Except.ok.inj h)
      refine pruneDeliveries_alteration fun d _ hq => Or.inr (Or.inr ?_)
      obtain ⟨s, hs, hq⟩ := List.any_eq_true.mp hq
      simp only [Bool.and_eq_true, decide_eq_true_eq] at hq
      exact ⟨s, hs, hq.1, agedBy_some hq.2⟩
  · exact .idle

end

end Mmmbbb.Alterations
