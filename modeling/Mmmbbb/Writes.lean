import Mmmbbb.Runs

/-!
# What a transaction writes

The actions that create or change deliveries do so one write at a time. Each
kind of write is listed once, with what the code has established by the time
it makes it; every such transaction is a sequence of these writes.
-/

set_option autoImplicit false

namespace Mmmbbb.Writes
open KeyedRows Programs Mmmbbb.Schema Mmmbbb.Database Mmmbbb.Delivering Mmmbbb.Consuming
open Mmmbbb.Seeking Mmmbbb.Runs Relation

/-- Each live subscription of the dead-letter topic whose filter accepts the
message has a delivery of it that was not there when the transaction began. -/
def Forwarded (env : Env) (start : DB) (db : DB) (d : Delivery) (topicID : UUID) : Prop :=
  liveTopic db.toTables topicID ≠ none → ∀ s ∈ db.subscriptions, s.topicID = topicID →
    s.deletedAt = none → ∀ m ∈ db.messages, m.id = d.messageID → filterAccepts env s m = true →
      ∃ x ∈ db.deliveries, ¬ Has Delivery.id x.id start.deliveries ∧ x.messageID = d.messageID ∧
        x.subscriptionID = s.id ∧ x.completedAt = none ∧ x.attempts = 0

/-- One write of the transaction of `e`, which began in `start`. -/
inductive Write (e : Event) (start : World) : World → World → Prop
  | refresh {w : World} {id : UUID} {t : Time} {db : DB} :
      w.db.updateSubscriptions (fun s => decide (s.id = id)) { expiresAt := some t } = .ok db →
      Write e start w (w.set db)
  | message {w : World} {m : Message} {db : DB} : w.db.insertMessage m = .ok db →
      Write e start w (w.set db)
  | deliver {w : World} {s : Subscription} {m : Message} {c : DeliveryCreate} {k : ℕ} {db : DB} :
      s ∈ w.db.subscriptions → s.deletedAt = none → m ∈ w.db.messages →
      deliverToSubscription e.env w.db.toTables s m = some c →
      w.db.insertDelivery (c.row (e.env.uuid k)) = .ok db → w.handedOut = start.handedOut →
      Write e start w (w.set db)
  | deadLetter {w : World} {d : Delivery} {s : Subscription} {t : UUID} :
      d ∈ start.db.deliveries → d ∈ w.db.deliveries → d.Outstanding e.env.now →
      s ∈ w.db.subscriptions → s.id = d.subscriptionID → s.deadLetterTopicFor d = some t →
      e.action.DeadLetters d.id → Forwarded e.env start.db w.db d t →
      Write e start w (w.edit (fun x => decide (x.id = d.id))
        { completedAt := some (some e.env.now) })
  | reschedule {w : World} {d : Delivery} {s : Subscription} {ids : List UUID} {t : Time} :
      e.action = .nack ids → d.id ∈ ids → d ∈ start.db.deliveries → d ∈ w.db.deliveries →
      d.Outstanding e.env.now → s ∈ w.db.subscriptions → s.id = d.subscriptionID →
      s.deadLetterTopicFor d = none →
      Write e start w (w.edit (fun x => decide (x.id = d.id)) { attemptAt := some t })
  | attempt {w : World} {d : Delivery} {s : Subscription} {p : GetSubscriptionMessagesParams}
      {t : Time} :
      e.action = .get p → d ∈ start.db.deliveries → d ∈ w.db.deliveries →
      d.Outstanding e.env.now → s ∈ w.db.subscriptions → s.id = d.subscriptionID →
      s.deletedAt = none → s.deadLetterTopicFor d = none →
      (s.orderedDelivery = true → orderingCondition e.env.now w.db.toTables d = true) →
      Write e start w { w.edit (fun x => decide (x.id = d.id))
        { lastAttemptedAt := some e.env.now, addAttempts := 1, attemptAt := some t } with
        handedOut := w.handedOut ++ [d.id] }
  | ack {w : World} {ids : List UUID} : e.action = .ack ids →
      Write e start w (w.edit (ackPredicates ids) { completedAt := some (some e.env.now) })
  | delay {w : World} {p : DelayDeliveriesParams} : e.action = .delay p →
      Write e start w (w.edit (delayPredicates e.env p)
        { attemptAt := some (e.env.now + p.delay) })
  | seekTimeAcks {w : World} {sub : Subscription} {p : SeekSubscriptionToTimeParams} :
      e.action = .seekToTime p → sub ∈ w.db.subscriptions → subMatch p.name p.id sub = true →
      Write e start w (w.edit (seekTimeAcks e.env sub p.time) (ackAll e.env))
  | seekTimeDeAcks {w : World} {sub : Subscription} {p : SeekSubscriptionToTimeParams} :
      e.action = .seekToTime p → sub ∈ w.db.subscriptions → subMatch p.name p.id sub = true →
      Write e start w (w.edit (seekTimeDeAcks e.env sub p.time) (deAckAll e.env sub))
  | seekSnapshotAcks {w : World} {sub : Subscription} {snap : Snapshot}
      {p : SeekSubscriptionToSnapshotParams} {q : Delivery → Bool} :
      e.action = .seekToSnapshot p → sub ∈ w.db.subscriptions →
      subMatch p.subscriptionName p.subscriptionID sub = true → snap ∈ w.db.snapshots →
      snapMatch p.snapshotName p.snapshotID snap = true →
      q = seekSnapshotAcksBefore e.env sub snap ∨ q = seekSnapshotAcksListed e.env sub snap →
      Write e start w (w.edit q (ackAll e.env))
  | seekSnapshotDeAcks {w : World} {sub : Subscription} {snap : Snapshot}
      {p : SeekSubscriptionToSnapshotParams} :
      e.action = .seekToSnapshot p → sub ∈ w.db.subscriptions →
      subMatch p.subscriptionName p.subscriptionID sub = true → snap ∈ w.db.snapshots →
      snapMatch p.snapshotName p.snapshotID snap = true →
      Write e start w (w.edit (seekSnapshotDeAcks sub snap) (deAckAll e.env sub))

def Transaction (e : Event) (start : World) : World → World → Prop := ReflTransGen (Write e start)

structure Static (a b : World) : Prop where
  clock : b.clock = a.clock
  topics : b.db.topics = a.db.topics
  snapshots : b.db.snapshots = a.db.snapshots
  subscriptions : b.db.subscriptions.map Subscription.settled =
    a.db.subscriptions.map Subscription.settled
  messages : ∀ m ∈ a.db.messages, m ∈ b.db.messages

theorem Static.refl (a : World) : Static a a := ⟨rfl, rfl, rfl, rfl, fun _ h => h⟩

theorem Static.trans {a b d : World} (h : Static a b) (h' : Static b d) : Static a d where
  clock := h'.clock.trans h.clock
  topics := h'.topics.trans h.topics
  snapshots := h'.snapshots.trans h.snapshots
  subscriptions := h'.subscriptions.trans h.subscriptions
  messages := fun m hm => h'.messages m (h.messages m hm)

theorem Static.subscription {a b : World} (h : Static a b) {s : Subscription}
    (hs : s ∈ a.db.subscriptions) : ∃ r ∈ b.db.subscriptions, r.settled = s.settled := by
  have := List.mem_map_of_mem (f := Subscription.settled) hs
  rw [← h.subscriptions] at this
  exact List.mem_map.mp this

theorem Static.subscription_before {a b : World} (h : Static a b) {s : Subscription}
    (hs : s ∈ b.db.subscriptions) : ∃ r ∈ a.db.subscriptions, r.settled = s.settled := by
  have := List.mem_map_of_mem (f := Subscription.settled) hs
  rw [h.subscriptions] at this
  exact List.mem_map.mp this

def Added (e : Event) (w : World) (r : Delivery) : Prop :=
  ∃ s ∈ w.db.subscriptions, ∃ m ∈ w.db.messages, ∃ k, s.deletedAt = none ∧
    filterAccepts e.env s m = true ∧ ¬ Has Delivery.id r.id w.db.deliveries ∧
      r = (setUpDelivery e.env w.db.toTables s m).row (e.env.uuid k)

theorem deliver_added {e : Event} {w : World} {s : Subscription} {m : Message} {c : DeliveryCreate}
    {k : ℕ} {db : DB} (hs : s ∈ w.db.subscriptions) (hlive : s.deletedAt = none)
    (hm : m ∈ w.db.messages) (hc : deliverToSubscription e.env w.db.toTables s m = some c)
    (hdb : w.db.insertDelivery (c.row (e.env.uuid k)) = .ok db) :
    Added e w (c.row (e.env.uuid k)) ∧
      db.deliveries = w.db.deliveries ++ [c.row (e.env.uuid k)] := by
  obtain ⟨hacc, rfl⟩ := deliverToSubscription_some.mp hc
  obtain ⟨hfresh, ht⟩ := DB.insertDelivery_ok hdb
  exact ⟨⟨s, hs, m, hm, k, hlive, hacc, hfresh, rfl⟩, by simp [ht]⟩

/-- On the deliveries there are three kinds of write. -/
theorem Write.deliveries {e : Event} {start w w' : World} (h : Write e start w w') :
    w'.db.deliveries = w.db.deliveries ∨
      (∃ r, Added e w r ∧ w'.db.deliveries = w.db.deliveries ++ [r]) ∨
      ∃ p u, w'.db.deliveries = w.db.deliveries.map (setWhere p (DeliveryUpdate.apply u)) := by
  cases h
  case refresh hdb => exact Or.inl (by simp [World.set, DB.updateSubscriptions_ok hdb])
  case message hdb => exact Or.inl (by simp [World.set, (DB.insertMessage_ok hdb).2])
  case deliver s m c k db hs hlive hm hc hdb _ =>
    exact Or.inr (Or.inl ⟨_, deliver_added hs hlive hm hc hdb⟩)
  all_goals exact Or.inr (Or.inr ⟨_, _, rfl⟩)

theorem edit_static (w : World) (p : Delivery → Bool) (u : DeliveryUpdate) :
    Static w (w.edit p u) := ⟨rfl, rfl, rfl, rfl, fun _ h => h⟩

theorem settled_refresh (t : Time) (p : Subscription → Bool) (s : Subscription) :
    (setWhere p (SubscriptionUpdate.apply { expiresAt := some t }) s).settled = s.settled :=
  setWhere_keeps (f := SubscriptionUpdate.apply { expiresAt := some t }) Subscription.settled
    (fun _ => rfl) s

theorem Write.static {e : Event} {start w w' : World} (h : Write e start w w') : Static w w' := by
  cases h
  case refresh hdb =>
    have ht := DB.updateSubscriptions_ok hdb
    refine ⟨rfl, by simp [World.set, ht], by simp [World.set, ht], ?_, by simp [World.set, ht]⟩
    simp only [World.set, ht, List.map_map]
    exact List.map_congr_left fun s _ => settled_refresh _ _ s
  case message hdb =>
    obtain ⟨-, ht⟩ := DB.insertMessage_ok hdb
    refine ⟨rfl, by simp [World.set, ht], by simp [World.set, ht], by simp [World.set, ht], ?_⟩
    intro m hm
    simp [World.set, ht, hm]
  case deliver hdb _ =>
    obtain ⟨-, ht⟩ := DB.insertDelivery_ok hdb
    exact ⟨rfl, by simp [World.set, ht], by simp [World.set, ht], by simp [World.set, ht],
      by simp [World.set, ht]⟩
  case attempt => exact ⟨rfl, rfl, rfl, rfl, fun _ h => h⟩
  all_goals exact edit_static _ _ _

theorem Transaction.static {e : Event} {start w w' : World} (h : Transaction e start w w') :
    Static w w' := by
  induction h with
  | refl => exact .refl _
  | tail _ hw ih => exact ih.trans hw.static

variable {e : Event} {start : World} {c : Time} {given : List UUID}

theorem Transaction.none {w : World} : Transaction e start w w := ReflTransGen.refl

theorem Transaction.first {w v u : World} (h : Write e start w v) (hr : Transaction e start v u) :
    Transaction e start w u := ReflTransGen.head h hr

theorem createBulk_transaction {m : Message} {subs : List Subscription} {t : Tables} {tx tx' : Tx}
    (h : createBulk e.env (subs.filterMap (fun s => deliverToSubscription e.env t s m)) tx =
      .ok tx')
    (hm : m ∈ tx.db.messages) (hs : ∀ s ∈ subs, s ∈ tx.db.subscriptions ∧ s.deletedAt = none)
    (hn : UniqueKeys Subscription.id subs)
    (ht : ∀ s ∈ subs, setUpDelivery e.env t s m = setUpDelivery e.env tx.db.toTables s m) :
    Transaction e start ⟨tx.db, c, start.handedOut⟩ ⟨tx'.db, c, start.handedOut⟩ := by
  induction subs generalizing tx with
  | nil =>
    obtain rfl : tx = tx' := by simpa [createBulk] using h
    exact .none
  | cons s subs ih =>
    obtain ⟨hnot, hn⟩ := List.nodup_cons.mp hn
    by_cases hacc : filterAccepts e.env s m = true
    · have hcreate : deliverToSubscription e.env t s m = some (setUpDelivery e.env t s m) :=
        deliverToSubscription_some.mpr ⟨hacc, rfl⟩
      rw [List.filterMap_cons_some (f := fun s => deliverToSubscription e.env t s m) hcreate,
        createBulk, List.foldlM_cons] at h
      obtain ⟨mid, hmid, hrest⟩ := bind_ok.mp h
      obtain ⟨db, hdb, hmid⟩ := bind_ok.mp hmid
      obtain rfl := pure_ok.mp hmid
      obtain ⟨-, htab⟩ := DB.insertDelivery_ok hdb
      have hstep : Write e start ⟨tx.db, c, start.handedOut⟩ ⟨db, c, start.handedOut⟩ := by
        rw [ht s (by simp)] at hdb
        exact .deliver (w := ⟨tx.db, c, start.handedOut⟩) (k := tx.drawn) (hs s (by simp)).1
          (hs s (by simp)).2 hm (deliverToSubscription_some.mpr ⟨hacc, rfl⟩) hdb rfl
      refine .first hstep (ih hrest ?_ ?_ hn ?_)
      · simpa [htab] using hm
      · intro s' hs'
        simpa [htab] using hs s' (by simp [hs'])
      · intro s' hs'
        have hne : s.id ≠ s'.id := fun he => hnot (he ▸ List.mem_map_of_mem hs')
        rw [ht s' (by simp [hs']), htab]
        exact (setUpDelivery_append (by simpa [DeliveryCreate.row, setUpDelivery] using hne)).symm
    · have hskip : deliverToSubscription e.env t s m = none := by
        simp [deliverToSubscription, hacc]
      rw [List.filterMap_cons_none (f := fun s => deliverToSubscription e.env t s m) hskip] at h
      exact ih h hm (fun s' hs' => hs s' (by simp [hs'])) hn (fun s' hs' => ht s' (by simp [hs']))

theorem deliverAll_transaction {m : Message} {subs : List Subscription} {tx tx' : Tx}
    (h : createBulk e.env (deliverAll e.env subs m tx).1 (deliverAll e.env subs m tx).2 = .ok tx')
    (hm : m ∈ tx.db.messages) (hs : ∀ s ∈ subs, s ∈ tx.db.subscriptions ∧ s.deletedAt = none)
    (hn : UniqueKeys Subscription.id subs) :
    Transaction e start ⟨tx.db, c, start.handedOut⟩ ⟨tx'.db, c, start.handedOut⟩ := by
  have hrun : Transaction e start ⟨(deliverAll e.env subs m tx).2.db, c, start.handedOut⟩ _ :=
    createBulk_transaction h hm hs hn (fun s _ => rfl)
  exact hrun

theorem liveSubscriptions_loaded {env : Env} {t : Tables} {topicID : UUID} :
    ∀ s ∈ liveSubscriptions env t topicID, s ∈ t.subscriptions ∧ s.deletedAt = none := by
  intro s hs
  obtain ⟨hs, -, hlive⟩ := mem_liveSubscriptions.mp hs
  exact ⟨hs, hlive⟩

theorem publish_transaction {p : PublishMessageParams} {r : PublishMessageResults} {tx tx' : Tx}
    (h : publishMessage e.env p tx = .ok (r, tx')) :
    Transaction e start ⟨tx.db, c, start.handedOut⟩ ⟨tx'.db, c, start.handedOut⟩ := by
  obtain ⟨t, -, h⟩ := bind_ok.mp h
  obtain ⟨-, -, h⟩ := bind_ok.mp h
  obtain ⟨db, hdb, h⟩ := bind_ok.mp h
  obtain ⟨last, hlast, h⟩ := bind_ok.mp h
  obtain ⟨-, rfl⟩ := Prod.mk.inj (pure_ok.mp h)
  obtain ⟨-, htab⟩ := DB.insertMessage_ok hdb
  have hmessage : Write e start ⟨tx.db, c, start.handedOut⟩ ⟨db, c, start.handedOut⟩ :=
    .message (w := ⟨tx.db, c, start.handedOut⟩) hdb
  refine .first hmessage (deliverAll_transaction hlast (by simp [htab]) (fun s hs => ?_)
    (liveSubscriptions_nodup tx.db.sound.subscription_pk))
  simpa [htab] using liveSubscriptions_loaded s hs

structure Frame (id : UUID) (a b : DB) : Prop where
  topics : b.topics = a.topics
  subscriptions : b.subscriptions = a.subscriptions
  messages : b.messages = a.messages
  kept : ∀ x ∈ a.deliveries, x.id ≠ id → x ∈ b.deliveries
  has : ∀ k, Has Delivery.id k a.deliveries → Has Delivery.id k b.deliveries
  ordering : ∀ now d, orderingCondition now a.toTables d = true →
    orderingCondition now b.toTables d = true

theorem Frame.trans {id : UUID} {a b d : DB} (h : Frame id a b) (h' : Frame id b d) :
    Frame id a d where
  topics := h'.topics.trans h.topics
  subscriptions := h'.subscriptions.trans h.subscriptions
  messages := h'.messages.trans h.messages
  kept := fun x hx hne => h'.kept x (h.kept x hx hne) hne
  has := fun k hk => h'.has k (h.has k hk)
  ordering := fun now x hx => h'.ordering now x (h.ordering now x hx)

theorem frame_append {id : UUID} {a b : DB} {new : List Delivery}
    (h : b.toTables = { a.toTables with deliveries := a.deliveries ++ new }) : Frame id a b where
  topics := by rw [h]
  subscriptions := by rw [h]
  messages := by rw [h]
  kept := fun x hx _ => by rw [h]; exact List.mem_append_left _ hx
  has := fun k hk => by rw [h]; exact hk.append_left _
  ordering := by
    intro now d hd
    rw [h]
    unfold orderingCondition at hd ⊢
    split at hd
    · rfl
    · rename_i k hk
      split at hd
      · cases hd
      · rename_i x hx
        have : fetch Delivery.id k (a.deliveries ++ new) = some x := by
          simp only [fetch, List.find?_append] at hx ⊢
          simp [hx]
        simpa [this] using hd

def Harmless (u : DeliveryUpdate) : Prop := u.expiresAt = none ∧ u.completedAt ≠ some none

theorem Harmless.expiresAt {u : DeliveryUpdate} (h : Harmless u) (d : Delivery) :
    (u.apply d).expiresAt = d.expiresAt := by simp [DeliveryUpdate.apply, h.1]

theorem Harmless.completedAt {u : DeliveryUpdate} (h : Harmless u) {d : Delivery}
    (hd : d.completedAt.isSome = true) : (u.apply d).completedAt.isSome = true := by
  cases hu : u.completedAt with
  | none => simpa [DeliveryUpdate.apply, hu] using hd
  | some o =>
    cases o with
    | none => exact absurd hu h.2
    | some t => simp [DeliveryUpdate.apply, hu]

theorem frame_edit {id : UUID} {a : DB} {u : DeliveryUpdate} (hu : Harmless u) :
    Frame id a (a.updateDeliveries (fun d => decide (d.id = id)) u) where
  topics := rfl
  subscriptions := rfl
  messages := rfl
  kept := fun x hx hne => List.mem_map.mpr ⟨x, hx, by simp [setWhere, hne]⟩
  has := fun k hk => hk.map (setWhere_keeps Delivery.id u.apply_id)
  ordering := by
    intro now d hd
    unfold orderingCondition at hd ⊢
    split at hd
    · rfl
    · rename_i k hk
      split at hd
      · cases hd
      · rename_i x hx
        have hfetch : fetch Delivery.id k
            (a.updateDeliveries (fun d => decide (d.id = id)) u).deliveries =
            some (setWhere (fun d => decide (d.id = id)) u.apply x) := by
          show fetch Delivery.id k (a.deliveries.map (setWhere _ u.apply)) = _
          rw [fetch_map (setWhere_keeps Delivery.id u.apply_id), hx]
          rfl
        rw [hfetch]
        simp only [Bool.or_eq_true, decide_eq_true_eq] at hd ⊢
        rw [setWhere_keeps Delivery.expiresAt hu.expiresAt]
        unfold setWhere
        split
        · exact hd.imp_left hu.completedAt
        · exact hd

/-- A loop that deals with one delivery at a time leaves the others alone. -/
theorem loop_keeps {σ α : Type} (view : σ → DB) (key : α → UUID) {body : σ → α → Except Error σ}
    {items : List α} {s s' : σ} (h : items.foldlM body s = .ok s')
    (hframe : ∀ a s s', body s a = .ok s' → Frame (key a) (view s) (view s')) {x : Delivery}
    (hx : x ∈ (view s).deliveries) (hid : x.id ∉ items.map key) : x ∈ (view s').deliveries := by
  induction items generalizing s with
  | nil =>
    obtain rfl : s = s' := by simpa using h
    exact hx
  | cons a items ih =>
    rw [List.foldlM_cons] at h
    obtain ⟨mid, hmid, hrest⟩ := bind_ok.mp h
    rw [List.map_cons, List.mem_cons, not_or] at hid
    exact ih hrest ((hframe a s mid hmid).kept x hx hid.1) hid.2

theorem deadLetter_frame {data : DeadLetterData} {tx tx' : Tx}
    (h : deadLetterDelivery e.env data tx = .ok tx') : Frame data.deliveryID tx.db tx'.db := by
  obtain ⟨mid, hmid, hdb⟩ := deadLetterDelivery_ok h
  obtain ⟨new, htab, -⟩ := deliverDeadLetter_ok hmid
  rw [hdb]
  exact (frame_append htab).trans (frame_edit ⟨rfl, by simp⟩)

theorem deliverDeadLetter_transaction {data : DeadLetterData} {tx tx' : Tx}
    (h : deliverDeadLetter e.env data tx = .ok tx') :
    Transaction e start ⟨tx.db, c, start.handedOut⟩ ⟨tx'.db, c, start.handedOut⟩ := by
  unfold deliverDeadLetter at h
  split at h
  · cases h
    exact .none
  · dsimp only at h
    split at h
    · cases h
      exact .none
    · split at h
      · cases h
      · rename_i m hf
        obtain ⟨hm, -⟩ := fetch_mem hf
        exact deliverAll_transaction h hm liveSubscriptions_loaded
          (liveSubscriptions_nodup tx.db.sound.subscription_pk)

theorem deadLetter_transaction {d : Delivery} {s : Subscription} {t : UUID} {tx tx' : Tx}
    (hd₀ : d ∈ start.db.deliveries) (hd : d ∈ tx.db.deliveries) (ho : d.Outstanding e.env.now)
    (hs : s ∈ tx.db.subscriptions) (hid : s.id = d.subscriptionID)
    (hlimit : s.deadLetterTopicFor d = some t)
    (ha : e.action.DeadLetters d.id)
    (hold : ∀ k, Has Delivery.id k start.db.deliveries → Has Delivery.id k tx.db.deliveries)
    (h : deadLetterDelivery e.env (deadLetterDataFromEntities d t) tx = .ok tx') :
    Transaction e start ⟨tx.db, c, start.handedOut⟩ ⟨tx'.db, c, start.handedOut⟩ := by
  obtain ⟨mid, hmid, hdb⟩ := deadLetterDelivery_ok h
  obtain ⟨new, htab, hnew, hforward⟩ := deliverDeadLetter_ok hmid
  refine (deliverDeadLetter_transaction hmid).tail ?_
  rw [hdb]
  refine .deadLetter (w := ⟨mid.db, c, start.handedOut⟩) (s := s) (t := t)
    hd₀ ?_ ho ?_ hid hlimit ha ?_
  · simpa [htab] using Or.inl hd
  · simpa [htab] using hs
  · intro hlive s' hs' htopic hlive' m hm hmid' hacc
    simp only [htab] at hlive hs' hm ⊢
    obtain ⟨k, hk⟩ := hforward hlive s' (mem_liveSubscriptions.mpr ⟨hs', htopic, hlive'⟩) m hm hmid'
      hacc
    refine ⟨_, List.mem_append_right _ hk, fun hhas => hnew _ hk (hold _ hhas), hmid', rfl, rfl, rfl⟩

/-- What a get that began in `o` has checked of a delivery it has selected. -/
def Ready (now : Time) (o : DB) (s : Subscription) (db : DB) (d : Delivery) : Prop :=
  d ∈ o.deliveries ∧ d ∈ db.deliveries ∧ d.Outstanding now ∧ d.subscriptionID = s.id ∧
    (s.orderedDelivery = true → orderingCondition now db.toTables d = true)

theorem Ready.frame {now : Time} {o : DB} {s : Subscription} {a b : DB} {d : Delivery} {id : UUID}
    (h : Ready now o s a d) (hf : Frame id a b) (hne : d.id ≠ id) : Ready now o s b d :=
  ⟨h.1, hf.kept d h.2.1 hne, h.2.2.1, h.2.2.2.1, fun hord => hf.ordering now d (h.2.2.2.2 hord)⟩

/-- The state of a get between two of its deliveries: what it has decided to
hand out, and what it has still to look at. -/
structure Selected (now : Time) (o : DB) (s : Subscription) (db : DB)
    (given : List SubscriptionMessageDelivery) (rest : List (Delivery × Message)) : Prop where
  sub : s ∈ db.subscriptions
  ready_given : ∀ x ∈ given, ∃ d, d.id = x.id ∧ Ready now o s db d ∧ s.deadLetterTopicFor d = none
  ready_rest : ∀ x ∈ rest, Ready now o s db x.1
  distinct : (given.map (·.id) ++ rest.map (fun x => x.1.id)).Nodup

section
variable {now : Time} {o : DB} {s : Subscription} {db db' : DB}
  {given : List SubscriptionMessageDelivery}
  {rest : List (Delivery × Message)} {d : Delivery} {m : Message}

theorem Selected.skip (h : Selected now o s db given ((d, m) :: rest)) :
    Selected now o s db given rest where
  sub := h.sub
  ready_given := h.ready_given
  ready_rest := fun x hx => h.ready_rest x (by simp [hx])
  distinct := h.distinct.sublist ((List.sublist_cons_self _ _).append_left _)

theorem Selected.stop (h : Selected now o s db given rest) : Selected now o s db given [] where
  sub := h.sub
  ready_given := h.ready_given
  ready_rest := by simp
  distinct := by
    have := h.distinct.sublist (List.sublist_append_left _ _)
    simpa using this

theorem Selected.deliver (h : Selected now o s db given ((d, m) :: rest))
    (hb : s.deadLetterTopicFor d = none)
    {x : SubscriptionMessageDelivery} (hx : x.id = d.id) :
    Selected now o s db (given ++ [x]) rest where
  sub := h.sub
  ready_given := forall_append_one h.ready_given ⟨d, hx.symm, h.ready_rest (d, m) (by simp), hb⟩
  ready_rest := fun x hx => h.ready_rest x (by simp [hx])
  distinct := by simpa [hx] using h.distinct

theorem Selected.frame (h : Selected now o s db given ((d, m) :: rest)) (hf : Frame d.id db db') :
    Selected now o s db' given rest where
  sub := hf.subscriptions ▸ h.sub
  ready_given := by
    intro x hx
    obtain ⟨r, hid, hr, hb⟩ := h.ready_given x hx
    have hne : x.id ≠ d.id := (List.nodup_append.mp h.distinct).2.2 _ (List.mem_map_of_mem hx) _
      (by simp)
    exact ⟨r, hid, hr.frame hf (hid ▸ hne), hb⟩
  ready_rest := by
    intro x hx
    have hn := (List.nodup_append.mp h.distinct).2.1
    rw [List.map_cons, List.nodup_cons] at hn
    refine (h.ready_rest x (by simp [hx])).frame hf (fun he => hn.1 ?_)
    exact he ▸ List.mem_map_of_mem (f := fun x : Delivery × Message => x.1.id) hx
  distinct := h.skip.distinct

end

theorem applyLoop_transaction {p : GetSubscriptionMessagesParams} {sub s : Subscription} {i : ℕ}
    {rest : List (Delivery × Message)} {st st' : Applied}
    (h : applyLoop e.env p sub i rest st = .ok st')
    (hlimit : ∀ d, sub.deadLetterTopicFor d = s.deadLetterTopicFor d)
    (ha : ∀ id, e.action.DeadLetters id)
    (hsel : Selected e.env.now start.db s st.tx.db st.deliveries rest)
    (hold : ∀ k, Has Delivery.id k start.db.deliveries → Has Delivery.id k st.tx.db.deliveries) :
    Transaction e start ⟨st.tx.db, c, start.handedOut⟩ ⟨st'.tx.db, c, start.handedOut⟩ ∧
      Selected e.env.now start.db s st'.tx.db st'.deliveries [] := by
  induction rest generalizing i st with
  | nil =>
    cases h
    exact ⟨.none, hsel⟩
  | cons x rest ih =>
    obtain ⟨d, m⟩ := x
    rw [applyLoop] at h
    split at h
    · exact ih h hsel.skip hold
    · split at h
      · rename_i t ht
        split at h
        · cases h
        · rename_i tx htx
          obtain ⟨hd₀, hd, ho, hsub, -⟩ := hsel.ready_rest (d, m) (by simp)
          have hf := deadLetter_frame htx
          obtain ⟨hrun, hend⟩ := ih h (hsel.frame hf) (fun k hk => hf.has k (hold k hk))
          refine ⟨.trans ?_ hrun, hend⟩
          exact deadLetter_transaction hd₀ hd ho hsel.sub hsub.symm ((hlimit d).symm.trans ht) (ha _)
            hold htx
      · rename_i ht
        have hb : s.deadLetterTopicFor d = none := (hlimit d).symm.trans ht
        have hgiven := hsel.deliver hb (x := handOut e.env sub d m) rfl
        split at h
        · cases h
          exact ⟨.none, hgiven.stop⟩
        · have hrun := ih h hgiven hold
          exact hrun

theorem markAttempted_transaction {p : GetSubscriptionMessagesParams} {s : Subscription}
    {results : List SubscriptionMessageDelivery} {tx tx' : Tx}
    (h : markAttempted e.env results tx = .ok tx') (ha : e.action = .get p)
    (hlive : s.deletedAt = none) (hsel : Selected e.env.now start.db s tx.db results []) :
    Transaction e start ⟨tx.db, c, given⟩ ⟨tx'.db, c, given ++ results.map (·.id)⟩ := by
  induction results generalizing tx given with
  | nil =>
    obtain rfl : tx = tx' := by simpa [markAttempted] using h
    simpa using Transaction.none
  | cons x results ih =>
    rw [markAttempted, List.foldlM_cons] at h
    obtain ⟨mid, hmid, hrest⟩ := bind_ok.mp h
    have hdb := Tx.updateDelivery_ok hmid
    obtain ⟨d, hid, hready, hb⟩ := hsel.ready_given x (by simp)
    obtain ⟨hd₀, hd, ho, hsub, hord⟩ := hready
    have hstep : Write e start ⟨tx.db, c, given⟩ ⟨mid.db, c, given ++ [x.id]⟩ := by
      rw [hdb, ← hid]
      exact .attempt (w := ⟨tx.db, c, given⟩) ha hd₀ hd ho hsel.sub hsub.symm hlive hb hord
    have hnext : Selected e.env.now start.db s mid.db results [] := by
      rw [hdb]
      have hn := hsel.distinct
      have hf : Frame x.id tx.db
          (tx.db.updateDeliveries (fun d => decide (d.id = x.id)) (attemptUpdate e.env x)) :=
        frame_edit ⟨rfl, by simp [attemptUpdate]⟩
      refine ⟨hsel.sub, fun y hy => ?_, by simp, by simp_all⟩
      obtain ⟨r, hr, hready, hb⟩ := hsel.ready_given y (by simp [hy])
      have hne : y.id ≠ x.id := by
        rintro he
        simp only [List.map_nil, List.append_nil, List.map_cons, List.nodup_cons] at hn
        exact hn.1 (he ▸ List.mem_map_of_mem hy)
      exact ⟨r, hr, hready.frame hf (hr ▸ hne), hb⟩
    have hrun : Transaction e start ⟨mid.db, c, given ++ [x.id]⟩ _ := ih hrest hnext
    exact .first hstep (by simpa using hrun)

theorem get_transaction {p : GetSubscriptionMessagesParams} {r : GetSubscriptionMessagesResults}
    {tx tx' : Tx} (h : getSubscriptionMessages e.env p tx = .ok (r, tx')) (ha : e.action = .get p)
    (hstart : start.db = tx.db) :
    Transaction e start ⟨tx.db, c, start.handedOut⟩
      ⟨tx'.db, c, start.handedOut ++ r.deliveries.map (·.id)⟩ := by
  obtain ⟨sub, hsub, h⟩ := bind_ok.mp h
  obtain ⟨mid, hmid, h⟩ := bind_ok.mp h
  obtain ⟨st, hst, h⟩ := bind_ok.mp h
  obtain ⟨last, hlast, h⟩ := bind_ok.mp h
  obtain ⟨rfl, rfl⟩ := Prod.mk.inj (pure_ok.mp h)
  obtain ⟨hs, hmatch⟩ := only_ok hsub
  have hdb := refreshExpiration_ok hmid
  have htab := DB.updateSubscriptions_ok hdb
  have hstep : Write e start ⟨tx.db, c, start.handedOut⟩ ⟨mid.db, c, start.handedOut⟩ :=
    .refresh (w := ⟨tx.db, c, start.handedOut⟩) hdb
  have hlive : sub.deletedAt = none := by
    simp only [subMatch, Bool.and_eq_true, Option.isNone_iff_eq_none] at hmatch
    exact hmatch.1.1
  -- the row of the subscription as the refresh has left it
  set s := SubscriptionUpdate.apply { expiresAt := some (e.env.now + sub.ttl) } sub with hs'
  have hrow : s ∈ mid.db.subscriptions := by
    rw [htab]
    exact List.mem_map.mpr ⟨sub, hs, by simp [setWhere, hs']⟩
  have hsel : Selected e.env.now start.db s mid.db []
      (queryAndLockDeliveriesOnce e.env tx.db.toTables sub p) := by
    refine ⟨hrow, by simp, fun x hx => ?_, by
      simpa using queryAndLockDeliveriesOnce_nodup e.env tx.db sub p⟩
    obtain ⟨hd, hq, -⟩ := queryAndLockDeliveriesOnce_mem hx
    simp only [buildDeliveryQuery, Bool.and_eq_true, Bool.or_eq_true, Bool.not_eq_true',
      Option.isNone_iff_eq_none, decide_eq_true_eq] at hq
    obtain ⟨⟨⟨⟨hord, -⟩, hc⟩, hexp⟩, hsubid⟩ := hq
    rw [Ready, htab, hstart]
    refine ⟨hd, hd, ⟨hc, hexp⟩, hsubid, fun ho => ?_⟩
    have ho' : sub.orderedDelivery = true := ho
    exact hord.resolve_left (by simp [ho'])
  obtain ⟨hloop, hend⟩ : Transaction e start ⟨mid.db, c, start.handedOut⟩
        ⟨st.tx.db, c, start.handedOut⟩ ∧ Selected e.env.now start.db s st.tx.db st.deliveries [] :=
    applyLoop_transaction hst (fun d => rfl) (fun id => by simp [Action.DeadLetters, ha]) hsel
      (fun k hk => by simpa [htab, hstart] using hk)
  exact .first hstep (hloop.trans (markAttempted_transaction (s := s) hlast ha hlive hend))

structure Unhandled (now : Time) (o : DB) (subs : List Subscription) (db : DB)
    (rest : List Delivery) : Prop where
  subscriptions : db.subscriptions = subs
  rows : ∀ d ∈ rest, d ∈ o.deliveries ∧ d ∈ db.deliveries ∧ d.Outstanding now
  distinct : UniqueKeys Delivery.id rest

theorem Unhandled.next {now : Time} {o : DB} {subs : List Subscription} {a b : DB} {d : Delivery}
    {rest : List Delivery} (h : Unhandled now o subs a (d :: rest)) (hf : Frame d.id a b) :
    Unhandled now o subs b rest where
  subscriptions := hf.subscriptions.trans h.subscriptions
  rows := by
    intro x hx
    obtain ⟨hrow₀, hrow, ho⟩ := h.rows x (by simp [hx])
    obtain ⟨hnot, -⟩ := List.nodup_cons.mp h.distinct
    exact ⟨hrow₀, hf.kept x hrow (fun he => hnot (he ▸ List.mem_map_of_mem hx)), ho⟩
  distinct := (List.nodup_cons.mp h.distinct).2

theorem nackOne_frame {subs : List Subscription} {d : Delivery} {st st' : Tx × ℕ}
    (h : nackOne e.env subs st d = .ok st') : Frame d.id st.1.db st'.1.db := by
  unfold nackOne at h
  split at h
  · cases h
  · split at h
    · obtain ⟨tx, htx, rfl⟩ := map_ok.mp h
      exact deadLetter_frame htx
    · obtain ⟨tx, htx, rfl⟩ := map_ok.mp h
      simp only
      rw [Tx.updateDelivery_ok htx]
      exact frame_edit ⟨rfl, by simp⟩

theorem nackLoop_transaction {ids : List UUID} {subs : List Subscription} {rest : List Delivery}
    {st st' : Tx × ℕ} (h : rest.foldlM (nackOne e.env subs) st = .ok st')
    (ha : e.action = .nack ids) (hids : ∀ d ∈ rest, d.id ∈ ids)
    (hrest : Unhandled e.env.now start.db subs st.1.db rest)
    (hold : ∀ k, Has Delivery.id k start.db.deliveries → Has Delivery.id k st.1.db.deliveries) :
    Transaction e start ⟨st.1.db, c, start.handedOut⟩ ⟨st'.1.db, c, start.handedOut⟩ := by
  induction rest generalizing st with
  | nil =>
    obtain rfl : st = st' := by simpa using h
    exact .none
  | cons d rest ih =>
    rw [List.foldlM_cons] at h
    obtain ⟨mid, hmid, hloop⟩ := bind_ok.mp h
    obtain ⟨hd₀, hd, ho⟩ := hrest.rows d (by simp)
    have hf := nackOne_frame hmid
    suffices hone : Transaction e start ⟨st.1.db, c, start.handedOut⟩
        ⟨mid.1.db, c, start.handedOut⟩ from
      hone.trans (ih hloop (fun x hx => hids x (by simp [hx])) (hrest.next hf)
        (fun k hk => hf.has k (hold k hk)))
    unfold nackOne at hmid
    split at hmid
    · cases hmid
    · rename_i sub hsub
      obtain ⟨hs, hsid⟩ := fetch_mem hsub
      rw [← hrest.subscriptions] at hs
      split at hmid
      · rename_i t ht
        obtain ⟨tx, htx, rfl⟩ := map_ok.mp hmid
        have hlists : e.action.DeadLetters d.id := by
          simpa [Action.DeadLetters, ha] using hids d (by simp)
        exact deadLetter_transaction hd₀ hd ho hs hsid ht hlists hold htx
      · rename_i hbelow
        obtain ⟨tx, htx, rfl⟩ := map_ok.mp hmid
        have hdb := Tx.updateDelivery_ok htx
        simp only
        rw [hdb]
        exact .first (.reschedule (w := ⟨st.1.db, c, start.handedOut⟩) ha (hids d (by simp)) hd₀ hd
          ho hs hsid hbelow) .none

theorem nack_transaction {ids : List UUID} {r : NackDeliveriesResults} {tx tx' : Tx}
    (h : nackDeliveries e.env ids tx = .ok (r, tx')) (ha : e.action = .nack ids)
    (hstart : start.db = tx.db) :
    Transaction e start ⟨tx.db, c, start.handedOut⟩ ⟨tx'.db, c, start.handedOut⟩ := by
  obtain ⟨st, hst, h⟩ := bind_ok.mp h
  obtain ⟨-, rfl⟩ := Prod.mk.inj (pure_ok.mp h)
  have hrow : ∀ d ∈ orderBy (fun d => (d.id : ℤ)) (e.env.deliveries.run
      (tx.db.deliveries.filter (nackPredicates e.env.now ids))),
      d ∈ tx.db.deliveries ∧ nackPredicates e.env.now ids d = true := by
    intro d hd
    simpa using hd
  simp only [nackPredicates, Bool.and_eq_true, decide_eq_true_eq,
    Option.isNone_iff_eq_none] at hrow
  refine nackLoop_transaction hst ha (fun d hd => (hrow d hd).2.1.1) ⟨rfl, fun d hd => ?_, ?_⟩
    (fun k hk => hstart ▸ hk)
  · exact ⟨hstart ▸ (hrow d hd).1, (hrow d hd).1, (hrow d hd).2.1.2, (hrow d hd).2.2⟩
  · exact ((((orderBy_perm _ _).trans (e.env.deliveries.perm _)).map Delivery.id).nodup_iff).mpr
      (tx.db.sound.delivery_pk.filter _)

theorem sweepLoop_transaction {n : ℕ} {t : Tables} {rest : List Delivery} {tx tx' : Tx}
    (h : (rest.filterMap (fun d => (deadLetterTarget e.env.now t d).map
      (deadLetterDataFromEntities d))).foldlM (fun tx datum => deadLetterDelivery e.env datum tx) tx
        = .ok tx') (ha : e.action = .deadLetter n)
    (hrest : Unhandled e.env.now start.db t.subscriptions tx.db
      (rest.filter (fun d => (deadLetterTarget e.env.now t d).isSome)))
    (hold : ∀ k, Has Delivery.id k start.db.deliveries → Has Delivery.id k tx.db.deliveries) :
    Transaction e start ⟨tx.db, c, start.handedOut⟩ ⟨tx'.db, c, start.handedOut⟩ := by
  induction rest generalizing tx with
  | nil =>
    obtain rfl : tx = tx' := by simpa using h
    exact .none
  | cons d rest ih =>
    cases ht : deadLetterTarget e.env.now t d with
    | none =>
      simp only [List.filterMap_cons, List.filter_cons, ht, Option.map_none] at h hrest
      exact ih h hrest hold
    | some k =>
      simp only [List.filterMap_cons, List.filter_cons, ht, Option.map_some, Option.isSome_some,
        if_true, List.foldlM_cons] at h hrest
      obtain ⟨mid, hmid, hloop⟩ := bind_ok.mp h
      obtain ⟨s, hs, -, ho, -, hlimit⟩ := deadLetterTarget_some.mp ht
      obtain ⟨hs, hid⟩ := fetch_mem hs
      have hf := deadLetter_frame hmid
      have hlists : e.action.DeadLetters d.id := by simp [Action.DeadLetters, ha]
      refine .trans ?_ (ih hloop (hrest.next hf) (fun k hk => hf.has k (hold k hk)))
      obtain ⟨hd₀, hd, -⟩ := hrest.rows d (by simp)
      exact deadLetter_transaction hd₀ hd ho (hrest.subscriptions ▸ hs) hid
        hlimit hlists hold hmid

theorem sweep_transaction {n : ℕ} {r : DeadLetterDeliveriesResults} {tx tx' : Tx}
    (h : deadLetterDeliveries e.env n tx = .ok (r, tx')) (ha : e.action = .deadLetter n)
    (hstart : start.db = tx.db) :
    Transaction e start ⟨tx.db, c, start.handedOut⟩ ⟨tx'.db, c, start.handedOut⟩ := by
  obtain ⟨last, hlast, h⟩ := bind_ok.mp h
  obtain ⟨-, rfl⟩ := Prod.mk.inj (pure_ok.mp h)
  refine sweepLoop_transaction hlast ha ⟨rfl, fun d hd => ?_, ?_⟩ (fun k hk => hstart ▸ hk)
  · obtain ⟨hd, ht⟩ := List.mem_filter.mp hd
    obtain ⟨k, hk⟩ := Option.isSome_iff_exists.mp ht
    obtain ⟨s, -, -, ho, -⟩ := deadLetterTarget_some.mp hk
    have hd := List.mem_of_mem_take hd
    simp only [ScanOrder.mem_run, List.mem_filter] at hd
    exact ⟨hstart ▸ hd.1, hd.1, ho⟩
  · refine UniqueKeys.filter ?_ _
    refine List.Nodup.sublist ((List.take_sublist _ _).map Delivery.id) ?_
    exact (((e.env.deliveries.perm _).map Delivery.id).nodup_iff).mpr
      (tx.db.sound.delivery_pk.filter _)

theorem seekToTime_transaction {p : SeekSubscriptionToTimeParams} {r : SeekResults} {tx tx' : Tx}
    (h : seekSubscriptionToTime e.env p tx = .ok (r, tx')) (ha : e.action = .seekToTime p) :
    Transaction e start ⟨tx.db, c, given⟩ ⟨tx'.db, c, given⟩ := by
  obtain ⟨sub, hsub, h⟩ := bind_ok.mp h
  obtain ⟨hs, hmatch⟩ := only_ok hsub
  obtain ⟨-, rfl⟩ := Prod.mk.inj (pure_ok.mp h)
  rw [wakeIfSeeked_db]
  exact .first (.seekTimeAcks (w := ⟨tx.db, c, given⟩) ha hs hmatch)
    (.first (.seekTimeDeAcks ha hs hmatch) .none)

theorem seekToSnapshot_transaction {p : SeekSubscriptionToSnapshotParams} {r : SeekResults}
    {tx tx' : Tx} (h : seekSubscriptionToSnapshot e.env p tx = .ok (r, tx'))
    (ha : e.action = .seekToSnapshot p) :
    Transaction e start ⟨tx.db, c, given⟩ ⟨tx'.db, c, given⟩ := by
  obtain ⟨sub, hsub, h⟩ := bind_ok.mp h
  obtain ⟨snap, hsnap, h⟩ := bind_ok.mp h
  obtain ⟨hs, hmatch⟩ := only_ok hsub
  obtain ⟨hn, hnmatch⟩ := only_ok hsnap
  obtain ⟨-, rfl⟩ := Prod.mk.inj (pure_ok.mp h)
  rw [wakeIfSeeked_db]
  exact .first (.seekSnapshotAcks (w := ⟨tx.db, c, given⟩) ha hs hmatch hn hnmatch (Or.inl rfl))
    (.first (.seekSnapshotAcks ha hs hmatch hn hnmatch (Or.inr rfl))
      (.first (.seekSnapshotDeAcks ha hs hmatch hn hnmatch) .none))

def OnDeliveries : Action → Prop
  | .touch _ | .publish _ | .get _ | .ack _ | .nack _ | .delay _ | .deadLetter _ => True
  | .seekToTime _ | .seekToSnapshot _ => True
  | _ => False

theorem transaction_of_action (w : World) (ha : OnDeliveries e.action) :
    Transaction e (w.at e.env.now) (w.at e.env.now) (w.after e) := by
  unfold World.after
  split
  · rename_i given tx h
    obtain ⟨env, action, hv⟩ := e
    cases action <;> try exact absurd ha id
    case touch p =>
      obtain ⟨rfl, hb⟩ := quiet_tx h
      obtain ⟨sub, -, hb⟩ := bind_ok.mp hb
      rw [List.map_nil, List.append_nil]
      exact .first (.refresh (w := w.at env.now) (refreshExpiration_ok hb)) .none
    case publish p =>
      obtain ⟨rfl, r, hb⟩ := quiet_ok h
      rw [List.map_nil, List.append_nil]
      exact publish_transaction hb
    case get p =>
      obtain ⟨⟨r, tx'⟩, hb, heq⟩ := map_ok.mp h
      obtain ⟨rfl, rfl⟩ := Prod.mk.inj heq
      exact get_transaction hb rfl rfl
    case ack ids =>
      obtain ⟨rfl, rfl⟩ := Prod.mk.inj (Except.ok.inj h)
      rw [List.map_nil, List.append_nil]
      exact .first (.ack (w := w.at env.now) rfl) .none
    case nack ids =>
      obtain ⟨rfl, r, hb⟩ := quiet_ok h
      rw [List.map_nil, List.append_nil]
      exact nack_transaction hb rfl rfl
    case delay p =>
      obtain ⟨rfl, rfl⟩ := Prod.mk.inj (Except.ok.inj h)
      rw [List.map_nil, List.append_nil]
      exact .first (.delay (w := w.at env.now) rfl) .none
    case deadLetter n =>
      obtain ⟨rfl, r, hb⟩ := quiet_ok h
      rw [List.map_nil, List.append_nil]
      exact sweep_transaction hb rfl rfl
    case seekToTime p =>
      obtain ⟨rfl, r, hb⟩ := quiet_ok h
      rw [List.map_nil, List.append_nil]
      exact seekToTime_transaction hb rfl
    case seekToSnapshot p =>
      obtain ⟨rfl, r, hb⟩ := quiet_ok h
      rw [List.map_nil, List.append_nil]
      exact seekToSnapshot_transaction hb rfl
  · exact .none

end Mmmbbb.Writes
