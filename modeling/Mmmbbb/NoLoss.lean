import Mmmbbb.Changes

/-!
# No message is lost

A delivery of a live subscription stays outstanding until it expires, or is
acknowledged, sought past, or dead-lettered; and what is dead-lettered goes on
as a new delivery in each subscription of the dead-letter topic.
-/

set_option autoImplicit false

namespace Mmmbbb.NoLoss
open KeyedRows Programs Mmmbbb.Schema Mmmbbb.Database Mmmbbb.Delivering Mmmbbb.Consuming
open Mmmbbb.Seeking Mmmbbb.Runs Mmmbbb.Writes Mmmbbb.Changes

def Acked (a : Action) (d : Delivery) : Prop := ∃ ids, a = .ack ids ∧ d.id ∈ ids

/-- A seek on the subscription of the delivery, to an instant or a snapshot
that covers it. -/
def Seeked (a : Action) (db : DB) (d : Delivery) : Prop :=
  ∃ sub ∈ db.subscriptions, d.subscriptionID = sub.id ∧
    ((∃ p, a = .seekToTime p ∧ subMatch p.name p.id sub = true ∧ d.publishedAt ≤ p.time) ∨
      ∃ p, a = .seekToSnapshot p ∧ subMatch p.subscriptionName p.subscriptionID sub = true ∧
        ∃ snap ∈ db.snapshots, snapMatch p.snapshotName p.snapshotID snap = true ∧
          (d.publishedAt < snap.ackedMessagesBefore ∨ d.messageID ∈ snap.ackedMessageIDs))

/-- The action has completed a delivery that had used up its attempts, and
each live subscription of a live dead-letter topic whose filter accepts the
message has a new delivery of it. -/
def DeadLettered (e : Event) (before after : DB) (d : Delivery) : Prop :=
  e.action.DeadLetters d.id ∧
    (∃ x ∈ after.deliveries, x.id = d.id ∧ x.completedAt = some e.env.now) ∧
    ∃ s ∈ before.subscriptions, s.id = d.subscriptionID ∧
      ∃ topicID, s.deadLetterTopicFor d = some topicID ∧
        (liveTopic before.toTables topicID ≠ none →
          ∀ r ∈ before.subscriptions, r.topicID = topicID → r.deletedAt = none →
          ∀ m ∈ before.messages, m.id = d.messageID → filterAccepts e.env r m = true →
            ∃ x ∈ after.deliveries, ¬ Has Delivery.id x.id before.deliveries ∧
              x.messageID = d.messageID ∧ x.subscriptionID = r.id ∧ x.completedAt = none)

def Explained (e : Event) (before after : DB) (d : Delivery) : Prop :=
  Acked e.action d ∨ Seeked e.action before d ∨ DeadLettered e before after d

def Kept (now : Time) (db : DB) (d : Delivery) : Prop :=
  ∃ x ∈ db.deliveries, x.Outstanding now ∧ x.id = d.id ∧ x.subscriptionID = d.subscriptionID ∧
    x.publishedAt = d.publishedAt ∧ x.messageID = d.messageID

section
variable {e : Event} {o w w' : World} {d x : Delivery}

/-- A transaction that may dead-letter never touches a row it has added. -/
theorem new_row_kept (h : Write e o w w') (ha : ∃ id, e.action.DeadLetters id)
    (hx : x ∈ w.db.deliveries) (hnew : ¬ Has Delivery.id x.id o.db.deliveries) :
    x ∈ w'.db.deliveries := by
  have hmiss : ∀ {r : Delivery}, r ∈ o.db.deliveries → decide (x.id = r.id) = false :=
    fun hr => decide_eq_false fun he => hnew (he ▸ .of_mem hr)
  obtain ⟨id, ha⟩ := ha
  cases h
  case refresh hdb => simpa [World.set, DB.updateSubscriptions_ok hdb] using hx
  case message hdb => simpa [World.set, (DB.insertMessage_ok hdb).2] using hx
  case deliver hdb _ => simpa [World.set, (DB.insertDelivery_ok hdb).2] using Or.inl hx
  case deadLetter hr _ _ _ _ _ _ _ => exact DB.updateDeliveries_miss hx (hmiss hr)
  case reschedule hr _ _ _ _ _ => exact DB.updateDeliveries_miss hx (hmiss hr)
  case attempt hr _ _ _ _ _ _ _ => exact DB.updateDeliveries_miss hx (hmiss hr)
  all_goals simp_all [Action.DeadLetters]

theorem completed_row_kept (h : Write e o w w') (ha : ∃ id, e.action.DeadLetters id)
    (hx : x ∈ w.db.deliveries) (hc : x.completedAt = some e.env.now) :
    ∃ y ∈ w'.db.deliveries, y.id = x.id ∧ y.completedAt = some e.env.now := by
  obtain ⟨id, ha⟩ := ha
  cases h
  case refresh hdb => exact ⟨x, by simpa [World.set, DB.updateSubscriptions_ok hdb] using hx, rfl, hc⟩
  case message hdb => exact ⟨x, by simpa [World.set, (DB.insertMessage_ok hdb).2] using hx, rfl, hc⟩
  case deliver hdb _ =>
    exact ⟨x, by simpa [World.set, (DB.insertDelivery_ok hdb).2] using Or.inl hx, rfl, hc⟩
  case deadLetter =>
    refine ⟨_, DB.updateDeliveries_row _ _ hx, setWhere_id _ _, ?_⟩
    unfold setWhere
    split
    · rfl
    · exact hc
  case reschedule =>
    exact ⟨_, DB.updateDeliveries_row _ _ hx, setWhere_id _ _,
      (setWhere_completedAt _ _ rfl).trans hc⟩
  case attempt =>
    exact ⟨_, DB.updateDeliveries_row _ _ hx, setWhere_id _ _,
      (setWhere_completedAt _ _ rfl).trans hc⟩
  all_goals simp_all [Action.DeadLetters]

theorem deadLettered_kept (h : Write e o w w') (hd : DeadLettered e o.db w.db d) :
    DeadLettered e o.db w'.db d := by
  obtain ⟨ha, ⟨x, hx, hid, hc⟩, s, hs, hsid, t, ht, hall⟩ := hd
  obtain ⟨y, hy, hyid, hyc⟩ := completed_row_kept h ⟨_, ha⟩ hx hc
  refine ⟨ha, ⟨y, hy, hyid.trans hid, hyc⟩, s, hs, hsid, t, ht, ?_⟩
  intro hlive r hr htopic hl m hm hmid hacc
  obtain ⟨x, hx, hnew, hmsg⟩ := hall hlive r hr htopic hl m hm hmid hacc
  exact ⟨x, new_row_kept h ⟨_, ha⟩ hx hnew, hnew, hmsg⟩

theorem kept_edit {p : Delivery → Bool} {u : DeliveryUpdate} {now : Time}
    (hk : Kept now w.db d)
    (hu : ∀ r, p r = true → r.Outstanding now → u.completedAt = none ∧ u.expiresAt = none) :
    Kept now (w.edit p u).db d := by
  obtain ⟨x, hx, ho, hid, hsub, hpub, hmsg⟩ := hk
  by_cases hp : p x = true
  · obtain ⟨hc, he⟩ := hu x hp ho
    refine ⟨_, DB.updateDeliveries_row p u hx, ⟨?_, ?_⟩, by simpa using hid, by simpa using hsub,
      by simpa using hpub, by simpa using hmsg⟩
    · rw [setWhere_completedAt _ _ hc]
      exact ho.1
    · rw [setWhere_expiresAt _ _ he]
      exact ho.2
  · exact ⟨x, DB.updateDeliveries_miss hx (by simpa using hp), ho, hid, hsub, hpub, hmsg⟩

theorem kept_unless {p : Delivery → Bool} {u : DeliveryUpdate} {now : Time} {C : Prop}
    (hk : Kept now w.db d)
    (hc : ∀ r, p r = true → r.completedAt = none → r.id = d.id →
      r.subscriptionID = d.subscriptionID → r.publishedAt = d.publishedAt →
      r.messageID = d.messageID → C) :
    Kept now (w.edit p u).db d ∨ C := by
  obtain ⟨x, hx, ho, hid, hsub, hpub, hmsg⟩ := hk
  by_cases hp : p x = true
  · exact Or.inr (hc x hp ho.1 hid hsub hpub hmsg)
  · exact Or.inl ⟨x, DB.updateDeliveries_miss hx (by simpa using hp), ho, hid, hsub, hpub, hmsg⟩

theorem kept_of_subset {now : Time} {a b : DB} (hk : Kept now a d)
    (h : ∀ x ∈ a.deliveries, x ∈ b.deliveries) : Kept now b d := by
  obtain ⟨x, hx, hrest⟩ := hk
  exact ⟨x, h x hx, hrest⟩

theorem deadLettered_now {r : Delivery} {s : Subscription} {t : UUID} (hst : Static o w)
    (hr₀ : r ∈ o.db.deliveries) (hr : r ∈ w.db.deliveries) (hs : s ∈ w.db.subscriptions)
    (hid : s.id = r.subscriptionID) (ht : s.deadLetterTopicFor r = some t)
    (ha : e.action.DeadLetters r.id) (hf : Forwarded e.env o.db w.db r t) :
    DeadLettered e o.db (w.edit (fun x => decide (x.id = r.id))
      { completedAt := some (some e.env.now) }).db r := by
  obtain ⟨s₀, hs₀, hs₀s⟩ := hst.subscription_before hs
  refine ⟨ha, ⟨_, DB.updateDeliveries_hit hr (decide_eq_true rfl), rfl, rfl⟩, s₀, hs₀, ?_, t, ?_, ?_⟩
  · exact (Subscription.settled_eq hs₀s Subscription.id (fun _ => rfl)).trans hid
  · exact (Subscription.settled_eq hs₀s (·.deadLetterTopicFor r) (fun _ => rfl)).trans ht
  · intro hlive q hq htopic hl m hm hmid hacc
    obtain ⟨q', hq', hqq⟩ := hst.subscription hq
    have hlive' : liveTopic w.db.toTables t ≠ none := by
      simpa only [liveTopic, hst.topics] using hlive
    obtain ⟨x, hx, hnew, hmsg, hsub, hc, -⟩ := hf hlive' q' hq'
      ((Subscription.settled_eq hqq Subscription.topicID (fun _ => rfl)).trans htopic)
      ((Subscription.settled_eq hqq Subscription.deletedAt (fun _ => rfl)).trans hl)
      m (hst.messages m hm) hmid
      ((Subscription.settled_eq hqq (filterAccepts e.env · m) (fun _ => rfl)).trans hacc)
    refine ⟨x, DB.updateDeliveries_miss hx ?_, hnew, hmsg,
      hsub.trans (Subscription.settled_eq hqq Subscription.id (fun _ => rfl)), hc⟩
    exact decide_eq_false fun he => hnew (he ▸ .of_mem hr₀)

theorem kept_step (h : Write e o w w') (hst : Static o w) (hd : d ∈ o.db.deliveries)
    (hk : Kept e.env.now w.db d) : Kept e.env.now w'.db d ∨ Explained e o.db w'.db d := by
  have hsub : ∀ {s}, s ∈ w.db.subscriptions → ∃ r ∈ o.db.subscriptions, r.settled = s.settled :=
    hst.subscription_before
  cases h
  case refresh hdb =>
    exact Or.inl (kept_of_subset hk (by simp [World.set, DB.updateSubscriptions_ok hdb]))
  case message hdb =>
    exact Or.inl (kept_of_subset hk (by simp [World.set, (DB.insertMessage_ok hdb).2]))
  case deliver hdb _ =>
    refine Or.inl (kept_of_subset hk fun x hx => ?_)
    simpa [World.set, (DB.insertDelivery_ok hdb).2] using Or.inl hx
  case deadLetter r s t hr₀ hr _ hs hid ht ha hf =>
    refine (kept_unless hk fun x hp _ hxid _ _ _ => ?_).imp_right (fun h => Or.inr (Or.inr h))
    have hrd : r.id = d.id := (of_decide_eq_true hp).symm.trans hxid
    obtain rfl := o.db.sound.delivery_pk.eq hr₀ hd hrd
    exact deadLettered_now hst hr₀ hr hs hid ht ha hf
  case reschedule => exact Or.inl (kept_edit hk fun _ _ _ => ⟨rfl, rfl⟩)
  case attempt => exact Or.inl (kept_edit hk fun _ _ _ => ⟨rfl, rfl⟩)
  case delay => exact Or.inl (kept_edit hk fun _ _ _ => ⟨rfl, rfl⟩)
  case ack ids ha =>
    refine (kept_unless hk fun x hp _ hid _ _ _ => ?_).imp_right Or.inl
    simp only [ackPredicates, Bool.and_eq_true, decide_eq_true_eq] at hp
    exact ⟨ids, ha, hid ▸ hp.1⟩
  case seekTimeAcks sub p ha hs hmatch =>
    refine (kept_unless hk fun x hp _ _ hxs hpub _ => ?_).imp_right (fun h => Or.inr (Or.inl h))
    simp only [seekTimeAcks, Bool.and_eq_true, decide_eq_true_eq] at hp
    obtain ⟨r, hr, hrs⟩ := hsub hs
    refine ⟨r, hr, ?_, Or.inl ⟨p, ha, ?_, hpub ▸ hp.1.2⟩⟩
    · exact hxs.symm.trans (hp.1.1.1.trans
        (Subscription.settled_eq hrs Subscription.id (fun _ => rfl)).symm)
    · exact (Subscription.settled_eq hrs (subMatch p.name p.id) (fun _ => rfl)).trans hmatch
  case seekTimeDeAcks =>
    refine (kept_unless (C := False) hk fun x hp hc _ _ _ _ => ?_).imp_right False.elim
    simp [seekTimeDeAcks, hc] at hp
  case seekSnapshotAcks sub snap p q ha hs hmatch hn hnmatch hq =>
    refine (kept_unless hk fun x hp _ _ hxs hpub hmsg => ?_).imp_right (fun h => Or.inr (Or.inl h))
    obtain ⟨r, hr, hrs⟩ := hsub hs
    have hrid := (Subscription.settled_eq hrs Subscription.id (fun _ => rfl)).symm
    have hrmatch := (Subscription.settled_eq hrs (subMatch p.subscriptionName p.subscriptionID)
      (fun _ => rfl)).trans hmatch
    rcases hq with rfl | rfl
    · simp only [seekSnapshotAcksBefore, Bool.and_eq_true, decide_eq_true_eq] at hp
      exact ⟨r, hr, hxs.symm.trans (hp.1.1.1.trans hrid), Or.inr ⟨p, ha, hrmatch, snap,
        hst.snapshots ▸ hn, hnmatch, Or.inl (hpub ▸ hp.1.2)⟩⟩
    · simp only [seekSnapshotAcksListed, Bool.and_eq_true, decide_eq_true_eq] at hp
      exact ⟨r, hr, hxs.symm.trans (hp.1.1.1.trans hrid), Or.inr ⟨p, ha, hrmatch, snap,
        hst.snapshots ▸ hn, hnmatch, Or.inr (hmsg ▸ hp.1.2)⟩⟩
  case seekSnapshotDeAcks =>
    refine (kept_unless (C := False) hk fun x hp hc _ _ _ _ => ?_).imp_right False.elim
    simp [seekSnapshotDeAcks, hc] at hp

theorem explained_step (h : Write e o w w') (hx : Explained e o.db w.db d) :
    Explained e o.db w'.db d := by
  rcases hx with hx | hx | hx
  · exact Or.inl hx
  · exact Or.inr (Or.inl hx)
  · exact Or.inr (Or.inr (deadLettered_kept h hx))

theorem transaction_kept (h : Transaction e o o w) (hd : d ∈ o.db.deliveries)
    (ho : d.Outstanding e.env.now) : Kept e.env.now w.db d ∨ Explained e o.db w.db d := by
  refine (steps_invariant (I := fun v => Static o v ∧
    (Kept e.env.now v.db d ∨ Explained e o.db v.db d)) ?_ h ⟨.refl o, Or.inl ?_⟩).2
  · rintro v v' hw ⟨hst, hv⟩
    exact ⟨hst.trans hw.static, hv.elim (kept_step hw hst hd) (fun hx => Or.inr (explained_step hw hx))⟩
  · exact ⟨d, hd, ho, rfl, rfl, rfl, rfl⟩

end

/-- No message loss, in any state at all: what is outstanding for a live
subscription stays so over a step at any instant, unless the step explains it. -/
theorem no_loss (w : World) (e : Event) {d : Delivery} (hd : d ∈ w.db.deliveries)
    {s : Subscription} (hs : s ∈ w.db.subscriptions) (hsub : s.id = d.subscriptionID)
    (hlive : s.deletedAt = none) (ho : d.Outstanding e.env.now)
    (hgone : ∀ x ∈ (w.after e).db.deliveries, x.id = d.id → ¬ x.Outstanding e.env.now) :
    Explained e w.db (w.after e).db d := by
  have hkept : Kept e.env.now (w.after e).db d ∨ Explained e w.db (w.after e).db d := by
    have hchange := change_after (e := e) w
    generalize w.after e = w' at hchange ⊢
    cases hchange
    case write h => exact transaction_kept (o := w.at e.env.now) h hd ho
    case prune p hp =>
      refine Or.inl ⟨_, mem_deliveriesWithout.mpr ⟨d, hd, ?_, rfl⟩, ho, rfl, rfl, rfl, rfl⟩
      by_contra hpd
      rcases hp d hd (by simpa using hpd) with hc | he | ⟨r, hr, hrid, hdel⟩
      · exact hc ho.1
      · exact absurd ho.2 (not_lt.mpr he.le)
      · obtain rfl := w.db.sound.subscription_pk.eq hr hs (hrid.trans hsub.symm)
        exact hdel hlive
    case quiet db hq => exact Or.inl ⟨d, hq.deliveries ▸ hd, ho, rfl, rfl, rfl, rfl⟩
  rcases hkept with ⟨x, hx, hxo, hid, -⟩ | hexp
  · exact absurd hxo (hgone x hx hid)
  · exact hexp

def spentRun : List Event := [
  Sample.ordersTopic 1 10,
  Sample.failedTopic 2 20,
  ⟨.plain 3 30, .createSubscription ⟨"orders", "worker", 1000, 1000, false, [], "", 0, 0, "", 1,
    "failed"⟩, by decide⟩,
  ⟨.plain 4 40, .createSubscription ⟨"failed", "watcher", 1000, 1000, false, [], "", 0, 0, "", 0,
    ""⟩, by decide⟩,
  Sample.publish "1" "" 5 50,
  Sample.getSmallest 6 60]

def spentBus : World := World.initial.run spentRun

def spentDelivery : Delivery := ⟨51, 50, 30, 5, 11757009169, some 6, 1, none, 1005, none⟩

def workerSubscription : Subscription :=
  ⟨30, 10, "worker", 1006, none, 1000, 1000, false, [], none, none, none, none, some 1, some 20, 0⟩

def nackSpent : Event := ⟨.plain 7 70, .nack [51], trivial⟩

theorem no_loss_nack :
    Explained nackSpent spentBus.db (spentBus.after nackSpent).db spentDelivery :=
  no_loss spentBus nackSpent (d := spentDelivery) (s := workerSubscription) (by decide +kernel)
    (by decide +kernel) rfl rfl (by decide) (by decide +kernel)

end Mmmbbb.NoLoss
