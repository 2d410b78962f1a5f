import Mmmbbb.Alterations

/-!
# What a step of the bus changes

A step either runs a transaction of writes on the deliveries, or prunes some
of them, or leaves every one of them alone. Each invariant of the bus is
shown against these three.
-/

set_option autoImplicit false

namespace Mmmbbb.Changes
open KeyedRows Programs Mmmbbb.Schema Mmmbbb.Database Mmmbbb.Delivering Mmmbbb.Consuming
open Mmmbbb.Seeking Mmmbbb.Runs Mmmbbb.Writes Mmmbbb.Alterations

variable {e : Event}

structure Quiet (a b : DB) : Prop where
  deliveries : b.deliveries = a.deliveries
  messages : ∀ m ∈ b.messages, m ∈ a.messages
  loaded : ∀ m ∈ a.messages, (∃ d ∈ a.deliveries, d.messageID = m.id) → m ∈ b.messages
  subscriptions : ∀ s ∈ b.subscriptions, s.deletedAt = none →
    (∃ r ∈ a.subscriptions, r.id = s.id ∧ r.deletedAt = none) ∨
      ¬ Has Subscription.id s.id a.subscriptions

/-- The messages that a delivery needs are there, or the database would not be
sound. -/
theorem quiet_of {a b : DB} (hd : b.deliveries = a.deliveries)
    (hm : ∀ m ∈ b.messages, m ∈ a.messages)
    (hs : ∀ s ∈ b.subscriptions, s.deletedAt = none →
      (∃ r ∈ a.subscriptions, r.id = s.id ∧ r.deletedAt = none) ∨
        ¬ Has Subscription.id s.id a.subscriptions) : Quiet a b where
  deliveries := hd
  messages := hm
  loaded := by
    rintro m hmem ⟨d, hdm, hid⟩
    obtain ⟨x, hx, hxid⟩ := b.sound.delivery_message d (hd ▸ hdm)
    have hsame : x = m := a.sound.message_pk.eq (hm x hx) hmem (hxid.trans hid)
    exact hsame ▸ hx
  subscriptions := hs

theorem quiet_same {a b : DB} (hd : b.deliveries = a.deliveries) (hm : b.messages = a.messages)
    (hs : b.subscriptions = a.subscriptions) : Quiet a b :=
  quiet_of hd (fun _ h => hm ▸ h) fun s h hl => Or.inl ⟨s, hs ▸ h, rfl, hl⟩

theorem quiet_map {a b : DB} {f : Subscription → Subscription}
    (hd : b.deliveries = a.deliveries) (hm : b.messages = a.messages)
    (hs : b.subscriptions = a.subscriptions.map f) (hid : ∀ s, (f s).id = s.id)
    (hlive : ∀ s, (f s).deletedAt = none → s.deletedAt = none) : Quiet a b := by
  refine quiet_of hd (fun _ h => hm ▸ h) fun s h hl => ?_
  rw [hs] at h
  obtain ⟨r, hr, rfl⟩ := List.mem_map.mp h
  exact Or.inl ⟨r, hr, (hid r).symm, hlive r hl⟩

theorem alteration_quiet {a b : DB} {env : Env} {act : Action} {t : Tables}
    (h : Alteration env a.toTables act t) (ht : b.toTables = t) :
    Quiet a b ∨ ∃ q, (∀ d ∈ a.deliveries, q d = true → Prunable env.now a.toTables d) ∧
      b = a.deleteDeliveries q := by
  have hd := congrArg Tables.deliveries ht
  have hm := congrArg Tables.messages ht
  have hs := congrArg Tables.subscriptions ht
  cases h with
  | idle => exact Or.inl (quiet_same hd hm hs)
  | createTopic => exact Or.inl (quiet_same hd hm hs)
  | updateTopic => exact Or.inl (quiet_same hd hm hs)
  | deleteTopic => exact Or.inl (quiet_same hd hm hs)
  | @createSubscription p s r _ _ _ _ hfresh =>
    refine Or.inl (quiet_of hd (fun _ h => hm ▸ h) fun x hx hl => ?_)
    rw [hs, List.mem_append, List.mem_singleton] at hx
    rcases hx with hx | rfl
    · exact Or.inl ⟨x, hx, rfl, hl⟩
    · exact Or.inr hfresh
  | @updateSubscription req s u =>
    exact Or.inl (quiet_map hd hm hs (setWhere_keeps Subscription.id u.apply_id)
      (setWhere_live (fun s : Subscription => s.deletedAt = none) u.apply_live))
  | @setSubscriptions act q u =>
    exact Or.inl (quiet_map hd hm hs (setWhere_keeps Subscription.id u.apply_id)
      (setWhere_live (fun s : Subscription => s.deletedAt = none) u.apply_live))
  | createSnapshot => exact Or.inl (quiet_same hd hm hs)
  | deleteSnapshot => exact Or.inl (quiet_same hd hm hs)
  | @pruneDeliveries act q hq => exact Or.inr ⟨q, hq, DB.ext' ht⟩
  | pruneMessages =>
    refine Or.inl (quiet_of hd (fun m h => ?_) fun s h hl => Or.inl ⟨s, hs ▸ h, rfl, hl⟩)
    rw [hm] at h
    exact List.mem_of_mem_filter h
  | pruneSubscriptions =>
    refine Or.inl (quiet_of hd (fun _ h => hm ▸ h) fun s h hl => ?_)
    rw [hs] at h
    exact Or.inl ⟨s, List.mem_of_mem_filter h, rfl, hl⟩
  | pruneTopics => exact Or.inl (quiet_map hd hm hs (fun _ => rfl) fun _ hl => hl)

/-- A step of the bus, by what it does to the deliveries. -/
inductive Change (e : Event) (w : World) : World → Prop
  | write {w' : World} : OnDeliveries e.action →
      Transaction e (w.at e.env.now) (w.at e.env.now) w' → Change e w w'
  | prune {p : Delivery → Bool} :
      (∀ d ∈ w.db.deliveries, p d = true → Prunable e.env.now w.db.toTables d) →
      Change e w ((w.at e.env.now).set (w.db.deleteDeliveries p))
  | quiet {db : DB} : Quiet w.db db → Change e w ((w.at e.env.now).set db)

theorem after_clock (w : World) : (w.after e).clock = e.env.now := by
  unfold World.after
  split <;> rfl

theorem change_after (w : World) : Change e w (w.after e) := by
  by_cases ha : OnDeliveries e.action
  · exact .write ha (transaction_of_action w ha)
  have hget : ∀ p, e.action ≠ .get p := by
    intro p hp
    simp [hp, OnDeliveries] at ha
  have hworld : w.after e = (w.at e.env.now).set (w.after e).db := by
    show w.after e = ⟨(w.after e).db, e.env.now, w.handedOut⟩
    rw [← after_clock w, ← handedOut_after hget]
  rw [hworld]
  rcases alteration_quiet (alteration_after w e ha) rfl with hq | ⟨q, hq, hdb⟩
  · exact .quiet hq
  · rw [hdb]
    exact .prune hq

structure SameRow (a b : Delivery) : Prop where
  id : b.id = a.id
  messageID : b.messageID = a.messageID
  subscriptionID : b.subscriptionID = a.subscriptionID
  publishedAt : b.publishedAt = a.publishedAt

theorem SameRow.refl (a : Delivery) : SameRow a a := ⟨rfl, rfl, rfl, rfl⟩

theorem SameRow.trans {a b d : Delivery} (h : SameRow a b) (h' : SameRow b d) : SameRow a d :=
  ⟨h'.id.trans h.id, h'.messageID.trans h.messageID, h'.subscriptionID.trans h.subscriptionID,
    h'.publishedAt.trans h.publishedAt⟩

theorem setWhere_sameRow (p : Delivery → Bool) (u : DeliveryUpdate) (d : Delivery) :
    SameRow d (setWhere p u.apply d) :=
  ⟨setWhere_id p d, setWhere_messageID p d, setWhere_subscriptionID p d, setWhere_publishedAt p d⟩

def Persists (a b : World) : Prop := ∀ x ∈ a.db.deliveries, ∃ y ∈ b.db.deliveries, SameRow x y

theorem write_persists {o w w' : World} (h : Write e o w w') : Persists w w' := by
  intro x hx
  rcases h.deliveries with heq | ⟨r, -, heq⟩ | ⟨p, u, heq⟩
  · exact ⟨x, heq ▸ hx, .refl x⟩
  · exact ⟨x, heq ▸ List.mem_append_left _ hx, .refl x⟩
  · exact ⟨_, heq ▸ List.mem_map_of_mem hx, setWhere_sameRow p u x⟩

theorem Persists.trans {a b d : World} (h : Persists a b) (h' : Persists b d) : Persists a d := by
  intro x hx
  obtain ⟨y, hy, hxy⟩ := h x hx
  obtain ⟨z, hz, hyz⟩ := h' y hy
  exact ⟨z, hz, hxy.trans hyz⟩

theorem transaction_persists {o w w' : World} (h : Transaction e o w w') : Persists w w' := by
  induction h with
  | refl => exact fun x hx => ⟨x, hx, .refl x⟩
  | tail _ hw ih => exact ih.trans (write_persists hw)

def Ticking (w : World) (e : Event) (_ : World) : Prop := w.clock < e.env.now

instance (w : World) (e : Event) (w' : World) : Decidable (Ticking w e w') :=
  inferInstanceAs (Decidable (_ < _))

def Later (w : World) (e : Event) (_ : World) : Prop := w.clock ≤ e.env.now

instance (w : World) (e : Event) (w' : World) : Decidable (Later w e w') :=
  inferInstanceAs (Decidable (_ ≤ _))

theorem later_clock {w : World} {es : List Event} (h : Allowed Later w es) :
    ∀ e ∈ es, w.clock ≤ e.env.now := by
  induction es generalizing w with
  | nil => simp
  | cons e es ih =>
    intro x hx
    rcases List.mem_cons.mp hx with rfl | hx
    · exact h.1
    · have hrest := ih h.2 x hx
      rw [after_clock] at hrest
      exact h.1.trans hrest

theorem later_append {w : World} {es es' : List Event} (h : Allowed Later w (es ++ es')) :
    Allowed Later (w.run es) es' := by
  induction es generalizing w with
  | nil => exact h
  | cons e es ih => exact ih h.2

def Timed (w : World) : Prop := ∀ d ∈ w.db.deliveries, d.publishedAt ≤ w.clock

theorem timed_write {o w w' : World} (h : Write e o w w') (ht : Timed w ∧ w.clock = e.env.now) :
    Timed w' ∧ w'.clock = e.env.now := by
  have hclock := h.static.clock
  refine ⟨fun x hx => ?_, hclock.trans ht.2⟩
  rw [hclock]
  rcases h.deliveries with heq | ⟨r, hr, heq⟩ | ⟨p, u, heq⟩
  · exact ht.1 x (heq ▸ hx)
  · rw [heq, List.mem_append, List.mem_singleton] at hx
    rcases hx with hx | rfl
    · exact ht.1 x hx
    · obtain ⟨s, -, m, -, k, -, -, -, rfl⟩ := hr
      exact ht.2.ge
  · rw [heq] at hx
    obtain ⟨d, hd, rfl⟩ := List.mem_map.mp hx
    rw [setWhere_publishedAt]
    exact ht.1 d hd

theorem timed_step {w : World} (hlt : w.clock ≤ e.env.now) (ht : Timed w) : Timed (w.after e) := by
  have hchange := change_after (e := e) w
  generalize w.after e = w' at hchange ⊢
  have hstart : Timed (w.at e.env.now) := fun d hd => (ht d hd).trans hlt
  cases hchange
  case write h =>
    exact (steps_invariant (I := fun v : World => Timed v ∧ v.clock = e.env.now)
      (fun _ _ => timed_write) h ⟨hstart, rfl⟩).1
  case prune p hp =>
    intro x hx
    obtain ⟨d, hd, -, rfl⟩ := mem_deliveriesWithout.mp hx
    exact hstart d hd
  case quiet db hq =>
    intro x hx
    have hx : x ∈ w.db.deliveries := hq.deliveries ▸ hx
    exact hstart x hx

theorem reachable_timed {ok : World → Event → World → Prop}
    (hok : ∀ w e w', ok w e w' → w.clock ≤ e.env.now) {w : World}
    (h : (bus.within ok).Reachable w) : Timed w := by
  refine h.invariant (I := Timed) (fun v hv => ?_) (fun v e v' hv hs => ?_)
  · have hd : v.db.deliveries = [] := by rw [hv.1]; rfl
    simp [Timed, hd]
  · have hstep : v' = v.after e := hs.1
    rw [hstep]
    exact timed_step (hok v e v' hs.2) hv

def OldestOutstanding (now : Time) (id : UUID) (db : DB) (o : Delivery) : Prop :=
  o.subscriptionID = id ∧ o.Outstanding now ∧
    ∀ x ∈ db.deliveries, x.subscriptionID = id → x.Outstanding now → o.publishedAt ≤ x.publishedAt

instance (now : Time) (id : UUID) (db : DB) (o : Delivery) :
    Decidable (OldestOutstanding now id db o) := inferInstanceAs (Decidable (_ ∧ _))

theorem OldestOutstanding.publishedAt_eq {now : Time} {id : UUID} {db : DB} {a b : Delivery}
    (ha : OldestOutstanding now id db a) (hb : OldestOutstanding now id db b)
    (ha' : a ∈ db.deliveries) (hb' : b ∈ db.deliveries) : a.publishedAt = b.publishedAt := by
  have hab := ha.2.2 b hb' hb.1 hb.2.1
  have hba := hb.2.2 a ha' ha.1 ha.2.1
  exact le_antisymm hab hba

end Mmmbbb.Changes
