import Mmmbbb.Ordering

/-!
# Chains of links

Related deliveries of an ordered subscription are chained when the links lead
from the later one to the earlier one for as long as the earlier one is not
done. Then neither can overtake the other. Nothing breaks a chain; whether a
new delivery is chained depends on what its publisher finds.
-/

set_option autoImplicit false

namespace Mmmbbb.Chains
open KeyedRows LinkedRows Programs Relation Mmmbbb.Schema Mmmbbb.Database Mmmbbb.Delivering
open Mmmbbb.Consuming Mmmbbb.Runs Mmmbbb.Writes Mmmbbb.Alterations Mmmbbb.Changes Mmmbbb.Links
open Mmmbbb.Ordering

def Related (R : Message → Message → Prop) (db : DB) (a b : Delivery) : Prop :=
  ∃ m ∈ db.messages, ∃ m' ∈ db.messages, m.id = a.messageID ∧ m'.id = b.messageID ∧ R m m'

instance (R : Message → Message → Prop) [∀ m m', Decidable (R m m')] (db : DB) (a b : Delivery) :
    Decidable (Related R db a b) := inferInstanceAs (Decidable (∃ m ∈ db.messages, _))

abbrev Leads (id : UUID) (rows : List Delivery) (a b : Delivery) : Prop :=
  TransGen (Waits id rows) a b

def Live (id : UUID) (db : DB) : Prop := ∀ s ∈ db.subscriptions, s.id = id → s.deletedAt = none

instance (id : UUID) (db : DB) : Decidable (Live id db) :=
  inferInstanceAs (Decidable (∀ s ∈ db.subscriptions, _))

def Chained (R : Message → Message → Prop) (id : UUID) (w : World) : Prop :=
  ∀ a ∈ w.db.deliveries, ∀ b ∈ w.db.deliveries, a.subscriptionID = id → b.subscriptionID = id →
    b.publishedAt < a.publishedAt → Related R w.db a b →
      Done w.clock b ∨ Leads id w.db.deliveries a b

theorem message_back {a b : DB} (hkept : ∀ m ∈ a.messages, m ∈ b.messages) {d : Delivery}
    (hd : d ∈ a.deliveries) {m : Message} (hm : m ∈ b.messages) (hid : m.id = d.messageID) :
    m ∈ a.messages := by
  obtain ⟨m', hm', hid'⟩ := a.sound.delivery_message d hd
  have heq : m = m' := b.sound.message_pk.eq hm (hkept m' hm') (hid.trans hid'.symm)
  exact heq ▸ hm'

section
variable {R : Message → Message → Prop} {id : UUID} {ttl : Duration} {e : Event} {o w w' : World}
  {p : Delivery → Bool} {u : DeliveryUpdate}

theorem Related.back {db db' : DB} (hkept : ∀ m ∈ db.messages, m ∈ db'.messages)
    {a b x y : Delivery} (ha : a ∈ db.deliveries) (hb : b ∈ db.deliveries) (hax : SameRow a x)
    (hby : SameRow b y) (h : Related R db' x y) : Related R db a b := by
  obtain ⟨m, hm, m', hm', hid, hid', hr⟩ := h
  have hid : m.id = a.messageID := hid.trans hax.messageID
  have hid' : m'.id = b.messageID := hid'.trans hby.messageID
  exact ⟨m, message_back hkept ha hm hid, m', message_back hkept hb hm' hid', hid, hid', hr⟩

theorem Leads.edit {a b : Delivery} (h : Leads id w.db.deliveries a b) :
    Leads id (w.db.deliveries.map (setWhere p u.apply)) (setWhere p u.apply a)
      (setWhere p u.apply b) :=
  h.lift _ fun a _ hl => ⟨hl.1.map (setWhere_id p) (setWhere_notBeforeID p),
    (setWhere_subscriptionID p a).trans hl.2⟩

theorem Leads.append {a b : Delivery} (h : Leads id w.db.deliveries a b) (new : List Delivery) :
    Leads id (w.db.deliveries ++ new) a b :=
  h.lift (fun d => d) fun _ _ hl => ⟨hl.1.append new, hl.2⟩

theorem Leads.delete (hg : Gated id ttl w) {now : Time} (hle : w.clock ≤ now)
    (hp : ∀ d ∈ w.db.deliveries, d.subscriptionID = id → p d = true → Done now d) {a b : Delivery}
    (h : Leads id w.db.deliveries a b) (hb : ¬ Done now b) :
    Leads id (deliveriesWithout p w.db.deliveries)
      (Delivery.forget ((w.db.deliveries.filter p).map Delivery.id) a)
      (Delivery.forget ((w.db.deliveries.filter p).map Delivery.id) b) := by
  refine path_lift (fun a b hl => hg.done hle hl) (fun a b hl ha hb => ?_) h hb
  have hkept : ∀ d ∈ w.db.deliveries, d.subscriptionID = id → ¬ Done now d → (!p d) = true := by
    intro d hd hid hnot
    by_contra hpd
    exact hnot (hp d hd hid (by simpa using hpd))
  have hpb := hkept b hl.1.2.1 (hg.back a b hl).1 hb
  have hgone : b.id ∉ (w.db.deliveries.filter p).map Delivery.id := by
    intro hmem
    obtain ⟨x, hx, hid⟩ := List.mem_map.mp hmem
    obtain ⟨hx, hpx⟩ := List.mem_filter.mp hx
    obtain rfl := w.db.sound.delivery_pk.eq hx hl.1.2.1 hid
    simp [hpx] at hpb
  have hlink : (Delivery.forget ((w.db.deliveries.filter p).map Delivery.id) a).notBeforeID =
      a.notBeforeID := by
    rw [hl.1.2.2]
    exact Delivery.forget_notBefore.mpr ⟨hl.1.2.2, hgone⟩
  have hstep : NotBefore (deliveriesWithout p w.db.deliveries) _ _ :=
    Follows.delete (Delivery.forget_id _) hlink hl.1 (hkept a hl.1.1 hl.2 ha) hpb
  exact ⟨hstep, hl.2⟩

theorem chained_same (h : Chained R id w) (hrows : w'.db.deliveries = w.db.deliveries)
    (hkept : ∀ a b, a ∈ w.db.deliveries → b ∈ w.db.deliveries → Related R w'.db a b →
      Related R w.db a b) (hle : w.clock ≤ w'.clock) : Chained R id w' := by
  intro a ha b hb ha' hb' hlt hr
  rw [hrows] at ha hb ⊢
  exact (h a ha b hb ha' hb' hlt (hkept a b ha hb hr)).imp_left fun hd => hd.mono hle

theorem chained_edit (h : Chained R id w) (hu : Harmless u)
    (hrows : w'.db.deliveries = w.db.deliveries.map (setWhere p u.apply))
    (hkept : ∀ m ∈ w.db.messages, m ∈ w'.db.messages) (hclock : w'.clock = w.clock) :
    Chained R id w' := by
  intro x hx y hy hxid hyid hlt hr
  rw [hrows] at hx hy ⊢
  rw [hclock]
  obtain ⟨a, ha, rfl⟩ := List.mem_map.mp hx
  obtain ⟨b, hb, rfl⟩ := List.mem_map.mp hy
  have hr := hr.back hkept ha hb (setWhere_sameRow p u a) (setWhere_sameRow p u b)
  rw [setWhere_subscriptionID] at hxid hyid
  rw [setWhere_publishedAt, setWhere_publishedAt] at hlt
  exact (h a ha b hb hxid hyid hlt hr).imp (done_edit hu) Leads.edit

theorem chained_delete (hg : Gated id ttl w) (h : Chained R id w)
    (hp : ∀ d ∈ w.db.deliveries, d.subscriptionID = id → p d = true → Done w.clock d) :
    Chained R id (w.set (w.db.deleteDeliveries p)) := by
  intro x hx y hy hxid hyid hlt hr
  obtain ⟨a, ha, -, rfl⟩ := mem_deliveriesWithout.mp hx
  obtain ⟨b, hb, -, rfl⟩ := mem_deliveriesWithout.mp hy
  by_cases hdone : Done w.clock b
  · exact Or.inl hdone
  · have hleads := (h a ha b hb hxid hyid hlt hr).resolve_left hdone
    exact Or.inr (hleads.delete hg (le_refl _) hp hdone)

theorem chained_added {r : Delivery} (hg : Gated id ttl w) (h : Chained R id w)
    (hclock : w.clock = e.env.now) (hr : Added e w r)
    (hrows : w'.db.deliveries = w.db.deliveries ++ [r])
    (hkept : ∀ m ∈ w.db.messages, m ∈ w'.db.messages) (hclock' : w'.clock = w.clock)
    (hnew : r.subscriptionID = id → ∀ b ∈ w.db.deliveries, b.subscriptionID = id →
      b.publishedAt < r.publishedAt → Related R w'.db r b →
        Done w.clock b ∨ Leads id w'.db.deliveries r b) : Chained R id w' := by
  have hnow : r.publishedAt = w.clock := by
    obtain ⟨s, -, m, -, n, -, -, -, rfl⟩ := hr
    exact hclock.symm
  intro a ha b hb haid hbid hlt hrel
  rw [hclock']
  have ha' : a ∈ w.db.deliveries ∨ a = r := by simpa [hrows] using ha
  have hb' : b ∈ w.db.deliveries ∨ b = r := by simpa [hrows] using hb
  rcases hb' with hb' | rfl
  · rcases ha' with ha' | rfl
    · have hrel := hrel.back hkept ha' hb' (.refl a) (.refl b)
      rw [hrows]
      exact (h a ha' b hb' haid hbid hlt hrel).imp_right fun hl => hl.append [r]
    · exact hnew haid b hb' hbid hlt hrel
  · -- nothing is published after the new delivery
    have hle : a.publishedAt ≤ w.clock := by
      rcases ha' with ha' | rfl
      · exact hg.past a ha' haid
      · exact hnow.le
    exact absurd (hnow ▸ hlt) hle.not_gt

theorem orderly_write (hw : Write e o w w') (horderly : Orderly o e.action) :
    w'.db.deliveries = w.db.deliveries ∨
      (∃ r, Added e w r ∧ w'.db.deliveries = w.db.deliveries ++ [r]) ∨
      ∃ p u, Harmless u ∧ w'.db.deliveries = w.db.deliveries.map (setWhere p u.apply) := by
  cases hw
  case refresh hdb => exact Or.inl (by simp [World.set, DB.updateSubscriptions_ok hdb])
  case message hdb => exact Or.inl (by simp [World.set, (DB.insertMessage_ok hdb).2])
  case deliver s m c k db hs hlive hm hc hdb _ =>
    exact Or.inr (Or.inl ⟨_, deliver_added hs hlive hm hc hdb⟩)
  case seekTimeAcks ha _ _ => simp [Orderly, ha] at horderly
  case seekTimeDeAcks ha _ _ => simp [Orderly, ha] at horderly
  case seekSnapshotAcks ha _ _ _ _ _ => simp [Orderly, ha] at horderly
  case seekSnapshotDeAcks ha _ _ _ _ => simp [Orderly, ha] at horderly
  all_goals exact Or.inr (Or.inr ⟨_, _, ⟨rfl, by simp⟩, rfl⟩)

theorem chained_write (hw : Write e o w w') (horderly : Orderly o e.action) (hg : Gated id ttl w)
    (hclock : w.clock = e.env.now) (h : Chained R id w)
    (hnew : ∀ r, Added e w r → w'.db.deliveries = w.db.deliveries ++ [r] → r.subscriptionID = id →
      ∀ b ∈ w.db.deliveries, b.subscriptionID = id → b.publishedAt < r.publishedAt →
        Related R w'.db r b → Done w.clock b ∨ Leads id w'.db.deliveries r b) :
    Chained R id w' := by
  have hst := hw.static
  rcases orderly_write hw horderly with hrows | ⟨r, hr, hrows⟩ | ⟨p, u, hu, hrows⟩
  · exact chained_same h hrows
      (fun a b ha hb hrel => hrel.back hst.messages ha hb (.refl a) (.refl b)) hst.clock.ge
  · exact chained_added hg h hclock hr hrows hst.messages hst.clock (hnew r hr hrows)
  · exact chained_edit h hu hrows hst.messages hst.clock

def Origin (now : Time) (o w : World) : Prop :=
  ∀ x ∈ w.db.deliveries, x.publishedAt = now ∨
    ∃ y ∈ o.db.deliveries, SameRow y x ∧ ∀ t, Done t y → Done t x

theorem origin_step (horderly : Orderly w e.action) : Origin e.env.now w (w.after e) := by
  have hchange := change_after (e := e) w
  generalize w.after e = w' at hchange ⊢
  have hself : Origin e.env.now w (w.at e.env.now) :=
    fun x hx => Or.inr ⟨x, hx, .refl x, fun _ h => h⟩
  cases hchange
  case write hw =>
    refine steps_invariant (I := Origin e.env.now w) (fun v v' hv h => ?_) hw hself
    intro x hx
    rcases orderly_write hv horderly with hrows | ⟨r, hr, hrows⟩ | ⟨p, u, hu, hrows⟩
    · exact h x (hrows ▸ hx)
    · rw [hrows, List.mem_append, List.mem_singleton] at hx
      rcases hx with hx | rfl
      · exact h x hx
      · obtain ⟨s, -, m, -, n, -, -, -, rfl⟩ := hr
        exact Or.inl rfl
    · rw [hrows] at hx
      obtain ⟨d, hd, rfl⟩ := List.mem_map.mp hx
      rw [setWhere_publishedAt]
      refine (h d hd).imp_right fun ⟨y, hy, hsame, hdone⟩ => ?_
      exact ⟨y, hy, hsame.trans (setWhere_sameRow p u d), fun t ht => done_edit hu (hdone t ht)⟩
  case prune p hp =>
    intro x hx
    obtain ⟨d, hd, -, rfl⟩ := mem_deliveriesWithout.mp hx
    exact Or.inr ⟨d, hd, ⟨rfl, rfl, rfl, rfl⟩, fun _ h => h⟩
  case quiet db hq =>
    intro x hx
    have hx : x ∈ w.db.deliveries := hq.deliveries ▸ hx
    exact hself x hx

theorem quiet_live {db : DB} (hq : Quiet w.db db) (hlive : Live id db) {d : Delivery}
    (hd : d ∈ w.db.deliveries) (hid : d.subscriptionID = id) : Live id w.db := by
  have hd' : d ∈ db.deliveries := hq.deliveries.symm ▸ hd
  obtain ⟨s, hs, hsid⟩ := db.sound.delivery_subscription d hd'
  rcases hq.subscriptions s hs (hlive s hs (hsid.trans hid)) with ⟨r, hr, hrid, hrlive⟩ | hnew
  · intro s' hs' hid'
    have heq : s' = r := w.db.sound.subscription_pk.eq hs' hr
      (hid'.trans (hid.symm.trans (hsid.symm.trans hrid.symm)))
    exact heq ▸ hrlive
  · exact absurd (hsid ▸ w.db.sound.delivery_subscription d hd) hnew

theorem chained_quiet {db : DB} (hq : Quiet w.db db) (hlive : Live id db)
    (h : Live id w.db → Chained R id w) : Chained R id (w.set db) := by
  intro a ha b hb haid hbid hlt hr
  have hrows : a ∈ w.db.deliveries := hq.deliveries ▸ ha
  have hwas := h (quiet_live hq hlive hrows haid)
  have hback : ∀ x y, x ∈ w.db.deliveries → y ∈ w.db.deliveries → Related R db x y →
      Related R w.db x y := by
    rintro x y _ _ ⟨m, hm, m', hm', hrest⟩
    exact ⟨m, hq.messages m hm, m', hq.messages m' hm', hrest⟩
  have hall : Chained R id (w.set db) := chained_same hwas hq.deliveries hback (le_refl _)
  exact hall a ha b hb haid hbid hlt hr

theorem static_live (hst : Static w w') (h : Live id w'.db) : Live id w.db := by
  intro s hs hid
  obtain ⟨r, hr, heq⟩ := hst.subscription hs
  have hrid : r.id = s.id := Subscription.settled_eq heq Subscription.id (fun _ => rfl)
  have hlive := Subscription.settled_eq heq Subscription.deletedAt (fun _ => rfl)
  exact hlive ▸ h r hr (hrid.trans hid)

theorem prunable_done {now : Time} {db : DB} (hlive : Live id db) {d : Delivery}
    (hid : d.subscriptionID = id) (h : Prunable now db.toTables d) : Done now d := by
  rcases h with hc | he | ⟨s, hs, hsid, hdel⟩
  · exact Or.inl hc
  · exact Or.inr he.le
  · exact absurd (hlive s hs (hsid.trans hid)) hdel

theorem leads_done {a b : Delivery} (hg : Gated id ttl w) {now : Time} (hle : w.clock ≤ now)
    (h : Leads id w.db.deliveries a b) (hfirst : ∀ c, Waits id w.db.deliveries a c → Done now c) :
    Done now b := by
  obtain ⟨c, hac, hcb⟩ := TransGen.head'_iff.mp h
  rcases reflTransGen_iff_eq_or_transGen.mp hcb with rfl | hcb
  · exact hfirst _ hac
  · exact done_path (r := Waits id w.db.deliveries) (fun _ _ hl => hg.done hle hl) hcb
      (hfirst c hac)

def Candidate (now : Time) (db : DB) (id topicID : UUID) (d : Delivery) : Prop :=
  d.subscriptionID = id ∧ now < d.expiresAt ∧
    ∃ m ∈ db.messages, m.id = d.messageID ∧ m.topicID = topicID

instance (now : Time) (db : DB) (id topicID : UUID) (d : Delivery) :
    Decidable (Candidate now db id topicID d) := inferInstanceAs (Decidable (_ ∧ _))

theorem candidate_iff {env : Env} {db : DB} {s : Subscription} {m : Message} {d : Delivery} :
    predecessorOf env db.toTables s m d = true ↔ Candidate env.now db s.id m.topicID d := by
  simp [predecessorOf, Candidate, and_assoc]

theorem added_linked {r : Delivery} (hr : Added e w r) (hid : r.subscriptionID = id)
    (hin : InOrder id ttl w.db) :
    ∃ m ∈ w.db.messages, m.id = r.messageID ∧ (m.Keyed →
      ∀ b ∈ w.db.deliveries, Candidate e.env.now w.db id m.topicID b →
        ∃ z ∈ w.db.deliveries, Candidate e.env.now w.db id m.topicID z ∧
          r.notBeforeID = some z.id ∧ ∀ x ∈ w.db.deliveries,
            Candidate e.env.now w.db id m.topicID x → x.publishedAt ≤ z.publishedAt) := by
  obtain ⟨s, hs, m, hm, n, -, -, -, rfl⟩ := hr
  have hsid : s.id = id := hid
  refine ⟨m, hm, rfl, fun hkeyed b hb hcand => ?_⟩
  have hordered := (hin s hs hsid).1
  cases hl : lastDelivery e.env w.db.toTables s m with
  | none =>
    have hnone := lastDelivery_none hl b hb
    rw [← hsid, ← candidate_iff] at hcand
    rw [hcand] at hnone
    cases hnone
  | some z =>
    obtain ⟨hz, hpred, hmax⟩ := lastDelivery_some hl
    rw [candidate_iff, hsid] at hpred
    refine ⟨z, hz, hpred, ?_, fun x hx hc => hmax x hx ?_⟩
    · simp [DeliveryCreate.row, setUpDelivery, hordered, hkeyed, hl]
    · rw [candidate_iff, hsid]
      exact hc

end

end Mmmbbb.Chains
