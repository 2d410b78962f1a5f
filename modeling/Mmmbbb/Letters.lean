import Mmmbbb.FanOut
import Mmmbbb.Mailboxes
import Mmmbbb.Portions

/-!
# Deliveries as letters

The deliveries of the database are the letters of a broker, and those that are
outstanding are the ones that wait. Saving deliveries sends letters, and
dead-lettering forwards them.
-/

set_option autoImplicit false

namespace Mmmbbb.Letters
open KeyedRows Programs Mailboxes Mmmbbb.Schema Mmmbbb.Database Mmmbbb.Delivering Mmmbbb.Consuming
open Mmmbbb.Seeking Mmmbbb.Runs Mmmbbb.Writes Mmmbbb.Changes Mmmbbb.Portions Relation

structure Shows (db : DB) (d : Delivery) (l : Letter UUID UUID Message) : Prop where
  id : d.id = l.id
  box : d.subscriptionID = l.box
  content : d.messageID = l.content.id
  message : l.content ∈ db.messages

def mail (now : Time) (db : DB) : Mail UUID UUID Message where
  known := {l | ∃ d ∈ db.deliveries, Shows db d l}
  waiting := {l | ∃ d ∈ db.deliveries, d.Outstanding now ∧ Shows db d l}
  waiting_known := fun _ ⟨d, hd, _, hl⟩ => ⟨d, hd, hl⟩
  single := by
    rintro l ⟨d, hd, hl⟩ l' ⟨d', hd', hl'⟩ heq
    have hsame : d = d' := db.sound.delivery_pk.eq hd hd' (by rw [hl.id, hl'.id, heq])
    have hmessage : l.content = l'.content :=
      db.sound.message_pk.eq hl.message hl'.message (by rw [← hl.content, ← hl'.content, hsame])
    have hbox : l.box = l'.box := by rw [← hl.box, ← hl'.box, hsame]
    cases l
    cases l'
    simp_all

def office (env : Env) (t : Tables) : Office UUID UUID Message UUID where
  audience := fun k m => {i | liveTopic t k ≠ none ∧ ∃ s ∈ t.subscriptions, s.id = i ∧
    s.topicID = k ∧ s.deletedAt = none ∧ filterAccepts env s m = true}
  keeps := {i | ∃ s ∈ t.subscriptions, s.id = i ∧ 0 < s.messageTTL}
  closed := {i | ∃ s ∈ t.subscriptions, s.id = i ∧ s.deletedAt ≠ none}
  spent := fun l k => ∃ d ∈ t.deliveries, d.id = l.id ∧ ∃ s ∈ t.subscriptions,
    s.id = d.subscriptionID ∧ s.deadLetterTopicFor d = some k
  due := {l | ∃ d ∈ t.deliveries, d.id = l.id ∧ d.attemptAt ≤ env.now}
  held := {l | ∃ d ∈ t.deliveries, d.id = l.id ∧ ∃ s ∈ t.subscriptions,
    s.id = d.subscriptionID ∧ s.orderedDelivery = true ∧ orderingCondition env.now t d = false}

section
variable {now : Time} {a b db : DB} {d : Delivery} {l : Letter UUID UUID Message}

theorem shows_of_mem (hd : d ∈ db.deliveries) : ∃ l, Shows db d l := by
  obtain ⟨m, hm, hid⟩ := db.sound.delivery_message d hd
  exact ⟨⟨d.id, d.subscriptionID, m⟩, rfl, rfl, hid.symm, hm⟩

theorem waiting_iff (hd : d ∈ db.deliveries) (hl : Shows db d l) :
    l ∈ (mail now db).waiting ↔ d.Outstanding now := by
  constructor
  · rintro ⟨x, hx, ho, hl'⟩
    have hsame : x = d := db.sound.delivery_pk.eq hx hd (by rw [hl.id, hl'.id])
    exact hsame ▸ ho
  · intro ho
    exact ⟨d, hd, ho, hl⟩

theorem shows_before (hd : d ∈ a.deliveries) (hm : ∀ m ∈ a.messages, m ∈ b.messages) {x : Delivery}
    (hid : x.id = d.id) (hbox : x.subscriptionID = d.subscriptionID)
    (hcontent : x.messageID = d.messageID) : Shows b x l ↔ Shows a d l := by
  constructor
  · intro hl
    obtain ⟨m, hma, hmid⟩ := a.sound.delivery_message d hd
    have hsame : m = l.content :=
      b.sound.message_pk.eq (hm m hma) hl.message (by rw [hmid, ← hl.content, hcontent])
    exact ⟨hid ▸ hl.id, hbox ▸ hl.box, hcontent ▸ hl.content, hsame ▸ hma⟩
  · intro hl
    exact ⟨hid.trans hl.id, hbox.trans hl.box, hcontent.trans hl.content, hm _ hl.message⟩

theorem mem_known_map {f : Delivery → Delivery} {rows : List Delivery}
    (hb : b.deliveries = a.deliveries.map f ++ rows)
    (hid : ∀ d, (f d).id = d.id) (hbox : ∀ d, (f d).subscriptionID = d.subscriptionID)
    (hcontent : ∀ d, (f d).messageID = d.messageID) (hm : ∀ m ∈ a.messages, m ∈ b.messages) :
    l ∈ (mail now b).known ↔ l ∈ (mail now a).known ∨ ∃ r ∈ rows, Shows b r l := by
  have hshows : ∀ d ∈ a.deliveries, (Shows b (f d) l ↔ Shows a d l) := fun d hd =>
    shows_before hd hm (hid d) (hbox d) (hcontent d)
  constructor
  · rintro ⟨x, hx, hl⟩
    rw [hb, List.mem_append] at hx
    rcases hx with hx | hx
    · obtain ⟨d, hd, rfl⟩ := List.mem_map.mp hx
      exact Or.inl ⟨d, hd, (hshows d hd).mp hl⟩
    · exact Or.inr ⟨x, hx, hl⟩
  · rintro (⟨d, hd, hl⟩ | ⟨r, hr, hl⟩)
    · refine ⟨f d, ?_, (hshows d hd).mpr hl⟩
      rw [hb]
      exact List.mem_append_left _ (List.mem_map_of_mem hd)
    · refine ⟨r, ?_, hl⟩
      rw [hb]
      exact List.mem_append_right _ hr

theorem mem_waiting_map {f : Delivery → Delivery} {rows : List Delivery}
    (hb : b.deliveries = a.deliveries.map f ++ rows)
    (hid : ∀ d, (f d).id = d.id) (hbox : ∀ d, (f d).subscriptionID = d.subscriptionID)
    (hcontent : ∀ d, (f d).messageID = d.messageID) (hm : ∀ m ∈ a.messages, m ∈ b.messages) :
    l ∈ (mail now b).waiting ↔
      (∃ d ∈ a.deliveries, (f d).Outstanding now ∧ Shows a d l) ∨
        ∃ r ∈ rows, r.Outstanding now ∧ Shows b r l := by
  have hshows : ∀ d ∈ a.deliveries, (Shows b (f d) l ↔ Shows a d l) := fun d hd =>
    shows_before hd hm (hid d) (hbox d) (hcontent d)
  constructor
  · rintro ⟨x, hx, ho, hl⟩
    rw [hb, List.mem_append] at hx
    rcases hx with hx | hx
    · obtain ⟨d, hd, rfl⟩ := List.mem_map.mp hx
      exact Or.inl ⟨d, hd, ho, (hshows d hd).mp hl⟩
    · exact Or.inr ⟨x, hx, ho, hl⟩
  · rintro (⟨d, hd, ho, hl⟩ | ⟨r, hr, ho, hl⟩)
    · refine ⟨f d, ?_, ho, (hshows d hd).mpr hl⟩
      rw [hb]
      exact List.mem_append_left _ (List.mem_map_of_mem hd)
    · refine ⟨r, ?_, ho, hl⟩
      rw [hb]
      exact List.mem_append_right _ hr

theorem sends_of_rows {o : Office UUID UUID Message UUID} {f : Delivery → Delivery}
    {rows : List Delivery} {k : UUID} {m : Message} {gone : Set (Letter UUID UUID Message)}
    (hb : b.deliveries = a.deliveries.map f ++ rows)
    (hid : ∀ d, (f d).id = d.id) (hbox : ∀ d, (f d).subscriptionID = d.subscriptionID)
    (hcontent : ∀ d, (f d).messageID = d.messageID) (hm : ∀ m ∈ a.messages, m ∈ b.messages)
    (hgone : ∀ d ∈ a.deliveries, ∀ l, Shows a d l →
      ((f d).Outstanding now ↔ d.Outstanding now ∧ l ∉ gone))
    (hmem : m ∈ b.messages) (hfresh : ∀ r ∈ rows, ¬ Has Delivery.id r.id a.deliveries)
    (hrow : ∀ r ∈ rows, r.messageID = m.id ∧ (r.Outstanding now ↔ r.subscriptionID ∈ o.keeps))
    (honce : (rows.map Delivery.subscriptionID).Nodup)
    (haudience : ∀ i, i ∈ o.audience k m ↔ i ∈ rows.map Delivery.subscriptionID) :
    Sends o k m gone (mail now a) (mail now b) := by
  have hcontentOf : ∀ r ∈ rows, ∀ l, Shows b r l → l.content = m := fun r hr l hl =>
    b.sound.message_pk.eq hl.message hmem (by rw [← hl.content, (hrow r hr).1])
  refine ⟨{l | ∃ r ∈ rows, Shows b r l}, ?_, ?_, ?_⟩
  · constructor
    · rintro l ⟨r, hr, hl⟩ l' ⟨d, hd, hl'⟩ heq
      exact hfresh r hr ⟨d, hd, by rw [hl.id, hl'.id, heq]⟩
    · rintro l ⟨r, hr, hl⟩
      exact hcontentOf r hr l hl
    · refine ⟨?_, ?_, ?_⟩
      · rintro l ⟨r, hr, hl⟩
        rw [haudience, ← hl.box]
        exact List.mem_map_of_mem hr
      · rintro l ⟨r, hr, hl⟩ l' ⟨r', hr', hl'⟩ heq
        have hsame : r = r' :=
          List.inj_on_of_nodup_map honce hr hr' (by rw [hl.box, hl'.box, heq])
        have hmessage := (hcontentOf r hr l hl).trans (hcontentOf r' hr' l' hl').symm
        have hids : l.id = l'.id := by rw [← hl.id, ← hl'.id, hsame]
        cases l
        cases l'
        simp_all
      · intro i hi
        obtain ⟨r, hr, rfl⟩ := List.mem_map.mp ((haudience i).mp hi)
        exact ⟨⟨r.id, r.subscriptionID, m⟩, ⟨r, hr, rfl, rfl, (hrow r hr).1, hmem⟩, rfl⟩
  · ext l
    exact mem_known_map hb hid hbox hcontent hm
  · ext l
    rw [mem_waiting_map hb hid hbox hcontent hm]
    refine or_congr ?_ ?_
    · constructor
      · rintro ⟨d, hd, ho, hl⟩
        obtain ⟨ho, hnot⟩ := (hgone d hd l hl).mp ho
        exact ⟨⟨d, hd, ho, hl⟩, hnot⟩
      · rintro ⟨⟨d, hd, ho, hl⟩, hnot⟩
        exact ⟨d, hd, (hgone d hd l hl).mpr ⟨ho, hnot⟩, hl⟩
    · constructor
      · rintro ⟨r, hr, ho, hl⟩
        exact ⟨⟨r, hr, hl⟩, hl.box ▸ (hrow r hr).2.mp ho⟩
      · rintro ⟨⟨r, hr, hl⟩, hkeeps⟩
        exact ⟨r, hr, (hrow r hr).2.mpr (hl.box.symm ▸ hkeeps), hl⟩

structure Steady (t t' : Tables) : Prop where
  topics : t'.topics = t.topics
  subscriptions : t'.subscriptions.map Subscription.settled =
    t.subscriptions.map Subscription.settled

theorem Steady.refl (t : Tables) : Steady t t := ⟨rfl, rfl⟩

theorem Steady.exists {t t' : Tables} (h : Steady t t') {P : Subscription → Prop}
    (hP : ∀ s, P s.settled ↔ P s) : (∃ s ∈ t'.subscriptions, P s) ↔ ∃ s ∈ t.subscriptions, P s := by
  have hside : ∀ {u v : List Subscription}, u.map Subscription.settled =
      v.map Subscription.settled → (∃ s ∈ u, P s) → ∃ s ∈ v, P s := by
    rintro u v heq ⟨s, hs, hp⟩
    have hmem : s.settled ∈ v.map Subscription.settled := heq ▸ List.mem_map_of_mem hs
    obtain ⟨r, hr, hrs⟩ := List.mem_map.mp hmem
    exact ⟨r, hr, (hP r).mp (hrs ▸ (hP s).mpr hp)⟩
  exact ⟨hside h.subscriptions, hside h.subscriptions.symm⟩

theorem Steady.audience {env : Env} {t t' : Tables} (h : Steady t t') :
    (office env t').audience = (office env t).audience := by
  funext k m
  ext i
  have htopic : liveTopic t' k = liveTopic t k := by rw [liveTopic, liveTopic, h.topics]
  have hsubs := h.exists (P := fun s => s.id = i ∧ s.topicID = k ∧ s.deletedAt = none ∧
    filterAccepts env s m = true) fun _ => Iff.rfl
  exact and_congr (by rw [htopic]) hsubs

theorem Steady.keeps {env : Env} {t t' : Tables} (h : Steady t t') :
    (office env t').keeps = (office env t).keeps := by
  ext i
  exact h.exists (P := fun s => s.id = i ∧ 0 < s.messageTTL) fun _ => Iff.rfl

theorem rows_of_delivery {env : Env} {subs : List Subscription} {t : Tables} {m : Message}
    {drawn : ℕ} {r : Delivery} (hr : r ∈ deliveryRows env drawn
      (subs.filterMap (fun s => deliverToSubscription env t s m))) :
    ∃ s ∈ subs, r.subscriptionID = s.id ∧ r.messageID = m.id ∧ r.completedAt = none ∧
      r.expiresAt = env.now + s.messageTTL := by
  obtain ⟨k, hk, rfl⟩ := mem_deliveryRows.mp hr
  obtain ⟨s, hs, hc⟩ := List.mem_filterMap.mp (List.getElem_mem hk)
  obtain ⟨-, hset⟩ := deliverToSubscription_some.mp hc
  rw [← hset]
  exact ⟨s, hs, rfl, rfl, rfl, rfl⟩

theorem sends_of_delivery {env : Env} {start : DB} {t t' : Tables} {k : UUID} {m : Message}
    {drawn : ℕ} {f : Delivery → Delivery} {gone : Set (Letter UUID UUID Message)}
    (hsteady : Steady start.toTables t) (huniq : UniqueKeys Subscription.id t.subscriptions)
    (hlive : liveTopic t k ≠ none)
    (hb : b.deliveries = a.deliveries.map f ++ deliveryRows env drawn
      ((liveSubscriptions env t k).filterMap (fun s => deliverToSubscription env t' s m)))
    (hid : ∀ d, (f d).id = d.id) (hbox : ∀ d, (f d).subscriptionID = d.subscriptionID)
    (hcontent : ∀ d, (f d).messageID = d.messageID) (hm : ∀ m ∈ a.messages, m ∈ b.messages)
    (hgone : ∀ d ∈ a.deliveries, ∀ l, Shows a d l →
      ((f d).Outstanding env.now ↔ d.Outstanding env.now ∧ l ∉ gone))
    (hmem : m ∈ b.messages)
    (hfresh : ∀ r ∈ deliveryRows env drawn
      ((liveSubscriptions env t k).filterMap (fun s => deliverToSubscription env t' s m)),
      ¬ Has Delivery.id r.id a.deliveries) :
    Sends (office env start.toTables) k m gone (mail env.now a) (mail env.now b) := by
  have hsubs := deliveryRows_subscriptions env drawn
    ((liveSubscriptions env t k).filterMap (fun s => deliverToSubscription env t' s m))
  rw [FanOut.accepted_subscriptions] at hsubs
  refine sends_of_rows hb hid hbox hcontent hm hgone hmem hfresh ?_ ?_ ?_
  · intro r hr
    obtain ⟨s, hs, hsub, hmessage, hcompleted, hexpires⟩ := rows_of_delivery hr
    obtain ⟨hs, -, -⟩ := mem_liveSubscriptions.mp hs
    refine ⟨hmessage, ?_⟩
    rw [← hsteady.keeps, Delivery.Outstanding, hcompleted, hexpires, hsub]
    constructor
    · rintro ⟨-, hlt⟩
      exact ⟨s, hs, rfl, (lt_add_iff_pos_right _).mp hlt⟩
    · rintro ⟨s', hs', heq, hpos⟩
      have hsame : s' = s := huniq.eq hs' hs heq
      rw [hsame] at hpos
      exact ⟨rfl, (lt_add_iff_pos_right _).mpr hpos⟩
  · rw [hsubs]
    exact (liveSubscriptions_nodup huniq).sublist (List.filter_sublist.map _)
  · intro i
    rw [hsubs, ← hsteady.audience]
    simp only [List.mem_map, List.mem_filter, mem_liveSubscriptions]
    constructor
    · rintro ⟨-, s, hs, heq, htopic, hdeleted, hacc⟩
      exact ⟨s, ⟨⟨hs, htopic, hdeleted⟩, hacc⟩, heq⟩
    · rintro ⟨s, ⟨⟨hs, htopic, hdeleted⟩, hacc⟩, heq⟩
      exact ⟨hlive, s, hs, heq, htopic, hdeleted, hacc⟩

end

theorem deliverDeadLetter_delivered {env : Env} {data : DeadLetterData} {tx tx' : Tx}
    (h : deliverDeadLetter env data tx = .ok tx') {m : Message} (hm : m ∈ tx.db.messages)
    (hid : m.id = data.deliveryMessageID) :
    ∃ rows, tx'.db.toTables = { tx.db.toTables with deliveries := tx.db.deliveries ++ rows } ∧
      (∀ r ∈ rows, ¬ Has Delivery.id r.id tx.db.deliveries) ∧
      (liveTopic tx.db.toTables data.deadLetterTopicID = none ∧ rows = [] ∨
        liveTopic tx.db.toTables data.deadLetterTopicID ≠ none ∧ rows = deliveryRows env tx.drawn
          ((liveSubscriptions env tx.db.toTables data.deadLetterTopicID).filterMap
            (fun s => deliverToSubscription env tx.db.toTables s m))) := by
  unfold deliverDeadLetter at h
  split at h
  · rename_i hnone
    cases h
    exact ⟨[], by simp [hnone]⟩
  · rename_i dlTopic hsome
    have htopic : dlTopic.id = data.deadLetterTopicID := by
      have hfound := List.find?_some hsome
      simp only [Bool.and_eq_true, decide_eq_true_eq] at hfound
      exact hfound.1
    have hlive : liveTopic tx.db.toTables data.deadLetterTopicID ≠ none := by simp [hsome]
    rw [htopic] at h
    dsimp only at h
    split at h
    · rename_i hsubs
      cases h
      exact ⟨[], by simp, by simp, Or.inr ⟨hlive, by rw [hsubs]; rfl⟩⟩
    · split at h
      · cases h
      · rename_i x hf
        obtain ⟨hx, hxid⟩ := fetch_mem hf
        have hsame : x = m := tx.db.sound.message_pk.eq hx hm (hxid.trans hid.symm)
        rw [hsame] at h
        obtain ⟨-, hfresh, htab, -⟩ := createBulk_rows h
        exact ⟨_, htab, hfresh, Or.inr ⟨hlive, rfl⟩⟩

theorem deadLetter_sends {env : Env} {start : DB} {tx tx' : Tx} {d : Delivery} {k : UUID}
    {l : Letter UUID UUID Message} (hsteady : Steady start.toTables tx.db.toTables)
    (hd : d ∈ tx.db.deliveries) (hl : Shows tx.db d l)
    (h : deadLetterDelivery env (deadLetterDataFromEntities d k) tx = .ok tx') :
    Sends (office env start.toTables) k l.content {l} (mail env.now tx.db)
      (mail env.now tx'.db) := by
  obtain ⟨mid, hmid, hdb⟩ := deadLetterDelivery_ok h
  obtain ⟨rows, htab, hfresh, hcase⟩ :=
    deliverDeadLetter_delivered hmid hl.message hl.content.symm
  have hdeliveries : tx'.db.deliveries = completed env [d.id] tx.db.deliveries ++ rows := by
    have hkept : completed env [d.id] rows = rows := by
      refine completed_fresh fun r hr hmem => hfresh r hr ?_
      rw [List.mem_singleton.mp hmem]
      exact Has.of_mem hd
    have hupdate := congrArg Tables.deliveries (updated_completed env mid.db d.id)
    simp only [htab, completed_append, hkept] at hupdate
    rw [hdb]
    exact hupdate
  have hmessages : tx'.db.messages = tx.db.messages := by
    rw [hdb]
    show mid.db.messages = tx.db.messages
    rw [htab]
  have hgone : ∀ x ∈ tx.db.deliveries, ∀ l', Shows tx.db x l' →
      ((setWhere (fun d' => decide (d'.id ∈ [d.id])) (completion env).apply x).Outstanding env.now ↔
        x.Outstanding env.now ∧ l' ∉ ({l} : Set _)) := by
    intro x hx l' hl'
    by_cases hxd : x.id = d.id
    · have hsame : x = d := tx.db.sound.delivery_pk.eq hx hd hxd
      have hletter : l' = l := (mail env.now tx.db).single ⟨x, hx, hl'⟩ ⟨d, hd, hl⟩
        (by rw [← hl'.id, ← hl.id, hsame])
      simp [setWhere, hxd, hletter, completion, DeliveryUpdate.apply, Delivery.Outstanding]
    · have hletter : l' ≠ l := fun heq => hxd (by rw [hl'.id, hl.id, heq])
      simp [setWhere, hxd, hletter]
  have hkeep : ∀ m ∈ tx.db.messages, m ∈ tx'.db.messages := fun m hm => hmessages ▸ hm
  rcases hcase with ⟨hnone, hrows⟩ | ⟨hlive, hrows⟩
  · rw [hrows] at hdeliveries
    refine sends_of_rows hdeliveries (setWhere_id _) (setWhere_subscriptionID _)
      (setWhere_messageID _) hkeep hgone (hkeep _ hl.message) (by simp) (by simp) (by simp) ?_
    intro i
    rw [← hsteady.audience]
    constructor
    · rintro ⟨hlive, -⟩
      exact absurd hnone hlive
    · simp
  · rw [hrows] at hdeliveries hfresh
    exact sends_of_delivery hsteady tx.db.sound.subscription_pk hlive hdeliveries (setWhere_id _)
      (setWhere_subscriptionID _) (setWhere_messageID _) hkeep hgone (hkeep _ hl.message) hfresh

theorem Shows.carried {a b : DB} {d : Delivery} {l : Letter UUID UUID Message} (h : Shows a d l)
    (hm : b.messages = a.messages) : Shows b d l := ⟨h.id, h.box, h.content, hm ▸ h.message⟩

theorem mail_congr {now : Time} {a b : DB} (hd : b.deliveries = a.deliveries)
    (hm : b.messages = a.messages) : mail now b = mail now a := by
  have hshows : ∀ d l, Shows b d l ↔ Shows a d l := fun d l =>
    ⟨fun hl => hl.carried hm.symm, fun hl => hl.carried hm⟩
  ext l
  · simp only [mail, Set.mem_ofPred_eq, hd, hshows]
  · simp only [mail, Set.mem_ofPred_eq, hd, hshows]

theorem mail_update {now : Time} {db : DB} (p : Delivery → Bool) {u : DeliveryUpdate}
    (hc : u.completedAt = none) (he : u.expiresAt = none) :
    mail now (db.updateDeliveries p u) = mail now db := by
  have hb : (db.updateDeliveries p u).deliveries = db.deliveries.map (setWhere p u.apply) ++ [] :=
    (List.append_nil _).symm
  have ho : ∀ d : Delivery, (setWhere p u.apply d).Outstanding now ↔ d.Outstanding now := by
    intro d
    rw [Delivery.Outstanding, setWhere_completedAt p d hc, setWhere_expiresAt p d he]
    exact Iff.rfl
  ext l
  · rw [mem_known_map hb (setWhere_id p) (setWhere_subscriptionID p) (setWhere_messageID p)
      fun _ hm => hm]
    simp
  · rw [mem_waiting_map hb (setWhere_id p) (setWhere_subscriptionID p) (setWhere_messageID p)
      fun _ hm => hm]
    simp only [ho, List.not_mem_nil, false_and, exists_false, or_false]
    exact Iff.rfl

structure Underway (start db : DB) : Prop where
  steady : Steady start.toTables db.toTables
  messages : db.messages = start.messages

theorem Underway.frame {start a b : DB} {id : UUID} (h : Underway start a) (hf : Frame id a b) :
    Underway start b where
  steady := ⟨hf.topics.trans h.steady.topics, hf.subscriptions ▸ h.steady.subscriptions⟩
  messages := hf.messages.trans h.messages

/-- A loop that deals with one delivery at a time, and forwards some of them.
Those that it is known to take away stay away. -/
theorem loop_forwards {σ α : Type} (env : Env) {start : DB}
    (among : Set (Letter UUID UUID Message)) (Taken : α → Prop) (view : σ → DB)
    (row : α → Delivery) {body : σ → α → Except Error σ} {items : List α} {s s' : σ}
    (h : items.foldlM body s = .ok s')
    (hstep : ∀ a ∈ items, ∀ s s', body s a = .ok s' → Underway start (view s) →
      row a ∈ (view s).deliveries → Frame (row a).id (view s) (view s') ∧
        ReflTransGen (Forwards (office env start.toTables) among) (mail env.now (view s))
          (mail env.now (view s')) ∧
        (Taken a → ∀ l, Shows start (row a) l → l ∉ (mail env.now (view s')).waiting))
    (hdistinct : (items.map (fun a => (row a).id)).Nodup)
    (hrows : ∀ a ∈ items, row a ∈ (view s).deliveries) (hway : Underway start (view s)) :
    Underway start (view s') ∧
      ReflTransGen (Forwards (office env start.toTables) among) (mail env.now (view s))
        (mail env.now (view s')) ∧
      ∀ a ∈ items, Taken a → ∀ l, Shows start (row a) l →
        l ∉ (mail env.now (view s')).waiting := by
  induction items generalizing s with
  | nil =>
    obtain rfl : s = s' := by simpa using h
    exact ⟨hway, .refl, by simp⟩
  | cons a items ih =>
    rw [List.foldlM_cons] at h
    obtain ⟨mid, hmid, hrest⟩ := bind_ok.mp h
    rw [List.map_cons, List.nodup_cons] at hdistinct
    have ha : row a ∈ (view s).deliveries := hrows a (by simp)
    obtain ⟨hframe, hfirst, htaken⟩ := hstep a (by simp) s mid hmid hway ha
    have hmidRows : ∀ x ∈ items, row x ∈ (view mid).deliveries := by
      intro x hx
      refine hframe.kept _ (hrows x (by simp [hx])) fun heq => hdistinct.1 ?_
      exact heq ▸ List.mem_map_of_mem (f := fun a => (row a).id) hx
    obtain ⟨hlast, hrun, hothers⟩ := ih hrest
      (fun x hx => hstep x (by simp [hx])) hdistinct.2 hmidRows (hway.frame hframe)
    refine ⟨hlast, hfirst.trans hrun, ?_⟩
    intro x hx hx'
    rcases List.mem_cons.mp hx with rfl | hx
    · intro l hl hw
      have hknown : l ∈ (mail env.now (view mid)).known :=
        forwards_known hfirst ⟨row x, ha, hl.carried hway.messages⟩
      exact htaken hx' l hl ((forwards_waiting hrun hknown).1 hw)
    · exact hothers x hx hx'

theorem deadLetter_forwards {env : Env} {start : DB} {tx tx' : Tx} {d : Delivery} {k : UUID}
    (among : Set (Letter UUID UUID Message)) (hway : Underway start tx.db)
    (hd : d ∈ tx.db.deliveries) (ho : d.Outstanding env.now)
    (hamong : ∀ l, Shows start d l → l ∈ among)
    (hspent : ∀ l, Shows start d l → (office env start.toTables).spent l k)
    (h : deadLetterDelivery env (deadLetterDataFromEntities d k) tx = .ok tx') :
    Frame d.id tx.db tx'.db ∧
      ReflTransGen (Forwards (office env start.toTables) among) (mail env.now tx.db)
        (mail env.now tx'.db) ∧
      ∀ l, Shows start d l → l ∉ (mail env.now tx'.db).waiting := by
  have hsent : ∀ l, Shows start d l → Sends (office env start.toTables) k l.content {l}
      (mail env.now tx.db) (mail env.now tx'.db) := fun l hl =>
    deadLetter_sends hway.steady hd (hl.carried hway.messages) h
  obtain ⟨l, hl⟩ := shows_of_mem hd
  have hl := hl.carried (b := start) hway.messages.symm
  refine ⟨deadLetter_frame (e := ⟨env, .ack [], trivial⟩) h, .single ⟨l, k, hamong l hl,
    hspent l hl, (waiting_iff hd (hl.carried hway.messages)).mpr ho, hsent l hl⟩, ?_⟩
  intro l' hl' hw
  have hknown : l' ∈ (mail env.now tx.db).known := ⟨d, hd, hl'.carried hway.messages⟩
  exact (((hsent l' hl').waiting hknown).mp hw).2 rfl

end Mmmbbb.Letters
