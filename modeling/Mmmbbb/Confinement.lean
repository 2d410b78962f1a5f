import Mmmbbb.Brokering

/-!
# Where messages can get

A subscription gets messages of its own topic, and of the topics from which
dead-letter policies lead there. No other message ever reaches it.
-/

set_option autoImplicit false

namespace Mmmbbb.Confinement
open KeyedRows Programs Mailboxes Mmmbbb.Schema Mmmbbb.Database Mmmbbb.Delivering Mmmbbb.Consuming
open Mmmbbb.Runs Mmmbbb.Writes Mmmbbb.Alterations Mmmbbb.Letters Mmmbbb.Brokering Relation

def Policy (db : DB) (a b : UUID) : Prop :=
  ∃ s ∈ db.subscriptions, s.topicID = a ∧ s.deadLetterTopicID = some b

def Led (w : World) (es : List Event) (a b : UUID) : Prop :=
  ∃ pre, pre <+: es ∧ Policy (w.run pre).db a b

def Confined (r : UUID → UUID → Prop) (db : DB) : Prop :=
  ∀ d ∈ db.deliveries, ∀ m ∈ db.messages, m.id = d.messageID →
    ∀ s ∈ db.subscriptions, s.id = d.subscriptionID → ReflTransGen r m.topicID s.topicID

section
variable {w : World} {e : Event} {r r' : UUID → UUID → Prop}

theorem subscription_before {s : Subscription} (hs : s ∈ (w.after e).db.subscriptions) :
    (∃ x ∈ w.db.subscriptions, x.id = s.id ∧ x.topicID = s.topicID) ∨
      ¬ Has Subscription.id s.id w.db.subscriptions := by
  have hmapped : ∀ {f : Subscription → Subscription},
      (w.after e).db.subscriptions = w.db.subscriptions.map f → (∀ x, (f x).id = x.id) →
      (∀ x, (f x).topicID = x.topicID) →
      ∃ x ∈ w.db.subscriptions, x.id = s.id ∧ x.topicID = s.topicID := by
    intro f hmap hid htopic
    rw [hmap] at hs
    obtain ⟨x, hx, rfl⟩ := List.mem_map.mp hs
    exact ⟨x, hx, (hid x).symm, (htopic x).symm⟩
  by_cases ha : OnDeliveries e.action
  · obtain ⟨x, hx, hsame⟩ := (transaction_of_action w ha).static.subscription_before hs
    exact Or.inl ⟨x, hx, Subscription.settled_eq hsame Subscription.id fun _ => rfl,
      Subscription.settled_eq hsame Subscription.topicID fun _ => rfl⟩
  · have halt := alteration_after w e ha
    generalize ht : (w.after e).db.toTables = t at halt
    generalize e.action = a at halt
    have hsubs := congrArg Tables.subscriptions ht
    cases halt with
    | @createSubscription p x y _ _ _ _ hfresh =>
      rw [hsubs, List.mem_append, List.mem_singleton] at hs
      rcases hs with hs | rfl
      · exact Or.inl ⟨s, hs, rfl, rfl⟩
      · exact Or.inr hfresh
    | updateSubscription =>
      exact Or.inl (hmapped hsubs (setWhere_keeps Subscription.id (SubscriptionUpdate.apply_id _))
        (setWhere_keeps Subscription.topicID (SubscriptionUpdate.apply_topicID _)))
    | setSubscriptions =>
      exact Or.inl (hmapped hsubs (setWhere_keeps Subscription.id (SubscriptionUpdate.apply_id _))
        (setWhere_keeps Subscription.topicID (SubscriptionUpdate.apply_topicID _)))
    | pruneSubscriptions =>
      rw [hsubs] at hs
      exact Or.inl ⟨s, List.mem_of_mem_filter hs, rfl, rfl⟩
    | pruneTopics => exact Or.inl (hmapped hsubs (fun _ => rfl) fun _ => rfl)
    | _ => exact Or.inl ⟨s, hsubs ▸ hs, rfl, rfl⟩

theorem Confined.mono (h : Confined r w.db) (hr : ∀ a b, r a b → r' a b) : Confined r' w.db :=
  fun d hd m hm hid s hs hsub => ReflTransGen.mono hr _ _ (h d hd m hm hid s hs hsub)

theorem posted_topic {env : Env} {t : Tables} {a : Runs.Action} {k : UUID} {m : Message}
    (h : request env t a = .post k m) : m.topicID = k := by
  cases a <;> simp only [request] at h <;> try cases h
  case publish p =>
    split at h
    · obtain ⟨rfl, rfl⟩ := Request.post.inj h
      rfl
    · cases h
  all_goals
    split at h <;> cases h

theorem confined_step (hpolicy : ∀ a b, Policy w.db a b → r a b) (h : Confined r w.db) :
    Confined r (w.after e).db := by
  cases hexec : exec e.env e.action (Tx.begin w.db) with
  | error x => rwa [after_failed hexec]
  | ok given =>
    obtain ⟨given, tx⟩ := given
    obtain ⟨out, hserves, -⟩ := exec_serves w e hexec
    intro d hd m hm hid s hs hsub
    have hsame : ∀ x ∈ w.db.subscriptions, x.id = s.id → x.topicID = s.topicID := by
      intro x hx hxs
      rcases subscription_before hs with ⟨y, hy, hys, htopic⟩ | hfresh
      · have heq : x = y := w.db.sound.subscription_pk.eq hx hy (hxs.trans hys.symm)
        exact heq ▸ htopic
      · exact absurd ⟨x, hx, hxs⟩ hfresh
    have hknown : (⟨d.id, d.subscriptionID, m⟩ : Letter UUID UUID Message) ∈
        (mail e.env.now (w.after e).db).known := ⟨d, hd, rfl, rfl, hid.symm, hm⟩
    rcases hserves.origin hknown with ⟨x, hx, hl⟩ | ⟨k, hpost, hbox⟩ |
      ⟨l, ⟨x, hx, hl⟩, k, hspent, hcontent, hbox⟩
    · obtain ⟨y, hy, hyx⟩ := w.db.sound.delivery_subscription x hx
      have hys : y.id = s.id := by rw [hyx, hl.box, hsub]
      rw [← hsame y hy hys]
      exact h x hx m hl.message hl.content.symm y hy hyx
    · obtain ⟨-, y, hy, hyd, htopic, -⟩ := hbox
      rw [← hsame y hy (hyd.trans hsub.symm), htopic, posted_topic hpost]
    · obtain ⟨-, y, hy, hyd, htopic, -⟩ := hbox
      obtain ⟨z, hz, hzl, v, hv, hvz, hfor⟩ := hspent
      obtain ⟨n, hconfig, -⟩ := Subscription.deadLetterTopicFor_some.mp hfor
      have hdead := (Subscription.deadLetterConfig_eq.mp hconfig).2.1
      have hmessage : m = l.content := hcontent
      have hzx : z = x := w.db.sound.delivery_pk.eq hz hx (by rw [hzl, hl.id])
      have hfirst : ReflTransGen r m.topicID v.topicID :=
        h x hx m (hmessage ▸ hl.message) (by rw [hl.content, hmessage]) v hv (hzx ▸ hvz)
      rw [← hsame y hy (hyd.trans hsub.symm), htopic]
      exact hfirst.tail (hpolicy _ _ ⟨v, hv, rfl, hdead⟩)

end

theorem run_append_one (w : World) (es : List Event) (e : Event) :
    w.run (es ++ [e]) = (w.run es).after e := by
  simp [World.run]

/-- In every run, messages stay within the topics that the policies in force so
far connect. -/
theorem messages_confined (es : List Event) :
    Confined (Led World.initial es) (World.initial.run es).db := by
  induction es using List.reverseRecOn with
  | nil =>
    intro d hd
    cases hd
  | append_singleton es e ih =>
    rw [run_append_one]
    refine confined_step (fun a b hab => ⟨es, List.prefix_append es [e], hab⟩) ?_
    exact ih.mono fun a b ⟨pre, hpre, hab⟩ => ⟨pre, hpre.trans (List.prefix_append es [e]), hab⟩

end Mmmbbb.Confinement
