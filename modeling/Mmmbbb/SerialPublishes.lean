import Mmmbbb.OneChain
import Mmmbbb.Portions
import Mmmbbb.Serials

/-!
# Publishes in the order of their commits

A publish reads from the deliveries only the end of the chain of an ordered
subscription. Publishes that take turns at setting up deliveries of such a
subscription do what the bus does with them one after another.
-/

set_option autoImplicit false

namespace Mmmbbb.SerialPublishes
open KeyedRows Programs ReadCommitted Serials Mmmbbb.Schema Mmmbbb.Database Mmmbbb.Delivering
open Mmmbbb.Consuming Mmmbbb.Runs Mmmbbb.Portions Mmmbbb.Publishers Mmmbbb.OneChain

def Accepted : Statement → Prop
  | .execute _ p => (Runs.Action.publish p).Valid
  | _ => True

instance : DecidablePred Accepted := by
  intro a
  cases a <;> unfold Accepted <;> infer_instance

section
variable {n : ℕ}

def OnlyAccepted (_ : Calls n) (e : ReadCommitted.Event n Statement) (_ : Calls n) : Prop :=
  match e with
  | .run _ a => Accepted a
  | _ => True

instance (st st' : Calls n) (e : ReadCommitted.Event n Statement) :
    Decidable (OnlyAccepted st e st') :=
  match e with
  | .run _ a => inferInstanceAs (Decidable (Accepted a))
  | .commit _ => .isTrue trivial
  | .rollback _ => .isTrue trivial

/-- When a delivery of an ordered subscription is set up, no other transaction
has set up one of it without having ended. -/
def Exclusively (st : Calls n) (e : ReadCommitted.Event n Statement) (_ : Calls n) : Prop :=
  ∀ s ∈ st.committed.subscriptions, s.orderedDelivery = true →
    ∀ x ∈ tailRead s.id st e, ∀ j, j ≠ x.1 → ¬ Pending s.id (st.session j)

instance (st st' : Calls n) (e : ReadCommitted.Event n Statement) :
    Decidable (Exclusively st e st') :=
  inferInstanceAs (Decidable (∀ s ∈ st.committed.subscriptions, _ → ∀ x ∈ tailRead s.id st e, _))

def TakeTurns (st : Calls n) (e : ReadCommitted.Event n Statement) (st' : Calls n) : Prop :=
  OnlyAccepted st e st' ∧ Exclusively st e st'

instance (st st' : Calls n) (e : ReadCommitted.Event n Statement) :
    Decidable (TakeTurns st e st') := inferInstanceAs (Decidable (_ ∧ _))

end

def publishEvent : Statement → List Runs.Event
  | .execute env p =>
    if h : (Runs.Action.publish p).Valid then [⟨env, .publish p, h⟩] else []
  | _ => []

def messages (log : List Insert) : List Message :=
  log.filterMap (fun
    | .message m => some m
    | .delivery _ => none)

theorem messages_append (log ws : List Insert) :
    messages (log ++ ws) = messages log ++ messages ws := List.filterMap_append

@[simp] theorem messages_rows (rows : List Delivery) :
    messages (rows.map Insert.delivery) = [] := by
  simp [messages]

theorem mem_messages {log : List Insert} {m : Message} : m ∈ messages log ↔ .message m ∈ log := by
  constructor
  · intro h
    obtain ⟨w, hw, hm⟩ := List.mem_filterMap.mp h
    cases w with
    | message x =>
      obtain rfl := Option.some.inj hm
      exact hw
    | delivery d => cases hm
  · exact fun h => List.mem_filterMap.mpr ⟨_, h, rfl⟩

theorem mem_inserted {log : List Insert} {d : Delivery} :
    d ∈ inserted log ↔ .delivery d ∈ log := by
  constructor
  · intro h
    obtain ⟨w, hw, hd⟩ := List.mem_filterMap.mp h
    cases w with
    | message m => cases hd
    | delivery x =>
      obtain rfl := Option.some.inj hd
      exact hw
  · exact fun h => List.mem_filterMap.mpr ⟨_, h, rfl⟩

section
variable {t : Tables} {s s' : Session Insert Point} {a : Statement} {ws : List Insert} {q : Point}

theorem seen_messages : (seen t s).messages = t.messages ++ messages s.log := by
  unfold seen
  induction s.log generalizing t with
  | nil => simp [messages]
  | cons w log ih =>
    cases w <;> simp [ih, Insert.apply, messages]

theorem seen_topics : (seen t s).topics = t.topics := by
  unfold seen
  induction s.log generalizing t with
  | nil => rfl
  | cons w log ih => cases w <;> simp [ih, Insert.apply]

theorem execute_reads {env : Env} {p : PublishMessageParams} {q' : Point}
    (h : statement (.execute env p) q t = .ok (ws, q')) :
    ∃ topic : Topic, q = .ready ∧ publishTopic p t = .ok topic ∧
      storedPayload env p.payload ≠ none ∧
      ¬ Has Message.id (newMessage env (env.uuid 0) topic.id p).id t.messages ∧
      ws = [.message (newMessage env (env.uuid 0) topic.id p)] ∧
      q' = .delivering env (newMessage env (env.uuid 0) topic.id p)
        (liveSubscriptions env t topic.id) [] := by
  cases q with
  | ready =>
    obtain ⟨topic, htopic, h⟩ := bind_ok.mp h
    obtain ⟨_, hstored, h⟩ := bind_ok.mp h
    obtain ⟨u, hfresh, h⟩ := bind_ok.mp h
    obtain ⟨rfl, rfl⟩ := Prod.mk.inj (pure_ok.mp h)
    exact ⟨topic, rfl, htopic, failWhen_ok.mp hstored, failWhen_ok.mp hfresh, rfl, rfl⟩
  | delivering => cases h

def Underway (t : Tables) (log : List Insert) : Point → Prop
  | .ready => True
  | .delivering _ m subs dc =>
    m ∈ messages log ∧ subs ⊆ t.subscriptions ∧ ∀ c ∈ dc, c.messageID = m.id

structure Own (t : Tables) (s : Session Insert Point) : Prop where
  fresh : ∀ m ∈ messages s.log, ¬ Has Message.id m.id t.messages
  rows : ∀ d ∈ inserted s.log, ∃ m ∈ messages s.log, m.id = d.messageID
  point : Underway t s.log s.point

theorem own_fresh : Own t publishers.fresh where
  fresh := by simp [messages, Program.fresh]
  rows := by simp [inserted, Program.fresh]
  point := trivial

theorem Own.run (h : Own t s) (hst : publishers.statement a s.point (seen t s) = .ok (ws, q)) :
    Own t ⟨s.log ++ ws, q⟩ := by
  cases a with
  | execute env p =>
    obtain ⟨topic, -, -, -, hnew, rfl, rfl⟩ := execute_reads hst
    have hmessages : messages (s.log ++ [.message (newMessage env (env.uuid 0) topic.id p)]) =
        messages s.log ++ [newMessage env (env.uuid 0) topic.id p] := messages_append _ _
    refine ⟨fun m hm => ?_, fun d hd => ?_, ?_, fun r hr => ?_, by simp⟩
    · rw [hmessages] at hm
      rcases List.mem_append.mp hm with hm | hm
      · exact h.fresh m hm
      · rw [List.mem_singleton.mp hm]
        intro hhas
        rw [seen_messages] at hnew
        exact hnew (hhas.append_left _)
    · have hdeliveries : inserted (s.log ++ [.message (newMessage env (env.uuid 0) topic.id p)]) =
          inserted s.log := by
        rw [inserted_append]
        exact List.append_nil _
      rw [hdeliveries] at hd
      obtain ⟨m, hm, hid⟩ := h.rows d hd
      exact ⟨m, by rw [hmessages]; exact List.mem_append_left _ hm, hid⟩
    · rw [hmessages]
      exact List.mem_append_right _ (List.mem_singleton_self _)
    · rw [← seen_subscriptions (s := s)]
      exact (mem_liveSubscriptions.mp hr).1
  | setUp =>
    obtain ⟨env, m, r, subs, dc, hp, rfl, rfl⟩ := setUp_ok hst
    have hpoint := h.point
    rw [hp] at hpoint
    obtain ⟨hm, hsubs, hdc⟩ := hpoint
    rw [List.append_nil]
    refine ⟨h.fresh, h.rows, hm, fun x hx => hsubs (List.mem_cons_of_mem r hx), fun c hc => ?_⟩
    rcases List.mem_append.mp hc with hc | hc
    · exact hdc c hc
    · have hnew := (deliverToSubscription_some.mp (Option.mem_toList.mp hc)).2
      rw [← hnew]
      rfl
  | save =>
    obtain ⟨env, m, dc, hp, rfl, rfl, -⟩ := save_ok hst
    have hpoint := h.point
    rw [hp] at hpoint
    obtain ⟨hm, -, hdc⟩ := hpoint
    have hmessages : messages (s.log ++ (deliveryRows env 1 dc).map .delivery) =
        messages s.log := by
      rw [messages_append, messages_rows, List.append_nil]
    refine ⟨?_, fun d hd => ?_, trivial⟩
    · rw [hmessages]
      exact h.fresh
    · rw [hmessages]
      rw [inserted_append, inserted_rows] at hd
      rcases List.mem_append.mp hd with hd | hd
      · exact h.rows d hd
      · obtain ⟨k, hk, rfl⟩ := mem_deliveryRows.mp hd
        exact ⟨m, hm, (hdc _ (List.getElem_mem hk)).symm⟩

end

def Apart (subs : List Subscription) (s s' : Session Insert Point) : Prop :=
  (∀ w ∈ s.log, ∀ w' ∈ s'.log, Insert.clash w w' = false) ∧
    ∀ r ∈ subs, r.orderedDelivery = true → Pending r.id s → ¬ Pending r.id s'

theorem clash_comm (w w' : Insert) : Insert.clash w w' = Insert.clash w' w := by
  cases w <;> cases w' <;> simp [Insert.clash, eq_comm]

section
variable {t : Tables} {s s' mid : Session Insert Point} {a : Statement} {ws : List Insert}
  {q : Point} {subs : List Subscription} {id : UUID}

theorem Apart.messages (h : Apart subs s s') {m m' : Message} (hm : m ∈ messages s.log)
    (hm' : m' ∈ messages s'.log) : m.id ≠ m'.id := by
  have hfree := h.1 _ (mem_messages.mp hm) _ (mem_messages.mp hm')
  simpa [Insert.clash] using hfree

theorem Apart.deliveries (h : Apart subs s s') {d d' : Delivery} (hd : d ∈ inserted s.log)
    (hd' : d' ∈ inserted s'.log) : d.id ≠ d'.id := by
  have hfree := h.1 _ (mem_inserted.mp hd) _ (mem_inserted.mp hd')
  simpa [Insert.clash] using hfree

theorem pending_run (h : Pending id mid)
    (hst : publishers.statement a mid.point (seen t mid) = .ok (ws, q)) :
    Pending id ⟨mid.log ++ ws, q⟩ := by
  rcases h with ⟨d, hd, hid⟩ | ⟨c, hc, hid⟩
  · exact Or.inl ⟨d, by rw [inserted_append]; exact List.mem_append_left _ hd, hid⟩
  · cases a with
    | execute env p =>
      obtain ⟨topic, hp, -, -⟩ := execute_ok hst
      rw [hp] at hc
      cases hc
    | setUp =>
      obtain ⟨env, m, r, rest, dc, hp, rfl, rfl⟩ := setUp_ok hst
      rw [hp] at hc
      exact Or.inr ⟨c, List.mem_append_left _ hc, hid⟩
    | save =>
      obtain ⟨env, m, dc, hp, rfl, rfl, -⟩ := save_ok hst
      rw [hp] at hc
      have hmem : id ∈ (deliveryRows env 1 dc).map Delivery.subscriptionID := by
        rw [deliveryRows_subscriptions, ← hid]
        exact List.mem_map_of_mem (f := DeliveryCreate.subscriptionID) hc
      obtain ⟨d, hd, hds⟩ := List.mem_map.mp hmem
      refine Or.inl ⟨d, ?_, hds⟩
      rw [inserted_append, inserted_rows]
      exact List.mem_append_right _ hd

theorem pending_solo {rest : List Statement} (hp : Pending id mid)
    (h : publishers.solo t rest mid = .ok s') : Pending id s' :=
  solo_keeps (J := Pending id) (fun _ _ => trivial)
    (fun _ _ _ _ hmid _ hst => pending_run hmid hst) hp h

theorem log_solo {rest : List Statement} (h : publishers.solo t rest mid = .ok s') :
    mid.log ⊆ s'.log :=
  solo_keeps (J := fun r => mid.log ⊆ r.log) (fun _ _ => trivial)
    (fun _ _ _ _ hr _ _ => List.Subset.trans hr (List.subset_append_left _ _))
    (List.Subset.refl _) h

theorem own_solo {as : List Statement} (h : publishers.solo t as publishers.fresh = .ok s) :
    Own t s :=
  solo_keeps (J := Own t) (fun _ _ => trivial)
    (fun _ _ _ _ hs _ hst => hs.run hst) own_fresh h

def Founded (t : Tables) : Prop := ∀ d ∈ t.deliveries, Has Message.id d.messageID t.messages

theorem lastDelivery_replay {env : Env} {r : Subscription} {m : Message} (hfounded : Founded t)
    (hs : Own t s) (hmid : Own t mid) (hsub : messages mid.log ⊆ messages s'.log)
    (hapart : Apart subs s s') (hnone : ∀ d ∈ inserted s.log, d.subscriptionID ≠ r.id) :
    lastDelivery env (seen (seen t s) mid) r m = lastDelivery env (seen t mid) r m := by
  have hsame : ∀ d ∈ (seen t mid).deliveries,
      predecessorOf env (seen (seen t s) mid) r m d = predecessorOf env (seen t mid) r m d := by
    intro d hd
    have hother : ∀ x ∈ messages s.log, x.id ≠ d.messageID := by
      intro x hx hid
      rw [seen_deliveries] at hd
      rcases List.mem_append.mp hd with hd | hd
      · exact hs.fresh x hx (hid ▸ hfounded d hd)
      · obtain ⟨y, hy, hyid⟩ := hmid.rows d hd
        exact hapart.messages hx (hsub hy) (hid.trans hyid.symm)
    have hany : (messages s.log).any
        (fun x => decide (x.id = d.messageID) && decide (x.topicID = m.topicID)) = false := by
      rw [List.any_eq_false]
      intro x hx
      simp [hother x hx]
    rw [predecessorOf, predecessorOf, seen_messages, seen_messages, seen_messages,
      List.any_append, List.any_append, List.any_append, hany, Bool.or_false]
  have hrows : (seen (seen t s) mid).deliveries.filter
      (predecessorOf env (seen (seen t s) mid) r m) =
        (seen t mid).deliveries.filter (predecessorOf env (seen t mid) r m) := by
    have hgone : (inserted s.log).filter (predecessorOf env (seen (seen t s) mid) r m) = [] := by
      rw [List.filter_eq_nil_iff]
      intro d hd
      simp [predecessorOf, hnone d hd]
    rw [← List.filter_congr hsame, seen_deliveries, seen_deliveries, seen_deliveries,
      List.filter_append, List.filter_append, List.filter_append, hgone, List.append_nil]
  rw [lastDelivery, lastDelivery, hrows]

theorem deliver_replay {env : Env} {r : Subscription} {m : Message} (hfounded : Founded t)
    (hs : Own t s) (hmid : Own t mid) (hsub : messages mid.log ⊆ messages s'.log)
    (hapart : Apart subs s s') (hr : r ∈ subs)
    (hpending : ∀ c, deliverToSubscription env (seen t mid) r m = some c → Pending r.id s') :
    deliverToSubscription env (seen (seen t s) mid) r m =
      deliverToSubscription env (seen t mid) r m := by
  by_cases haccepts : filterAccepts env r m = true
  · have hdelivers : deliverToSubscription env (seen t mid) r m =
        some (setUpDelivery env (seen t mid) r m) :=
      deliverToSubscription_some.mpr ⟨haccepts, rfl⟩
    rw [hdelivers]
    refine deliverToSubscription_some.mpr ⟨haccepts, ?_⟩
    by_cases hlinked : r.orderedDelivery = true ∧ m.Keyed
    · have hnone : ∀ d ∈ inserted s.log, d.subscriptionID ≠ r.id :=
        fun d hd hid => hapart.2 r hr hlinked.1 (Or.inl ⟨d, hd, hid⟩) (hpending _ hdelivers)
      rw [setUpDelivery, setUpDelivery,
        lastDelivery_replay hfounded hs hmid hsub hapart hnone]
    · rw [setUpDelivery, setUpDelivery, if_neg hlinked, if_neg hlinked]
  · rw [deliverToSubscription, deliverToSubscription, if_neg haccepts, if_neg haccepts]

theorem statement_replay {rest : List Statement} (hfounded : Founded t)
    (hsubs : t.subscriptions = subs) (hs : Own t s) (hmid : Own t mid) (hapart : Apart subs s s')
    (hst : publishers.statement a mid.point (seen t mid) = .ok (ws, q))
    (hrest : publishers.solo t rest ⟨mid.log ++ ws, q⟩ = .ok s') :
    publishers.statement a mid.point (seen (seen t s) mid) = .ok (ws, q) := by
  have hlog := log_solo hrest
  cases a with
  | execute env p =>
    obtain ⟨topic, hp, htopic, hstored, hnew, rfl, rfl⟩ := execute_reads hst
    have htopic' : publishTopic p (seen (seen t s) mid) = .ok topic := by
      rw [publishTopic, seen_topics, seen_topics] at *
      exact htopic
    have hlive : liveSubscriptions env (seen (seen t s) mid) topic.id =
        liveSubscriptions env (seen t mid) topic.id := by
      rw [liveSubscriptions, liveSubscriptions, seen_subscriptions, seen_subscriptions,
        seen_subscriptions]
    have hnew' : ¬ Has Message.id (newMessage env (env.uuid 0) topic.id p).id
        (seen (seen t s) mid).messages := by
      rintro ⟨x, hx, hid⟩
      rw [seen_messages, seen_messages, List.mem_append, List.mem_append] at hx
      rw [seen_messages] at hnew
      have hown : newMessage env (env.uuid 0) topic.id p ∈ messages s'.log :=
        mem_messages.mpr (hlog (List.mem_append_right _ (List.mem_singleton_self _)))
      rcases hx with (hx | hx) | hx
      · exact hnew ⟨x, List.mem_append_left _ hx, hid⟩
      · exact hapart.messages hx hown hid
      · exact hnew ⟨x, List.mem_append_right _ hx, hid⟩
    rw [hp, ← hlive]
    exact bind_ok.mpr ⟨topic, htopic', bind_ok.mpr ⟨(), failWhen_ok.mpr hstored,
      bind_ok.mpr ⟨(), failWhen_ok.mpr hnew', rfl⟩⟩⟩
  | setUp =>
    obtain ⟨env, m, r, rest', dc, hp, rfl, rfl⟩ := setUp_ok hst
    have hpoint := hmid.point
    rw [hp] at hpoint
    have hr : r ∈ subs := hsubs ▸ hpoint.2.1 (List.mem_cons_self)
    have hmessages : messages mid.log ⊆ messages s'.log := by
      intro x hx
      exact mem_messages.mpr (hlog (List.mem_append_left _ (mem_messages.mp hx)))
    have hpending : ∀ c, deliverToSubscription env (seen t mid) r m = some c →
        Pending r.id s' := by
      intro c hc
      refine pending_solo (Or.inr ⟨c, ?_, ?_⟩) hrest
      · simp [Point.creates, hc]
      · rw [← (deliverToSubscription_some.mp hc).2]
        rfl
    have hsame := deliver_replay hfounded hs hmid hmessages hapart hr hpending
    rw [hp, ← hsame]
    rfl
  | save =>
    obtain ⟨env, m, dc, hp, rfl, rfl, hfresh⟩ := save_ok hst
    have hnodup : ((deliveryRows env 1 dc).map Delivery.id).Nodup := by
      rw [hp] at hst
      obtain ⟨u, hu, -⟩ := bind_ok.mp hst
      exact (not_not.mp (failWhen_ok.mp hu)).1
    have hfresh' : ∀ r ∈ deliveryRows env 1 dc,
        ¬ Has Delivery.id r.id (seen (seen t s) mid).deliveries := by
      rintro r hr ⟨d, hd, hid⟩
      rw [seen_deliveries, seen_deliveries, List.mem_append, List.mem_append] at hd
      have hnew := hfresh r hr
      rw [seen_deliveries] at hnew
      have hown : r ∈ inserted s'.log :=
        mem_inserted.mpr (hlog (List.mem_append_right _ (List.mem_map_of_mem hr)))
      rcases hd with (hd | hd) | hd
      · exact hnew ⟨d, List.mem_append_left _ hd, hid⟩
      · exact hapart.deliveries hd hown hid
      · exact hnew ⟨d, List.mem_append_right _ hd, hid⟩
    rw [hp]
    exact bind_ok.mpr ⟨(), failWhen_ok.mpr (not_not.mpr ⟨hnodup, hfresh'⟩), rfl⟩

end

theorem Apart.symm {subs : List Subscription} {s s' : Session Insert Point}
    (h : Apart subs s s') : Apart subs s' s :=
  ⟨fun w hw w' hw' => by rw [clash_comm]; exact h.1 w' hw' w hw,
    fun r hr ho hp' hp => h.2 r hr ho hp hp'⟩

theorem apart_fresh (subs : List Subscription) (s : Session Insert Point) :
    Apart subs publishers.fresh s :=
  ⟨fun w hw => (by cases hw), fun r _ _ hp => absurd hp (not_pending_fresh r.id)⟩

theorem pending_back {n : ℕ} {st : Calls n} {i : Fin n} {a : Statement} {ws : List Insert}
    {q : Point} {id : UUID}
    (hst : publishers.statement a (st.session i).point (publishers.view st i) = .ok (ws, q))
    (h : Pending id ⟨(st.session i).log ++ ws, q⟩) :
    Pending id (st.session i) ∨ ∃ now, tailRead id st (.run i a) = some (i, now) := by
  cases a with
  | execute env p =>
    obtain ⟨topic, hp, rfl, rfl⟩ := execute_ok hst
    exact Or.inl (pending_execute hp h)
  | setUp =>
    obtain ⟨env, m, r, subs, dc, hp, rfl, rfl⟩ := setUp_ok hst
    by_cases hid : r.id = id
    · exact Or.inr ⟨env.now, by simp [tailRead, hp, hid]⟩
    · exact Or.inl (pending_setUp hp hid h)
  | save =>
    obtain ⟨env, m, dc, hp, rfl, rfl, -⟩ := save_ok hst
    exact Or.inl (pending_save hp h)

theorem publishes_undisturbed {n : ℕ} (subs : List Subscription) :
    Undisturbed publishers n TakeTurns Accepted
      (fun t => t.subscriptions = subs ∧ Founded t) (Apart subs) where
  allow := fun _ _ _ _ h => h.1
  symm := fun _ _ h => h.symm
  apart := apart_fresh subs
  run := by
    intro st i a ws q hI hapart hst hfree hturn j hj
    refine ⟨fun w hw w' hw' => ?_, fun r hr ho hp => ?_⟩
    · rcases List.mem_append.mp hw with hw | hw
      · exact (hapart i j hj.symm).1 w hw w' hw'
      · exact not_clash hfree hj hw hw'
    · rcases pending_back hst hp with hbefore | ⟨now, hread⟩
      · exact (hapart i j hj.symm).2 r hr ho hbefore
      · exact hturn.2 r (hI.1 ▸ hr) ho _ hread j hj
  replay := by
    intro t as bs s s' hI _ hbs hs hs' hapart
    refine solo_replay hbs (fun _ _ _ _ hmid _ hst => Own.run hmid hst) ?_ own_fresh hs'
    intro mid a ws q rest hmid _ hst hrest
    exact statement_replay hI.2 hI.1 (own_solo hs) hmid hapart hst hrest
  keep := by
    intro t as s hI _ hs _
    refine ⟨seen_subscriptions.trans hI.1, fun d hd => ?_⟩
    show Has Message.id d.messageID (seen t s).messages
    have hd : d ∈ (seen t s).deliveries := hd
    rw [seen_deliveries] at hd
    rw [seen_messages]
    rcases List.mem_append.mp hd with hd | hd
    · exact (hI.2 d hd).append_left _
    · obtain ⟨m, hm, hid⟩ := (own_solo hs).rows d hd
      exact ⟨m, List.mem_append_right _ hm, hid⟩

inductive Stands (w : World) (v : Tables) : Point → List Runs.Event → Prop
  | ready : v = w.db.toTables → Stands w v .ready []
  | delivering {env : Env} {p : PublishMessageParams} {hp : (Runs.Action.publish p).Valid}
      {topic : Topic} {db : DB} {before subs : List Subscription} :
      publishTopic p w.db.toTables = .ok topic → storedPayload env p.payload ≠ none →
      w.db.insertMessage (newMessage env (env.uuid 0) topic.id p) = .ok db → v = db.toTables →
      liveSubscriptions env w.db.toTables topic.id = before ++ subs →
      Stands w v (.delivering env (newMessage env (env.uuid 0) topic.id p) subs
        (before.filterMap (fun s => deliverToSubscription env v s
          (newMessage env (env.uuid 0) topic.id p)))) [⟨env, .publish p, hp⟩]

theorem insertMessage_succeeds {db : DB} {r : Message} (hk : ¬ Has Message.id r.id db.messages)
    (ht : Has Topic.id r.topicID db.topics) :
    ∃ db', db.insertMessage r = .ok db' := by
  unfold DB.insertMessage
  rw [dif_pos ⟨hk, ht⟩]
  exact ⟨_, rfl⟩

theorem createBulk_saves {env : Env} {dc : List DeliveryCreate} {tx : Tx}
    (hnodup : ((deliveryRows env tx.drawn dc).map Delivery.id).Nodup)
    (hfresh : ∀ r ∈ deliveryRows env tx.drawn dc, ¬ Has Delivery.id r.id tx.db.deliveries)
    (hdc : ∀ c ∈ dc, Storable tx.db c) : ∃ tx', createBulk env dc tx = .ok tx' := by
  induction dc generalizing tx with
  | nil => exact ⟨tx, rfl⟩
  | cons c dc ih =>
    rw [deliveryRows_cons] at hnodup hfresh
    rw [List.map_cons, List.nodup_cons] at hnodup
    obtain ⟨hm, hs, hb⟩ := hdc c (by simp)
    have hnew := hfresh (c.row (env.uuid tx.drawn)) (by simp)
    obtain ⟨db, hdb⟩ := insertDelivery_succeeds hnew hm hs hb
    have htab := (DB.insertDelivery_ok hdb).2
    have hrest : ∀ x ∈ dc, Storable db x := by
      intro x hx
      obtain ⟨hxm, hxs, hxb⟩ := hdc x (by simp [hx])
      refine ⟨by simpa [htab] using hxm, by simpa [htab] using hxs, fun k hk => ?_⟩
      rw [htab]
      exact (hxb k hk).append_left _
    have hlater : ∀ r ∈ deliveryRows env (tx.drawn + 1) dc,
        ¬ Has Delivery.id r.id db.deliveries := by
      rintro r hr ⟨d, hd, hid⟩
      rw [htab] at hd
      rcases List.mem_append.mp hd with hd | hd
      · exact hfresh r (by simp [hr]) ⟨d, hd, hid⟩
      · rw [List.mem_singleton.mp hd] at hid
        exact hnodup.1 (hid ▸ List.mem_map_of_mem hr)
    obtain ⟨tx', hrun⟩ := @ih { tx with db := db, drawn := tx.drawn + 1 } hnodup.2 hlater hrest
    refine ⟨tx', ?_⟩
    rw [createBulk, List.foldlM_cons, hdb]
    exact hrun

section
variable {w : World} {v : Tables} {a : Statement} {ws : List Insert} {q q' : Point}
  {es : List Runs.Event}

theorem stands_save {env : Env} {m : Message} {dc : List DeliveryCreate}
    (h : Stands w v (.delivering env m [] dc) es)
    (hnodup : ((deliveryRows env 1 dc).map Delivery.id).Nodup)
    (hfresh : ∀ r ∈ deliveryRows env 1 dc, ¬ Has Delivery.id r.id v.deliveries) :
    { v with deliveries := v.deliveries ++ deliveryRows env 1 dc } = (w.run es).db.toTables := by
  cases h with
  | @delivering _ p hp topic db before _ htopic hstored hdb hv hlive =>
    rw [List.append_nil] at hlive
    subst hv
    obtain ⟨-, htab⟩ := DB.insertMessage_ok hdb
    have hstorable : ∀ c ∈ before.filterMap (fun s => deliverToSubscription env db.toTables s
        (newMessage env (env.uuid 0) topic.id p)), Storable db c := by
      intro c hc
      obtain ⟨s, hs, hc⟩ := List.mem_filterMap.mp hc
      obtain ⟨-, rfl⟩ := deliverToSubscription_some.mp hc
      rw [← hlive] at hs
      refine setUpDelivery_storable ?_ ?_
      · rw [htab]
        exact (mem_liveSubscriptions.mp hs).1
      · rw [htab]
        exact List.mem_append_right _ (List.mem_singleton_self _)
    obtain ⟨tx, hbulk⟩ := @createBulk_saves env _ (deliverAll env before
      (newMessage env (env.uuid 0) topic.id p) { Tx.begin w.db with db := db, drawn := 1 }).2
      hnodup hfresh hstorable
    obtain ⟨-, -, hrows, -⟩ := createBulk_rows hbulk
    have hpublish : exec env (.publish p) (Tx.begin w.db) = .ok ([], tx) := by
      have hlive' : before = liveSubscriptions env (Tx.begin w.db).db.toTables topic.id :=
        hlive.symm
      subst hlive'
      exact map_ok.mpr ⟨_, bind_ok.mpr ⟨topic, htopic, bind_ok.mpr ⟨(),
        failWhen_ok.mpr hstored, bind_ok.mpr ⟨db, hdb, bind_ok.mpr ⟨tx, hbulk, rfl⟩⟩⟩⟩, rfl⟩
    have hafter : (w.after ⟨env, .publish p, hp⟩).db = tx.db :=
      after_ok (e := ⟨env, .publish p, hp⟩) hpublish
    show _ = (w.after ⟨env, .publish p, hp⟩).db.toTables
    rw [hafter, hrows]
    rfl

theorem stands_run (h : Stands w v q es) (ha : Accepted a)
    (hst : publishers.statement a q v = .ok (ws, q')) :
    ∃ w' es', Stands w' (ws.foldl Insert.apply v) q' es' ∧
      ∀ later, w'.run (es' ++ later) = w.run (es ++ (publishEvent a ++ later)) := by
  cases a with
  | execute env p =>
    obtain ⟨topic, rfl, htopic, hstored, hnew, rfl, rfl⟩ := execute_reads hst
    cases h with
    | ready hv =>
      subst hv
      obtain ⟨db, hdb⟩ := insertMessage_succeeds hnew (Has.of_mem (only_ok htopic).1)
      obtain ⟨-, htab⟩ := DB.insertMessage_ok hdb
      have hview : [Insert.message (newMessage env (env.uuid 0) topic.id p)].foldl Insert.apply
          w.db.toTables = db.toTables := htab.symm
      refine ⟨w, [⟨env, .publish p, ha⟩], ?_, fun later => ?_⟩
      · exact @Stands.delivering w _ env p ha topic db [] _ htopic hstored hdb hview rfl
      · have hp : (Runs.Action.publish p).Valid := ha
        simp [publishEvent, hp]
  | setUp =>
    obtain ⟨env, m, r, subs, dc, rfl, rfl, rfl⟩ := setUp_ok hst
    cases h with
    | @delivering _ p hp topic db before _ htopic hstored hdb hv hlive =>
      refine ⟨w, [⟨env, .publish p, hp⟩], ?_, fun later => rfl⟩
      rw [List.append_cons] at hlive
      have hmore : (before ++ [r]).filterMap (fun s => deliverToSubscription env v s
          (newMessage env (env.uuid 0) topic.id p)) =
          before.filterMap (fun s => deliverToSubscription env v s
            (newMessage env (env.uuid 0) topic.id p)) ++
              (deliverToSubscription env v r (newMessage env (env.uuid 0) topic.id p)).toList := by
        rw [List.filterMap_append]
        cases hr : deliverToSubscription env v r (newMessage env (env.uuid 0) topic.id p) <;>
          simp [hr]
      rw [← hmore]
      exact .delivering htopic hstored hdb hv hlive
  | save =>
    obtain ⟨env, m, dc, rfl, rfl, rfl, hfresh⟩ := save_ok hst
    obtain ⟨u, hu, -⟩ := bind_ok.mp hst
    have hnodup := (not_not.mp (failWhen_ok.mp hu)).1
    refine ⟨w.run es, [], .ready ?_, fun later => ?_⟩
    · rw [apply_rows]
      exact stands_save h hnodup hfresh
    · exact (List.foldl_append).symm

theorem publishes_bus {t : Tables} {as : List Statement} {s s' : Session Insert Point}
    (has : ∀ a ∈ as, Accepted a) (hs : Stands w (seen t s) s.point es)
    (h : publishers.solo t as s = .ok s') (hready : s'.point = .ready) :
    seen t s' = (w.run (es ++ as.flatMap publishEvent)).db.toTables := by
  induction as generalizing s w es with
  | nil =>
    cases h
    rw [hready] at hs
    cases hs with
    | ready hv => exact hv
  | cons a as ih =>
    rw [Program.solo] at h
    split at h
    · cases h
    · rename_i ws q hst
      obtain ⟨w', es', hstands, hrun⟩ := stands_run hs (has a (by simp)) hst
      rw [← seen_append t s ws q] at hstands
      rw [List.flatMap_cons, ← hrun]
      exact ih (fun b hb => has b (by simp [hb])) hstands h

theorem ready_point {s : Session Insert Point} (h : publishers.ready s.point = true) :
    s.point = .ready := by
  cases hp : s.point with
  | ready => rfl
  | delivering env m subs dc =>
    rw [hp] at h
    cases h

end

def orderedWorld : World := World.initial.run [
  Sample.ordersTopic 1 10,
  Sample.orderedWorker 2 20]

def callers : Calls 2 := ⟨orderedWorld.db.toTables, fun _ => publishers.fresh⟩

def overtaken : List (ReadCommitted.Event 2 Statement) := [
  .run 0 (.execute (.plain 3 30) keyed), .run 1 (.execute (.plain 4 40) keyed),
  .run 1 .setUp, .run 1 .save, .commit 1, .run 0 .setUp, .run 0 .save, .commit 0]

theorem overtaken_runs : (publishers.runs TakeTurns callers overtaken).isSome := by decide +kernel

theorem keyed_valid : (Runs.Action.publish keyed).Valid := by decide

end Mmmbbb.SerialPublishes
