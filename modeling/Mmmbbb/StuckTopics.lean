import Mmmbbb.Alterations
import Mmmbbb.LiveTopics

/-!
# Topics that cannot be pruned

A deleted topic is pruned once it has no subscriptions. Its messages are not
looked at, nor its snapshots: a subscription that is still there stands for
them, as long as there is one.
-/

set_option autoImplicit false

namespace Mmmbbb.StuckTopics
open KeyedRows Programs Mmmbbb.Schema Mmmbbb.Database Mmmbbb.Delivering Mmmbbb.Consuming
open Mmmbbb.Seeking Mmmbbb.Administering Mmmbbb.Pruning Mmmbbb.Runs Mmmbbb.Writes
open Mmmbbb.LiveTopics Mmmbbb.Alterations

section
variable {env : Env} {tx tx' : Tx}

theorem applyLoop_messages {p : GetSubscriptionMessagesParams} {sub : Subscription} {i : ℕ}
    {rest : List (Delivery × Message)} {st st' : Applied}
    (h : applyLoop env p sub i rest st = .ok st') :
    st'.tx.db.messages = st.tx.db.messages := by
  induction rest generalizing i st with
  | nil =>
    cases h
    rfl
  | cons x rest ih =>
    obtain ⟨d, m⟩ := x
    rw [applyLoop] at h
    split at h
    · exact ih h
    · split at h
      · split at h
        · cases h
        · rename_i tx htx
          have hframe := deadLetter_frame (e := ⟨env, .ack [], trivial⟩) htx
          exact (ih h).trans hframe.messages
      · split at h
        · cases h
          rfl
        · have hrest := ih h
          exact hrest

theorem markAttempted_messages {results : List SubscriptionMessageDelivery}
    (h : markAttempted env results tx = .ok tx') : tx'.db.messages = tx.db.messages := by
  refine loop_invariant (I := fun t : Tx => t.db.messages = tx.db.messages) results ?_ rfl h
  intro x _ t t' hi hone
  rw [Tx.updateDelivery_ok hone]
  exact hi

theorem get_messages {p : GetSubscriptionMessagesParams} {r : GetSubscriptionMessagesResults}
    (h : getSubscriptionMessages env p tx = .ok (r, tx')) :
    tx'.db.messages = tx.db.messages := by
  obtain ⟨sub, -, h⟩ := bind_ok.mp h
  obtain ⟨mid, hmid, h⟩ := bind_ok.mp h
  obtain ⟨st, hst, h⟩ := bind_ok.mp h
  obtain ⟨last, hlast, h⟩ := bind_ok.mp h
  obtain ⟨-, rfl⟩ := Prod.mk.inj (pure_ok.mp h)
  have hrefresh := DB.updateSubscriptions_ok (refreshExpiration_ok hmid)
  have hloop := applyLoop_messages hst
  rw [markAttempted_messages hlast, hloop, hrefresh]

theorem nack_messages {ids : List UUID} {r : NackDeliveriesResults}
    (h : nackDeliveries env ids tx = .ok (r, tx')) : tx'.db.messages = tx.db.messages := by
  obtain ⟨st, hst, h⟩ := bind_ok.mp h
  obtain ⟨-, rfl⟩ := Prod.mk.inj (pure_ok.mp h)
  refine loop_invariant (I := fun st : Tx × ℕ => st.1.db.messages = tx.db.messages) _ ?_ rfl hst
  intro d _ s s' hi hone
  exact (nackOne_frame (e := ⟨env, .ack [], trivial⟩) hone).messages.trans hi

theorem sweep_messages {n : ℕ} {r : DeadLetterDeliveriesResults}
    (h : deadLetterDeliveries env n tx = .ok (r, tx')) : tx'.db.messages = tx.db.messages := by
  obtain ⟨last, hlast, h⟩ := bind_ok.mp h
  obtain ⟨-, rfl⟩ := Prod.mk.inj (pure_ok.mp h)
  refine loop_invariant (I := fun t : Tx => t.db.messages = tx.db.messages) _ ?_ rfl hlast
  intro d _ t t' hi hone
  exact (deadLetter_frame (e := ⟨env, .ack [], trivial⟩) hone).messages.trans hi

theorem publish_messages {p : PublishMessageParams} {r : PublishMessageResults}
    (h : publishMessage env p tx = .ok (r, tx')) : ∀ m ∈ tx'.db.messages,
    m ∈ tx.db.messages ∨ LiveTopic tx.db.toTables m.topicID := by
  obtain ⟨t, ht, h⟩ := bind_ok.mp h
  obtain ⟨-, -, h⟩ := bind_ok.mp h
  obtain ⟨db, hdb, h⟩ := bind_ok.mp h
  obtain ⟨last, hlast, h⟩ := bind_ok.mp h
  obtain ⟨-, rfl⟩ := Prod.mk.inj (pure_ok.mp h)
  have hmessage : db.messages = tx.db.messages ++ [newMessage env (env.uuid tx.drawn) t.id p] := by
    rw [(DB.insertMessage_ok hdb).2]
  have hrows : last.db.messages = db.messages := by
    rw [(createBulk_rows hlast).2.2.1]
  obtain ⟨hmem, hlive⟩ := only_ok ht
  simp only [Bool.and_eq_true, Option.isNone_iff_eq_none] at hlive
  intro m hm
  rw [hrows, hmessage] at hm
  rcases List.mem_append.mp hm with hold | hnew
  · exact Or.inl hold
  · rw [List.mem_singleton.mp hnew]
    exact Or.inr ⟨t, hmem, rfl, hlive.1.1⟩

end

theorem messages_after (w : World) (e : Event) (ha : OnDeliveries e.action) :
    ∀ m ∈ (w.after e).db.messages,
      m ∈ w.db.messages ∨ LiveTopic w.db.toTables m.topicID := by
  unfold World.after
  split
  · rename_i given tx h
    suffices hsame : tx.db.messages = w.db.messages ∨ ∀ m ∈ tx.db.messages,
        m ∈ w.db.messages ∨ LiveTopic w.db.toTables m.topicID by
      rcases hsame with hsame | hall
      · exact fun m hm => Or.inl (hsame ▸ hm)
      · exact hall
    obtain ⟨env, action, hv⟩ := e
    cases action <;> try exact absurd ha id
    case touch p =>
      obtain ⟨-, hb⟩ := quiet_tx h
      obtain ⟨sub, -, hb⟩ := bind_ok.mp hb
      have hrefresh := DB.updateSubscriptions_ok (refreshExpiration_ok hb)
      exact Or.inl (by rw [hrefresh]; rfl)
    case publish p =>
      obtain ⟨-, r, hb⟩ := quiet_ok h
      exact Or.inr (publish_messages hb)
    case get p =>
      obtain ⟨⟨r, tx'⟩, hb, heq⟩ := map_ok.mp h
      obtain ⟨-, rfl⟩ := Prod.mk.inj heq
      exact Or.inl (get_messages hb)
    case nack ids =>
      obtain ⟨-, r, hb⟩ := quiet_ok h
      exact Or.inl (nack_messages hb)
    case deadLetter n =>
      obtain ⟨-, r, hb⟩ := quiet_ok h
      exact Or.inl (sweep_messages hb)
    case seekToTime p =>
      obtain ⟨-, r, hb⟩ := quiet_ok h
      obtain ⟨sub, -, hb⟩ := bind_ok.mp hb
      obtain ⟨-, rfl⟩ := Prod.mk.inj (pure_ok.mp hb)
      rw [wakeIfSeeked_db]
      exact Or.inl rfl
    case seekToSnapshot p =>
      obtain ⟨-, r, hb⟩ := quiet_ok h
      obtain ⟨sub, -, hb⟩ := bind_ok.mp hb
      obtain ⟨snap, -, hb⟩ := bind_ok.mp hb
      obtain ⟨-, rfl⟩ := Prod.mk.inj (pure_ok.mp hb)
      rw [wakeIfSeeked_db]
      exact Or.inl rfl
    all_goals
      obtain ⟨-, rfl⟩ := Prod.mk.inj (Except.ok.inj h)
      exact Or.inl rfl
  · exact fun m hm => Or.inl hm

def Referenced (t : Tables) (id : UUID) : Prop :=
  (∃ m ∈ t.messages, m.topicID = id) ∨ (∃ s ∈ t.subscriptions, s.topicID = id) ∨
    ∃ s ∈ t.snapshots, s.topicID = id

/-- Whoever prunes, and when: no topic that is selected is still referred to,
and all that are selected are deleted. -/
def Unstuck (db : DB) : Prop := ∀ (env : Env) (p : PruneCommonParams), p.Valid →
  (∀ id ∈ prunedTopics env p db.toTables, ¬ Referenced db.toTables id) ∧
    ∃ n tx, pruneDeletedTopics env p (.begin db) = .ok (n, tx)

def Burdened (t : Tables) (id : UUID) : Prop :=
  (∃ m ∈ t.messages, m.topicID = id) ∨ ∃ s ∈ t.snapshots, s.topicID = id

def Subscribed (t : Tables) (id : UUID) : Prop := ∃ s ∈ t.subscriptions, s.topicID = id

def Anchored (t : Tables) : Prop :=
  ∀ r ∈ t.topics, r.deletedAt ≠ none → Burdened t r.id → Subscribed t r.id

instance (t : Tables) (id : UUID) : Decidable (Burdened t id) :=
  inferInstanceAs (Decidable ((∃ m ∈ t.messages, _) ∨ ∃ s ∈ t.snapshots, _))

instance (t : Tables) (id : UUID) : Decidable (Subscribed t id) :=
  inferInstanceAs (Decidable (∃ s ∈ t.subscriptions, _))

instance (t : Tables) : Decidable (Anchored t) :=
  inferInstanceAs (Decidable (∀ r ∈ t.topics, _ → _ → _))

theorem prunedTopics_some {t : Tables} {r : Topic} (hr : r ∈ t.topics) (hd : r.deletedAt ≠ none)
    (hs : ¬ Subscribed t r.id) :
    ∃ (env : Env) (p : PruneCommonParams), p.Valid ∧ r.id ∈ prunedTopics env p t := by
  obtain ⟨now, hnow⟩ := Option.ne_none_iff_exists'.mp hd
  refine ⟨.plain now 0, ⟨0, t.topics.length + 1⟩, ⟨le_refl _, Nat.succ_pos _⟩, ?_⟩
  unfold prunedTopics selectIDs
  refine List.mem_map_of_mem ?_
  rw [List.take_of_length_le]
  · rw [ScanOrder.mem_run, List.mem_filter]
    refine ⟨hr, ?_⟩
    simp only [Bool.and_eq_true, List.all_eq_true, decide_eq_true_eq]
    refine ⟨?_, fun s hmem hid => hs ⟨s, hmem, hid⟩⟩
    rw [hnow]
    simp [agedBy, Env.plain]
  · rw [((ScanOrder.perm _ _).length_eq)]
    have hlen := List.length_filter_le (fun r : Topic => agedBy (.plain now 0) 0 r.deletedAt &&
      t.subscriptions.all (fun s => decide (s.topicID ≠ r.id))) t.topics
    exact hlen.trans (Nat.le_succ _)

/-- The prunings get through if and only if all deleted topics that still have
messages or snapshots have subscriptions. -/
theorem unstuck_anchored {db : DB} : Unstuck db ↔ Anchored db.toTables := by
  constructor
  · intro h r hr hd hb
    by_contra hs
    obtain ⟨env, p, hp, hmem⟩ := prunedTopics_some hr hd hs
    refine (h env p hp).1 r.id hmem ?_
    rcases hb with hm | hn
    · exact Or.inl hm
    · exact Or.inr (Or.inr hn)
  · intro h env p _
    have hfree : ∀ id ∈ prunedTopics env p db.toTables, ¬ Referenced db.toTables id := by
      intro id hid href
      obtain ⟨r, hr, rfl, hd, hnone⟩ := prunedTopics_mem hid
      have hs : ¬ Subscribed db.toTables r.id := fun ⟨s, hmem, hsid⟩ => hnone s hmem hsid
      rcases href with hm | hsub | hn
      · exact hs (h r hr hd (Or.inl hm))
      · exact hs hsub
      · exact hs (h r hr hd (Or.inr hn))
    refine ⟨hfree, ?_⟩
    have hmiss : ∀ k, Referenced db.toTables k → ∀ r ∈ db.topics, r.id = k →
        decide (r.id ∈ prunedTopics env p db.toTables) = false := by
      intro k hk r _ hid
      rw [decide_eq_false_iff_not]
      exact fun hmem => hfree _ hmem (hid ▸ hk)
    have hdelete : ∃ db', db.deleteTopics
        (fun r => decide (r.id ∈ prunedTopics env p db.toTables)) = .ok db' := by
      unfold DB.deleteTopics
      rw [dif_pos]
      · exact ⟨_, rfl⟩
      · refine ⟨fun s hs => hmiss _ (Or.inr (Or.inl ⟨s, hs, rfl⟩)),
          fun m hm => hmiss _ (Or.inl ⟨m, hm, rfl⟩),
          fun s hs => hmiss _ (Or.inr (Or.inr ⟨s, hs, rfl⟩))⟩
    obtain ⟨db', hdb'⟩ := hdelete
    refine ⟨_, _, bind_ok.mpr ⟨db', hdb', rfl⟩⟩

/-- A topic that is deleted has no messages, or has a subscription; and when
subscriptions are pruned, one is left to each deleted topic that has messages
or snapshots. -/
def Careful (w : World) (e : Event) (_ : World) : Prop :=
  match e.action with
  | .deleteTopic name => ∀ id ∈ namedTopics name w.db.toTables,
      (∃ m ∈ w.db.messages, m.topicID = id) → Subscribed w.db.toTables id
  | .pruneDeletedSubscriptions p => ∀ r ∈ w.db.topics, r.deletedAt ≠ none →
      Burdened w.db.toTables r.id → ∃ s ∈ w.db.subscriptions, s.topicID = r.id ∧
        s.id ∉ prunedSubscriptions e.env p w.db.toTables
  | _ => True

instance (w : World) (e : Event) (w' : World) : Decidable (Careful w e w') := by
  unfold Careful
  generalize e.action = a
  induction a using Runs.Action.casesOn <;> infer_instance

section
variable {w : World} {e : Event}

theorem deleteTopic_tables {name : String} (ha : e.action = .deleteTopic name) :
    (w.after e).db.toTables = { w.db.toTables with
      topics := w.db.topics.map (setWhere
        (fun r => decide (r.id ∈ namedTopics name w.db.toTables))
        (TopicUpdate.apply { deletedAt := some e.env.now }))
      snapshots := w.db.snapshots.filter
        (fun s => !decide (s.topicID ∈ namedTopics name w.db.toTables)) } := by
  obtain ⟨env, action, hv⟩ := e
  obtain rfl : action = .deleteTopic name := ha
  by_cases hnone : w.db.topics.filter (liveTopicNamed name) = []
  · have hfail : exec env (.deleteTopic name) (.begin w.db) = .error .errNotFound := by
      simp [exec, deleteTopic, Tx.begin, failWhen, hnone, bind, Except.bind, Except.map]
    have hids : namedTopics name w.db.toTables = [] := by simp [namedTopics, hnone]
    have hsame : ∀ r : Topic, setWhere (fun r : Topic => decide (r.id ∈ ([] : List UUID)))
        (TopicUpdate.apply { deletedAt := some env.now }) r = r := fun r => rfl
    rw [after_failed hfail, hids, List.map_congr_left fun r _ => hsame r]
    simp
  · have hrun : deleteTopic env name (.begin w.db) = .ok (_, _) :=
      bind_ok.mpr ⟨(), failWhen_ok.mpr hnone, rfl⟩
    have hexec : exec env (.deleteTopic name) (.begin w.db) = .ok (_, _) :=
      map_ok.mpr ⟨_, hrun, rfl⟩
    rw [after_ok hexec]
    rfl

theorem pruneSubscriptions_tables {p : PruneCommonParams}
    (ha : e.action = .pruneDeletedSubscriptions p) :
    (w.after e).db.toTables = { w.db.toTables with
      subscriptions := w.db.subscriptions.filter
        (fun s => !decide (s.id ∈ prunedSubscriptions e.env p w.db.toTables)) } := by
  obtain ⟨env, action, hv⟩ := e
  obtain rfl : action = .pruneDeletedSubscriptions p := ha
  have hdelete : ∃ db, w.db.deleteSubscriptions
      (fun s => decide (s.id ∈ prunedSubscriptions env p w.db.toTables)) = .ok db := by
    unfold DB.deleteSubscriptions
    rw [dif_pos]
    · exact ⟨_, rfl⟩
    · intro d hd r hr hid
      rw [decide_eq_false_iff_not]
      intro hmem
      obtain ⟨s, -, hp, hsid⟩ := selectIDs_mem hmem
      simp only [Bool.and_eq_true, List.all_eq_true, decide_eq_true_eq] at hp
      exact hp.2 d hd (hid.symm.trans hsid.symm)
  obtain ⟨db, hdb⟩ := hdelete
  have hrun : pruneDeletedSubscriptions env p (.begin w.db) = .ok (_, _) :=
    bind_ok.mpr ⟨db, hdb, rfl⟩
  have hexec : exec env (.pruneDeletedSubscriptions p) (.begin w.db) = .ok (_, _) :=
    map_ok.mpr ⟨_, hrun, rfl⟩
  rw [after_ok hexec]
  exact DB.deleteSubscriptions_ok hdb

theorem deleteTopic_anchored {name : String} (ha : e.action = .deleteTopic name)
    (h : Anchored w.db.toTables) :
    Anchored (w.after e).db.toTables ↔ Careful w e (w.after e) := by
  unfold Careful
  rw [ha, deleteTopic_tables ha]
  constructor
  · rintro hafter id hid ⟨m, hm, rfl⟩
    obtain ⟨r, hr, hrid⟩ := List.mem_map.mp hid
    have hmem := List.mem_of_mem_filter hr
    have hrow := hafter (setWhere (fun r => decide (r.id ∈ namedTopics name w.db.toTables))
      (TopicUpdate.apply { deletedAt := some e.env.now }) r) (List.mem_map_of_mem hmem)
    rw [setWhere, if_pos (by simpa [hrid] using hid)] at hrow
    have hsub := hrow (by simp [TopicUpdate.apply]) (Or.inl ⟨m, hm, by rw [← hrid]; rfl⟩)
    rw [← hrid]
    exact hsub
  · intro hcareful x hx hd hb
    obtain ⟨r, hr, rfl⟩ := List.mem_map.mp hx
    have hid : (setWhere (fun r => decide (r.id ∈ namedTopics name w.db.toTables))
        (TopicUpdate.apply { deletedAt := some e.env.now }) r).id = r.id :=
      setWhere_keeps Topic.id (TopicUpdate.apply_id _) r
    rw [hid] at hb ⊢
    by_cases hnamed : r.id ∈ namedTopics name w.db.toTables
    · rcases hb with hm | ⟨s, hs, hsid⟩
      · exact hcareful r.id hnamed hm
      · have hkept := (List.mem_filter.mp hs).2
        rw [hsid] at hkept
        simp [hnamed] at hkept
    · rw [setWhere, if_neg (by simpa using hnamed)] at hd
      refine h r hr hd ?_
      rcases hb with hm | ⟨s, hs, hsid⟩
      · exact Or.inl hm
      · exact Or.inr ⟨s, List.mem_of_mem_filter hs, hsid⟩

theorem pruneSubscriptions_anchored {p : PruneCommonParams}
    (ha : e.action = .pruneDeletedSubscriptions p) :
    Anchored (w.after e).db.toTables ↔ Careful w e (w.after e) := by
  unfold Careful
  rw [ha, pruneSubscriptions_tables ha]
  constructor
  · intro hafter r hr hd hb
    obtain ⟨s, hs, hid⟩ := hafter r hr hd hb
    obtain ⟨hs, hkept⟩ := List.mem_filter.mp hs
    exact ⟨s, hs, hid, by simpa using hkept⟩
  · intro hcareful r hr hd hb
    obtain ⟨s, hs, hid, hkept⟩ := hcareful r hr hd hb
    exact ⟨s, List.mem_filter.mpr ⟨hs, by simpa using hkept⟩, hid⟩

end

section
variable {a b : Tables}

theorem Anchored.mono (h : Anchored a)
    (ht : ∀ r ∈ b.topics, r.deletedAt ≠ none → ∃ x ∈ a.topics, x.id = r.id ∧ x.deletedAt ≠ none)
    (hm : ∀ m ∈ b.messages, m ∈ a.messages) (hn : ∀ s ∈ b.snapshots, s ∈ a.snapshots)
    (hs : ∀ id, Subscribed a id → Subscribed b id) : Anchored b := by
  intro r hr hd hb
  obtain ⟨x, hx, hid, hdeleted⟩ := ht r hr hd
  refine hs r.id (hid ▸ h x hx hdeleted ?_)
  rw [hid]
  rcases hb with ⟨m, hmem, hmid⟩ | ⟨s, hmem, hsid⟩
  · exact Or.inl ⟨m, hm m hmem, hmid⟩
  · exact Or.inr ⟨s, hn s hmem, hsid⟩

theorem subscribed_map {f : Subscription → Subscription} (hf : ∀ s, (f s).topicID = s.topicID)
    (hb : b.subscriptions = a.subscriptions.map f) {id : UUID} (h : Subscribed a id) :
    Subscribed b id := by
  obtain ⟨s, hs, rfl⟩ := h
  exact ⟨f s, hb ▸ List.mem_map_of_mem hs, hf s⟩

theorem setWhere_topicID {q : Subscription → Bool} {u : SubscriptionUpdate} (s : Subscription) :
    (setWhere q u.apply s).topicID = s.topicID :=
  setWhere_keeps Subscription.topicID u.apply_topicID s

end

theorem alteration_anchored {env : Env} {t t' : Tables} {a : Action} (h : Alteration env t a t')
    (hd : ∀ name, a ≠ .deleteTopic name) (hp : ∀ p, a ≠ .pruneDeletedSubscriptions p)
    (hi : Anchored t) : Anchored t' := by
  have hsame : ∀ r ∈ t.topics, r.deletedAt ≠ none →
      ∃ x ∈ t.topics, x.id = r.id ∧ x.deletedAt ≠ none := fun r hr hr' => ⟨r, hr, rfl, hr'⟩
  cases h with
  | idle => exact hi
  | createTopic hlive =>
    refine hi.mono (fun r hr hr' => ?_) (fun _ hm => hm) (fun _ hs => hs) fun _ hs => hs
    rcases List.mem_append.mp hr with hr | hr
    · exact hsame r hr hr'
    · rw [List.mem_singleton.mp hr] at hr'
      exact absurd hlive hr'
  | @updateTopic req q u hu =>
    refine hi.mono (fun r hr hr' => ?_) (fun _ hm => hm) (fun _ hs => hs) fun _ hs => hs
    obtain ⟨x, hx, rfl⟩ := List.mem_map.mp hr
    have hkept : (setWhere q u.apply x).deletedAt = x.deletedAt :=
      setWhere_keeps Topic.deletedAt (fun r => by simp [TopicUpdate.apply, hu]) x
    have hid : (setWhere q u.apply x).id = x.id := setWhere_keeps Topic.id u.apply_id x
    exact ⟨x, hx, hid.symm, hkept ▸ hr'⟩
  | deleteTopic => exact absurd rfl (hd _)
  | createSubscription =>
    refine hi.mono hsame (fun _ hm => hm) (fun _ hs => hs) fun id hs => ?_
    obtain ⟨s, hs, hid⟩ := hs
    exact ⟨s, List.mem_append_left _ hs, hid⟩
  | updateSubscription =>
    exact hi.mono hsame (fun _ hm => hm) (fun _ hs => hs)
      fun _ hs => subscribed_map setWhere_topicID rfl hs
  | setSubscriptions =>
    exact hi.mono hsame (fun _ hm => hm) (fun _ hs => hs)
      fun _ hs => subscribed_map setWhere_topicID rfl hs
  | @createSnapshot p s x hs _ htopic =>
    intro r hr hr' hb
    rcases hb with hm | ⟨y, hy, hid⟩
    · exact hi r hr hr' (Or.inl hm)
    · rcases List.mem_append.mp hy with hy | hy
      · exact hi r hr hr' (Or.inr ⟨y, hy, hid⟩)
      · rw [List.mem_singleton.mp hy, htopic] at hid
        exact ⟨s, hs, hid⟩
  | deleteSnapshot =>
    exact hi.mono hsame (fun _ hm => hm) (fun _ hs => List.mem_of_mem_filter hs) fun _ hs => hs
  | pruneDeliveries => exact hi.mono hsame (fun _ hm => hm) (fun _ hs => hs) fun _ hs => hs
  | pruneMessages =>
    exact hi.mono hsame (fun _ hm => List.mem_of_mem_filter hm) (fun _ hs => hs) fun _ hs => hs
  | pruneSubscriptions => exact absurd rfl (hp _)
  | @pruneTopics p =>
    refine hi.mono (fun r hr hr' => ?_) (fun _ hm => hm) (fun _ hs => hs) fun _ hs => ?_
    · exact hsame r (List.mem_of_mem_filter hr) hr'
    · exact subscribed_map (f := Subscription.forgetTopics
        ((t.topics.filter (fun r => decide (r.id ∈ prunedTopics env p t))).map Topic.id))
        (fun _ => rfl) rfl hs

theorem deliveries_anchored {w : World} {e : Event} (ha : OnDeliveries e.action)
    (hi : Anchored w.db.toTables) : Anchored (w.after e).db.toTables := by
  have hstatic := (transaction_of_action w ha).static
  have htopics : (w.after e).db.topics = w.db.topics := hstatic.topics
  have hsnapshots : (w.after e).db.snapshots = w.db.snapshots := hstatic.snapshots
  intro r hr hd hb
  rw [htopics] at hr
  have hsub : Subscribed w.db.toTables r.id := by
    rcases hb with ⟨m, hm, hid⟩ | ⟨s, hs, hid⟩
    · rcases messages_after w e ha m hm with hold | ⟨x, hx, hxid, hlive⟩
      · exact hi r hr hd (Or.inl ⟨m, hold, hid⟩)
      · have hsame : x = r := w.db.sound.topic_pk.eq hx hr (hxid.trans hid)
        exact absurd (hsame ▸ hlive) hd
    · exact hi r hr hd (Or.inr ⟨s, hsnapshots ▸ hs, hid⟩)
  obtain ⟨s, hs, hid⟩ := hsub
  obtain ⟨x, hx, hxs⟩ := hstatic.subscription (a := w.at e.env.now) hs
  have htopic : x.settled.topicID = s.settled.topicID := congrArg Subscription.topicID hxs
  exact ⟨x, hx, htopic.trans hid⟩

/-- A step keeps the deleted topics anchored if and only if it is careful. -/
theorem after_anchored {w : World} (e : Event) (hi : Anchored w.db.toTables) :
    Anchored (w.after e).db.toTables ↔ Careful w e (w.after e) := by
  by_cases hd : ∃ name, e.action = .deleteTopic name
  · obtain ⟨name, ha⟩ := hd
    exact deleteTopic_anchored ha hi
  by_cases hp : ∃ p, e.action = .pruneDeletedSubscriptions p
  · obtain ⟨p, ha⟩ := hp
    exact pruneSubscriptions_anchored ha
  rw [not_exists] at hd hp
  have hcareful : Careful w e (w.after e) := by
    unfold Careful
    split
    · exact absurd ‹_› (hd _)
    · exact absurd ‹_› (hp _)
    · trivial
  refine iff_of_true ?_ hcareful
  by_cases ha : OnDeliveries e.action
  · exact deliveries_anchored ha hi
  · exact alteration_anchored (alteration_after w e ha) hd hp hi

theorem empty_anchored {w : World} (hw : bus.init w) : Anchored w.db.toTables := by
  rw [hw.1]
  intro r hr
  cases hr

/-- In a run, topics can be pruned all the time if and only if every step is
careful. -/
theorem unstuck_iff {w : World} (hw : bus.init w) (es : List Event) :
    (∀ pre, pre <+: es → Unstuck (w.run pre).db) ↔ Allowed Careful w es := by
  have hrun := throughout_iff (I := fun v => Anchored v.db.toTables)
    (fun v e hi => after_anchored e hi) (empty_anchored hw) es
  simpa only [unstuck_anchored] using hrun

def carefulRun : List Event := [
  Sample.ordersTopic 1 10,
  Sample.worker 2 20,
  Sample.publish "1" "" 3 30,
  ⟨.plain 4 40, .deleteTopic "orders", trivial⟩]

def stuckRun : List Event := [
  Sample.ordersTopic 1 10,
  Sample.publish "1" "" 2 20,
  ⟨.plain 3 30, .deleteTopic "orders", trivial⟩]

theorem unstuck_iff_runs :
    (∀ pre, pre <+: carefulRun → Unstuck (World.initial.run pre).db) ∧
      ¬ ∀ pre, pre <+: stuckRun → Unstuck (World.initial.run pre).db :=
  ⟨(unstuck_iff ⟨rfl, rfl⟩ carefulRun).mpr (by decide +kernel),
    fun h => absurd ((unstuck_iff ⟨rfl, rfl⟩ stuckRun).mp h) (by decide +kernel)⟩

/-- A message that nobody has subscribed to keeps its topic. -/
theorem topic_stuck : ¬ ∀ w, bus.Reachable w → Unstuck w.db := by
  intro h
  have hstuck := h _ (initial_reachable stuckRun) (.plain 10 90) ⟨0, 5⟩ (by decide)
  have hselected : (10 : UUID) ∈
      prunedTopics (.plain 10 90) ⟨0, 5⟩ (World.initial.run stuckRun).db.toTables := by
    decide +kernel
  have hmessage : ∃ m ∈ (World.initial.run stuckRun).db.messages, m.topicID = 10 := by
    decide +kernel
  exact hstuck.1 10 hselected (Or.inl hmessage)

end Mmmbbb.StuckTopics
