import Mmmbbb.Handlers

/-!
# What an update answers

An update renders the row it has saved with the names its topics had before; a
get renders the same row with the topics themselves. The two agree unless a
topic has been deleted meanwhile, or nothing was to be saved at all.
-/

set_option autoImplicit false

namespace Mmmbbb.Responses
open KeyedRows Programs Mmmbbb.Schema Mmmbbb.Database Mmmbbb.Delivering Mmmbbb.Consuming
open Mmmbbb.Administering Mmmbbb.Listing Mmmbbb.Messages Mmmbbb.Handlers

def Nameable (t : Topic) : Prop := t.deletedAt = none ∨ t.name = deletedTopicName

theorem edgeName_known {t : Topic} {known : String} :
    edgeName (some t) known = t.name ↔ Nameable t := by
  unfold edgeName Nameable
  cases hd : t.deletedAt with
  | none => simp [hd]
  | some deleted => simp [hd, eq_comm]

/-- Two renderings of a row differ at most in the names of its topics. -/
theorem rendered_eq {s : Subscription} {topic deadLetterTopic topic' deadLetterTopic' : Option Topic}
    {topicName deadLetterTopicName topicName' deadLetterTopicName' : String} :
    entSubscriptionToGrpc s topic deadLetterTopic topicName deadLetterTopicName =
        entSubscriptionToGrpc s topic' deadLetterTopic' topicName' deadLetterTopicName' ↔
      edgeName topic topicName = edgeName topic' topicName' ∧
        (s.deadLetterTopicID ≠ none →
          edgeName deadLetterTopic deadLetterTopicName =
            edgeName deadLetterTopic' deadLetterTopicName') := by
  cases hdl : s.deadLetterTopicID <;> simp [entSubscriptionToGrpc, hdl]

def deadLetterName (req : UpdateSubscriptionRequest) : String :=
  (req.deadLetterPolicy.map (·.deadLetterTopic)).getD ""

def Settles (t : Tables) (req : UpdateSubscriptionRequest) (id : Option UUID) : Prop :=
  id = none ∨ ∃ dlt, findTopic (deadLetterName req) t = .ok dlt ∧ id = some dlt.id

section
variable {env : Env} {t : Tables} {req : UpdateSubscriptionRequest}

/-- A path that is not refused sets or clears something, and leaves the row
live. Only the dead-letter policy is about the dead-letter topic. -/
theorem updatePath_sets {u u' : SubscriptionUpdate} {path : String}
    (h : updatePath env t req u path = .ok u') :
    u' ≠ {} ∧ u'.deletedAt = u.deletedAt ∧
      (path ≠ "dead_letter_policy" → u'.deadLetterTopicID = u.deadLetterTopicID) ∧
      (path = "dead_letter_policy" → ∃ id, u'.deadLetterTopicID = some id ∧ Settles t req id) := by
  unfold updatePath at h
  split at h
  · cases h
  · cases h
  · cases h
    simp
  · cases h
    simp
  · cases h
    simp
  · cases h
    simp
  · cases h
    simp
  · obtain ⟨_, -, h⟩ := bind_ok.mp h
    obtain rfl := pure_ok.mp h
    simp
  · split at h
    · cases h
      simp
    · split at h
      · cases h
      · cases h
        simp
  · split at h
    · cases h
      simp [Settles]
    · rename_i p hp
      split at h
      · cases h
        simp [Settles]
      · obtain ⟨dlt, hdlt, h⟩ := bind_ok.mp h
        obtain rfl := pure_ok.mp h
        simp [Settles, deadLetterName, hp, hdlt]
  · cases h
  · cases h
  · cases h
  · cases h

theorem updateLoop_sets {paths : List String} {u u' : SubscriptionUpdate}
    (h : paths.foldlM (updatePath env t req) u = .ok u') :
    (paths ≠ [] → u' ≠ {}) ∧ u'.deletedAt = u.deletedAt ∧
      ("dead_letter_policy" ∉ paths → u'.deadLetterTopicID = u.deadLetterTopicID) ∧
      ("dead_letter_policy" ∈ paths →
        ∃ id, u'.deadLetterTopicID = some id ∧ Settles t req id) := by
  have hset : paths ≠ [] → u' ≠ {} := fun hne =>
    loop_last (fun _ _ _ hstep => (updatePath_sets hstep).1) hne h
  have hdeleted : u'.deletedAt = u.deletedAt :=
    loop_invariant (I := fun v => v.deletedAt = u.deletedAt) paths
      (fun _ _ _ _ hv hstep => (updatePath_sets hstep).2.1.trans hv) rfl h
  refine ⟨hset, hdeleted, ?_⟩
  clear hset hdeleted
  induction paths generalizing u with
  | nil =>
    obtain rfl := pure_ok.mp h
    simp
  | cons path rest ih =>
    rw [List.foldlM_cons] at h
    obtain ⟨mid, hmid, hrest⟩ := bind_ok.mp h
    obtain ⟨-, -, hother, hpolicy⟩ := updatePath_sets hmid
    obtain ⟨hother', hpolicy'⟩ := ih hrest
    constructor
    · intro hmem
      rw [List.mem_cons, not_or] at hmem
      exact (hother' hmem.2).trans (hother (Ne.symm hmem.1))
    · intro hmem
      by_cases hrest' : "dead_letter_policy" ∈ rest
      · exact hpolicy' hrest'
      · have hpath : path = "dead_letter_policy" := by
          rw [List.mem_cons] at hmem
          exact (hmem.resolve_right hrest').symm
        rw [hother' hrest']
        exact hpolicy hpath

theorem deadLetterTopicName_loop (paths : List String) (known : String) :
    paths.foldl (deadLetterTopicNameAfter req) known =
      if "dead_letter_policy" ∈ paths then deadLetterName req else known := by
  induction paths generalizing known with
  | nil => simp
  | cons path rest ih =>
    rw [List.foldl_cons, ih]
    by_cases hpath : path = "dead_letter_policy"
    · simp [hpath, deadLetterTopicNameAfter, deadLetterName]
    · simp [deadLetterTopicNameAfter, hpath, Ne.symm hpath]

end

section
variable {env : Env} {s : PbSubscription} {mask : Option (List String)} {db db' : DB}
  {resp : Option PbSubscription}

theorem updateSubscription_ok
    (h : Handlers.updateSubscription env ⟨some s, mask⟩ db = .ok (resp, db')) :
    ∃ row topic u, only (liveSubscriptionNamed s.name) db.subscriptions = .ok row ∧
      isValidSubscriptionName s.name = true ∧ topicEdge db row = some topic ∧
      (mask.getD []).foldlM
        (updatePath env db.toTables (updateSubscriptionRequest s mask)) {} = .ok u ∧
      (u = {} ∧ resp = none ∨
        u ≠ {} ∧ db.updateSubscriptions (fun r => decide (r.id = row.id)) u = .ok db' ∧
          resp = some (entSubscriptionToGrpc (u.apply row) none none topic.name
            ((mask.getD []).foldl (deadLetterTopicNameAfter (updateSubscriptionRequest s mask))
              (((deadLetterTopicEdge db row).map Topic.name).getD "")))) := by
  obtain ⟨s', hs', h⟩ := bind_ok.mp h
  cases hs'
  obtain ⟨_, hvalid, h⟩ := bind_ok.mp h
  obtain ⟨⟨saved, tx⟩, hbody, hpair⟩ := map_ok.mp h
  cases hpair
  obtain ⟨row, hrow, hbody⟩ := bind_ok.mp hbody
  obtain ⟨topic, htopic, hbody⟩ := bind_ok.mp hbody
  obtain ⟨⟨updated, tx'⟩, hsave, hbody⟩ := bind_ok.mp hbody
  obtain ⟨row', hrow', hsave⟩ := bind_ok.mp hsave
  obtain ⟨u, hu, hsave⟩ := bind_ok.mp hsave
  have hsame : row' = row := by
    have := hrow'.symm.trans hrow
    exact Except.ok.inj this
  have hedge : topicEdge db row = some topic := by
    cases hedge : topicEdge db row with
    | none => simp [Tx.begin, hedge, deref] at htopic
    | some t => simpa [Tx.begin, hedge, deref] using htopic
  refine ⟨row, topic, u, hrow, by simpa using failWhen_ok.mp hvalid, hedge, hu, ?_⟩
  cases hbody
  split at hsave
  · rename_i hempty
    cases hsave
    exact Or.inl ⟨hempty, rfl⟩
  · rename_i hne
    obtain ⟨db'', hdb, hsave⟩ := bind_ok.mp hsave
    cases hsave
    subst hsame
    exact Or.inr ⟨hne, hdb, rfl⟩

theorem updateSubscriptions_topics {p : Subscription → Bool} {u : SubscriptionUpdate}
    (h : db.updateSubscriptions p u = .ok db') : db'.topics = db.topics := by
  rw [DB.updateSubscriptions_ok h]

theorem getSubscription_saved {name : String} {row : Subscription} {u : SubscriptionUpdate}
    (hvalid : isValidSubscriptionName name = true)
    (hrow : only (liveSubscriptionNamed name) db.subscriptions = .ok row)
    (hu : u.deletedAt = none)
    (h : db.updateSubscriptions (fun r => decide (r.id = row.id)) u = .ok db') :
    getSubscription name db' = .ok (loadedSubscription db' (u.apply row)) := by
  obtain ⟨hmem, hlive⟩ := liveSubscription_only.mp hrow
  have hsaved : u.apply row ∈ db'.subscriptions := by
    rw [DB.updateSubscriptions_ok h]
    exact List.mem_map.mpr ⟨row, hmem, by simp [setWhere]⟩
  have hlive' : liveSubscriptionNamed name (u.apply row) = true := by
    simpa [liveSubscriptionNamed, SubscriptionUpdate.apply, hu] using hlive
  have hfound := liveSubscription_only.mpr ⟨hsaved, hlive'⟩
  simp [getSubscription, checkSubscriptionName, failWhen, hvalid, hfound, bind, Except.bind,
    pure, Except.pure]

theorem deadLetter_rendered {row : Subscription} {u : SubscriptionUpdate}
    {req : UpdateSubscriptionRequest} {paths : List String} (hmem : row ∈ db.subscriptions)
    (htopics : db'.topics = db.topics)
    (hother : "dead_letter_policy" ∉ paths → u.deadLetterTopicID = none)
    (hpolicy : "dead_letter_policy" ∈ paths →
      ∃ id, u.deadLetterTopicID = some id ∧ Settles db.toTables req id) :
    ((u.apply row).deadLetterTopicID ≠ none →
        edgeName (deadLetterTopicEdge db' (u.apply row)) "" =
          edgeName none (paths.foldl (deadLetterTopicNameAfter req)
            (((deadLetterTopicEdge db row).map Topic.name).getD ""))) ↔
      "dead_letter_policy" ∈ paths ∨ ∀ t, deadLetterTopicEdge db row = some t → Nameable t := by
  have hid : (u.apply row).deadLetterTopicID = u.deadLetterTopicID.getD row.deadLetterTopicID := rfl
  rw [deadLetterTopicName_loop]
  by_cases hin : "dead_letter_policy" ∈ paths
  · obtain ⟨id, hset, hsettles⟩ := hpolicy hin
    rw [hset, Option.getD_some] at hid
    simp only [deadLetterTopicEdge, hid, htopics, hin, if_true, true_or, iff_true]
    intro hne
    cases hsettles with
    | inl hnone => exact absurd hnone hne
    | inr hfound =>
      obtain ⟨dlt, hdlt, rfl⟩ := hfound
      obtain ⟨hdltmem, hdltlive⟩ := only_ok hdlt
      simp only [liveTopicNamed, Bool.and_eq_true, decide_eq_true_eq,
        Option.isNone_iff_eq_none] at hdltlive
      rw [Option.bind_some, fetch_of_mem db.sound.topic_pk hdltmem, ← hdltlive.1]
      exact edgeName_known.mpr (Or.inl hdltlive.2)
  · rw [hother hin, Option.getD_none] at hid
    simp only [hid, hin, if_false, false_or]
    have hedge : deadLetterTopicEdge db' (u.apply row) = deadLetterTopicEdge db row := by
      simp only [deadLetterTopicEdge, hid, htopics]
    rw [hedge]
    cases hk : row.deadLetterTopicID with
    | none => simp [deadLetterTopicEdge, hk]
    | some k =>
      obtain ⟨t, ht⟩ := fetch_isSome (db.sound.subscription_deadLetterTopic row hmem k hk)
      have hloaded : deadLetterTopicEdge db row = some t := by
        simp [deadLetterTopicEdge, hk, ht]
      simp only [hloaded, ne_eq, reduceCtorEq, not_false_eq_true, forall_const,
        Option.some.injEq, forall_eq']
      exact edgeName_known

/-- The condition under which an update and a get render a subscription alike. -/
def ShownAlike (db : DB) (s : PbSubscription) (mask : List String) : Prop :=
  mask ≠ [] ∧ ∀ row ∈ db.subscriptions, liveSubscriptionNamed s.name row = true →
    (∀ t, topicEdge db row = some t → Nameable t) ∧
      ("dead_letter_policy" ∈ mask ∨ ∀ t, deadLetterTopicEdge db row = some t → Nameable t)

theorem shownAlike_iff {row : Subscription} {paths : List String}
    (hrow : only (liveSubscriptionNamed s.name) db.subscriptions = .ok row) :
    ShownAlike db s paths ↔ paths ≠ [] ∧ (∀ t, topicEdge db row = some t → Nameable t) ∧
      ("dead_letter_policy" ∈ paths ∨ ∀ t, deadLetterTopicEdge db row = some t → Nameable t) := by
  obtain ⟨hmem, hlive⟩ := liveSubscription_only.mp hrow
  constructor
  · rintro ⟨hne, hall⟩
    exact ⟨hne, hall row hmem hlive⟩
  · rintro ⟨hne, hshown⟩
    refine ⟨hne, fun r hr hrlive => ?_⟩
    have hsame : r = row := by
      have hfound := liveSubscription_only.mpr ⟨hr, hrlive⟩
      exact Except.ok.inj (hfound.symm.trans hrow)
    rw [hsame]
    exact hshown

theorem subscription_shown
    (h : Handlers.updateSubscription env ⟨some s, mask⟩ db = .ok (resp, db')) :
    (∃ r, resp = some r ∧ getSubscription s.name db' = .ok r) ↔
      ShownAlike db s (mask.getD []) := by
  obtain ⟨row, topic, u, hrow, hvalid, htopic, hu, hsave⟩ := updateSubscription_ok h
  obtain ⟨hset, hdeleted, hother, hpolicy⟩ := updateLoop_sets hu
  rw [shownAlike_iff hrow]
  rcases hsave with ⟨hempty, rfl⟩ | ⟨hne, hdb, rfl⟩
  · constructor
    · rintro ⟨r, hr, -⟩
      cases hr
    · rintro ⟨hmask, -⟩
      exact absurd hempty (hset hmask)
  · have hmask : mask.getD [] ≠ [] := by
      intro hnil
      rw [hnil] at hu
      exact hne (pure_ok.mp hu).symm
    have htopics := updateSubscriptions_topics hdb
    have hedge : topicEdge db' (u.apply row) = some topic := by
      rw [← htopic]
      simp [topicEdge, htopics]
    have hdl := deadLetter_rendered (liveSubscription_only.mp hrow).1 htopics hother hpolicy
    simp only [Option.some.injEq, exists_eq_left', getSubscription_saved hvalid hrow hdeleted hdb,
      Except.ok.injEq, loadedSubscription, rendered_eq, hdl, hedge, htopic, forall_eq', ne_eq,
      hmask, not_false_eq_true, true_and]
    exact and_congr_left' edgeName_known

end

theorem updateTopicPath_sets {req : UpdateTopicRequest} {u u' : TopicUpdate} {path : String}
    (h : updateTopicPath req u path = .ok u') : u' ≠ {} ∧ u'.deletedAt = u.deletedAt := by
  unfold updateTopicPath at h
  split at h
  · cases h
  · cases h
    simp
  · cases h
  · cases h
  · cases h
  · cases h
  · cases h

theorem updateTopicLoop_sets {req : UpdateTopicRequest} {paths : List String} {u u' : TopicUpdate}
    (h : paths.foldlM (updateTopicPath req) u = .ok u') :
    (paths ≠ [] → u' ≠ {}) ∧ u'.deletedAt = u.deletedAt := by
  constructor
  · intro hne
    exact loop_last (fun _ _ _ hstep => (updateTopicPath_sets hstep).1) hne h
  · exact loop_invariant (I := fun v => v.deletedAt = u.deletedAt) paths
      (fun _ _ _ _ hv hstep => (updateTopicPath_sets hstep).2.trans hv) rfl h

section
variable {db db' : DB}

theorem getTopic_saved {name : String} {row : Topic} {u : TopicUpdate}
    (hvalid : isValidTopicName name = true)
    (hrow : only (liveTopicNamed name) db.topics = .ok row) (hu : u.deletedAt = none) :
    getTopic name (db.updateTopics (fun r => decide (r.id = row.id)) u) =
      .ok (entTopicToGrpc (u.apply row)) := by
  obtain ⟨hmem, hlive⟩ := liveTopic_only.mp hrow
  have hsaved : u.apply row ∈ (db.updateTopics (fun r => decide (r.id = row.id)) u).topics :=
    List.mem_map.mpr ⟨row, hmem, by simp [setWhere]⟩
  have hlive' : liveTopicNamed name (u.apply row) = true := by
    simpa [liveTopicNamed, TopicUpdate.apply, hu] using hlive
  have hfound := liveTopic_only.mpr ⟨hsaved, hlive'⟩
  simp [getTopic, checkTopicName, failWhen, hvalid, hfound, bind, Except.bind, pure, Except.pure]

theorem topic_shown {t : PbTopic} {mask : Option (List String)} {resp : Option PbTopic}
    (h : Handlers.updateTopic ⟨some t, mask⟩ db = .ok (resp, db')) :
    (∃ r, resp = some r ∧ getTopic t.name db' = .ok r) ↔ mask.getD [] ≠ [] := by
  obtain ⟨t', ht', h⟩ := bind_ok.mp h
  cases ht'
  obtain ⟨_, hvalid, h⟩ := bind_ok.mp h
  have hvalid : isValidTopicName t.name = true := by simpa using failWhen_ok.mp hvalid
  obtain ⟨⟨saved, db''⟩, htransact, h⟩ := bind_ok.mp h
  cases h
  obtain ⟨⟨saved', tx⟩, hbody, hpair⟩ := map_ok.mp htransact
  cases hpair
  obtain ⟨row, hrow, hbody⟩ := bind_ok.mp hbody
  obtain ⟨u, hu, hbody⟩ := bind_ok.mp hbody
  have hrow : only (liveTopicNamed t.name) db.topics = .ok row := hrow
  have hu : (mask.getD []).foldlM (updateTopicPath (updateTopicRequest t mask)) {} = .ok u := hu
  obtain ⟨hset, hdeleted⟩ := updateTopicLoop_sets hu
  split at hbody
  · rename_i hempty
    cases hbody
    constructor
    · rintro ⟨r, hr, -⟩
      cases hr
    · intro hmask
      exact absurd hempty (hset hmask)
  · rename_i hne
    cases hbody
    have hmask : mask.getD [] ≠ [] := by
      intro hnil
      rw [hnil] at hu
      exact hne (pure_ok.mp hu).symm
    have hget := getTopic_saved hvalid hrow hdeleted
    simp only [hmask, ne_eq, not_false_eq_true, iff_true]
    exact ⟨_, rfl, hget⟩

end

/-- An update that returns no error answers what a get then answers, when its
mask is not empty and no topic that it names has been deleted. -/
theorem updates_answer_truly (mask : Option (List String)) (db db' : DB) :
    (∀ (env : Env) (s : PbSubscription) (resp : Option PbSubscription),
      Handlers.updateSubscription env ⟨some s, mask⟩ db = .ok (resp, db') →
        ((∃ r, resp = some r ∧ getSubscription s.name db' = .ok r) ↔
          ShownAlike db s (mask.getD []))) ∧
    ∀ (t : PbTopic) (resp : Option PbTopic),
      Handlers.updateTopic ⟨some t, mask⟩ db = .ok (resp, db') →
        ((∃ r, resp = some r ∧ getTopic t.name db' = .ok r) ↔ mask.getD [] ≠ []) :=
  ⟨fun _ _ _ h => subscription_shown h, fun _ _ h => topic_shown h⟩

def oneSubscription : DB := (Runs.World.initial.run [
  Runs.Sample.projectTopic 1 10,
  ⟨.plain 2 20, .createSubscription ⟨"projects/p/topics/a", "projects/p/subscriptions/s", hour,
    hour, false, [], "", 0, 0, "", 0, ""⟩, by decide⟩]).db

def relabelled : PbSubscription :=
  ⟨"projects/p/subscriptions/s", "", none, 0, false, none, [("k", "v")], false, none, "", none,
    none, false⟩

theorem updates_answer_truly_relabelled :
    (∃ resp db', Handlers.updateSubscription (.plain 3 30) ⟨some relabelled, some ["labels"]⟩
        oneSubscription = .ok (resp, db') ∧
      ((∃ r, resp = some r ∧ getSubscription relabelled.name db' = .ok r) ↔
        ShownAlike oneSubscription relabelled ["labels"])) ∧
    ∃ resp db', Handlers.updateTopic
        ⟨some ⟨"projects/p/topics/a", [("k", "v")], false, "", false, false⟩, some ["labels"]⟩
        oneSubscription = .ok (resp, db') ∧
      ((∃ r, resp = some r ∧ getTopic "projects/p/topics/a" db' = .ok r) ↔
        ["labels"] ≠ []) := by
  constructor
  · cases h : Handlers.updateSubscription (.plain 3 30) ⟨some relabelled, some ["labels"]⟩
        oneSubscription with
    | error e =>
      have hok : (Handlers.updateSubscription (.plain 3 30) ⟨some relabelled, some ["labels"]⟩
        oneSubscription).isOk = true := by decide +kernel
      rw [h] at hok
      cases hok
    | ok r => exact ⟨r.1, r.2, rfl, (updates_answer_truly _ _ _).1 _ _ _ h⟩
  · cases h : Handlers.updateTopic
        ⟨some ⟨"projects/p/topics/a", [("k", "v")], false, "", false, false⟩, some ["labels"]⟩
        oneSubscription with
    | error e =>
      have hok : (Handlers.updateTopic
        ⟨some ⟨"projects/p/topics/a", [("k", "v")], false, "", false, false⟩, some ["labels"]⟩
        oneSubscription).isOk = true := by decide +kernel
      rw [h] at hok
      cases hok
    | ok r => exact ⟨r.1, r.2, rfl, (updates_answer_truly _ _ _).2 _ _ h⟩

theorem updates_answer_truly_fails_no_mask :
    ¬ ∀ (env : Env) (s : PbSubscription) (mask : Option (List String)) (db db' : DB)
      (resp : Option PbSubscription),
      Handlers.updateSubscription env ⟨some s, mask⟩ db = .ok (resp, db') →
        ∃ r, resp = some r ∧ getSubscription s.name db' = .ok r := by
  intro hall
  have hrun : (Handlers.updateSubscription (.plain 3 30) ⟨some relabelled, none⟩
      oneSubscription).map (fun r => r.1.isSome) = .ok false := by decide +kernel
  obtain ⟨⟨resp, db'⟩, h, hnone⟩ := map_ok.mp hrun
  obtain ⟨r, hr, -⟩ := hall _ _ _ _ _ _ h
  rw [hr] at hnone
  cases hnone

end Mmmbbb.Responses
