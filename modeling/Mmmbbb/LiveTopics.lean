import Mmmbbb.Alterations

/-!
# The topics of the snapshots

Deleting a topic deletes its snapshots, but not its subscriptions: a snapshot
of one of those is a snapshot of a deleted topic.
-/

set_option autoImplicit false

namespace Mmmbbb.LiveTopics
open KeyedRows Programs Mmmbbb.Schema Mmmbbb.Database Mmmbbb.Delivering Mmmbbb.Consuming
open Mmmbbb.Seeking Mmmbbb.Administering Mmmbbb.Pruning Mmmbbb.Runs Mmmbbb.Writes
open Mmmbbb.Alterations

def LiveTopic (t : Tables) (id : UUID) : Prop := ∃ r ∈ t.topics, r.id = id ∧ r.deletedAt = none

instance (t : Tables) (id : UUID) : Decidable (LiveTopic t id) :=
  inferInstanceAs (Decidable (∃ r ∈ t.topics, _ ∧ _))

def Placed (t : Tables) : Prop := ∀ s ∈ t.snapshots, LiveTopic t s.topicID

instance (t : Tables) : Decidable (Placed t) :=
  inferInstanceAs (Decidable (∀ s ∈ t.snapshots, _))

section
variable {a b : Tables}

theorem Placed.mono (h : Placed a) (hs : ∀ s ∈ b.snapshots, s ∈ a.snapshots)
    (ht : ∀ s ∈ b.snapshots, LiveTopic a s.topicID → LiveTopic b s.topicID) : Placed b :=
  fun s hmem => ht s hmem (h s (hs s hmem))

theorem Placed.same (h : Placed a) (ht : b.topics = a.topics) (hs : b.snapshots = a.snapshots) :
    Placed b := by
  refine h.mono (fun s hmem => hs ▸ hmem) fun s _ hlive => ?_
  unfold LiveTopic at hlive ⊢
  rwa [ht]

end

theorem alteration_placed {env : Env} {t t' : Tables} {a : Action} (ht : Sound t)
    (h : Alteration env t a t')
    (hsnapshot : ∀ p, a = .createSnapshot p → ∀ s ∈ t.subscriptions,
      liveSubscriptionNamed p.subscriptionName s = true → LiveTopic t s.topicID)
    (hp : Placed t) : Placed t' := by
  cases h with
  | idle => exact hp
  | @createTopic p r =>
    refine hp.mono (fun s hs => hs) fun s _ hlive => ?_
    obtain ⟨x, hx, hid, hdeleted⟩ := hlive
    exact ⟨x, List.mem_append_left _ hx, hid, hdeleted⟩
  | @updateTopic req q u hu =>
    refine hp.mono (fun s hs => hs) fun s _ hlive => ?_
    obtain ⟨x, hx, hid, hdeleted⟩ := hlive
    have hkept : (setWhere q u.apply x).deletedAt = x.deletedAt :=
      setWhere_keeps Topic.deletedAt (fun r => by simp [TopicUpdate.apply, hu]) x
    have hsame : (setWhere q u.apply x).id = x.id := setWhere_keeps Topic.id u.apply_id x
    exact ⟨_, List.mem_map_of_mem hx, hsame.trans hid, hkept.trans hdeleted⟩
  | @deleteTopic name =>
    refine hp.mono (fun s hs => List.mem_of_mem_filter hs) fun s hs hlive => ?_
    obtain ⟨x, hx, hid, hdeleted⟩ := hlive
    have hkept := (List.mem_filter.mp hs).2
    have hmiss : ¬ decide (x.id ∈ namedTopics name t) = true := by
      rw [hid]
      simpa using hkept
    refine ⟨x, List.mem_map.mpr ⟨x, hx, ?_⟩, hid, hdeleted⟩
    rw [setWhere, if_neg hmiss]
  | createSubscription => exact hp
  | updateSubscription => exact hp
  | setSubscriptions => exact hp
  | @createSnapshot p s r hs hnamed htopic =>
    intro x hx
    rcases List.mem_append.mp hx with hx | hx
    · exact hp x hx
    · rw [List.mem_singleton.mp hx, htopic]
      exact hsnapshot p rfl s hs hnamed
  | deleteSnapshot => exact hp.mono (fun s hs => List.mem_of_mem_filter hs) fun s _ hlive => hlive
  | pruneDeliveries => exact hp
  | pruneMessages => exact hp
  | pruneSubscriptions => exact hp
  | @pruneTopics p =>
    refine hp.mono (fun s hs => hs) fun s _ hlive => ?_
    obtain ⟨x, hx, hid, hdeleted⟩ := hlive
    have hmiss : x.id ∉ prunedTopics env p t := by
      intro hmem
      obtain ⟨r, hr, hrid, hgone, -⟩ := prunedTopics_mem hmem
      rw [ht.topic_pk.eq hr hx hrid, hdeleted] at hgone
      exact hgone rfl
    exact ⟨x, List.mem_filter.mpr ⟨hx, by simpa using hmiss⟩, hid, hdeleted⟩

def OfLiveTopic (w : World) (e : Event) (_ : World) : Prop :=
  match e.action with
  | .createSnapshot p => ∀ s ∈ w.db.subscriptions,
      liveSubscriptionNamed p.subscriptionName s = true → LiveTopic w.db.toTables s.topicID
  | _ => True

instance (w : World) (e : Event) (w' : World) : Decidable (OfLiveTopic w e w') := by
  unfold OfLiveTopic
  generalize e.action = a
  induction a using Runs.Action.casesOn <;> infer_instance

theorem after_placed {w : World} {e : Event} {w' : World} (hp : Placed w.db.toTables)
    (hok : OfLiveTopic w e w') : Placed (w.after e).db.toTables := by
  by_cases ha : OnDeliveries e.action
  · have hstatic := (transaction_of_action w ha).static
    exact hp.same hstatic.topics hstatic.snapshots
  · refine alteration_placed w.db.sound (alteration_after w e ha) (fun p hcreate => ?_) hp
    unfold OfLiveTopic at hok
    rw [hcreate] at hok
    exact hok

/-- While snapshots are taken of subscriptions of live topics, the topic of
every snapshot exists and is not deleted. -/
theorem snapshots_placed {w : World} (h : (bus.within OfLiveTopic).Reachable w) :
    ∀ s ∈ w.db.snapshots, ∃ t ∈ w.db.topics, t.id = s.topicID ∧ t.deletedAt = none := by
  refine h.invariant (I := fun w => Placed w.db.toTables) (fun v hv => ?_) fun v e v' hv hs => ?_
  · rw [hv.1]
    exact fun s hs => by cases hs
  · rw [show v' = v.after e from hs.1]
    exact after_placed hv hs.2

def placedRun : List Event := [
  Sample.ordersTopic 1 10,
  Sample.worker 2 20,
  ⟨.plain 3 30, .createSnapshot ⟨"worker", "before", []⟩, by decide⟩]

def orphanRun : List Event := [
  Sample.ordersTopic 1 10,
  Sample.worker 2 20,
  ⟨.plain 3 30, .deleteTopic "orders", trivial⟩,
  ⟨.plain 4 40, .createSnapshot ⟨"worker", "after", []⟩, by decide⟩]

theorem snapshots_placed_run : (World.initial.run placedRun).db.snapshots ≠ [] ∧
    ∀ s ∈ (World.initial.run placedRun).db.snapshots,
      ∃ t ∈ (World.initial.run placedRun).db.topics, t.id = s.topicID ∧ t.deletedAt = none :=
  ⟨by decide, snapshots_placed (initial_within (by decide))⟩

/-- A snapshot may be of a deleted topic. -/
theorem snapshot_orphaned : ¬ ∀ w, bus.Reachable w → ∀ s ∈ w.db.snapshots,
    ∃ t ∈ w.db.topics, t.id = s.topicID ∧ t.deletedAt = none := by
  intro h
  exact absurd (h _ (initial_reachable orphanRun)) (by decide)

end Mmmbbb.LiveTopics
