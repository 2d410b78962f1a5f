import Mmmbbb.Runs
import Mathlib.Logic.Function.Basic

/-!
# The pushers of push subscriptions

A service keeps one pusher for each subscription with a push endpoint, in a
map by the identifier of the subscription. A call takes out the pushers that
have ended, starts those that are missing, and cancels the others. A pusher
keeps the endpoint that it was started with.
-/

set_option autoImplicit false

namespace Mmmbbb.Pushers
open KeyedRows Programs Mmmbbb.Schema Mmmbbb.Database Mmmbbb.Delivering Mmmbbb.Runs

structure HttpPushStreamer where
  subscriptionName : String
  subscriptionID : UUID
  endpoint : String
  deriving DecidableEq

def newHttpPusher (subscriptionName : String) (subscriptionID : UUID) (endpoint : String) :
    HttpPushStreamer := ⟨subscriptionName, subscriptionID, endpoint⟩

/-- A pusher and its context, which is done when the pusher has been cancelled
or has died. -/
structure MonitoredPusher where
  pusher : HttpPushStreamer
  cancelled : Bool
  died : Bool
  deriving DecidableEq

def monitorPusher (pusher : HttpPushStreamer) : MonitoredPusher := ⟨pusher, false, false⟩

def MonitoredPusher.done (p : MonitoredPusher) : Bool := p.cancelled || p.died

def MonitoredPusher.cancel (p : MonitoredPusher) : MonitoredPusher := { p with cancelled := true }

abbrev PusherMap := UUID → Option MonitoredPusher

/-- Where a call is: after the harvest, or after it has returned without error,
with what its transaction has read. -/
inductive Phase
  | idle
  | harvested
  | returned (t : Tables)

structure State where
  db : DB
  pushers : PusherMap
  ctxDone : Bool
  phase : Phase

def harvest (pushers : PusherMap) : PusherMap := fun id => (pushers id).filter (fun p => !p.done)

def pushSubscription (s : Subscription) : Bool :=
  s.deletedAt.isNone && s.pushEndpoint.isSome && decide (s.pushEndpoint ≠ some "")

def pushSubs (order : ScanOrder Subscription) (t : Tables) : List Subscription :=
  order.run (t.subscriptions.filter pushSubscription)

def startPusher (pushers : PusherMap) (sub : Subscription) : PusherMap :=
  match pushers sub.id, sub.pushEndpoint with
  | none, some endpoint =>
    Function.update pushers sub.id (some (monitorPusher (newHttpPusher sub.name sub.id endpoint)))
  | _, _ => pushers

def startPushers (subs : List Subscription) (pushers : PusherMap) : PusherMap :=
  subs.foldl startPusher pushers

def terminate (curSet : List UUID) (pushers : PusherMap) : PusherMap :=
  fun id => (pushers id).map (fun p => if id ∈ curSet then p else p.cancel)

inductive Outcome
  | commits
  | queryFails
  | commitFails

inductive Event
  | change (db : DB)
  | dies (id : UUID)
  /-- The context of the service is done. -/
  | stop
  | harvest
  | reconcile (order : ScanOrder Subscription) (outcome : Outcome)

def State.reconciled (st : State) (order : ScanOrder Subscription) (outcome : Outcome) : State :=
  match outcome with
  | .queryFails => { st with phase := .idle }
  | .commitFails => { st with
      pushers := startPushers (pushSubs order st.db.toTables) st.pushers
      phase := .idle }
  | .commits => { st with
      pushers := terminate ((pushSubs order st.db.toTables).map (·.id))
        (startPushers (pushSubs order st.db.toTables) st.pushers)
      phase := .returned st.db.toTables }

/-- Halves of calls alternate; with its context done a call returns at once. -/
def State.after (st : State) : Event → State
  | .change db => { st with db := db }
  | .dies id => { st with
      pushers := Function.update st.pushers id
        ((st.pushers id).map (fun p => { p with died := true })) }
  | .stop => { st with ctxDone := true }
  | .harvest =>
    match st.phase with
    | .harvested => st
    | _ =>
      if st.ctxDone then { st with phase := .idle }
      else { st with pushers := Pushers.harvest st.pushers, phase := .harvested }
  | .reconcile order outcome =>
    match st.phase with
    | .harvested => st.reconciled order outcome
    | _ => st

def State.run (st : State) (es : List Event) : State := es.foldl State.after st

def initialized (db : DB) : State := ⟨db, fun _ => none, false, .idle⟩

def PushesTo (t : Tables) (id : UUID) (endpoint : String) : Prop :=
  ∃ s ∈ t.subscriptions, s.id = id ∧ s.deletedAt = none ∧ s.pushEndpoint = some endpoint ∧
    endpoint ≠ ""

/-- Each endpoint has a pusher that has not been cancelled; each pusher without
an endpoint has been. -/
structure Follows (t : Tables) (pushers : PusherMap) : Prop where
  endpoint : ∀ id endpoint, PushesTo t id endpoint →
    ∃ p, pushers id = some p ∧ p.cancelled = false ∧ p.pusher.endpoint = endpoint
  others : ∀ id p, pushers id = some p → (∀ endpoint, ¬PushesTo t id endpoint) →
    p.cancelled = true

/-- The last call, if it returned without error, has followed what it has read. -/
def Followed (st : State) : Prop := ∀ t, st.phase = .returned t → Follows t st.pushers

/-- No endpoint has become another one while the pusher went on. -/
def Unmoved (st : State) : Prop :=
  ∀ id endpoint p, PushesTo st.db.toTables id endpoint → st.pushers id = some p →
    p.pusher.endpoint = endpoint

def Undisturbed (st : State) (e : Event) (_ : State) : Prop :=
  match e with
  | .reconcile _ .commits => st.phase = .harvested → Unmoved st
  | _ => True

section
variable {pushers : PusherMap} {subs : List Subscription} {id : UUID} {p : MonitoredPusher}

theorem startPusher_cases (pushers : PusherMap) (s : Subscription) :
    startPusher pushers s = pushers ∨ pushers s.id = none ∧ ∃ started,
      startPusher pushers s = Function.update pushers s.id started := by
  unfold startPusher
  split
  · rename_i hnone _
    exact Or.inr ⟨hnone, _, rfl⟩
  · exact Or.inl rfl

theorem startPusher_kept {s : Subscription} (h : pushers id = some p) :
    startPusher pushers s id = some p := by
  rcases startPusher_cases pushers s with hsame | hstarted
  · rw [hsame]
    exact h
  · obtain ⟨hnone, started, heq⟩ := hstarted
    have hid : id ≠ s.id := by
      rintro rfl
      rw [hnone] at h
      cases h
    rw [heq, Function.update_of_ne hid]
    exact h

theorem startPushers_kept (h : pushers id = some p) : startPushers subs pushers id = some p := by
  unfold startPushers
  induction subs generalizing pushers with
  | nil => exact h
  | cons s subs ih => exact ih (startPusher_kept h)

theorem startPusher_other {s : Subscription} (h : id ≠ s.id) :
    startPusher pushers s id = pushers id := by
  rcases startPusher_cases pushers s with hsame | hstarted
  · rw [hsame]
  · obtain ⟨-, started, heq⟩ := hstarted
    rw [heq, Function.update_of_ne h]

theorem startPushers_missing {s : Subscription} {endpoint : String} (hnone : pushers s.id = none)
    (hs : s ∈ subs) (hendpoint : s.pushEndpoint = some endpoint)
    (honce : ∀ x ∈ subs, x.id = s.id → x = s) : startPushers subs pushers s.id =
      some (monitorPusher (newHttpPusher s.name s.id endpoint)) := by
  unfold startPushers
  induction subs generalizing pushers with
  | nil => cases hs
  | cons x subs ih =>
    rw [List.foldl_cons]
    by_cases hid : x.id = s.id
    · obtain rfl := honce x List.mem_cons_self hid
      apply startPushers_kept
      unfold startPusher
      rw [hnone, hendpoint]
      exact Function.update_self _ _ _
    · have hmem : s ∈ subs := by
        cases List.mem_cons.mp hs with
        | inl heq => exact absurd (congrArg Subscription.id heq.symm) hid
        | inr hrest => exact hrest
      apply ih _ hmem (fun y hy => honce y (List.mem_cons_of_mem _ hy))
      rw [startPusher_other (Ne.symm hid)]
      exact hnone

theorem mem_pushSubs {order : ScanOrder Subscription} {t : Tables} {s : Subscription} :
    s ∈ pushSubs order t ↔ s ∈ t.subscriptions ∧ s.deletedAt = none ∧
      ∃ endpoint, s.pushEndpoint = some endpoint ∧ endpoint ≠ "" := by
  rw [pushSubs, ScanOrder.mem_run, List.mem_filter]
  simp only [pushSubscription, Bool.and_eq_true, Option.isNone_iff_eq_none, decide_eq_true_eq,
    Option.isSome_iff_exists]
  constructor
  · rintro ⟨hmem, ⟨hlive, endpoint, hendpoint⟩, hne⟩
    exact ⟨hmem, hlive, endpoint, hendpoint, fun hempty => hne (by rw [hendpoint, hempty])⟩
  · rintro ⟨hmem, hlive, endpoint, hendpoint, hne⟩
    exact ⟨hmem, ⟨hlive, endpoint, hendpoint⟩, by simp [hendpoint, hne]⟩

theorem mem_curSet {order : ScanOrder Subscription} {t : Tables} :
    id ∈ (pushSubs order t).map (·.id) ↔ ∃ endpoint, PushesTo t id endpoint := by
  rw [List.mem_map]
  constructor
  · rintro ⟨s, hs, rfl⟩
    obtain ⟨hmem, hlive, endpoint, hendpoint, hne⟩ := mem_pushSubs.mp hs
    exact ⟨endpoint, s, hmem, rfl, hlive, hendpoint, hne⟩
  · rintro ⟨endpoint, s, hmem, rfl, hlive, hendpoint, hne⟩
    exact ⟨s, mem_pushSubs.mpr ⟨hmem, hlive, endpoint, hendpoint, hne⟩, rfl⟩

theorem terminate_some {curSet : List UUID} {p : MonitoredPusher} :
    terminate curSet pushers id = some p ↔
      ∃ q, pushers id = some q ∧ (if id ∈ curSet then q else q.cancel) = p :=
  Option.map_eq_some_iff

end

section
variable {st : State} {order : ScanOrder Subscription}

def Clean (st : State) : Prop :=
  st.phase = .harvested → ∀ id p, st.pushers id = some p → p.cancelled = false

theorem reconciled_endpoint (hclean : ∀ id p, st.pushers id = some p → p.cancelled = false)
    (hunmoved : Unmoved st) {id : UUID} {endpoint : String}
    (h : PushesTo st.db.toTables id endpoint) :
    ∃ p, (st.reconciled order .commits).pushers id = some p ∧ p.cancelled = false ∧
      p.pusher.endpoint = endpoint := by
  have hcur : id ∈ (pushSubs order st.db.toTables).map (·.id) := mem_curSet.mpr ⟨endpoint, h⟩
  cases hp : st.pushers id with
  | some p =>
    refine ⟨p, terminate_some.mpr ⟨p, startPushers_kept hp, if_pos hcur⟩, hclean id p hp, ?_⟩
    exact hunmoved id endpoint p h hp
  | none =>
    obtain ⟨s, hmem, rfl, hlive, hendpoint, hne⟩ := h
    have hs : s ∈ pushSubs order st.db.toTables :=
      mem_pushSubs.mpr ⟨hmem, hlive, endpoint, hendpoint, hne⟩
    have hstarted := startPushers_missing hp hs hendpoint
      (fun x hx hid => st.db.sound.subscription_pk.eq (mem_pushSubs.mp hx).1 hmem hid)
    exact ⟨_, terminate_some.mpr ⟨_, hstarted, if_pos hcur⟩, rfl, rfl⟩

theorem reconciled_others {id : UUID} {p : MonitoredPusher}
    (hp : (st.reconciled order .commits).pushers id = some p)
    (hnone : ∀ endpoint, ¬PushesTo st.db.toTables id endpoint) : p.cancelled = true := by
  obtain ⟨q, -, rfl⟩ := terminate_some.mp hp
  have hcur : id ∉ (pushSubs order st.db.toTables).map (·.id) := by
    intro hmem
    obtain ⟨endpoint, h⟩ := mem_curSet.mp hmem
    exact hnone endpoint h
  rw [if_neg hcur]
  rfl

theorem reconciled_follows_iff (order : ScanOrder Subscription)
    (hclean : ∀ id p, st.pushers id = some p → p.cancelled = false) :
    Follows st.db.toTables (st.reconciled order .commits).pushers ↔ Unmoved st := by
  constructor
  · intro h id endpoint p hpush hp
    obtain ⟨q, hq, -, hendpoint⟩ := h.endpoint id endpoint hpush
    obtain ⟨r, hr, hrq⟩ := terminate_some.mp hq
    have hcur : id ∈ (pushSubs order st.db.toTables).map (·.id) :=
      mem_curSet.mpr ⟨endpoint, hpush⟩
    rw [startPushers_kept hp] at hr
    obtain rfl := Option.some.inj hr
    rw [if_pos hcur] at hrq
    rw [hrq]
    exact hendpoint
  · intro h
    exact ⟨fun id endpoint hpush => reconciled_endpoint hclean h hpush,
      fun id p hp hnone => reconciled_others hp hnone⟩

theorem dies_some {pushers : PusherMap} {id k : UUID} {p : MonitoredPusher}
    (h : Function.update pushers id ((pushers id).map (fun p => { p with died := true })) k =
      some p) : ∃ q, pushers k = some q ∧ p.cancelled = q.cancelled ∧ p.pusher = q.pusher := by
  by_cases hk : k = id
  · subst hk
    rw [Function.update_self] at h
    obtain ⟨q, hq, rfl⟩ := Option.map_eq_some_iff.mp h
    exact ⟨q, hq, rfl, rfl⟩
  · rw [Function.update_of_ne hk] at h
    exact ⟨p, h, rfl, rfl⟩

theorem some_dies {pushers : PusherMap} (id : UUID) {k : UUID} {q : MonitoredPusher}
    (h : pushers k = some q) : ∃ p,
      Function.update pushers id ((pushers id).map (fun p => { p with died := true })) k =
        some p ∧ p.cancelled = q.cancelled ∧ p.pusher = q.pusher := by
  by_cases hk : k = id
  · subst hk
    exact ⟨{ q with died := true }, by rw [Function.update_self, h]; rfl, rfl, rfl⟩
  · exact ⟨q, by rw [Function.update_of_ne hk, h], rfl, rfl⟩

theorem Follows.dies {t : Tables} {pushers : PusherMap} (h : Follows t pushers) (id : UUID) :
    Follows t
      (Function.update pushers id ((pushers id).map (fun p => { p with died := true }))) where
  endpoint := by
    intro k endpoint hpush
    obtain ⟨q, hq, hcancelled, hendpoint⟩ := h.endpoint k endpoint hpush
    obtain ⟨p, hp, hpc, hpp⟩ := some_dies id hq
    exact ⟨p, hp, hpc.trans hcancelled, by rw [hpp]; exact hendpoint⟩
  others := by
    intro k p hp hnone
    obtain ⟨q, hq, hpc, -⟩ := dies_some hp
    exact hpc.trans (h.others k q hq hnone)

theorem clean_step (st : State) (e : Event) (h : Clean st) : Clean (st.after e) := by
  cases e with
  | change db => exact h
  | stop => exact h
  | dies id =>
    intro hphase k p hp
    obtain ⟨q, hq, hpc, -⟩ := dies_some hp
    exact hpc.trans (h hphase k q hq)
  | harvest =>
    simp only [State.after]
    split
    · exact h
    · split
      · exact fun hphase => nomatch hphase
      · intro _ id p hp
        obtain ⟨-, hdone⟩ := Option.filter_eq_some_iff.mp hp
        simp only [MonitoredPusher.done, Bool.not_eq_true', Bool.or_eq_false_iff] at hdone
        exact hdone.1
  | reconcile order outcome =>
    simp only [State.after]
    split
    · cases outcome <;> exact fun hphase => nomatch hphase
    · exact h

theorem followed_step (e : Event) (hclean : Clean st) (h : Followed st) :
    Followed (st.after e) ↔ Undisturbed st e (st.after e) := by
  cases e with
  | change db => exact iff_of_true h trivial
  | stop => exact iff_of_true h trivial
  | dies id => exact iff_of_true (fun t ht => (h t ht).dies id) trivial
  | harvest =>
    refine iff_of_true ?_ trivial
    simp only [State.after]
    split
    · exact h
    · split <;> exact fun t ht => nomatch ht
  | reconcile order outcome =>
    simp only [State.after]
    split
    · rename_i hphase
      cases outcome with
      | queryFails => exact iff_of_true (fun t ht => nomatch ht) trivial
      | commitFails => exact iff_of_true (fun t ht => nomatch ht) trivial
      | commits =>
        have hiff := reconciled_follows_iff order (hclean hphase)
        constructor
        · intro hfollowed _
          exact hiff.mp (hfollowed _ rfl)
        · intro hunmoved t ht
          obtain rfl := Phase.returned.inj ht
          exact hiff.mpr (hunmoved hphase)
    · rename_i hphase
      refine iff_of_true h ?_
      unfold Undisturbed
      split
      · exact fun hharvested => absurd hharvested (by simpa using hphase)
      · trivial

theorem initialized_clean (db : DB) : Clean (initialized db) := by
  intro hphase
  cases hphase

theorem initialized_followed (db : DB) : Followed (initialized db) := by
  intro t ht
  cases ht

/-- All through a run the calls follow the endpoints exactly when none finds
that an endpoint has moved. -/
theorem endpoints_followed_iff (db : DB) (es : List Event) :
    (∀ pre, pre <+: es → Followed ((initialized db).run pre)) ↔
      Throughout State.after Undisturbed (initialized db) es := by
  have hclean : ∀ pre, Clean ((initialized db).run pre) :=
    fun pre => foldl_invariant clean_step (initialized_clean db) pre
  have hstep : ∀ st e, Clean st ∧ Followed st →
      (Clean (st.after e) ∧ Followed (st.after e) ↔ Undisturbed st e (st.after e)) := by
    intro st e h
    rw [← followed_step e h.1 h.2]
    exact and_iff_right (clean_step st e h.1)
  rw [← throughout_iff hstep ⟨initialized_clean db, initialized_followed db⟩ es]
  exact forall₂_congr fun pre _ => (and_iff_right (hclean pre)).symm

end

def firstWorld : World := World.initial.run [
  Sample.ordersTopic 1 10,
  ⟨.plain 2 20, .createSubscription ⟨"orders", "worker", hour, hour, false, [], "http://a/", 0, 0,
    "", 0, ""⟩, by decide⟩]

def secondWorld : World := firstWorld.run [
  ⟨.plain 3 30, .modifyPushConfig "worker" (some ⟨"http://b/", [], false⟩), by decide⟩]

def moving : List Event := [
  .harvest, .reconcile (.insertion Subscription) .commits, .change secondWorld.db,
  .harvest, .reconcile (.insertion Subscription) .commits]

/-- The call returns without error, and the only pusher keeps the endpoint it
was started with. -/
theorem endpoint_kept :
    PushesTo ((initialized firstWorld.db).run moving).db.toTables 20 "http://b/" ∧
      ((initialized firstWorld.db).run moving).pushers 20 =
        some ⟨⟨"worker", 20, "http://a/"⟩, false, false⟩ ∧
      ¬Followed ((initialized firstWorld.db).run moving) := by
  have hpush : PushesTo ((initialized firstWorld.db).run moving).db.toTables 20 "http://b/" := by
    unfold PushesTo
    decide +kernel
  have hpusher : ((initialized firstWorld.db).run moving).pushers 20 =
      some ⟨⟨"worker", 20, "http://a/"⟩, false, false⟩ := by decide +kernel
  refine ⟨hpush, hpusher, fun h => ?_⟩
  obtain ⟨p, hp, -, hendpoint⟩ := (h _ rfl).endpoint 20 "http://b/" hpush
  rw [hpusher] at hp
  obtain rfl := Option.some.inj hp
  exact absurd hendpoint (by decide)

end Mmmbbb.Pushers
