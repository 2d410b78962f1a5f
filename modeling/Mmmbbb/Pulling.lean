import Mmmbbb.Notify
import Mmmbbb.Waking

/-!
# A pull that waits

The loop of a pull: cancel the old awaiter, register a new one, query, and
park until something is announced. Between its steps other transactions
commit, and run their commit hooks one by one.
-/

set_option autoImplicit false

namespace Mmmbbb.Pulling
open WaitSets Programs Mmmbbb.Schema Mmmbbb.Database Mmmbbb.Delivering Mmmbbb.Consuming
open Mmmbbb.Runs Mmmbbb.Notify Mmmbbb.Waking

/-- A committed transaction, with the commit hooks it has not run yet. They
are nested, so the one registered last runs first. -/
structure Commit where
  action : Action
  before : DB
  after : DB
  left : List Hook

inductive Phase
  | entering
  | retrying (pubAwaiter : Option Channel)
  | registering
  | querying (pubAwaiter : Channel)
  | parked (pubAwaiter : Channel)
  | leaving (pubAwaiter : Option Channel)
  | returned
  deriving DecidableEq

def Phase.awaiter : Phase → Option Channel
  | .retrying c => c
  | .querying c => some c
  | .parked c => some c
  | .leaving c => c
  | _ => none

structure State where
  registry : Registry
  db : DB
  commits : List Commit
  id : Option UUID
  phase : Phase
  /-- How many commits the last query has seen. -/
  seen : ℕ

def runHook (r : Registry) : Hook → Option Registry
  | .wakePublishListeners onlyInternal subIDs => wakePublishListeners onlyInternal subIDs r
  | .wakeTopicListeners id name => wakeTopicListeners false id name r
  | .wakeSubscriptionListeners id name => wakeSubscriptionListeners false id name r

inductive Step
  | verify (env : Env)
  | cancelOld
  | register
  | query (env : Env)
  | retry
  | giveUp (env : Env)
  | leave
  /-- A transaction of another goroutine or process. -/
  | commit (e : Runs.Event)
  | hook (k : ℕ)
  | other (e : Notify.Event)

def State.committed (st : State) (action : Action) (tx : Tx) : State :=
  { st with
    db := tx.db
    commits := st.commits ++ [⟨action, st.db, tx.db, tx.onCommit.reverse⟩] }

/-- Others never cancel the awaiter of the pull, and install no publish hooks. -/
def Foreign (st : State) : Notify.Event → Prop
  | .addHook kind => kind ≠ .publish
  | .cancel _ c => c = none ∨ c ≠ st.phase.awaiter
  | _ => True

instance (st : State) (e : Notify.Event) : Decidable (Foreign st e) := by
  induction e using Notify.Event.casesOn <;> unfold Foreign <;> infer_instance

/-- A query that finds nothing leaves the database as it is; one that fails
ends the pull. -/
def queried (p : GetSubscriptionMessagesParams) (env : Env) (c : Channel) (st : State) : State :=
  match verifySub p st.db.toTables with
  | .error _ => { st with phase := .leaving (some c) }
  | .ok sub =>
    if queryAndLockDeliveriesOnce env st.db.toTables sub p = [] then
      { st with phase := .parked c, seen := st.commits.length }
    else
      match getSubscriptionMessages env p (.begin st.db) with
      | .error _ => { st with phase := .leaving (some c) }
      | .ok (_, tx) => { st.committed (.get p) tx with phase := .leaving (some c) }

def bound (p : GetSubscriptionMessagesParams) (st : State) : GetSubscriptionMessagesParams :=
  { p with id := st.id }

def step (p : GetSubscriptionMessagesParams) (st : State) : Step → Option State
  | .verify env =>
    match st.phase with
    | .entering =>
      match verifySub p st.db.toTables, touchSubscription env p (.begin st.db) with
      | .ok sub, .ok tx => some { st.committed (.touch p) tx with
          id := some sub.id
          phase := .retrying none }
      | _, _ => none
    | _ => none
  | .cancelOld =>
    match st.phase, st.id with
    | .retrying old, some id => some { st with
        registry := cancelPublishAwaiter id old st.registry
        phase := .registering }
    | _, _ => none
  | .register =>
    match st.phase, st.id with
    | .registering, some id => some { st with
        registry := publishAwaiter id st.registry
        phase := .querying st.registry.made }
    | _, _ => none
  | .query env =>
    match st.phase with
    | .querying c => some (queried (bound p st) env c st)
    | _ => none
  | .retry =>
    match st.phase with
    | .parked c => some { st with phase := .retrying (some c) }
    | _ => none
  | .giveUp env =>
    match st.phase, verifySub (bound p st) st.db.toTables with
    | .parked c, .ok sub =>
      match applyResults env (bound p st) sub [] (.begin st.db) with
      | .ok (_, tx) => some { st.committed (.get (bound p st)) tx with phase := .leaving (some c) }
      | .error _ => none
    | _, _ => none
  | .leave =>
    match st.phase, st.id with
    | .leaving c, some id => some { st with
        registry := cancelPublishAwaiter id c st.registry
        phase := .returned }
    | _, _ => none
  | .commit e =>
    match exec e.env e.action (.begin st.db) with
    | .ok (_, tx) => some (st.committed e.action tx)
    | .error _ => none
  | .hook k =>
    match st.commits[k]? with
    | some cm =>
      match cm.left with
      | h :: rest => (runHook st.registry h).map (fun r => { st with
          registry := r
          commits := st.commits.set k { cm with left := rest } })
      | [] => none
    | none => none
  | .other e =>
    if Foreign st e then (Notify.step st.registry e).map (fun r => { st with registry := r })
    else none

inductive Next (p : GetSubscriptionMessagesParams) (st : State) : State → Prop
  | verify {sub : Subscription} {tx : Tx} :
      Next p st { st.committed (.touch p) tx with
        id := some sub.id
        phase := .retrying none }
  | cancelOld {old : Option Channel} {id : UUID} :
      Next p st { st with
        registry := cancelPublishAwaiter id old st.registry
        phase := .registering }
  | register {id : UUID} : st.id = some id →
      Next p st { st with
        registry := publishAwaiter id st.registry
        phase := .querying st.registry.made }
  | query {env : Env} {c : Channel} : st.phase = .querying c →
      Next p st (queried (bound p st) env c st)
  | retry {c : Channel} : Next p st { st with phase := .retrying (some c) }
  | giveUp {c : Channel} {tx : Tx} :
      Next p st { st.committed (.get (bound p st)) tx with phase := .leaving (some c) }
  | leave {c : Option Channel} {id : UUID} :
      Next p st { st with
        registry := cancelPublishAwaiter id c st.registry
        phase := .returned }
  | commit {e : Runs.Event} {given : List SubscriptionMessageDelivery} {tx : Tx} :
      exec e.env e.action (.begin st.db) = .ok (given, tx) →
      Next p st (st.committed e.action tx)
  | hook {k : ℕ} {cm : Commit} {h : Hook} {rest : List Hook} {r : Registry} :
      st.commits[k]? = some cm → cm.left = h :: rest → runHook st.registry h = some r →
      Next p st { st with
        registry := r
        commits := st.commits.set k { cm with left := rest } }
  | other {e : Notify.Event} {r : Registry} : Foreign st e → Notify.step st.registry e = some r →
      Next p st { st with registry := r }

theorem step_next {p : GetSubscriptionMessagesParams} {st st' : State} {s : Step}
    (h : step p st s = some st') : Next p st st' := by
  cases s with
  | verify env =>
    simp only [step] at h
    split at h
    · split at h
      · exact Option.some.inj h ▸ .verify
      · cases h
    · cases h
  | cancelOld =>
    simp only [step] at h
    split at h
    · exact Option.some.inj h ▸ .cancelOld
    · cases h
  | register =>
    simp only [step] at h
    split at h
    · rename_i id _ hid
      exact Option.some.inj h ▸ .register hid
    · cases h
  | query env =>
    simp only [step] at h
    split at h
    · rename_i c hc
      exact Option.some.inj h ▸ .query hc
    · cases h
  | retry =>
    simp only [step] at h
    split at h
    · exact Option.some.inj h ▸ .retry
    · cases h
  | giveUp env =>
    simp only [step] at h
    split at h
    · split at h
      · exact Option.some.inj h ▸ .giveUp
      · cases h
    · cases h
  | leave =>
    simp only [step] at h
    split at h
    · exact Option.some.inj h ▸ .leave
    · cases h
  | commit e =>
    simp only [step] at h
    split at h
    · rename_i given tx hexec
      exact Option.some.inj h ▸ .commit hexec
    · cases h
  | hook k =>
    simp only [step] at h
    split at h
    · rename_i cm hcm
      split at h
      · rename_i hk rest hleft
        obtain ⟨r, hr, rfl⟩ := Option.map_eq_some_iff.mp h
        exact .hook hcm hleft hr
      · cases h
    · cases h
  | other e =>
    simp only [step] at h
    split at h
    · rename_i hforeign
      obtain ⟨r, hr, rfl⟩ := Option.map_eq_some_iff.mp h
      exact .other hforeign hr
    · cases h

def Init (st : State) : Prop :=
  Sound st.registry ∧ st.registry.pubNotifyHooks = ∅ ∧ st.commits = [] ∧ st.id = none ∧
    st.phase = .entering ∧ st.seen = 0

def pulling (p : GetSubscriptionMessagesParams) : System State Step where
  init := Init
  step st s st' := step p st s = some st'

def Armed (r : Registry) (id : UUID) (c : Channel) : Prop :=
  c ∈ r.waiting (.publish id) ∨ c ∈ r.closed

section
variable {r r' : Registry} {id : UUID} {c : Channel}

theorem Armed.woken {p : Wait → Prop} (h : Armed r id c) (hw : Woken r r' p) : Armed r' id c := by
  rcases h with h | h
  · by_cases hp : p (.publish id)
    · exact Or.inr ((hw.closed c).mpr (Or.inr ⟨_, hp, h⟩))
    · exact Or.inl (by rwa [hw.kept _ hp])
  · exact Or.inr ((hw.closed c).mpr (Or.inl h))

theorem runHook_woken (hs : Sound r) {h : Hook} (hrun : runHook r h = some r') :
    (∃ p, Woken r r' p) ∧ (r.pubNotifyHooks = ∅ → r'.pubNotifyHooks = ∅) := by
  cases h with
  | wakePublishListeners onlyInternal ids =>
    obtain ⟨r'', p, hr, hw, hhooks⟩ := wakePublishListeners_some hs onlyInternal ids
    obtain rfl := Option.some.inj (hr.symm.trans hrun)
    exact ⟨⟨p, hw⟩, fun hnone => hhooks.trans hnone⟩
  | wakeTopicListeners id name =>
    obtain ⟨r'', hr, hw⟩ := wakeTopicListeners_woken hs false id name
    obtain rfl := Option.some.inj (hr.symm.trans hrun)
    exact ⟨⟨_, hw⟩, fun hnone =>
      step_hooks (e := .wakeTopicListeners false id name) hr hnone (by simp)⟩
  | wakeSubscriptionListeners id name =>
    obtain ⟨r'', hr, hw⟩ := wakeSubscriptionListeners_woken hs false id name
    obtain rfl := Option.some.inj (hr.symm.trans hrun)
    exact ⟨⟨_, hw⟩, fun hnone =>
      step_hooks (e := .wakeSubscriptionListeners false id name) hr hnone (by simp)⟩

theorem runHook_wakeFor (hs : Sound r) (hnone : r.pubNotifyHooks = ∅)
    (hrun : runHook r (wakeFor id) = some r') (h : Armed r id c) : c ∈ r'.closed := by
  obtain ⟨r'', hr, hw⟩ := wakePublishListeners_woken hs false id
  obtain rfl := Option.some.inj (hr.symm.trans hrun)
  have hends : Ends r (.wakePublishListeners false id) (.publish id) :=
    ⟨by simp [reaches, hnone], rfl⟩
  rcases h with h | h
  · exact (hw.closed c).mpr (Or.inr ⟨_, hends, h⟩)
  · exact (hw.closed c).mpr (Or.inl h)

theorem Armed.step (h : Armed r id c) (hs : Sound r) {e : Notify.Event}
    (hstep : Notify.step r e = some r') (he : ∀ w, e ≠ .cancel w (some c)) : Armed r' id c := by
  have hst := stepped_of hs hstep
  rcases h with h | h
  · rcases hst.registered hs h with ⟨-, hclosed, -⟩ | ⟨hcancel, -⟩ | ⟨-, -, hreg⟩
    · exact Or.inr hclosed
    · exact absurd hcancel (he _)
    · exact Or.inl hreg
  · refine Or.inr ?_
    cases hst with
    | await _ => rwa [await_closed]
    | cancel _ => rwa [cancel_closed]
    | wake _ _ hw => exact (hw.closed c).mpr (Or.inl h)

theorem closed_step (h : c ∈ r.closed) (hs : Sound r) {e : Notify.Event}
    (hstep : Notify.step r e = some r') : c ∈ r'.closed := by
  have hst := stepped_of hs hstep
  cases hst with
  | await _ => rwa [await_closed]
  | cancel _ => rwa [cancel_closed]
  | wake _ _ hw => exact (hw.closed c).mpr (Or.inl h)

end

/-- The commit has changed deliveries of the subscription, by what it is to
announce. -/
def Commit.Changes (cm : Commit) (id : UUID) : Prop := Announces cm.before cm.after id cm.action

instance (cm : Commit) (id : UUID) : Decidable (cm.Changes id) :=
  inferInstanceAs (Decidable (Announces _ _ _ _))

structure Held (st : State) : Prop where
  sound : Sound st.registry
  hooks : st.registry.pubNotifyHooks = ∅
  armed : ∀ id c, st.id = some id → st.phase = .querying c ∨ st.phase = .parked c →
    Armed st.registry id c
  told : ∀ k cm, st.commits[k]? = some cm → ∀ id, cm.Changes id →
    st.id = some id → ∀ c, st.phase = .parked c →
      c ∈ st.registry.closed ∨ k < st.seen ∨ wakeFor id ∈ cm.left

theorem held_free {st : State} (hs : Sound st.registry)
    (hnone : st.registry.pubNotifyHooks = ∅) (hq : ∀ c, st.phase ≠ .querying c)
    (hp : ∀ c, st.phase ≠ .parked c) : Held st :=
  ⟨hs, hnone, fun _ c _ h => absurd h (not_or.mpr ⟨hq c, hp c⟩),
    fun _ _ _ _ _ _ c h => absurd h (hp c)⟩

section
variable {p : GetSubscriptionMessagesParams} {st st' : State}

theorem held_query (h : Held st) {env : Env} {c : Channel} (hc : st.phase = .querying c) :
    Held (queried p env c st) := by
  unfold queried
  split
  · exact held_free h.sound h.hooks (by simp) (by simp)
  · split
    · refine ⟨h.sound, h.hooks, fun id c' hid hphase => ?_, fun k cm hk id _ _ c' _ => ?_⟩
      · have heq : c = c' := by simpa using hphase
        exact heq ▸ h.armed id c hid (Or.inl hc)
      · exact Or.inr (Or.inl (List.getElem?_eq_some_iff.mp hk).1)
    · split
      · exact held_free h.sound h.hooks (by simp) (by simp)
      · exact held_free h.sound h.hooks (by simp) (by simp)

theorem held_commit (h : Held st) {e : Runs.Event} {given : List SubscriptionMessageDelivery}
    {tx : Tx} (hexec : exec e.env e.action (.begin st.db) = .ok (given, tx)) :
    Held (st.committed e.action tx) := by
  refine ⟨h.sound, h.hooks, h.armed, fun k cm hk id hchanged hid c hc => ?_⟩
  have hk : (st.commits ++ [⟨e.action, st.db, tx.db, tx.onCommit.reverse⟩])[k]? = some cm := hk
  rw [List.getElem?_append] at hk
  split at hk
  · exact h.told k cm hk id hchanged hid c hc
  · obtain rfl := List.mem_singleton.mp (List.mem_of_getElem? hk)
    exact Or.inr (Or.inr (List.mem_reverse.mpr (told hexec hchanged)))

theorem held_hook (h : Held st) {k : ℕ} {cm : Commit} {hk : Hook} {rest : List Hook} {r : Registry}
    (hcm : st.commits[k]? = some cm) (hleft : cm.left = hk :: rest)
    (hrun : runHook st.registry hk = some r) :
    Held { st with registry := r, commits := st.commits.set k { cm with left := rest } } := by
  obtain ⟨⟨q, hw⟩, hhooks⟩ := runHook_woken h.sound hrun
  refine ⟨hw.sound h.sound, hhooks h.hooks, fun id c hid hc => (h.armed id c hid hc).woken hw,
    fun j cm' hj id hchanged hid c hc => ?_⟩
  have hmono : c ∈ st.registry.closed → c ∈ r.closed := fun hmem => (hw.closed c).mpr (Or.inl hmem)
  by_cases hjk : j = k
  · subst hjk
    have hcm' : { cm with left := rest } = cm' := by
      have hlt := (List.getElem?_eq_some_iff.mp hcm).1
      simpa [List.getElem?_set_self hlt] using hj
    subst hcm'
    rcases h.told j cm hcm id hchanged hid c hc with hold | hold | hold
    · exact Or.inl (hmono hold)
    · exact Or.inr (Or.inl hold)
    · rw [hleft] at hold
      rcases List.mem_cons.mp hold with rfl | hold
      · exact Or.inl (runHook_wakeFor h.sound h.hooks hrun (h.armed id c hid (Or.inr hc)))
      · exact Or.inr (Or.inr hold)
  · have hj : (st.commits.set k { cm with left := rest })[j]? = some cm' := hj
    rw [List.getElem?_set_ne (Ne.symm hjk)] at hj
    exact (h.told j cm' hj id hchanged hid c hc).imp_left hmono

theorem held_other (h : Held st) {e : Notify.Event} {r : Registry} (hforeign : Foreign st e)
    (hstep : Notify.step st.registry e = some r) : Held { st with registry := r } := by
  have hs : Sound r := (stepped_of h.sound hstep).sound h.sound
  have hkeep : ∀ c, st.phase.awaiter = some c → ∀ w, e ≠ .cancel w (some c) := by
    rintro c hc w rfl
    rcases hforeign with hnone | hne
    · cases hnone
    · exact hne hc.symm
  refine ⟨hs, step_hooks hstep h.hooks ?_, fun id c hid hc => ?_,
    fun k cm hk id hchanged hid c hc => ?_⟩
  · rintro rfl
    exact hforeign rfl
  · refine (h.armed id c hid hc).step h.sound hstep (hkeep c ?_)
    rcases hc with hc | hc
    · rw [show st.phase = .querying c from hc]
      rfl
    · rw [show st.phase = .parked c from hc]
      rfl
  · exact (h.told k cm hk id hchanged hid c hc).imp_left
      fun hmem => closed_step hmem h.sound hstep

theorem held_next (h : Held st) (hn : Next p st st') : Held st' := by
  cases hn with
  | verify => exact held_free h.sound h.hooks (by simp) (by simp)
  | @cancelOld old id =>
    have hs := sound_cancel h.sound (.publish id) old
    refine held_free hs ?_ (by simp) (by simp)
    cases old <;> exact h.hooks
  | @register id hid =>
    refine ⟨sound_await h.sound (.publish id), h.hooks, fun id' c hid' hc => ?_,
      fun _ _ _ _ _ _ c hc => by cases hc⟩
    have hc : st.registry.made = c := by simpa using hc
    obtain rfl : id = id' := Option.some.inj (hid.symm.trans hid')
    rw [← hc]
    refine Or.inl ?_
    change _ ∈ (await st.registry (.publish id)).waiting (.publish id)
    rw [await_self]
    exact Finset.mem_insert_self _ _
  | query hc => exact held_query h hc
  | retry => exact held_free h.sound h.hooks (by simp) (by simp)
  | giveUp => exact held_free h.sound h.hooks (by simp) (by simp)
  | @leave c id =>
    have hs := sound_cancel h.sound (.publish id) c
    refine held_free hs ?_ (by simp) (by simp)
    cases c <;> exact h.hooks
  | commit hexec => exact held_commit h hexec
  | hook hcm hleft hrun => exact held_hook h hcm hleft hrun
  | other hforeign hstep => exact held_other h hforeign hstep

theorem reachable_held (h : (pulling p).Reachable st) : Held st := by
  induction h with
  | start hinit =>
    obtain ⟨hs, hnone, -, -, hphase, -⟩ := hinit
    exact held_free hs hnone (by simp [hphase]) (by simp [hphase])
  | next s _ hs ih => exact held_next ih (step_next hs)

/-- While the pull is parked on an open awaiter, its last query has seen every
transaction that has announced its changes. -/
theorem no_lost_wakeup (h : (pulling p).Reachable st) {id : UUID} {c : Channel}
    (hid : st.id = some id) (hparked : st.phase = .parked c) (hopen : c ∉ st.registry.closed)
    {k : ℕ} {cm : Commit} (hk : st.commits[k]? = some cm) (hchanged : cm.Changes id)
    (hdone : cm.left = []) : k < st.seen := by
  rcases (reachable_held h).told k cm hk id hchanged hid c hparked with hclosed | hseen | hleft
  · exact absurd hclosed hopen
  · exact hseen
  · rw [hdone] at hleft
    cases hleft

end

def spentDB : DB := (World.initial.run [
  Sample.ordersTopic 1 10,
  Sample.failedTopic 2 20,
  Sample.failingWorker 3 30,
  Sample.publish "" "" 4 40,
  Sample.getSmallest 5 50]).db

def workerPull : GetSubscriptionMessagesParams := ⟨"worker", none, 1, 1, false⟩

def entering : State := ⟨.initial, spentDB, [], none, .entering, 0⟩

def nackedFirst : List Step := [
  .verify (.plain 6 60), .cancelOld, .commit ⟨.plain 7 70, .nack [41], trivial⟩, .hook 1,
  .register, .query (.plain 8 80)]

def runs (p : GetSubscriptionMessagesParams) (st : State) (steps : List Step) : Option State :=
  steps.foldlM (step p) st

theorem runs_reachable {p : GetSubscriptionMessagesParams} {steps : List Step} {st st' : State}
    (h : (pulling p).Reachable st) (hrun : runs p st steps = some st') :
    (pulling p).Reachable st' :=
  h.foldlM (fun _ _ _ hstep => hstep) hrun

theorem nackedFirst_runs : (runs workerPull entering nackedFirst).isSome := by decide +kernel

def parked : State := (runs workerPull entering nackedFirst).get nackedFirst_runs

theorem parked_commits : 1 < parked.commits.length := by decide +kernel

def nacked : Commit := parked.commits.get ⟨1, parked_commits⟩

theorem no_lost_wakeup_nackedFirst : 1 < parked.seen := by
  have hinit : Init entering :=
    ⟨Notify.initial_sound, rfl, rfl, rfl, rfl, rfl⟩
  have hreach := runs_reachable (.start hinit) (Option.some_get nackedFirst_runs).symm
  have hid : parked.id = some 30 := by decide +kernel
  have hphase : parked.phase = .parked 0 := by decide +kernel
  have hk : parked.commits[1]? = some nacked := List.getElem?_eq_getElem parked_commits
  have hopen : 0 ∉ parked.registry.closed := by decide +kernel
  have hchanged : nacked.Changes 30 := by decide +kernel
  have hdone : nacked.left = [] := by decide +kernel
  exact no_lost_wakeup hreach hid hphase hopen hk hchanged hdone

end Mmmbbb.Pulling
