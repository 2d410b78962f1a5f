import Mmmbbb.Slots
import Mmmbbb.Completions

/-!
# No ghosts in the window

A completed delivery leaves the window because the completing transaction
wakes the refresher. What is put into the window when it has been completed
already, and its wake is spent, stays there.
-/

set_option autoImplicit false

namespace Mmmbbb.Ghosts
open KeyedRows WaitSets Windows Programs Mmmbbb.Schema Mmmbbb.Database Mmmbbb.Delivering
open Mmmbbb.Consuming Mmmbbb.Runs Mmmbbb.Notify Mmmbbb.Waking Mmmbbb.Completions
open Mmmbbb.Streaming Mmmbbb.Slots
open Mmmbbb.Pulling (runHook Armed runHook_woken runHook_wakeFor closed_step)

def Completed (db : DB) (id : UUID) : Prop :=
  ∃ d ∈ db.deliveries, d.id = id ∧ d.completedAt ≠ none

instance (db : DB) (id : UUID) : Decidable (Completed db id) :=
  inferInstanceAs (Decidable (∃ d ∈ db.deliveries, _ ∧ _))

def Alert (closed : Finset Channel) : Refresher → Prop
  | .starting => False
  | .notified | .awake _ => True
  | .waiting c | .querying c _ _ | .dropping c _ _ => c ∈ closed

instance (closed : Finset Channel) (r : Refresher) : Decidable (Alert closed r) := by
  unfold Alert
  split <;> infer_instance

theorem Alert.mono {closed closed' : Finset Channel} {r : Refresher} (h : Alert closed r)
    (hc : ∀ c ∈ closed, c ∈ closed') : Alert closed' r := by
  cases r with
  | starting => exact h
  | notified => trivial
  | awake c => trivial
  | waiting c => exact hc c h
  | querying c ids now => exact hc c h
  | dropping c ids rows => exact hc c h

theorem alert_of_closed {closed : Finset Channel} {r : Refresher} (hr : r ≠ .starting)
    (hc : ∀ c, r.channel = some c → c ∈ closed) : Alert closed r := by
  cases r with
  | starting => exact absurd rfl hr
  | notified => trivial
  | awake c => trivial
  | waiting c => exact hc c rfl
  | querying c ids now => exact hc c rfl
  | dropping c ids rows => exact hc c rfl

def Examines (id : UUID) : Refresher → Prop
  | .querying _ ids _ => id ∈ ids
  | .dropping _ ids rows => id ∈ ids ∧ ¬ Has Delivery.id id rows
  | _ => False

instance (id : UUID) (r : Refresher) : Decidable (Examines id r) := by
  unfold Examines
  split <;> infer_instance

def Coming (ms : MessageStreamer) (st : State) : Prop :=
  (∃ hs ∈ st.hooks, wakeFor ms.subscriptionID ∈ hs) ∨ ms.subscriptionID ∈ st.notices ∨
    Alert st.registry.closed st.refresher

def Pursued (ms : MessageStreamer) (st : State) (id : UUID) : Prop :=
  Coming ms st ∨ Examines id st.refresher

instance (ms : MessageStreamer) (st : State) (id : UUID) : Decidable (Pursued ms st id) :=
  inferInstanceAs (Decidable (((∃ hs ∈ st.hooks, _ ∈ hs) ∨ _ ∨ _) ∨ _))

def Wakes (ms : MessageStreamer) (st : State) : Step → Prop
  | .hook k => st.registry.pubNotifyHooks = ∅ ∧
      st.hooks[k]?.bind List.head? = some (wakeFor ms.subscriptionID)
  | .notice k => st.notices[k]? = some ms.subscriptionID
  | _ => False

instance (ms : MessageStreamer) (st : State) (s : Step) : Decidable (Wakes ms st s) := by
  induction s using Step.casesOn <;> unfold Wakes <;> infer_instance

/-- What goes into the window is not completed unless the refresher will look
at it; and no wake for what is completed comes before the refresher waits. -/
def InTime (ms : MessageStreamer) (st : State) (s : Step) (_ : State) : Prop :=
  (match s with
    | .insert => ∀ x ∈ st.sender.results, Completed st.db x.id → Pursued ms st x.id
    | _ => True) ∧
  (Wakes ms st s → st.refresher = .starting → ∀ id ∈ st.pending.keys, ¬ Completed st.db id)

instance (ms : MessageStreamer) (st : State) (s : Step) (st' : State) :
    Decidable (InTime ms st s st') := by
  unfold InTime
  split <;> infer_instance

def Holds (st : State) (id : UUID) : Prop :=
  id ∈ st.pending ∨ id ∈ st.sender.results.map (·.id)

structure Tidy (ms : MessageStreamer) (st : State) : Prop where
  sound : Sound st.registry
  armed : ∀ c, st.refresher.channel = some c → Armed st.registry ms.subscriptionID c
  params : ∀ p, st.sender = .entering p ∨ st.sender = .fetching p → p.id = some ms.subscriptionID
  mine : ∀ id, Holds st id → ∀ d ∈ st.db.deliveries, d.id = id →
    d.subscriptionID = ms.subscriptionID
  pursued : ∀ id ∈ st.pending, Completed st.db id → Pursued ms st id

section
variable {ms : MessageStreamer} {st st' : State} {s : Step}

structure Still (st st' : State) : Prop where
  registry : st'.registry = st.registry
  refresher : st'.refresher = st.refresher
  db : st'.db = st.db
  hooks : st'.hooks = st.hooks
  notices : st'.notices = st.notices

theorem Still.pursued (h : Still st st') {id : UUID} : Pursued ms st' id ↔ Pursued ms st id := by
  unfold Pursued Coming
  rw [h.registry, h.refresher, h.hooks, h.notices]

theorem Tidy.still (h : Tidy ms st) (hs : Still st st') (hp : ∀ id ∈ st'.pending, id ∈ st.pending)
    (hholds : ∀ id ∈ st'.sender.results.map (·.id), Holds st id)
    (hparams : ∀ p, st'.sender = .entering p ∨ st'.sender = .fetching p →
      p.id = some ms.subscriptionID) : Tidy ms st' where
  sound := hs.registry ▸ h.sound
  armed := by
    rw [hs.refresher, hs.registry]
    exact h.armed
  params := hparams
  mine := by
    rw [hs.db]
    exact fun id hid => h.mine id (hid.elim (fun hmem => Or.inl (hp id hmem)) (hholds id))
  pursued := by
    exact fun id hid hdone => hs.pursued.mpr (h.pursued id (hp id hid) (hs.db ▸ hdone))

theorem Tidy.frame (h : Tidy ms st) (hs : Still st st') (hp : ∀ id ∈ st'.pending, id ∈ st.pending)
    (hsender : st'.sender = st.sender) : Tidy ms st' :=
  h.still hs hp (fun _ hid => Or.inr (hsender ▸ hid)) (hsender ▸ h.params)

theorem Tidy.committed (h : Tidy ms st) {tx : Tx} (hu : Unused st tx)
    (ht : ∀ d ∈ tx.db.deliveries, Traced st.db tx.onCommit d) : Tidy ms (st.committed tx) := by
  have hrow : ∀ id, Holds st id → ∀ d ∈ tx.db.deliveries, d.id = id →
      ∃ r ∈ st.db.deliveries, r.id = id ∧ r.subscriptionID = d.subscriptionID ∧
        (d.completedAt ≠ none → r.completedAt ≠ none ∨ wakeFor d.subscriptionID ∈ tx.onCommit) := by
    intro id hid d hd hdid
    rcases ht d hd with ⟨r, hr, hrid, hsub, hdone⟩ | hnew
    · exact ⟨r, hr, hrid.trans hdid, hsub, hdone⟩
    · rcases hu d hd with hhas | ⟨hpending, hresults⟩
      · exact absurd hhas hnew
      · rw [hdid] at hpending hresults
        exact absurd hid (not_or.mpr ⟨hpending, hresults⟩)
  have hmine : ∀ id, Holds st id → ∀ d ∈ tx.db.deliveries, d.id = id →
      d.subscriptionID = ms.subscriptionID := by
    intro id hid d hd hdid
    obtain ⟨r, hr, hrid, hsub, -⟩ := hrow id hid d hd hdid
    exact hsub.symm.trans (h.mine id hid r hr hrid)
  refine ⟨h.sound, h.armed, h.params, hmine, fun id hid hdone => ?_⟩
  have hkept : Pursued ms st id → Pursued ms (st.committed tx) id := by
    rintro ((⟨hs, hhs, hwake⟩ | hcoming) | hlook)
    · exact Or.inl (Or.inl ⟨hs, List.mem_append_left _ hhs, hwake⟩)
    · exact Or.inl (Or.inr hcoming)
    · exact Or.inr hlook
  obtain ⟨d, hd, hdid, hdone⟩ := hdone
  obtain ⟨r, hr, hrid, -, hwas⟩ := hrow id (Or.inl hid) d hd hdid
  rcases hwas hdone with hrdone | hwake
  · exact hkept (h.pursued id hid ⟨r, hr, hrid, hrdone⟩)
  · rw [hmine id (Or.inl hid) d hd hdid] at hwake
    refine Or.inl (Or.inl ⟨tx.onCommit.reverse, ?_, List.mem_reverse.mpr hwake⟩)
    exact List.mem_append_right _ (List.mem_singleton_self _)

theorem Tidy.registry (h : Tidy ms st) {r : Registry} (hs : Sound r)
    (ha : ∀ c, st.refresher.channel = some c → Armed st.registry ms.subscriptionID c →
      Armed r ms.subscriptionID c)
    (hclosed : ∀ c ∈ st.registry.closed, c ∈ r.closed) : Tidy ms { st with registry := r } where
  sound := hs
  armed := fun c hc => ha c hc (h.armed c hc)
  params := h.params
  mine := h.mine
  pursued := by
    intro id hid hdone
    rcases h.pursued id hid hdone with (hhooks | hnotices | halert) | hlook
    · exact Or.inl (Or.inl hhooks)
    · exact Or.inl (Or.inr (Or.inl hnotices))
    · exact Or.inl (Or.inr (Or.inr (halert.mono hclosed)))
    · exact Or.inr hlook

theorem Tidy.await (h : Tidy ms st) :
    Tidy ms { st with registry := publishAwaiter ms.subscriptionID st.registry } := by
  have hstep : Notify.step st.registry (.await (.publish ms.subscriptionID)) =
      some (publishAwaiter ms.subscriptionID st.registry) := rfl
  exact h.registry (sound_await h.sound (.publish ms.subscriptionID))
    (fun c _ harmed => harmed.step h.sound hstep (by simp)) (fun _ hc => hc)

theorem Tidy.hook (h : Tidy ms st) {k : ℕ} {hk : Hook} {rest : List Hook} {r : Registry}
    (hhooks : st.hooks[k]? = some (hk :: rest)) (hrun : runHook st.registry hk = some r)
    (hok : InTime ms st (.hook k) st') : Tidy ms { st with
      registry := r
      hooks := st.hooks.set k rest
      notices := st.notices ++ passedOn st.registry hk } := by
  obtain ⟨⟨p, hw⟩, -⟩ := runHook_woken h.sound hrun
  have hclosed : ∀ c ∈ st.registry.closed, c ∈ r.closed :=
    fun c hc => (hw.closed c).mpr (Or.inl hc)
  have hreg : Tidy ms { st with registry := r } :=
    h.registry (hw.sound h.sound) (fun c _ ha => ha.woken hw) hclosed
  refine ⟨hreg.sound, hreg.armed, hreg.params, hreg.mine, fun id hid hdone => ?_⟩
  rcases hreg.pursued id hid hdone with (⟨hs, hhs, hwake⟩ | hnotices | halert) | hlook
  · obtain ⟨j, hj, hget⟩ := List.getElem_of_mem hhs
    by_cases hjk : k = j
    · subst hjk
      have hhs' : hs = hk :: rest := by
        have hsome : st.hooks[k]? = some hs := by rw [List.getElem?_eq_getElem hj, hget]
        exact Option.some.inj (hsome.symm.trans hhooks)
      rw [hhs'] at hwake
      rcases List.mem_cons.mp hwake with rfl | hrest
      · by_cases hnone : st.registry.pubNotifyHooks = ∅
        · refine Or.inl (Or.inr (Or.inr (alert_of_closed ?_ fun c hc => ?_)))
          · intro hstart
            refine hok.2 ⟨hnone, ?_⟩ hstart id (AList.mem_keys.mp hid) hdone
            rw [hhooks]
            rfl
          · exact runHook_wakeFor h.sound hnone hrun (h.armed c hc)
        · refine Or.inl (Or.inr (Or.inl (List.mem_append_right _ ?_)))
          have hcard : st.registry.pubNotifyHooks.card ≠ 0 := by simpa using hnone
          simp [passedOn, wakeFor, hcard]
      · refine Or.inl (Or.inl ⟨rest, ?_, hrest⟩)
        exact List.mem_of_getElem? (List.getElem?_set_self hj)
    · refine Or.inl (Or.inl ⟨hs, ?_, hwake⟩)
      have hset : (st.hooks.set k rest)[j]? = some hs := by
        rw [List.getElem?_set_ne hjk, List.getElem?_eq_getElem hj]
        exact congrArg some hget
      exact List.mem_of_getElem? hset
  · exact Or.inl (Or.inr (Or.inl (List.mem_append_left _ hnotices)))
  · exact Or.inl (Or.inr (Or.inr halert))
  · exact Or.inr hlook

theorem Tidy.notice (h : Tidy ms st) {k : ℕ} {n : UUID} {r : Registry}
    (hn : st.notices[k]? = some n) (hrun : wakePublishListeners true [n] st.registry = some r)
    (hok : InTime ms st (.notice k) st') : Tidy ms { st with
      registry := r
      notices := st.notices.eraseIdx k } := by
  obtain ⟨r', hr', hw⟩ := wakePublishListeners_woken h.sound true n
  obtain rfl := Option.some.inj (hr'.symm.trans hrun)
  have hclosed : ∀ c ∈ st.registry.closed, c ∈ r'.closed :=
    fun c hc => (hw.closed c).mpr (Or.inl hc)
  have hreg : Tidy ms { st with registry := r' } :=
    h.registry (hw.sound h.sound) (fun c _ ha => ha.woken hw) hclosed
  refine ⟨hreg.sound, hreg.armed, hreg.params, hreg.mine, fun id hid hdone => ?_⟩
  rcases hreg.pursued id hid hdone with (hhooks | hnotices | halert) | hlook
  · exact Or.inl (Or.inl hhooks)
  · by_cases hmine : n = ms.subscriptionID
    · subst hmine
      refine Or.inl (Or.inr (Or.inr (alert_of_closed ?_ fun c hc => ?_)))
      · intro hstart
        exact hok.2 hn hstart id (AList.mem_keys.mp hid) hdone
      · have hends : Ends st.registry (.wakePublishListeners true ms.subscriptionID)
            (.publish ms.subscriptionID) := ⟨rfl, rfl⟩
        rcases h.armed c hc with hwait | hdone
        · exact (hw.closed c).mpr (Or.inr ⟨_, hends, hwait⟩)
        · exact hclosed c hdone
    · refine Or.inl (Or.inr (Or.inl ?_))
      obtain ⟨j, hj, hget⟩ := List.getElem_of_mem hnotices
      rw [List.mem_eraseIdx_iff_getElem?]
      refine ⟨j, ?_, by rw [List.getElem?_eq_getElem hj, hget]⟩
      rintro rfl
      rw [List.getElem?_eq_getElem hj, hget] at hn
      exact hmine (Option.some.inj hn).symm
  · exact Or.inl (Or.inr (Or.inr halert))
  · exact Or.inr hlook

theorem Tidy.other (h : Tidy ms st) {e : Notify.Event} {r : Registry} (hf : Foreign st e)
    (hstep : Notify.step st.registry e = some r) : Tidy ms { st with registry := r } := by
  have hs : Sound r := (stepped_of h.sound hstep).sound h.sound
  refine h.registry hs (fun c hc harmed => ?_) (fun c hc => closed_step hc h.sound hstep)
  refine harmed.step h.sound hstep fun w he => ?_
  subst he
  rcases hf with hnone | ⟨-, hne⟩
  · cases hnone
  · exact hne hc.symm

theorem Tidy.refresher (h : Tidy ms st) {f : Refresher}
    (ha : ∀ c, f.channel = some c → Armed st.registry ms.subscriptionID c)
    (hp : ∀ id ∈ st.pending, Completed st.db id → Pursued ms st id →
      Pursued ms { st with refresher := f } id) : Tidy ms { st with refresher := f } :=
  ⟨h.sound, ha, h.params, h.mine, fun id hid hdone => hp id hid hdone (h.pursued id hid hdone)⟩

theorem Coming.refresher (h : Coming ms st) {f : Refresher}
    (ha : Alert st.registry.closed st.refresher → Alert st.registry.closed f) :
    Coming ms { st with refresher := f } :=
  h.imp_right (Or.imp_right ha)

theorem armed_made (st : State) :
    Armed (publishAwaiter ms.subscriptionID st.registry) ms.subscriptionID st.registry.made := by
  refine Or.inl ?_
  change _ ∈ (Notify.await st.registry (.publish ms.subscriptionID)).waiting
    (.publish ms.subscriptionID)
  rw [await_self]
  exact Finset.mem_insert_self _ _

theorem tidy_start (h : Tidy ms st) (hr : st.refresher = .starting)  :
    Tidy ms { st with
      registry := publishAwaiter ms.subscriptionID st.registry
      refresher := .waiting st.registry.made } := by
  refine h.await.refresher (fun c hc => ?_) fun id _ _ hpursued => ?_
  · obtain rfl := Option.some.inj hc
    exact armed_made st
  · rcases hpursued with hcoming | hlook
    · refine Or.inl (hcoming.refresher fun halert => ?_)
      dsimp only at halert
      rw [hr] at halert
      exact False.elim halert
    · dsimp only at hlook
      rw [hr] at hlook
      exact False.elim hlook

theorem tidy_again (h : Tidy ms st) :
    Tidy ms { st with
      registry := publishAwaiter ms.subscriptionID st.registry
      refresher := .awake st.registry.made } := by
  refine h.await.refresher (fun c hc => ?_) fun _ _ _ _ => Or.inl (Or.inr (Or.inr trivial))
  obtain rfl := Option.some.inj hc
  exact armed_made st

theorem tidy_read (h : Tidy ms st) {c : Channel} (hr : st.refresher = .awake c) (now : Time) :
    Tidy ms { st with refresher := .querying c st.pending.keys now } := by
  refine h.refresher (fun c' hc => h.armed c' (by rw [hr]; exact hc)) fun id hid _ _ => ?_
  exact Or.inr (AList.mem_keys.mp hid)

theorem tidy_query (h : Tidy ms st) {c : Channel} {ids : List UUID} {now : Time}
    (hr : st.refresher = .querying c ids now) : Tidy ms { st with
      refresher := .dropping c ids (st.db.deliveries.filter (stillPending ids now)) } := by
  refine h.refresher (fun c' hc => h.armed c' (by rw [hr]; exact hc))
    fun id hid hdone hpursued => ?_
  rcases hpursued with hcoming | hlook
  · refine Or.inl (hcoming.refresher fun halert => ?_)
    rw [hr] at halert
    exact halert
  · rw [hr] at hlook
    refine Or.inr ⟨hlook, ?_⟩
    rintro ⟨x, hx, hxid⟩
    obtain ⟨hx, hstill⟩ := List.mem_filter.mp hx
    obtain ⟨d, hd, hdid, hdone⟩ := hdone
    rw [st.db.sound.delivery_pk.eq hx hd (hxid.trans hdid.symm)] at hstill
    simp only [stillPending, Bool.and_eq_true, Option.isNone_iff_eq_none] at hstill
    exact hdone hstill.1.2

theorem tidy_drop (h : Tidy ms st) {c : Channel} {ids : List UUID} {rows : List Delivery}
    (hr : st.refresher = .dropping c ids rows) : Tidy ms (st.dropped c ids rows) := by
  refine ⟨h.sound, fun c' hc => h.armed c' (by rw [hr]; exact hc), h.params,
    fun id hid => h.mine id (hid.imp_left fun hmem => (mem_refresh.mp hmem).1),
    fun id hid hdone => ?_⟩
  obtain ⟨hpending, hfound⟩ := mem_refresh.mp hid
  rcases h.pursued id hpending hdone with (hhooks | hnotices | halert) | hlook
  · exact Or.inl (Or.inl hhooks)
  · exact Or.inl (Or.inr (Or.inl hnotices))
  · rw [hr] at halert
    exact Or.inl (Or.inr (Or.inr halert))
  · rw [hr] at hlook
    exact absurd (hfound hlook.1) hlook.2

theorem tidy_insert (h : Tidy ms st) {results : List SubscriptionMessageDelivery} {k : ℕ}
    (hs : st.sender = .fetched results k) (hok : InTime ms st .insert st') :
    Tidy ms (st.inserted results) := by
  have hresults : st.sender.results = results := by rw [hs]; rfl
  have hholds : ∀ id, Holds (st.inserted results) id → Holds st id := by
    intro id hid
    rcases hid with hpending | hsender
    · rcases mem_insertAll.mp hpending with hin | hold
      · exact Or.inr (hresults ▸ hin)
      · exact Or.inl hold
    · unfold State.inserted at hsender
      dsimp only at hsender
      split at hsender <;> cases hsender
  refine ⟨h.sound, h.armed, fun p hp => ?_, fun id hid => h.mine id (hholds id hid),
    fun id hid hdone => ?_⟩
  · unfold State.inserted at hp
    dsimp only at hp
    split at hp <;> rcases hp with hp | hp <;> cases hp
  · have hstill : Pursued ms st id → Pursued ms (st.inserted results) id := fun hp => hp
    rcases mem_insertAll.mp hid with hin | hold
    · obtain ⟨x, hx, rfl⟩ := List.mem_map.mp hin
      exact hstill (hok.1 x (hresults.symm ▸ hx) hdone)
    · exact hstill (h.pursued id hold hdone)

theorem get_mine {env : Env} {p : GetSubscriptionMessagesParams} {tx tx' : Tx}
    {res : GetSubscriptionMessagesResults} (hp : p.id = some ms.subscriptionID)
    (h : getSubscriptionMessages env p tx = .ok (res, tx')) :
    ∀ x ∈ res.deliveries, ∃ d ∈ tx.db.deliveries, d.id = x.id ∧
      d.subscriptionID = ms.subscriptionID := by
  obtain ⟨sub, hsub, h⟩ := bind_ok.mp h
  obtain ⟨t, -, h⟩ := bind_ok.mp h
  obtain ⟨last, hloop, h⟩ := bind_ok.mp h
  obtain ⟨t', -, h⟩ := bind_ok.mp h
  obtain ⟨rfl, -⟩ := Prod.mk.inj (pure_ok.mp h)
  have hid : sub.id = ms.subscriptionID := by
    have hmatch := (only_ok hsub).2
    rw [hp] at hmatch
    simp only [subMatch, idMatches, Bool.and_eq_true, decide_eq_true_eq] at hmatch
    exact hmatch.1.2
  intro x hx
  rcases applyLoop_given hloop x hx with hnone | ⟨y, hy, rfl, -⟩
  · cases hnone
  · obtain ⟨hmem, hquery, -⟩ := queryAndLockDeliveriesOnce_mem hy
    simp only [buildDeliveryQuery, Bool.and_eq_true, decide_eq_true_eq] at hquery
    exact ⟨y.1, hmem, rfl, hquery.2.trans hid⟩

theorem tidy_fetched (h : Tidy ms st) {tx : Tx} {results : List SubscriptionMessageDelivery}
    {k : ℕ} (hu : Unused st tx) (ht : ∀ d ∈ tx.db.deliveries, Traced st.db tx.onCommit d)
    (hmine : ∀ x ∈ results, ∃ d ∈ st.db.deliveries, d.id = x.id ∧
      d.subscriptionID = ms.subscriptionID) :
    Tidy ms { st.committed tx with sender := .fetched results k } := by
  have hc := h.committed hu ht
  refine ⟨hc.sound, hc.armed, fun p hp => ?_, fun id hid d hd hdid => ?_, hc.pursued⟩
  · rcases hp with hp | hp <;> cases hp
  · rcases hid with hpending | hin
    · exact hc.mine id (Or.inl hpending) d hd hdid
    · obtain ⟨x, hx, rfl⟩ := List.mem_map.mp hin
      obtain ⟨r, hr, hrid, hrsub⟩ := hmine x hx
      rcases ht d hd with ⟨r', hr', hrid', hsub, -⟩ | hnew
      · rw [← hsub, st.db.sound.delivery_pk.eq hr' hr (hrid'.trans (hdid.trans hrid.symm))]
        exact hrsub
      · exact absurd ⟨r, hr, hrid.trans hdid.symm⟩ hnew

theorem settle_traced {env env' : Env} {msg : MessageStreamRequest} {res : NackDeliveriesResults}
    {db : DB} {tx : Tx} (h : doAcksNacks env env' msg (.begin db) = .ok (res, tx)) :
    ∀ d ∈ tx.db.deliveries, Traced db tx.onCommit d :=
  ((ack_announcing env msg.ack (.begin db)).trans (nack_announcing h)).row

theorem tidy_next (h : Tidy ms st) (hstep : Next ms st s st') (hok : InTime ms st s st') :
    Tidy ms st' := by
  cases hstep with
  | @receive msg _ =>
    obtain ⟨fc, wakeSend, heq⟩ := received_only st msg
    rw [heq]
    exact h.frame ⟨rfl, rfl, rfl, rfl, rfl⟩ (fun _ hid => hid) rfl
  | settle _ hexec hu =>
    have hc := h.committed hu (settle_traced hexec)
    exact hc.frame ⟨rfl, rfl, rfl, rfl, rfl⟩ (fun _ hid => hid) rfl
  | remove _ _ =>
    refine h.frame ⟨rfl, rfl, rfl, rfl, rfl⟩ (fun id hid => ?_) rfl
    exact (mem_eraseAll.mp (mem_eraseAll.mp hid).2).2
  | @delay env msg tx _ hexec hu =>
    subst hexec
    have hc := h.committed hu (delay_announcing env ⟨msg.delay, msg.delayFor⟩ (.begin st.db)).row
    obtain ⟨owed, heq⟩ := delayed_only (st.committed
      (delayDeliveries env ⟨msg.delay, msg.delayFor⟩ (.begin st.db)).2) ⟨msg.delay, msg.delayFor⟩
    rw [heq]
    exact hc.frame ⟨rfl, rfl, rfl, rfl, rfl⟩ (fun _ hid => hid) rfl
  | delayDone _ => exact h.frame ⟨rfl, rfl, rfl, rfl, rfl⟩ (fun _ hid => hid) rfl
  | senderStart _ =>
    exact h.await.still ⟨rfl, rfl, rfl, rfl, rfl⟩ (fun _ hid => hid) (by simp [Sender.results])
      (by simp)
  | @budget anyPending _ =>
    obtain ⟨sender, heq, hsender⟩ := budgeted_only ms st anyPending
    rw [heq]
    rcases hsender with ⟨pending, rfl⟩ | ⟨curFc, pending, rfl⟩
    · exact h.still ⟨rfl, rfl, rfl, rfl, rfl⟩ (fun _ hid => hid) (by simp [Sender.results])
        (by simp)
    · refine h.still ⟨rfl, rfl, rfl, rfl, rfl⟩ (fun _ hid => hid) (by simp [Sender.results])
        (fun p hp => ?_)
      simp only [Sender.entering.injEq, reduceCtorEq, or_false] at hp
      exact hp ▸ rfl
  | wokenBySend _ =>
    exact h.still ⟨rfl, rfl, rfl, rfl, rfl⟩ (fun _ hid => hid) (by simp [Sender.results]) (by simp)
  | wokenByNotify _ =>
    exact h.await.still ⟨rfl, rfl, rfl, rfl, rfl⟩ (fun _ hid => hid) (by simp [Sender.results])
      (by simp)
  | @touch env p tx hs hexec hu =>
    obtain ⟨sub, -, hrefresh⟩ := bind_ok.mp hexec
    have hc := h.committed hu (refresh_announcing hrefresh).row
    refine hc.still ⟨rfl, rfl, rfl, rfl, rfl⟩ (fun _ hid => hid) (by simp [Sender.results])
      (fun q hq => ?_)
    obtain rfl : p = q := by simpa using hq
    exact h.params p (Or.inl hs)
  | park => exact h
  | @query env p res tx hs hget hu =>
    exact tidy_fetched h hu (get_announcing hget).row
      (get_mine (h.params p (Or.inr hs)) hget)
  | @giveUp env p sub res tx hs hget hu =>
    refine tidy_fetched h hu (applyResults_announcing (by simp) hget).row ?_
    simp [applyResults_nil hget]
  | insert hs _ => exact tidy_insert h hs hok
  | send _ =>
    exact h.still ⟨rfl, rfl, rfl, rfl, rfl⟩ (fun _ hid => hid) (by simp [Sender.results]) (by simp)
  | refresherStart hr => exact tidy_start h hr
  | wokenToRefresh _ =>
    exact h.refresher (by simp [Refresher.channel])
      fun _ _ _ _ => Or.inl (Or.inr (Or.inr trivial))
  | awaitAgain _ => exact tidy_again h
  | readNone hr hnone =>
    refine h.refresher (fun c' hc => h.armed c' (by rw [hr]; exact hc)) fun id hid _ _ => ?_
    rw [AList.mem_keys, hnone] at hid
    cases hid
  | readIDs hr => exact tidy_read h hr _
  | refreshQuery hr => exact tidy_query h hr
  | drop hr => exact tidy_drop h hr
  | loadDelay _ => exact h.frame ⟨rfl, rfl, rfl, rfl, rfl⟩ (fun _ hid => hid) rfl
  | tickNone => exact h
  | tick _ => exact h.frame ⟨rfl, rfl, rfl, rfl, rfl⟩ (fun _ hid => hid) rfl
  | @autoDelay env d i ids now tx _ hexec hu =>
    subst hexec
    have hc := h.committed hu (delay_announcing env ⟨ids, d⟩ (.begin st.db)).row
    exact hc.frame ⟨rfl, rfl, rfl, rfl, rfl⟩ (fun _ hid => hid) rfl
  | renew _ => exact h.frame ⟨rfl, rfl, rfl, rfl, rfl⟩ (fun _ hid => mem_renew.mp hid) rfl
  | @commit e given tx hexec hu =>
    have hc := h.committed hu (exec_traced hexec)
    obtain ⟨owed, heq⟩ := nackedBy_only (st.committed tx) e.action
    rw [heq]
    exact hc.frame ⟨rfl, rfl, rfl, rfl, rfl⟩ (fun _ hid => hid) rfl
  | hook hhooks hrun => exact h.hook hhooks hrun hok
  | notice hn hrun => exact h.notice hn hrun hok
  | other hf hstep => exact h.other hf hstep

theorem reachable_tidy (h : ((streaming ms).within (InTime ms)).Reachable st) : Tidy ms st := by
  induction h with
  | start hinit =>
    obtain ⟨hsound, -, -, -, hpending, -, hsender, -, hrefresher, -⟩ := hinit
    refine ⟨hsound, ?_, ?_, ?_, ?_⟩
    · simp [hrefresher, Refresher.channel]
    · simp [hsender]
    · simp [Holds, hpending, hsender, Sender.results]
    · simp [hpending]
  | next s _ hs ih => exact tidy_next ih (step_next hs.1) hs.2

/-- When everything is processed, what is pending is not completed. -/
theorem no_ghosts (h : ((streaming ms).within (InTime ms)).Reachable st) (hp : Processed st) :
    ∀ id ∈ st.pending, ∀ d ∈ st.db.deliveries, d.id = id → d.completedAt = none := by
  intro id hid d hd hdid
  by_contra hdone
  obtain ⟨c, hrefresher, hopen⟩ := hp.refresher
  rcases (reachable_tidy h).pursued id hid ⟨d, hd, hdid, hdone⟩ with
    (⟨hs, hhs, hwake⟩ | hnotices | halert) | hlook
  · rw [hp.hooks hs hhs] at hwake
    cases hwake
  · rw [hp.notices] at hnotices
    cases hnotices
  · rw [hrefresher] at halert
    exact hopen halert
  · rw [hrefresher] at hlook
    exact hlook

end

def ackedLate : List Step :=
  filling ++ [.commit ⟨.plain 7 70, .ack [31], trivial⟩, .hook 2] ++ refreshing

def ackedBetween : List Step := [
  .refresherStart, .senderStart, .receive ⟨some ⟨1, 100⟩, [], [], [], 0⟩, .budget,
  .touch (.plain 5 50), .query (.plain 6 60), .commit ⟨.plain 7 70, .ack [31], trivial⟩, .hook 2,
  .wokenToRefresh, .awaitAgain, .readIDs 8, .insert, .send, .budget, .wokenBySend, .budget,
  .wokenByNotify, .budget]

theorem ackedLate_runs : (runs worker (InTime worker) (opened workerDB) ackedLate).isSome := rfl

def afterAck : State := (runs worker (InTime worker) (opened workerDB) ackedLate).get ackedLate_runs

theorem no_ghosts_ackedLate : Completed afterAck.db 31 ∧
    ∀ id ∈ afterAck.pending, ∀ d ∈ afterAck.db.deliveries, d.id = id → d.completedAt = none := by
  have hrefresher : afterAck.refresher = .waiting 2 := by decide +kernel
  have hreach : ((streaming worker).within (InTime worker)).Reachable afterAck :=
    runs_reachable (.start (opened_init _)) (Option.some_get ackedLate_runs).symm
  exact ⟨by decide +kernel, no_ghosts hreach
    ⟨by decide +kernel, by decide +kernel, by decide +kernel, 2, hrefresher, by decide +kernel⟩⟩

theorem ackedBetween_runs : (runs worker AnyStep (opened workerDB) ackedBetween).isSome := rfl

def haunted : State := (runs worker AnyStep (opened workerDB) ackedBetween).get ackedBetween_runs

theorem haunted_stuck : Stuck haunted := by
  have hrefresher : haunted.refresher = .waiting 2 := by decide +kernel
  have hsender : haunted.sender = .waiting true := by decide +kernel
  exact ⟨⟨by decide +kernel, by decide +kernel, by decide +kernel, 2, hrefresher,
    by decide +kernel⟩, hsender, by decide +kernel, 3, by decide +kernel, by decide +kernel⟩

/-- An acknowledged delivery may stay in the window for good. -/
theorem ghost_left : ¬ ∀ st, (streaming worker).Reachable st → Stuck st →
    ∀ id ∈ st.pending, ∀ d ∈ st.db.deliveries, d.id = id → d.completedAt = none := by
  intro h
  have hreach : ((streaming worker).within AnyStep).Reachable haunted :=
    runs_reachable (.start (opened_init _)) (Option.some_get ackedBetween_runs).symm
  have hpending : 31 ∈ haunted.pending := by decide +kernel
  have hdone : Completed haunted.db 31 := by decide +kernel
  obtain ⟨d, hd, hdid, hcompleted⟩ := hdone
  exact hcompleted (h haunted hreach.of_within haunted_stuck 31 hpending d hd hdid)

end Mmmbbb.Ghosts
