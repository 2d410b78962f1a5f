import Mmmbbb.Schema
import Mmmbbb.WaitSets

/-!
# Notifiers

Single-use channels that goroutines of the process wait on: for something to
be published to a subscription, or for a topic or a subscription to be
modified. With hooks installed, a wake goes to the hooks instead.
-/

set_option autoImplicit false

namespace Mmmbbb.Notify
open WaitSets Mmmbbb.Schema

structure ModifyKey where
  id : UUID
  name : String
  deriving DecidableEq, Repr

structure Registry where
  made : ℕ
  closed : Finset Channel
  handles : ℕ
  pubNotifyHooks : Finset ℕ
  subModifyHooks : Finset ℕ
  topicModifyHooks : Finset ℕ
  pubWaiters : Waiters UUID
  subModifyWaiters : Waiters ModifyKey
  topicModifyWaiters : Waiters ModifyKey
  anySubModifiedWaiters : Finset Channel
  anyTopicModifiedWaiters : Finset Channel

def Registry.initial : Registry := ⟨0, ∅, 0, ∅, ∅, ∅, ∅, ∅, ∅, ∅, ∅⟩

def publishAwaiter (id : UUID) (r : Registry) : Registry :=
  { r with made := r.made + 1, pubWaiters := join r.pubWaiters id r.made }

def cancelPublishAwaiter (id : UUID) (c : Option Channel) (r : Registry) : Registry :=
  match c with
  | none => r
  | some c => { r with pubWaiters := leave r.pubWaiters id c }

def subModifiedAwaiter (id : UUID) (name : String) (r : Registry) : Registry :=
  { r with made := r.made + 1, subModifyWaiters := join r.subModifyWaiters ⟨id, name⟩ r.made }

def cancelSubModifiedAwaiter (id : UUID) (name : String) (c : Option Channel) (r : Registry) :
    Registry :=
  match c with
  | none => r
  | some c => { r with subModifyWaiters := leave r.subModifyWaiters ⟨id, name⟩ c }

def anySubModifiedAwaiter (r : Registry) : Registry :=
  { r with made := r.made + 1, anySubModifiedWaiters := insert r.made r.anySubModifiedWaiters }

def cancelAnySubModifiedAwaiter (c : Option Channel) (r : Registry) : Registry :=
  match c with
  | none => r
  | some c => { r with anySubModifiedWaiters := r.anySubModifiedWaiters.erase c }

def topicModifiedAwaiter (id : UUID) (name : String) (r : Registry) : Registry :=
  { r with made := r.made + 1, topicModifyWaiters := join r.topicModifyWaiters ⟨id, name⟩ r.made }

def cancelTopicModifiedAwaiter (id : UUID) (name : String) (c : Option Channel) (r : Registry) :
    Registry :=
  match c with
  | none => r
  | some c => { r with topicModifyWaiters := leave r.topicModifyWaiters ⟨id, name⟩ c }

def anyTopicModifiedAwaiter (r : Registry) : Registry :=
  { r with made := r.made + 1, anyTopicModifiedWaiters := insert r.made r.anyTopicModifiedWaiters }

def cancelAnyTopicModifiedAwaiter (c : Option Channel) (r : Registry) : Registry :=
  match c with
  | none => r
  | some c => { r with anyTopicModifiedWaiters := r.anyTopicModifiedWaiters.erase c }

/-- The loop over the subscriptions: it returns at the first one that nobody
waits for. -/
def wakeEach : List UUID → Waiters UUID → Finset Channel →
    Option (Waiters UUID × Finset Channel)
  | [], ws, closed => some (ws, closed)
  | id :: ids, ws, closed =>
    if (ws.lookup id).isSome then (wakeKey id ws closed).bind (fun st => wakeEach ids st.1 st.2)
    else some (ws, closed)

def reaches (onlyInternal : Bool) (hooks : Finset ℕ) : Bool := onlyInternal || decide (hooks = ∅)

def wakePublishListeners (onlyInternal : Bool) (subIDs : List UUID) (r : Registry) :
    Option Registry :=
  if reaches onlyInternal r.pubNotifyHooks then do
    let (ws, closed) ← wakeEach subIDs r.pubWaiters r.closed
    some { r with pubWaiters := ws, closed := closed }
  else some r

def modifyKeys (id : UUID) (name : String) : List ModifyKey := [⟨id, name⟩, ⟨id, ""⟩, ⟨0, name⟩]

def wakeModifyListeners (waiters : Waiters ModifyKey) (anyWaiters closed : Finset Channel)
    (id : UUID) (name : String) : Option (Waiters ModifyKey × Finset Channel) := do
  let (ws, closed) ← wakeKeys (modifyKeys id name) waiters closed
  let closed ← closeSet anyWaiters closed
  some (ws, closed)

def wakeTopicListeners (onlyInternal : Bool) (id : UUID) (name : String) (r : Registry) :
    Option Registry :=
  if reaches onlyInternal r.topicModifyHooks then do
    let (ws, closed) ← wakeModifyListeners r.topicModifyWaiters r.anyTopicModifiedWaiters r.closed
      id name
    some { r with topicModifyWaiters := ws, anyTopicModifiedWaiters := ∅, closed := closed }
  else some r

def wakeSubscriptionListeners (onlyInternal : Bool) (id : UUID) (name : String) (r : Registry) :
    Option Registry :=
  if reaches onlyInternal r.subModifyHooks then do
    let (ws, closed) ← wakeModifyListeners r.subModifyWaiters r.anySubModifiedWaiters r.closed
      id name
    some { r with subModifyWaiters := ws, anySubModifiedWaiters := ∅, closed := closed }
  else some r

def wakeAllInternal (r : Registry) : Option Registry := do
  let (pub, closed) ← wakeKeys r.pubWaiters.keys r.pubWaiters r.closed
  let (topic, closed) ← wakeKeys r.topicModifyWaiters.keys r.topicModifyWaiters closed
  let (sub, closed) ← wakeKeys r.subModifyWaiters.keys r.subModifyWaiters closed
  let closed ← closeSet r.anyTopicModifiedWaiters closed
  let closed ← closeSet r.anySubModifiedWaiters closed
  some { r with
    pubWaiters := pub
    topicModifyWaiters := topic
    subModifyWaiters := sub
    anyTopicModifiedWaiters := ∅
    anySubModifiedWaiters := ∅
    closed := closed }

inductive HookKind
  | publish
  | topicModify
  | subscriptionModify
  deriving DecidableEq, Repr

def addHook (kind : HookKind) (r : Registry) : Registry :=
  match kind with
  | .publish => { r with handles := r.handles + 1, pubNotifyHooks := insert r.handles r.pubNotifyHooks }
  | .topicModify =>
    { r with handles := r.handles + 1, topicModifyHooks := insert r.handles r.topicModifyHooks }
  | .subscriptionModify =>
    { r with handles := r.handles + 1, subModifyHooks := insert r.handles r.subModifyHooks }

def removeHook (kind : HookKind) (handle : ℕ) (r : Registry) : Registry :=
  match kind with
  | .publish => { r with pubNotifyHooks := r.pubNotifyHooks.erase handle }
  | .topicModify => { r with topicModifyHooks := r.topicModifyHooks.erase handle }
  | .subscriptionModify => { r with subModifyHooks := r.subModifyHooks.erase handle }

inductive Wait
  | publish (id : UUID)
  | subModified (k : ModifyKey)
  | anySubModified
  | topicModified (k : ModifyKey)
  | anyTopicModified
  deriving DecidableEq

def Registry.waiting (r : Registry) : Wait → Finset Channel
  | .publish id => WaitSets.waiting r.pubWaiters id
  | .subModified k => WaitSets.waiting r.subModifyWaiters k
  | .anySubModified => r.anySubModifiedWaiters
  | .topicModified k => WaitSets.waiting r.topicModifyWaiters k
  | .anyTopicModified => r.anyTopicModifiedWaiters

inductive Event
  | await (w : Wait)
  | cancel (w : Wait) (c : Option Channel)
  | wakePublishListeners (onlyInternal : Bool) (id : UUID)
  | wakeTopicListeners (onlyInternal : Bool) (id : UUID) (name : String)
  | wakeSubscriptionListeners (onlyInternal : Bool) (id : UUID) (name : String)
  | wakeAllInternal
  | addHook (kind : HookKind)
  | removeHook (kind : HookKind) (handle : ℕ)
  deriving DecidableEq

def await (r : Registry) : Wait → Registry
  | .publish id => publishAwaiter id r
  | .subModified k => subModifiedAwaiter k.id k.name r
  | .anySubModified => anySubModifiedAwaiter r
  | .topicModified k => topicModifiedAwaiter k.id k.name r
  | .anyTopicModified => anyTopicModifiedAwaiter r

def cancel (r : Registry) (c : Option Channel) : Wait → Registry
  | .publish id => cancelPublishAwaiter id c r
  | .subModified k => cancelSubModifiedAwaiter k.id k.name c r
  | .anySubModified => cancelAnySubModifiedAwaiter c r
  | .topicModified k => cancelTopicModifiedAwaiter k.id k.name c r
  | .anyTopicModified => cancelAnyTopicModifiedAwaiter c r

/-- A step under the lock; `none` when it panics. -/
def step (r : Registry) : Event → Option Registry
  | .await w => some (await r w)
  | .cancel w c => some (cancel r c w)
  | .wakePublishListeners onlyInternal id => wakePublishListeners onlyInternal [id] r
  | .wakeTopicListeners onlyInternal id name => wakeTopicListeners onlyInternal id name r
  | .wakeSubscriptionListeners onlyInternal id name =>
    wakeSubscriptionListeners onlyInternal id name r
  | .wakeAllInternal => wakeAllInternal r
  | .addHook kind => some (addHook kind r)
  | .removeHook kind handle => some (removeHook kind handle r)

def Ends (r : Registry) : Event → Wait → Prop
  | .wakePublishListeners onlyInternal id, .publish k =>
    reaches onlyInternal r.pubNotifyHooks = true ∧ k = id
  | .wakeTopicListeners onlyInternal id name, .topicModified k =>
    reaches onlyInternal r.topicModifyHooks = true ∧ k ∈ modifyKeys id name
  | .wakeTopicListeners onlyInternal _ _, .anyTopicModified =>
    reaches onlyInternal r.topicModifyHooks = true
  | .wakeSubscriptionListeners onlyInternal id name, .subModified k =>
    reaches onlyInternal r.subModifyHooks = true ∧ k ∈ modifyKeys id name
  | .wakeSubscriptionListeners onlyInternal _ _, .anySubModified =>
    reaches onlyInternal r.subModifyHooks = true
  | .wakeAllInternal, _ => True
  | _, _ => False

instance (r : Registry) (e : Event) (w : Wait) : Decidable (Ends r e w) := by
  unfold Ends
  split <;> infer_instance

/-- Channels that are registered have been made, are open, and are registered
once. -/
structure Sound (r : Registry) : Prop where
  made : ∀ w, ∀ c ∈ r.waiting w, c < r.made
  closedMade : ∀ c ∈ r.closed, c < r.made
  isOpen : ∀ w, ∀ c ∈ r.waiting w, c ∉ r.closed
  single : ∀ w w' c, c ∈ r.waiting w → c ∈ r.waiting w' → w = w'

structure Woken (r r' : Registry) (p : Wait → Prop) : Prop where
  made : r'.made = r.made
  ended : ∀ w, p w → r'.waiting w = ∅
  kept : ∀ w, ¬ p w → r'.waiting w = r.waiting w
  closed : ∀ c, c ∈ r'.closed ↔ c ∈ r.closed ∨ ∃ w, p w ∧ c ∈ r.waiting w

section
variable {r r' : Registry} {e : Event} {w : Wait} {c : Channel}

theorem Woken.sound {p : Wait → Prop} (h : Woken r r' p) (hs : Sound r) : Sound r' := by
  have hkept : ∀ w, ∀ c ∈ r'.waiting w, ¬ p w ∧ c ∈ r.waiting w := by
    intro w c hc
    by_cases hp : p w
    · rw [h.ended w hp] at hc
      cases hc
    · exact ⟨hp, h.kept w hp ▸ hc⟩
  constructor
  · intro w c hc
    rw [h.made]
    exact hs.made w c (hkept w c hc).2
  · intro c hc
    rw [h.made]
    rcases (h.closed c).mp hc with hc | ⟨w, -, hc⟩
    · exact hs.closedMade c hc
    · exact hs.made w c hc
  · intro w c hc hclosed
    obtain ⟨hp, hc⟩ := hkept w c hc
    rcases (h.closed c).mp hclosed with hclosed | ⟨w', hp', hc'⟩
    · exact hs.isOpen w c hc hclosed
    · rw [hs.single w w' c hc hc'] at hp
      exact hp hp'
  · intro w w' c hc hc'
    exact hs.single w w' c (hkept w c hc).2 (hkept w' c hc').2

theorem woken_refl {p : Wait → Prop} (hp : ∀ w, p w → r.waiting w = ∅) : Woken r r p where
  made := rfl
  ended := hp
  kept := fun _ _ => rfl
  closed := by
    refine fun c => ⟨Or.inl, ?_⟩
    rintro (hc | ⟨w, hw, hc⟩)
    · exact hc
    · rw [hp w hw] at hc
      cases hc

theorem Sound.pub (h : Sound r) : WaitSets.Sound r.pubWaiters r.closed where
  isOpen := fun id => h.isOpen (.publish id)
  single := fun id id' c hc hc' => Wait.publish.inj (h.single (.publish id) (.publish id') c hc hc')

theorem Sound.topic (h : Sound r) : WaitSets.Sound r.topicModifyWaiters r.closed where
  isOpen := fun k => h.isOpen (.topicModified k)
  single := fun k k' c hc hc' =>
    Wait.topicModified.inj (h.single (.topicModified k) (.topicModified k') c hc hc')

theorem Sound.sub (h : Sound r) : WaitSets.Sound r.subModifyWaiters r.closed where
  isOpen := fun k => h.isOpen (.subModified k)
  single := fun k k' c hc hc' =>
    Wait.subModified.inj (h.single (.subModified k) (.subModified k') c hc hc')

theorem sound_closed {κ : Type} [DecidableEq κ] {ws : Waiters κ} {closed closed' : Finset Channel}
    (h : WaitSets.Sound ws closed)
    (hclosed : ∀ c ∈ closed', c ∈ closed ∨ ∀ k, c ∉ WaitSets.waiting ws k) :
    WaitSets.Sound ws closed' where
  isOpen := fun k c hc hmem => (hclosed c hmem).elim (h.isOpen k c hc) (fun hnot => hnot k hc)
  single := h.single

theorem wakePublishListeners_woken (hs : Sound r) (onlyInternal : Bool) (id : UUID) :
    ∃ r', wakePublishListeners onlyInternal [id] r = some r' ∧
      Woken r r' (Ends r (.wakePublishListeners onlyInternal id)) := by
  unfold wakePublishListeners
  by_cases hreach : reaches onlyInternal r.pubNotifyHooks = true
  · rw [if_pos hreach, wakeEach]
    cases hlook : r.pubWaiters.lookup id with
    | none =>
      refine ⟨r, rfl, woken_refl fun w hw => ?_⟩
      cases w with
      | publish k =>
        obtain ⟨-, rfl⟩ := hw
        simp [Registry.waiting, WaitSets.waiting, hlook]
      | _ => exact False.elim hw
    | some cs =>
      rw [Option.isSome_some, if_pos rfl, wakeKey_ok hs.pub]
      refine ⟨_, rfl, rfl, fun w hw => ?_, fun w hw => ?_, fun c => ?_⟩
      · cases w with
        | publish k =>
          obtain ⟨-, rfl⟩ := hw
          exact waiting_erase_self
        | _ => exact False.elim hw
      · cases w with
        | publish k => exact waiting_erase_ne fun hk => hw ⟨hreach, hk⟩
        | _ => rfl
      · rw [Finset.mem_union]
        refine or_congr_right ⟨fun hc => ⟨.publish id, ⟨hreach, rfl⟩, hc⟩, ?_⟩
        rintro ⟨w, hw, hc⟩
        cases w with
        | publish k =>
          obtain ⟨-, rfl⟩ := hw
          exact hc
        | _ => exact False.elim hw
  · rw [if_neg hreach]
    refine ⟨r, rfl, woken_refl fun w hw => ?_⟩
    cases w with
    | publish k => exact absurd hw.1 hreach
    | _ => exact False.elim hw

/-- With several subscriptions the loop wakes the first few of them. -/
theorem wakeEach_keys (ids : List UUID) (ws : Waiters UUID) (closed : Finset Channel) :
    ∃ ks, ks.Sublist ids ∧ wakeEach ids ws closed = wakeKeys ks ws closed := by
  induction ids generalizing ws closed with
  | nil => exact ⟨[], List.Sublist.refl _, rfl⟩
  | cons id ids ih =>
    rw [wakeEach]
    by_cases hid : (ws.lookup id).isSome = true
    · rw [if_pos hid]
      cases hwake : wakeKey id ws closed with
      | none =>
        refine ⟨[id], by simp, ?_⟩
        simp [wakeKeys, hwake]
      | some st =>
        obtain ⟨ks, hsub, hrun⟩ := ih st.1 st.2
        refine ⟨id :: ks, hsub.cons_cons id, ?_⟩
        simpa [wakeKeys, hwake] using hrun
    · rw [if_neg hid]
      exact ⟨[], List.nil_sublist _, rfl⟩

theorem wakePublishListeners_some (hs : Sound r) (onlyInternal : Bool) (ids : List UUID) :
    ∃ r' p, wakePublishListeners onlyInternal ids r = some r' ∧ Woken r r' p ∧
      r'.pubNotifyHooks = r.pubNotifyHooks := by
  unfold wakePublishListeners
  by_cases hreach : reaches onlyInternal r.pubNotifyHooks = true
  · obtain ⟨ks, -, hrun⟩ := wakeEach_keys ids r.pubWaiters r.closed
    obtain ⟨ws', closed', hkeys, hin, hout, hclosed⟩ := wakeKeys_ok ks hs.pub
    rw [if_pos hreach, hrun, hkeys]
    refine ⟨_, fun w => ∃ k ∈ ks, w = .publish k, rfl, ⟨rfl, ?_, fun w hw => ?_, fun c => ?_⟩, rfl⟩
    · rintro w ⟨k, hk, rfl⟩
      exact hin k hk
    · cases w with
      | publish k => exact hout k fun hk => hw ⟨k, hk, rfl⟩
      | _ => rfl
    · refine (hclosed c).trans (or_congr_right ⟨?_, ?_⟩)
      · rintro ⟨k, hk, hc⟩
        exact ⟨.publish k, ⟨k, hk, rfl⟩, hc⟩
      · rintro ⟨w, ⟨k, hk, rfl⟩, hc⟩
        exact ⟨k, hk, hc⟩
  · rw [if_neg hreach]
    exact ⟨r, fun _ => False, rfl, woken_refl fun w hw => hw.elim, rfl⟩

theorem wakeModifyListeners_ok {waiters : Waiters ModifyKey} {anyWaiters closed : Finset Channel}
    (hws : WaitSets.Sound waiters closed) (hany : ∀ c ∈ anyWaiters, c ∉ closed)
    (hapart : ∀ c ∈ anyWaiters, ∀ k, c ∉ WaitSets.waiting waiters k) (id : UUID) (name : String) :
    ∃ ws' closed', wakeModifyListeners waiters anyWaiters closed id name = some (ws', closed') ∧
      (∀ k ∈ modifyKeys id name, WaitSets.waiting ws' k = ∅) ∧
      (∀ k ∉ modifyKeys id name, WaitSets.waiting ws' k = WaitSets.waiting waiters k) ∧
      (∀ c, c ∈ closed' ↔ c ∈ closed ∨
        (∃ k ∈ modifyKeys id name, c ∈ WaitSets.waiting waiters k) ∨ c ∈ anyWaiters) := by
  obtain ⟨ws', closed', hrun, hin, hout, hclosed⟩ := wakeKeys_ok (modifyKeys id name) hws
  have hstill : ∀ c ∈ anyWaiters, c ∉ closed' := by
    intro c hc hmem
    rcases (hclosed c).mp hmem with hmem | ⟨k, -, hmem⟩
    · exact hany c hc hmem
    · exact hapart c hc k hmem
  refine ⟨ws', closed' ∪ anyWaiters, ?_, hin, hout, fun c => ?_⟩
  · simp [wakeModifyListeners, hrun, closeSet_ok hstill]
  · rw [Finset.mem_union, hclosed, or_assoc]

theorem woken_modify {p : Wait → Prop} {keyed : ModifyKey → Wait} {anyWait : Wait}
    {ks : List ModifyKey} (hp : ∀ w, p w ↔ (∃ k ∈ ks, w = keyed k) ∨ w = anyWait)
    (hmade : r'.made = r.made) (hkeyed : ∀ k ∈ ks, r'.waiting (keyed k) = ∅)
    (hany : r'.waiting anyWait = ∅) (hkept : ∀ w, ¬ p w → r'.waiting w = r.waiting w)
    (hclosed : ∀ c, c ∈ r'.closed ↔ c ∈ r.closed ∨
      (∃ k ∈ ks, c ∈ r.waiting (keyed k)) ∨ c ∈ r.waiting anyWait) : Woken r r' p where
  made := hmade
  ended := by
    intro w hw
    rcases (hp w).mp hw with ⟨k, hk, rfl⟩ | rfl
    · exact hkeyed k hk
    · exact hany
  kept := hkept
  closed := by
    intro c
    rw [hclosed]
    refine or_congr_right ⟨?_, ?_⟩
    · rintro (⟨k, hk, hc⟩ | hc)
      · exact ⟨keyed k, (hp _).mpr (Or.inl ⟨k, hk, rfl⟩), hc⟩
      · exact ⟨anyWait, (hp _).mpr (Or.inr rfl), hc⟩
    · rintro ⟨w, hw, hc⟩
      rcases (hp w).mp hw with ⟨k, hk, rfl⟩ | rfl
      · exact Or.inl ⟨k, hk, hc⟩
      · exact Or.inr hc

theorem wakeTopicListeners_woken (hs : Sound r) (onlyInternal : Bool) (id : UUID) (name : String) :
    ∃ r', wakeTopicListeners onlyInternal id name r = some r' ∧
      Woken r r' (Ends r (.wakeTopicListeners onlyInternal id name)) := by
  unfold wakeTopicListeners
  by_cases hreach : reaches onlyInternal r.topicModifyHooks = true
  · have hopen : ∀ c ∈ r.anyTopicModifiedWaiters, c ∉ r.closed := hs.isOpen .anyTopicModified
    have hapart : ∀ c ∈ r.anyTopicModifiedWaiters, ∀ k,
        c ∉ WaitSets.waiting r.topicModifyWaiters k := by
      intro c hc k hmem
      cases hs.single .anyTopicModified (.topicModified k) c hc hmem
    obtain ⟨ws', closed', hrun, hin, hout, hclosed⟩ :=
      wakeModifyListeners_ok hs.topic hopen hapart id name
    have hends : ∀ w, Ends r (.wakeTopicListeners onlyInternal id name) w ↔
        (∃ k ∈ modifyKeys id name, w = .topicModified k) ∨ w = .anyTopicModified := by
      intro w
      cases w <;> simp [Ends, hreach]
    rw [if_pos hreach, hrun]
    refine ⟨_, rfl, woken_modify hends rfl hin rfl (fun w hw => ?_) hclosed⟩
    cases w with
    | topicModified k => exact hout k fun hk => hw ⟨hreach, hk⟩
    | anyTopicModified => exact absurd hreach hw
    | _ => rfl
  · rw [if_neg hreach]
    refine ⟨r, rfl, woken_refl fun w hw => ?_⟩
    cases w with
    | topicModified k => exact absurd hw.1 hreach
    | anyTopicModified => exact absurd hw hreach
    | _ => exact False.elim hw

theorem wakeSubscriptionListeners_woken (hs : Sound r) (onlyInternal : Bool) (id : UUID)
    (name : String) :
    ∃ r', wakeSubscriptionListeners onlyInternal id name r = some r' ∧
      Woken r r' (Ends r (.wakeSubscriptionListeners onlyInternal id name)) := by
  unfold wakeSubscriptionListeners
  by_cases hreach : reaches onlyInternal r.subModifyHooks = true
  · have hopen : ∀ c ∈ r.anySubModifiedWaiters, c ∉ r.closed := hs.isOpen .anySubModified
    have hapart : ∀ c ∈ r.anySubModifiedWaiters, ∀ k,
        c ∉ WaitSets.waiting r.subModifyWaiters k := by
      intro c hc k hmem
      cases hs.single .anySubModified (.subModified k) c hc hmem
    obtain ⟨ws', closed', hrun, hin, hout, hclosed⟩ :=
      wakeModifyListeners_ok hs.sub hopen hapart id name
    have hends : ∀ w, Ends r (.wakeSubscriptionListeners onlyInternal id name) w ↔
        (∃ k ∈ modifyKeys id name, w = .subModified k) ∨ w = .anySubModified := by
      intro w
      cases w <;> simp [Ends, hreach]
    rw [if_pos hreach, hrun]
    refine ⟨_, rfl, woken_modify hends rfl hin rfl (fun w hw => ?_) hclosed⟩
    cases w with
    | subModified k => exact hout k fun hk => hw ⟨hreach, hk⟩
    | anySubModified => exact absurd hreach hw
    | _ => rfl
  · rw [if_neg hreach]
    refine ⟨r, rfl, woken_refl fun w hw => ?_⟩
    cases w with
    | subModified k => exact absurd hw.1 hreach
    | anySubModified => exact absurd hw hreach
    | _ => exact False.elim hw

theorem wakeKeys_all {κ : Type} [DecidableEq κ] {ws : Waiters κ} {closed : Finset Channel}
    (h : WaitSets.Sound ws closed) :
    ∃ ws' closed', wakeKeys ws.keys ws closed = some (ws', closed') ∧
      (∀ k, WaitSets.waiting ws' k = ∅) ∧
      (∀ c, c ∈ closed' ↔ c ∈ closed ∨ ∃ k, c ∈ WaitSets.waiting ws k) := by
  obtain ⟨ws', closed', hrun, hin, hout, hclosed⟩ := wakeKeys_ok ws.keys h
  refine ⟨ws', closed', hrun, fun k => ?_, fun c => ?_⟩
  · by_cases hk : k ∈ ws.keys
    · exact hin k hk
    · rw [hout k hk]
      refine Finset.eq_empty_of_forall_notMem fun c hc => ?_
      exact hk (mem_keys_of_waiting hc)
  · rw [hclosed]
    refine or_congr_right ⟨fun ⟨k, _, hc⟩ => ⟨k, hc⟩, fun ⟨k, hc⟩ => ?_⟩
    exact ⟨k, mem_keys_of_waiting hc, hc⟩

theorem wakeAllInternal_woken (hs : Sound r) :
    ∃ r', wakeAllInternal r = some r' ∧ Woken r r' (Ends r .wakeAllInternal) := by
  obtain ⟨pub, c1, hpub, hpub0, hc1⟩ := wakeKeys_all hs.pub
  have htopic : WaitSets.Sound r.topicModifyWaiters c1 := by
    refine sound_closed hs.topic fun c hc => ((hc1 c).mp hc).imp_right fun ⟨id, hid⟩ k hk => ?_
    cases hs.single (.publish id) (.topicModified k) c hid hk
  obtain ⟨topic, c2, htopic, htopic0, hc2⟩ := wakeKeys_all htopic
  have hsub : WaitSets.Sound r.subModifyWaiters c2 := by
    refine sound_closed hs.sub fun c hc => ?_
    rcases (hc2 c).mp hc with hc | ⟨k, hk⟩
    · refine ((hc1 c).mp hc).imp_right fun ⟨id, hid⟩ k hk => ?_
      cases hs.single (.publish id) (.subModified k) c hid hk
    · refine Or.inr fun k' hk' => ?_
      cases hs.single (.topicModified k) (.subModified k') c hk hk'
  obtain ⟨sub, c3, hsub, hsub0, hc3⟩ := wakeKeys_all hsub
  have hbefore : ∀ w : Wait, (∀ id, w ≠ .publish id) → (∀ k, w ≠ .topicModified k) →
      (∀ k, w ≠ .subModified k) → ∀ c ∈ r.waiting w, c ∉ c3 := by
    intro w hp ht hsb c hc hmem
    rcases (hc3 c).mp hmem with hmem | ⟨k, hk⟩
    · rcases (hc2 c).mp hmem with hmem | ⟨k, hk⟩
      · rcases (hc1 c).mp hmem with hmem | ⟨id, hid⟩
        · exact hs.isOpen w c hc hmem
        · exact hp id (hs.single w (.publish id) c hc hid)
      · exact ht k (hs.single w (.topicModified k) c hc hk)
    · exact hsb k (hs.single w (.subModified k) c hc hk)
  have hanyTopic : ∀ c ∈ r.anyTopicModifiedWaiters, c ∉ c3 :=
    hbefore .anyTopicModified (by simp) (by simp) (by simp)
  have hanySub : ∀ c ∈ r.anySubModifiedWaiters, c ∉ c3 ∪ r.anyTopicModifiedWaiters := by
    intro c hc hmem
    rcases Finset.mem_union.mp hmem with hmem | hmem
    · exact hbefore .anySubModified (by simp) (by simp) (by simp) c hc hmem
    · cases hs.single .anySubModified .anyTopicModified c hc hmem
  refine ⟨{ r with
    pubWaiters := pub
    topicModifyWaiters := topic
    subModifyWaiters := sub
    anyTopicModifiedWaiters := ∅
    anySubModifiedWaiters := ∅
    closed := c3 ∪ r.anyTopicModifiedWaiters ∪ r.anySubModifiedWaiters }, ?_, rfl, ?_, ?_, ?_⟩
  · simp [wakeAllInternal, hpub, htopic, hsub, closeSet_ok hanyTopic, closeSet_ok hanySub]
  · intro w _
    cases w with
    | publish id => exact hpub0 id
    | topicModified k => exact htopic0 k
    | subModified k => exact hsub0 k
    | anyTopicModified => rfl
    | anySubModified => rfl
  · exact fun w hw => absurd trivial hw
  · intro c
    simp only [Finset.mem_union, hc3, hc2, hc1, or_assoc]
    refine or_congr_right ⟨?_, ?_⟩
    · rintro (⟨id, hc⟩ | ⟨k, hc⟩ | ⟨k, hc⟩ | hc | hc)
      · exact ⟨.publish id, trivial, hc⟩
      · exact ⟨.topicModified k, trivial, hc⟩
      · exact ⟨.subModified k, trivial, hc⟩
      · exact ⟨.anyTopicModified, trivial, hc⟩
      · exact ⟨.anySubModified, trivial, hc⟩
    · rintro ⟨w, -, hc⟩
      cases w with
      | publish id => exact Or.inl ⟨id, hc⟩
      | topicModified k => exact Or.inr (Or.inl ⟨k, hc⟩)
      | subModified k => exact Or.inr (Or.inr (Or.inl ⟨k, hc⟩))
      | anyTopicModified => exact Or.inr (Or.inr (Or.inr (Or.inl hc)))
      | anySubModified => exact Or.inr (Or.inr (Or.inr (Or.inr hc)))

theorem await_self (r : Registry) (w : Wait) :
    (await r w).waiting w = insert r.made (r.waiting w) := by
  cases w with
  | publish id => exact waiting_join_self
  | subModified k => exact waiting_join_self
  | topicModified k => exact waiting_join_self
  | anySubModified => rfl
  | anyTopicModified => rfl

theorem await_ne {w' : Wait} (h : w' ≠ w) : (await r w).waiting w' = r.waiting w' := by
  cases w <;> cases w'
  case publish.publish => exact waiting_join_ne fun hk => h (congrArg Wait.publish hk)
  case subModified.subModified => exact waiting_join_ne fun hk => h (congrArg Wait.subModified hk)
  case topicModified.topicModified =>
    exact waiting_join_ne fun hk => h (congrArg Wait.topicModified hk)
  all_goals first
    | rfl
    | exact absurd rfl h

theorem await_made (r : Registry) (w : Wait) : (await r w).made = r.made + 1 := by cases w <;> rfl

theorem await_closed (r : Registry) (w : Wait) : (await r w).closed = r.closed := by cases w <;> rfl

theorem cancel_self (r : Registry) (w : Wait) (c : Channel) :
    (cancel r (some c) w).waiting w = (r.waiting w).erase c := by
  cases w with
  | publish id => exact waiting_leave_self
  | subModified k => exact waiting_leave_self
  | topicModified k => exact waiting_leave_self
  | anySubModified => rfl
  | anyTopicModified => rfl

theorem cancel_ne {w' : Wait} (h : w' ≠ w) : (cancel r (some c) w).waiting w' = r.waiting w' := by
  cases w <;> cases w'
  case publish.publish => exact waiting_leave_ne fun hk => h (congrArg Wait.publish hk)
  case subModified.subModified => exact waiting_leave_ne fun hk => h (congrArg Wait.subModified hk)
  case topicModified.topicModified =>
    exact waiting_leave_ne fun hk => h (congrArg Wait.topicModified hk)
  all_goals first
    | rfl
    | exact absurd rfl h

theorem cancel_none (r : Registry) (w : Wait) : cancel r none w = r := by cases w <;> rfl

theorem cancel_made (r : Registry) (w : Wait) (c : Option Channel) :
    (cancel r c w).made = r.made := by
  cases w <;> cases c <;> rfl

theorem cancel_closed (r : Registry) (w : Wait) (c : Option Channel) :
    (cancel r c w).closed = r.closed := by
  cases w <;> cases c <;> rfl

theorem cancel_sub (r : Registry) (w w' : Wait) (c : Option Channel) :
    (cancel r c w).waiting w' ⊆ r.waiting w' := by
  cases c with
  | none => rw [cancel_none]
  | some c =>
    by_cases h : w' = w
    · rw [h, cancel_self]
      exact Finset.erase_subset _ _
    · rw [cancel_ne h]

theorem sound_await (hs : Sound r) (w : Wait) : Sound (await r w) := by
  have hold : ∀ w', ∀ c ∈ (await r w).waiting w', (w' = w ∧ c = r.made) ∨ c ∈ r.waiting w' := by
    intro w' c hc
    by_cases h : w' = w
    · rw [h, await_self] at hc
      exact (Finset.mem_insert.mp hc).imp (fun hc => ⟨h, hc⟩) (fun hc => h ▸ hc)
    · rw [await_ne h] at hc
      exact Or.inr hc
  have hnew : ∀ w', r.made ∉ r.waiting w' := fun w' hc => absurd (hs.made w' _ hc) (lt_irrefl _)
  constructor
  · intro w' c hc
    rw [await_made]
    rcases hold w' c hc with ⟨-, rfl⟩ | hc
    · exact Nat.lt_succ_self _
    · exact Nat.lt_succ_of_lt (hs.made w' c hc)
  · intro c hc
    rw [await_closed] at hc
    rw [await_made]
    exact Nat.lt_succ_of_lt (hs.closedMade c hc)
  · intro w' c hc
    rw [await_closed]
    rcases hold w' c hc with ⟨-, rfl⟩ | hc
    · exact fun hclosed => absurd (hs.closedMade _ hclosed) (lt_irrefl _)
    · exact hs.isOpen w' c hc
  · intro w' w'' c hc hc'
    rcases hold w' c hc with ⟨h, rfl⟩ | hc
    · rcases hold w'' _ hc' with ⟨h', -⟩ | hc'
      · exact h.trans h'.symm
      · exact absurd hc' (hnew w'')
    · rcases hold w'' c hc' with ⟨-, rfl⟩ | hc'
      · exact absurd hc (hnew w')
      · exact hs.single w' w'' c hc hc'

theorem sound_cancel (hs : Sound r) (w : Wait) (c : Option Channel) : Sound (cancel r c w) where
  made := by
    intro w' c' hc
    rw [cancel_made]
    exact hs.made w' c' (cancel_sub r w w' c hc)
  closedMade := by
    rw [cancel_made, cancel_closed]
    exact hs.closedMade
  isOpen := by
    intro w' c' hc
    rw [cancel_closed]
    exact hs.isOpen w' c' (cancel_sub r w w' c hc)
  single := fun w' w'' c' hc hc' =>
    hs.single w' w'' c' (cancel_sub r w w' c hc) (cancel_sub r w w'' c hc')

structure SameWaiters (r r' : Registry) : Prop where
  made : r'.made = r.made
  closed : r'.closed = r.closed
  waiting : ∀ w, r'.waiting w = r.waiting w

theorem addHook_same (r : Registry) (kind : HookKind) : SameWaiters r (addHook kind r) := by
  cases kind <;> exact ⟨rfl, rfl, fun w => by cases w <;> rfl⟩

theorem removeHook_same (r : Registry) (kind : HookKind) (handle : ℕ) :
    SameWaiters r (removeHook kind handle r) := by
  cases kind <;> exact ⟨rfl, rfl, fun w => by cases w <;> rfl⟩

inductive Stepped (r : Registry) (e : Event) : Registry → Prop
  | await {w : Wait} : e = .await w → Stepped r e (await r w)
  | cancel {w : Wait} {c : Option Channel} : e = .cancel w c → Stepped r e (cancel r c w)
  | wake {r' : Registry} : (∀ w, e ≠ .await w) → (∀ w c, e ≠ .cancel w c) →
      Woken r r' (Ends r e) → Stepped r e r'

theorem step_stepped (hs : Sound r) (e : Event) : ∃ r', step r e = some r' ∧ Stepped r e r' := by
  have hquiet : ∀ {r' e}, SameWaiters r r' → (∀ w, ¬ Ends r e w) → Woken r r' (Ends r e) := by
    intro r' e h hnot
    refine ⟨h.made, fun w hw => absurd hw (hnot w), fun w _ => h.waiting w, fun c => ?_⟩
    rw [h.closed]
    exact ⟨Or.inl, fun hc => hc.elim (fun hc => hc) fun ⟨w, hw, _⟩ => absurd hw (hnot w)⟩
  cases e with
  | await w => exact ⟨_, rfl, .await rfl⟩
  | cancel w c => exact ⟨_, rfl, .cancel rfl⟩
  | wakePublishListeners onlyInternal id =>
    obtain ⟨r', hr, hw⟩ := wakePublishListeners_woken hs onlyInternal id
    exact ⟨r', hr, .wake (by simp) (by simp) hw⟩
  | wakeTopicListeners onlyInternal id name =>
    obtain ⟨r', hr, hw⟩ := wakeTopicListeners_woken hs onlyInternal id name
    exact ⟨r', hr, .wake (by simp) (by simp) hw⟩
  | wakeSubscriptionListeners onlyInternal id name =>
    obtain ⟨r', hr, hw⟩ := wakeSubscriptionListeners_woken hs onlyInternal id name
    exact ⟨r', hr, .wake (by simp) (by simp) hw⟩
  | wakeAllInternal =>
    obtain ⟨r', hr, hw⟩ := wakeAllInternal_woken hs
    exact ⟨r', hr, .wake (by simp) (by simp) hw⟩
  | addHook kind =>
    exact ⟨_, rfl, .wake (by simp) (by simp) (hquiet (addHook_same r kind) fun w hw => hw)⟩
  | removeHook kind handle =>
    have hnone : ∀ w, ¬ Ends r (.removeHook kind handle) w := fun w hw => hw
    have hwoken := hquiet (removeHook_same r kind handle) hnone
    exact ⟨_, rfl, .wake (by simp) (by simp) hwoken⟩

theorem stepped_of (hs : Sound r) {e : Event} (hstep : step r e = some r') : Stepped r e r' := by
  obtain ⟨x, hx, hst⟩ := step_stepped hs e
  have hsame : x = r' := Option.some.inj (hx.symm.trans hstep)
  exact hsame ▸ hst

theorem Stepped.sound (h : Stepped r e r') (hs : Sound r) : Sound r' := by
  cases h with
  | await _ => exact sound_await hs _
  | cancel _ => exact sound_cancel hs _ _
  | wake _ _ hw => exact hw.sound hs

end

theorem step_hooks {r r' : Registry} {e : Event} (h : step r e = some r')
    (hnone : r.pubNotifyHooks = ∅) (he : e ≠ .addHook .publish) : r'.pubNotifyHooks = ∅ := by
  cases e with
  | await w =>
    obtain rfl := Option.some.inj h
    cases w <;> exact hnone
  | cancel w c =>
    obtain rfl := Option.some.inj h
    cases w <;> cases c <;> exact hnone
  | wakePublishListeners onlyInternal id =>
    simp only [step, wakePublishListeners] at h
    split at h
    · obtain ⟨st, -, h⟩ := Option.bind_eq_some_iff.mp h
      obtain rfl := Option.some.inj h
      exact hnone
    · exact Option.some.inj h ▸ hnone
  | wakeTopicListeners onlyInternal id name =>
    simp only [step, wakeTopicListeners] at h
    split at h
    · obtain ⟨st, -, h⟩ := Option.bind_eq_some_iff.mp h
      obtain rfl := Option.some.inj h
      exact hnone
    · exact Option.some.inj h ▸ hnone
  | wakeSubscriptionListeners onlyInternal id name =>
    simp only [step, wakeSubscriptionListeners] at h
    split at h
    · obtain ⟨st, -, h⟩ := Option.bind_eq_some_iff.mp h
      obtain rfl := Option.some.inj h
      exact hnone
    · exact Option.some.inj h ▸ hnone
  | wakeAllInternal =>
    obtain ⟨_, -, h⟩ := Option.bind_eq_some_iff.mp h
    obtain ⟨_, -, h⟩ := Option.bind_eq_some_iff.mp h
    obtain ⟨_, -, h⟩ := Option.bind_eq_some_iff.mp h
    obtain ⟨_, -, h⟩ := Option.bind_eq_some_iff.mp h
    obtain ⟨_, -, h⟩ := Option.bind_eq_some_iff.mp h
    obtain rfl := Option.some.inj h
    exact hnone
  | addHook kind =>
    obtain rfl := Option.some.inj h
    cases kind with
    | publish => exact absurd rfl he
    | topicModify => exact hnone
    | subscriptionModify => exact hnone
  | removeHook kind handle =>
    obtain rfl := Option.some.inj h
    cases kind with
    | publish => simp [removeHook, hnone]
    | topicModify => exact hnone
    | subscriptionModify => exact hnone

def run (r : Registry) : List Event → Option Registry
  | [] => some r
  | e :: es => (step r e).bind (fun r => run r es)

/-- Some later event ends the wait before it is cancelled. -/
def Due (w : Wait) (c : Channel) : Registry → List Event → Prop
  | _, [] => False
  | r, e :: es =>
    Ends r e w ∨ e ≠ .cancel w (some c) ∧ ∀ r' ∈ step r e, Due w c r' es

section
variable {r r' : Registry} {e : Event} {w : Wait} {c : Channel} {es : List Event}

theorem run_ok (hs : Sound r) (es : List Event) : ∃ r', run r es = some r' ∧ Sound r' := by
  induction es generalizing r with
  | nil => exact ⟨r, rfl, hs⟩
  | cons e es ih =>
    obtain ⟨mid, hmid, hst⟩ := step_stepped hs e
    obtain ⟨r', hr', hs'⟩ := ih (hst.sound hs)
    refine ⟨r', ?_, hs'⟩
    rw [run, hmid]
    exact hr'

theorem run_append {mid : Registry} {es' : List Event} (h : run r es = some mid) :
    run r (es ++ es') = run mid es' := by
  induction es generalizing r with
  | nil =>
    cases h
    rfl
  | cons e es ih =>
    obtain ⟨next, hnext, hrest⟩ := Option.bind_eq_some_iff.mp h
    rw [List.cons_append, run, hnext]
    exact ih hrest

def Settled (r : Registry) (c : Channel) : Prop := c < r.made ∧ ∀ w, c ∉ r.waiting w

theorem Stepped.settled (h : Stepped r e r') (hc : Settled r c) :
    Settled r' c ∧ (c ∈ r'.closed ↔ c ∈ r.closed) := by
  obtain ⟨hmade, hnot⟩ := hc
  cases h with
  | @await w _ =>
    refine ⟨⟨?_, fun w' hmem => ?_⟩, by rw [await_closed]⟩
    · rw [await_made]
      exact Nat.lt_succ_of_lt hmade
    · by_cases h : w' = w
      · rw [h, await_self] at hmem
        rcases Finset.mem_insert.mp hmem with hmem | hmem
        · exact absurd hmem hmade.ne
        · exact hnot w hmem
      · rw [await_ne h] at hmem
        exact hnot w' hmem
  | @cancel w c' _ =>
    refine ⟨⟨?_, fun w' hmem => hnot w' (cancel_sub r w w' c' hmem)⟩, by rw [cancel_closed]⟩
    rw [cancel_made]
    exact hmade
  | wake _ _ hw =>
    refine ⟨⟨?_, fun w' hmem => ?_⟩, ?_⟩
    · rw [hw.made]
      exact hmade
    · by_cases hp : Ends r e w'
      · rw [hw.ended w' hp] at hmem
        cases hmem
      · rw [hw.kept w' hp] at hmem
        exact hnot w' hmem
    · rw [hw.closed]
      exact ⟨fun h => h.elim (fun h => h) fun ⟨w', _, hc⟩ => absurd hc (hnot w'), Or.inl⟩

theorem run_settled (hs : Sound r) (hc : Settled r c) (h : run r es = some r') :
    c ∈ r'.closed ↔ c ∈ r.closed := by
  induction es generalizing r with
  | nil =>
    cases h
    exact Iff.rfl
  | cons e es ih =>
    obtain ⟨mid, hmid, hst⟩ := step_stepped hs e
    rw [run, hmid] at h
    obtain ⟨hc', hclosed⟩ := hst.settled hc
    exact (ih (hst.sound hs) hc' h).trans hclosed

theorem Stepped.registered (h : Stepped r e r') (hs : Sound r) (hc : c ∈ r.waiting w) :
    (Ends r e w ∧ c ∈ r'.closed ∧ Settled r' c) ∨
    (e = .cancel w (some c) ∧ c ∉ r'.closed ∧ Settled r' c) ∨
    (¬ Ends r e w ∧ e ≠ .cancel w (some c) ∧ c ∈ r'.waiting w) := by
  have hmade := hs.made w c hc
  have hopen := hs.isOpen w c hc
  cases h with
  | @await w' he =>
    refine Or.inr (Or.inr ⟨by simp [he, Ends], by simp [he], ?_⟩)
    by_cases h : w = w'
    · subst h
      rw [await_self]
      exact Finset.mem_insert_of_mem hc
    · rw [await_ne h]
      exact hc
  | @cancel w' c' he =>
    by_cases hthis : e = .cancel w (some c)
    · obtain ⟨rfl, rfl⟩ := Event.cancel.inj (he.symm.trans hthis)
      refine Or.inr (Or.inl ⟨hthis, ?_, ?_, fun w'' hmem => ?_⟩)
      · rw [cancel_closed]
        exact hopen
      · rw [cancel_made]
        exact hmade
      · have hw : w'' = w' := hs.single w'' w' c (cancel_sub r w' w'' _ hmem) hc
        rw [hw, cancel_self] at hmem
        exact Finset.notMem_erase c _ hmem
    · refine Or.inr (Or.inr ⟨by simp [he, Ends], hthis, ?_⟩)
      cases c' with
      | none =>
        rw [cancel_none]
        exact hc
      | some c' =>
        by_cases h : w = w'
        · subst h
          rw [cancel_self]
          exact Finset.mem_erase.mpr ⟨fun hcc => hthis (by rw [he, hcc]), hc⟩
        · rw [cancel_ne h]
          exact hc
  | wake _ hnot hw =>
    by_cases hp : Ends r e w
    · refine Or.inl ⟨hp, (hw.closed c).mpr (Or.inr ⟨w, hp, hc⟩), hw.made ▸ hmade, fun w' hmem => ?_⟩
      by_cases hp' : Ends r e w'
      · rw [hw.ended w' hp'] at hmem
        cases hmem
      · rw [hw.kept w' hp'] at hmem
        exact hp' (hs.single w w' c hc hmem ▸ hp)
    · refine Or.inr (Or.inr ⟨hp, hnot w (some c), ?_⟩)
      rw [hw.kept w hp]
      exact hc

theorem closed_iff_due (hs : Sound r) (hc : c ∈ r.waiting w) (h : run r es = some r') :
    c ∈ r'.closed ↔ Due w c r es := by
  induction es generalizing r with
  | nil =>
    cases h
    exact ⟨fun hclosed => absurd hclosed (hs.isOpen w c hc), False.elim⟩
  | cons e es ih =>
    obtain ⟨mid, hmid, hst⟩ := step_stepped hs e
    rw [run, hmid] at h
    have hrest : Settled mid c → (c ∈ r'.closed ↔ c ∈ mid.closed) :=
      fun hset => run_settled (hst.sound hs) hset h
    rcases hst.registered hs hc with ⟨hends, hclosed, hset⟩ | ⟨hcancel, hopen, hset⟩ |
        ⟨hnot, hne, hreg⟩
    · exact ⟨fun _ => Or.inl hends, fun _ => (hrest hset).mpr hclosed⟩
    · refine ⟨fun hclosed => absurd ((hrest hset).mp hclosed) hopen, ?_⟩
      rintro (hends | ⟨hne, -⟩)
      · rw [hcancel] at hends
        exact False.elim hends
      · exact absurd hcancel hne
    · rw [ih (hst.sound hs) hreg h]
      constructor
      · intro hdue
        refine Or.inr ⟨hne, fun r'' hr'' => ?_⟩
        rw [hmid] at hr''
        cases hr''
        exact hdue
      · rintro (hends | ⟨-, hdue⟩)
        · exact absurd hends hnot
        · exact hdue mid hmid

end

theorem initial_sound : Sound Registry.initial := by
  have hnone : ∀ w, Registry.initial.waiting w = ∅ := by
    intro w
    cases w <;> simp [Registry.waiting, Registry.initial]
  have hclosed : Registry.initial.closed = ∅ := rfl
  refine ⟨?_, ?_, ?_, ?_⟩ <;> simp [hnone, hclosed]

/-- Whatever is called in whatever order, no channel is closed twice, a channel
that is registered is open and registered once, and the channel of an awaiter
is closed exactly when a wake is due before it is cancelled. -/
theorem closed_when_due (before after : List Event) (w : Wait) :
    ∃ r r', run .initial before = some r ∧
      run .initial (before ++ .await w :: after) = some r' ∧ Sound r ∧ Sound r' ∧
      (r.made ∈ r'.closed ↔ Due w r.made (await r w) after) := by
  obtain ⟨r, hr, hs⟩ := run_ok initial_sound before
  obtain ⟨r', hr', hs'⟩ := run_ok (sound_await hs w) after
  have hmem : r.made ∈ (await r w).waiting w := by
    rw [await_self]
    exact Finset.mem_insert_self _ _
  refine ⟨r, r', hr, ?_, hs, hs', closed_iff_due (sound_await hs w) hmem hr'⟩
  rw [run_append hr]
  exact hr'

end Mmmbbb.Notify
