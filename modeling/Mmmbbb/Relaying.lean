import Mathlib.Data.Finset.Card
import Mmmbbb.Listing
import Mmmbbb.Notify

/-!
# Notifications between processes

Hooks put what is published or modified on channels. A loop takes it off in
rounds, collects it in sets, and sends one database notification for each
element of the sets. Of the sets only the one of publishes is emptied.
-/

set_option autoImplicit false

namespace Mmmbbb.Relaying
open Programs Mmmbbb.Schema Mmmbbb.Listing

structure IDName where
  id : UUID
  name : String
  deriving DecidableEq

inductive Event
  | published (id : UUID)
  | topicModified (k : IDName)
  | subModified (k : IDName)
  deriving DecidableEq

def Event.isModification : Event → Bool
  | .published _ => false
  | .topicModified _ => true
  | .subModified _ => true

structure PlainText extends UUIDText where
  string_space : ∀ id, ' ' ∉ (string id).toList

def subPublishedChannelName : String := "mmmbbb_published_to_sub"

def topicModifiedChannelName : String := "mmmbbb_modified_topic"

def subModifiedChannelName : String := "mmmbbb_modified_sub"

structure Notification where
  channel : String
  payload : String
  deriving DecidableEq

/-- The payload of a modification, as the statement concatenates it. -/
def idNamePayload (text : PlainText) (k : IDName) : String := text.string k.id ++ " " ++ k.name

def Event.notify (text : PlainText) : Event → Notification
  | .published id => ⟨subPublishedChannelName, text.string id⟩
  | .topicModified k => ⟨topicModifiedChannelName, idNamePayload text k⟩
  | .subModified k => ⟨subModifiedChannelName, idNamePayload text k⟩

def parseUUIDName (text : PlainText) (s : String) : Except String (UUID × String) :=
  match s.toList.findIdx? (· = ' ') with
  | none => .error "no space found"
  | some space =>
    (text.parse (String.ofList (s.toList.take space))).map
      (fun id => (id, String.ofList (s.toList.drop (space + 1))))

def receive (text : PlainText) (n : Notification) : List Notify.Event :=
  if n.channel = subPublishedChannelName then
    match text.parse n.payload with
    | .error _ => []
    | .ok subID => [.wakePublishListeners true subID]
  else if n.channel = topicModifiedChannelName then
    match parseUUIDName text n.payload with
    | .error _ => []
    | .ok (id, name) => [.wakeTopicListeners true id name]
  else if n.channel = subModifiedChannelName then
    match parseUUIDName text n.payload with
    | .error _ => []
    | .ok (id, name) => [.wakeSubscriptionListeners true id name, .wakePublishListeners true id]
  else []

inductive Phase
  | waiting
  | draining
  | sending
  deriving DecidableEq

structure Round where
  dequeued : List Event
  sent : List Notification
  deriving DecidableEq

structure State where
  pubNotifies : List UUID
  topicNotifies : List IDName
  subNotifies : List IDName
  pn : Finset UUID
  tn : Finset IDName
  sn : Finset IDName
  phase : Phase
  dequeued : List Event
  rounds : List Round

def initial : State := ⟨[], [], [], ∅, ∅, ∅, .waiting, [], []⟩

def bufferSize : ℕ := 100

def pubCapacity : ℕ := 100

def modifyCapacity : ℕ := 10

inductive Step
  | publish (id : UUID)
  | modifyTopic (k : IDName)
  | modifySub (k : IDName)
  | takePub
  | takeTopic
  | takeSub
  | drained
  | send (ps : List UUID) (ts ss : List IDName)

/-- After an element is taken off: the first one starts the drain, which stops
when the set is full. -/
def Phase.next (phase : Phase) (size : ℕ) : Phase :=
  match phase with
  | .draining => if size ≥ bufferSize then .sending else .draining
  | _ => .draining

structure State.Sends (st : State) (ps : List UUID) (ts ss : List IDName) : Prop where
  phase : st.phase = .sending
  pubNodup : ps.Nodup
  pub : ps.toFinset = st.pn
  topicNodup : ts.Nodup
  topic : ts.toFinset = st.tn
  subNodup : ss.Nodup
  sub : ss.toFinset = st.sn

instance (st : State) (ps : List UUID) (ts ss : List IDName) : Decidable (st.Sends ps ts ss) :=
  decidable_of_iff (st.phase = .sending ∧ ps.Nodup ∧ ps.toFinset = st.pn ∧ ts.Nodup ∧
      ts.toFinset = st.tn ∧ ss.Nodup ∧ ss.toFinset = st.sn)
    ⟨fun ⟨a, b, c, d, e, f, g⟩ => ⟨a, b, c, d, e, f, g⟩,
      fun ⟨a, b, c, d, e, f, g⟩ => ⟨a, b, c, d, e, f, g⟩⟩

def sendEvents (ps : List UUID) (ts ss : List IDName) : List Event :=
  ps.map .published ++ ts.map .topicModified ++ ss.map .subModified

/-- A step that cannot be taken is not; a hook waits while its channel is full. -/
def State.after (text : PlainText) (st : State) : Step → State
  | .publish id =>
    if st.pubNotifies.length < pubCapacity then { st with pubNotifies := st.pubNotifies ++ [id] }
    else st
  | .modifyTopic k =>
    if st.topicNotifies.length < modifyCapacity then
      { st with topicNotifies := st.topicNotifies ++ [k] }
    else st
  | .modifySub k =>
    if st.subNotifies.length < modifyCapacity then { st with subNotifies := st.subNotifies ++ [k] }
    else st
  | .takePub =>
    match st.pubNotifies with
    | [] => st
    | p :: rest =>
      if st.phase = .sending then st
      else { st with
        pubNotifies := rest
        pn := insert p st.pn
        phase := st.phase.next (insert p st.pn).card
        dequeued := st.dequeued ++ [.published p] }
  | .takeTopic =>
    match st.topicNotifies with
    | [] => st
    | t :: rest =>
      if st.phase = .sending then st
      else { st with
        topicNotifies := rest
        tn := insert t st.tn
        phase := st.phase.next (insert t st.tn).card
        dequeued := st.dequeued ++ [.topicModified t] }
  | .takeSub =>
    match st.subNotifies with
    | [] => st
    | s :: rest =>
      if st.phase = .sending then st
      else { st with
        subNotifies := rest
        sn := insert s st.sn
        phase := st.phase.next (insert s st.sn).card
        dequeued := st.dequeued ++ [.subModified s] }
  | .drained =>
    if st.phase = .draining ∧ st.pubNotifies = [] ∧ st.topicNotifies = [] ∧ st.subNotifies = [] then
      { st with phase := .sending }
    else st
  | .send ps ts ss =>
    if st.Sends ps ts ss then
      { st with
        pn := ps.foldl Finset.erase st.pn
        phase := .waiting
        dequeued := []
        rounds := st.rounds ++ [⟨st.dequeued, (sendEvents ps ts ss).map (Event.notify text)⟩] }
    else st

def run (text : PlainText) (es : List Step) : State := es.foldl (State.after text) initial

/-- Each round has sent one notification for every distinct event of it. -/
def Relayed (text : PlainText) (st : State) : Prop :=
  ∀ round ∈ st.rounds, round.sent.Perm (round.dequeued.dedup.map (Event.notify text))

/-- A round that is sent has every modification of the earlier rounds in it. -/
def Repeats (st : State) (e : Step) (_ : State) : Prop :=
  match e with
  | .send ps ts ss => st.Sends ps ts ss → ∀ round ∈ st.rounds, ∀ x ∈ round.dequeued,
      x.isModification = true → x ∈ st.dequeued
  | _ => True

section
variable {text : PlainText}

theorem payload_toList (text : PlainText) (k : IDName) :
    (idNamePayload text k).toList = (text.string k.id).toList ++ ' ' :: k.name.toList := by
  simp [idNamePayload]

theorem findIdx_space {xs : List Char} (h : ' ' ∉ xs) (ys : List Char) :
    (xs ++ ' ' :: ys).findIdx? (· = ' ') = some xs.length := by
  induction xs with
  | nil => rfl
  | cons x xs ih =>
    rw [List.mem_cons, not_or] at h
    obtain ⟨hx, hxs⟩ := h
    rw [List.cons_append, List.findIdx?_cons, if_neg (by simpa using Ne.symm hx), ih hxs]
    rfl

theorem parse_payload (text : PlainText) (k : IDName) :
    parseUUIDName text (idNamePayload text k) = .ok (k.id, k.name) := by
  have hspace := findIdx_space (text.string_space k.id) k.name.toList
  rw [parseUUIDName, payload_toList, hspace]
  dsimp only
  rw [List.take_left, String.ofList_toList, text.parse_string, List.drop_append,
    List.drop_eq_nil_of_le (by omega), Nat.add_sub_cancel_left]
  simp [Except.map]

theorem idNamePayload_injective (text : PlainText) :
    Function.Injective (idNamePayload text) := by
  intro k k' h
  have hparse := parse_payload text k
  rw [h, parse_payload, Except.ok.injEq, Prod.mk.injEq] at hparse
  cases k
  cases k'
  simp_all

theorem string_injective (text : PlainText) : Function.Injective text.string := by
  intro id id' h
  have hparse := text.parse_string id
  rw [h, text.parse_string] at hparse
  exact (Except.ok.inj hparse).symm

theorem notify_injective (text : PlainText) : Function.Injective (Event.notify text) := by
  intro x y h
  cases x <;> cases y <;> simp only [Event.notify, Notification.mk.injEq] at h
  all_goals obtain ⟨hchannel, hpayload⟩ := h
  all_goals first
    | exact congrArg _ (string_injective text hpayload)
    | exact congrArg _ (idNamePayload_injective text hpayload)
    | exact absurd hchannel (by decide)

def Event.wakes : Event → List Notify.Event
  | .published id => [.wakePublishListeners true id]
  | .topicModified k => [.wakeTopicListeners true k.id k.name]
  | .subModified k => [.wakeSubscriptionListeners true k.id k.name, .wakePublishListeners true k.id]

theorem receive_notify (text : PlainText) (x : Event) : receive text (x.notify text) = x.wakes := by
  cases x with
  | published id => simp [receive, Event.notify, text.parse_string, Event.wakes]
  | topicModified k =>
    have hpub : topicModifiedChannelName ≠ subPublishedChannelName := by decide
    simp [receive, Event.notify, hpub, parse_payload, Event.wakes]
  | subModified k =>
    have hpub : subModifiedChannelName ≠ subPublishedChannelName := by decide
    have htopic : subModifiedChannelName ≠ topicModifiedChannelName := by decide
    simp [receive, Event.notify, hpub, htopic, parse_payload, Event.wakes]

end

def State.past (st : State) : List Event := st.rounds.flatMap Round.dequeued

def Collects {α : Type} (set : Finset α) (event : α → Event) (events : List Event) : Prop :=
  ∀ x, x ∈ set ↔ event x ∈ events

/-- The set of publishes has those of the round; the other two have all that
was ever taken off their channels. -/
structure Sound (st : State) : Prop where
  pub : Collects st.pn .published st.dequeued
  topic : Collects st.tn .topicModified (st.past ++ st.dequeued)
  sub : Collects st.sn .subModified (st.past ++ st.dequeued)

section
variable {text : PlainText} {st : State} {ps : List UUID} {ts ss : List IDName}

theorem Collects.insert {α : Type} [DecidableEq α] {set : Finset α} {event : α → Event}
    {events : List Event} (h : Collects set event events) (hinj : Function.Injective event)
    (x : α) : Collects (insert x set) event (events ++ [event x]) := by
  intro y
  rw [Finset.mem_insert, h y, List.mem_append, List.mem_singleton, hinj.eq_iff, or_comm]

theorem Collects.other {α : Type} {set : Finset α} {event : α → Event} {events : List Event}
    (h : Collects set event events) {x : Event} (hx : ∀ y, event y ≠ x) :
    Collects set event (events ++ [x]) := by
  intro y
  rw [h y, List.mem_append, List.mem_singleton, or_iff_left (hx y)]

theorem foldl_erase {α : Type} [DecidableEq α] (xs : List α) (set : Finset α) (x : α) :
    x ∈ xs.foldl Finset.erase set ↔ x ∈ set ∧ x ∉ xs := by
  induction xs generalizing set with
  | nil => simp
  | cons y xs ih =>
    rw [List.foldl_cons, ih, Finset.mem_erase, List.mem_cons]
    tauto

theorem State.Sends.emptied (h : st.Sends ps ts ss) : ps.foldl Finset.erase st.pn = ∅ := by
  ext x
  rw [foldl_erase, ← h.pub, List.mem_toFinset]
  simp

theorem initial_sound : Sound initial := by
  constructor <;> intro x <;> simp [initial, State.past]

/-- What a step may do to the sets and to what is known of the rounds. -/
inductive Acts (text : PlainText) (st : State) : Step → State → Prop
  | still (e : Step) {st' : State} : st'.pn = st.pn → st'.tn = st.tn → st'.sn = st.sn →
      st'.dequeued = st.dequeued → st'.rounds = st.rounds → Acts text st e st'
  | takePub {p : UUID} {rest : List UUID} : Acts text st .takePub { st with
      pubNotifies := rest
      pn := insert p st.pn
      phase := st.phase.next (insert p st.pn).card
      dequeued := st.dequeued ++ [.published p] }
  | takeTopic {t : IDName} {rest : List IDName} : Acts text st .takeTopic { st with
      topicNotifies := rest
      tn := insert t st.tn
      phase := st.phase.next (insert t st.tn).card
      dequeued := st.dequeued ++ [.topicModified t] }
  | takeSub {s : IDName} {rest : List IDName} : Acts text st .takeSub { st with
      subNotifies := rest
      sn := insert s st.sn
      phase := st.phase.next (insert s st.sn).card
      dequeued := st.dequeued ++ [.subModified s] }
  | send {ps : List UUID} {ts ss : List IDName} : st.Sends ps ts ss →
      Acts text st (.send ps ts ss) { st with
        pn := ps.foldl Finset.erase st.pn
        phase := .waiting
        dequeued := []
        rounds := st.rounds ++ [⟨st.dequeued, (sendEvents ps ts ss).map (Event.notify text)⟩] }

theorem after_acts (text : PlainText) (st : State) (e : Step) :
    Acts text st e (st.after text e) := by
  have hidle : ∀ e, Acts text st e st := fun e => .still e rfl rfl rfl rfl rfl
  cases e with
  | publish id =>
    simp only [State.after]
    split <;> exact .still _ rfl rfl rfl rfl rfl
  | modifyTopic k =>
    simp only [State.after]
    split <;> exact .still _ rfl rfl rfl rfl rfl
  | modifySub k =>
    simp only [State.after]
    split <;> exact .still _ rfl rfl rfl rfl rfl
  | takePub =>
    simp only [State.after]
    split
    · exact hidle _
    · split
      · exact hidle _
      · exact .takePub
  | takeTopic =>
    simp only [State.after]
    split
    · exact hidle _
    · split
      · exact hidle _
      · exact .takeTopic
  | takeSub =>
    simp only [State.after]
    split
    · exact hidle _
    · split
      · exact hidle _
      · exact .takeSub
  | drained =>
    simp only [State.after]
    split <;> exact .still _ rfl rfl rfl rfl rfl
  | send ps ts ss =>
    simp only [State.after]
    split
    · rename_i hsends
      exact .send hsends
    · exact hidle _

theorem sound_after (h : Sound st) (e : Step) : Sound (st.after text e) := by
  have hact := after_acts text st e
  generalize st.after text e = st' at hact
  cases hact with
  | still _ hpn htn hsn hdequeued hrounds =>
    have hpast : st'.past = st.past := congrArg (List.flatMap Round.dequeued) hrounds
    constructor
    · rw [hpn, hdequeued]
      exact h.pub
    · rw [htn, hpast, hdequeued]
      exact h.topic
    · rw [hsn, hpast, hdequeued]
      exact h.sub
  | takePub =>
    refine ⟨h.pub.insert (fun _ _ => Event.published.inj) _, ?_, ?_⟩
    · rw [← List.append_assoc]
      exact h.topic.other (by simp)
    · rw [← List.append_assoc]
      exact h.sub.other (by simp)
  | takeTopic =>
    refine ⟨h.pub.other (by simp), ?_, ?_⟩
    · rw [← List.append_assoc]
      exact h.topic.insert (fun _ _ => Event.topicModified.inj) _
    · rw [← List.append_assoc]
      exact h.sub.other (by simp)
  | takeSub =>
    refine ⟨h.pub.other (by simp), ?_, ?_⟩
    · rw [← List.append_assoc]
      exact h.topic.other (by simp)
    · rw [← List.append_assoc]
      exact h.sub.insert (fun _ _ => Event.subModified.inj) _
  | send hsends =>
    constructor
    · rw [hsends.emptied]
      intro x
      simp
    · intro x
      rw [h.topic x]
      simp [State.past]
    · intro x
      rw [h.sub x]
      simp [State.past]

theorem mem_sendEvents {x : Event} : x ∈ sendEvents ps ts ss ↔
    (∃ p ∈ ps, .published p = x) ∨ (∃ t ∈ ts, .topicModified t = x) ∨
      ∃ s ∈ ss, .subModified s = x := by
  simp [sendEvents]

theorem sendEvents_nodup (hps : ps.Nodup) (hts : ts.Nodup) (hss : ss.Nodup) :
    (sendEvents ps ts ss).Nodup := by
  have hp := hps.map (f := Event.published) fun _ _ => Event.published.inj
  have ht := hts.map (f := Event.topicModified) fun _ _ => Event.topicModified.inj
  have hs := hss.map (f := Event.subModified) fun _ _ => Event.subModified.inj
  refine (hp.append ht ?_).append hs ?_
  · intro x hx hx'
    obtain ⟨p, -, rfl⟩ := List.mem_map.mp hx
    simp at hx'
  · intro x hx hx'
    obtain ⟨s, -, rfl⟩ := List.mem_map.mp hx'
    simp at hx

theorem mem_sent (hs : Sound st) (h : st.Sends ps ts ss) {x : Event} :
    x ∈ sendEvents ps ts ss ↔
      x ∈ st.dequeued ∨ x.isModification = true ∧ x ∈ st.past := by
  have hps : ∀ p, p ∈ ps ↔ .published p ∈ st.dequeued := by
    intro p
    rw [← hs.pub p, ← h.pub, List.mem_toFinset]
  have hts : ∀ t, t ∈ ts ↔ .topicModified t ∈ st.past ++ st.dequeued := by
    intro t
    rw [← hs.topic t, ← h.topic, List.mem_toFinset]
  have hss : ∀ s, s ∈ ss ↔ .subModified s ∈ st.past ++ st.dequeued := by
    intro s
    rw [← hs.sub s, ← h.sub, List.mem_toFinset]
  rw [mem_sendEvents]
  cases x with
  | published p => simp [hps, Event.isModification]
  | topicModified t => simp [hts, Event.isModification, or_comm]
  | subModified s => simp [hss, Event.isModification, or_comm]

/-- A round sends just its own events exactly when it repeats the modifications
of the earlier ones. -/
theorem round_relayed_iff (text : PlainText) (hs : Sound st) (h : st.Sends ps ts ss) :
    ((sendEvents ps ts ss).map (Event.notify text)).Perm
        (st.dequeued.dedup.map (Event.notify text)) ↔
      ∀ round ∈ st.rounds, ∀ x ∈ round.dequeued, x.isModification = true → x ∈ st.dequeued := by
  have hnodup := sendEvents_nodup h.pubNodup h.topicNodup h.subNodup
  rw [List.map_perm_map_iff (notify_injective text),
    List.perm_ext_iff_of_nodup hnodup (List.nodup_dedup _)]
  constructor
  · intro hall round hround x hx hmod
    have hpast : x ∈ st.past := List.mem_flatMap.mpr ⟨round, hround, hx⟩
    exact List.mem_dedup.mp ((hall x).mp ((mem_sent hs h).mpr (.inr ⟨hmod, hpast⟩)))
  · intro hall x
    rw [mem_sent hs h, List.mem_dedup]
    refine or_iff_left_of_imp fun hx => ?_
    obtain ⟨round, hround, hmem⟩ := List.mem_flatMap.mp hx.2
    exact hall round hround x hmem hx.1

theorem rounds_after {e : Step} (he : ∀ ps ts ss, e ≠ .send ps ts ss) :
    (st.after text e).rounds = st.rounds := by
  have hact := after_acts text st e
  generalize st.after text e = st' at hact
  cases hact with
  | still _ _ _ _ _ hrounds => exact hrounds
  | takePub => rfl
  | takeTopic => rfl
  | takeSub => rfl
  | send hsends => exact absurd rfl (he _ _ _)

theorem rounds_send (h : st.Sends ps ts ss) : (st.after text (.send ps ts ss)).rounds =
    st.rounds ++ [⟨st.dequeued, (sendEvents ps ts ss).map (Event.notify text)⟩] := by
  simp [State.after, h]

theorem relayed_after_iff (hs : Sound st) (h : Relayed text st) (e : Step) :
    Relayed text (st.after text e) ↔ Repeats st e (st.after text e) := by
  by_cases he : ∃ ps ts ss, e = .send ps ts ss
  · obtain ⟨ps, ts, ss, rfl⟩ := he
    by_cases hsends : st.Sends ps ts ss
    · have hrepeats : Repeats st (.send ps ts ss) (st.after text (.send ps ts ss)) ↔
          ∀ round ∈ st.rounds, ∀ x ∈ round.dequeued, x.isModification = true →
            x ∈ st.dequeued := imp_iff_right hsends
      rw [hrepeats, ← round_relayed_iff text hs hsends, Relayed, rounds_send hsends]
      simp only [List.forall_mem_append, List.forall_mem_singleton]
      exact and_iff_right h
    · have hsame : st.after text (.send ps ts ss) = st := by simp [State.after, hsends]
      rw [hsame]
      exact iff_of_true h fun h' => absurd h' hsends
  · have hother : ∀ ps ts ss, e ≠ .send ps ts ss := fun ps ts ss h' => he ⟨ps, ts, ss, h'⟩
    rw [Relayed, rounds_after hother]
    refine iff_of_true h ?_
    cases e with
    | send ps ts ss => exact absurd rfl (hother ps ts ss)
    | _ => trivial

theorem exists_sends (h : st.phase = .sending) : ∃ ps ts ss, st.Sends ps ts ss :=
  ⟨st.pn.toList, st.tn.toList, st.sn.toList, h, st.pn.nodup_toList, st.pn.toList_toFinset,
    st.tn.nodup_toList, st.tn.toList_toFinset, st.sn.nodup_toList, st.sn.toList_toFinset⟩

/-- Names survive the way through a payload; and all through a run the rounds
send just their own events exactly when each repeats the modifications of all
the rounds before it. -/
theorem relayed_iff (text : PlainText) (es : List Step) :
    (∀ k : IDName, parseUUIDName text (idNamePayload text k) = .ok (k.id, k.name)) ∧
        (∀ pre, pre <+: es → Relayed text (run text pre)) ↔
      Throughout (State.after text) Repeats initial es := by
  have hsound : ∀ pre, Sound (run text pre) :=
    fun pre => foldl_invariant (I := Sound) (fun _ e h => sound_after h e) initial_sound pre
  have hinitial : Relayed text initial := by
    intro round hround
    simp [initial] at hround
  have hstep : ∀ st e, Sound st ∧ Relayed text st →
      (Sound (st.after text e) ∧ Relayed text (st.after text e) ↔
        Repeats st e (st.after text e)) := by
    intro st e h
    rw [← relayed_after_iff h.1 h.2]
    exact and_iff_right (sound_after h.1 e)
  rw [and_iff_right (parse_payload text), ← throughout_iff hstep ⟨initial_sound, hinitial⟩ es]
  exact forall₂_congr fun pre _ => (and_iff_right (hsound pre)).symm

end

theorem hexDigit_ne_space (d : ℕ) : hexDigit d ≠ ' ' := by
  by_cases hd : d < 16
  · have hall : ∀ d < 16, hexDigit d ≠ ' ' := by decide
    exact hall d hd
  · have hlength : "0123456789abcdef".toList.length = 16 := by decide
    rw [hexDigit, List.getD_eq_getElem?_getD, List.getElem?_eq_none (by omega)]
    decide

theorem hexText_space (id : UUID) : ' ' ∉ (hexText.string id).toList := by
  have htext : (hexText.string id).toList =
      "00000000-0000-0000-0000-".toList ++ hexDigits id := String.toList_ofList
  intro hspace
  rw [htext] at hspace
  rcases List.mem_append.mp hspace with hstart | hdigits
  · have hnone : ' ' ∉ "00000000-0000-0000-0000-".toList := by decide +kernel
    exact hnone hstart
  · rcases List.mem_append.mp (List.mem_reverse.mp hdigits) with hdigit | hzero
    · obtain ⟨d, -, hd⟩ := List.mem_map.mp hdigit
      exact hexDigit_ne_space d hd
    · exact absurd (List.eq_of_mem_replicate hzero) (by decide)

def hexPlain : PlainText := ⟨hexText, hexText_space⟩

def oneModification : List Step := [
  .modifyTopic ⟨5, "projects/p/topics/my topic"⟩, .takeTopic, .drained,
  .send [] [⟨5, "projects/p/topics/my topic"⟩] [],
  .publish 7, .takePub, .drained, .send [7] [⟨5, "projects/p/topics/my topic"⟩] []]

/-- The round of the publish sends the modification again. -/
theorem modification_resent :
    (run hexPlain oneModification).rounds.map Round.dequeued =
        [[.topicModified ⟨5, "projects/p/topics/my topic"⟩], [.published 7]] ∧
      (run hexPlain oneModification).rounds.map (fun round => round.sent.length) = [1, 2] ∧
      ¬((∀ k : IDName, parseUUIDName hexPlain (idNamePayload hexPlain k) = .ok (k.id, k.name)) ∧
        ∀ pre, pre <+: oneModification → Relayed hexPlain (run hexPlain pre)) := by
  have hdequeued : (run hexPlain oneModification).rounds.map Round.dequeued =
      [[.topicModified ⟨5, "projects/p/topics/my topic"⟩], [.published 7]] := by decide +kernel
  have hsent : (run hexPlain oneModification).rounds.map (fun round => round.sent.length) =
      [1, 2] := by decide +kernel
  refine ⟨hdequeued, hsent, fun h => ?_⟩
  have hrelayed := h.2 oneModification List.prefix_rfl
  have hlengths : ∀ round ∈ (run hexPlain oneModification).rounds,
      round.sent.length = round.dequeued.dedup.length := by
    intro round hround
    rw [(hrelayed round hround).length_eq, List.length_map]
  exact absurd hlengths (by decide +kernel)

end Mmmbbb.Relaying
