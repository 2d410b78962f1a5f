import Mmmbbb.FlowControl

/-!
# Slots that are given back

What the client nacks on the nack list of the stream leaves the window. A
delay of zero is a nack too, but it leaves the entry where it is.
-/

set_option autoImplicit false

namespace Mmmbbb.Slots
open KeyedRows WaitSets Windows Programs Mmmbbb.Schema Mmmbbb.Database Mmmbbb.Delivering
open Mmmbbb.Consuming Mmmbbb.Runs Mmmbbb.Streaming

theorem mem_later {t : Time} {id k : UUID} {pending : Pending} :
    k ∈ later t id pending ↔ k ∈ pending := by
  unfold later
  split
  · rfl
  · rename_i pm hpm
    split
    · rw [AList.mem_insert]
      have hid : id ∈ pending := AList.lookup_isSome.mp (by simp [hpm])
      constructor
      · rintro (rfl | hk)
        · exact hid
        · exact hk
      · exact Or.inr
    · rfl

theorem mem_renew {t : Time} {ids : List UUID} {k : UUID} {pending : Pending} :
    k ∈ renew t ids pending ↔ k ∈ pending := by
  unfold renew
  induction ids generalizing pending with
  | nil => rfl
  | cons id ids ih => rw [List.foldl_cons, ih, mem_later]

theorem mem_refresh {rows : List Delivery} {ids : List UUID} {k : UUID} {pending : Pending} :
    k ∈ refresh rows ids pending ↔ k ∈ pending ∧ (k ∈ ids → Has Delivery.id k rows) := by
  unfold refresh
  induction ids generalizing pending with
  | nil => simp
  | cons id ids ih =>
    have hone : k ∈ refreshOne rows pending id ↔
        k ∈ pending ∧ (k = id → Has Delivery.id k rows) := by
      unfold refreshOne
      split
      · rename_i hnone
        rw [AList.mem_erase]
        have hnot : ¬ Has Delivery.id id rows := by
          intro hhas
          obtain ⟨d, hd⟩ := fetch_isSome hhas
          rw [hnone] at hd
          cases hd
        constructor
        · exact fun h => ⟨h.2, fun hk => absurd hk h.1⟩
        · exact fun h => ⟨fun hk => hnot (hk ▸ h.2 hk), h.1⟩
      · rename_i d hd
        rw [mem_later]
        obtain ⟨hmem, hid⟩ := fetch_mem hd
        exact ⟨fun h => ⟨h, fun hk => hk ▸ ⟨d, hmem, hid⟩⟩, And.left⟩
    rw [List.foldl_cons, ih, hone, List.mem_cons]
    tauto

def Returning (st : State) : Prop :=
  ∀ id ∈ st.owed, id ∈ st.pending → ∃ msg k, st.reader = .settled msg k ∧ id ∈ msg.nack

/-- Of what is pending nothing is nacked by a delay, on the stream or
elsewhere. -/
def ByList (st : State) (s : Step) (_ : State) : Prop :=
  match s with
  | .delay _ =>
    match st.reader with
    | .removed msg => 0 < msg.delayFor ∨ ∀ id ∈ msg.delay, id ∉ st.pending
    | _ => True
  | .commit e =>
    match e.action with
    | .delay p => 0 < p.delay ∨ ∀ id ∈ p.ids, id ∉ st.pending
    | _ => True
  | _ => True

instance (st : State) (s : Step) (st' : State) : Decidable (ByList st s st') := by
  induction s using Step.casesOn <;> unfold ByList
  case delay =>
    dsimp only
    generalize st.reader = r
    induction r using Reader.casesOn <;> infer_instance
  case commit e =>
    dsimp only
    generalize e.action = a
    induction a using Runs.Action.casesOn <;> infer_instance
  all_goals infer_instance

section
variable {ms : MessageStreamer} {st st' : State} {s : Step}

theorem Returning.shrink (h : Returning st) (ho : st'.owed = st.owed)
    (hr : st'.reader = st.reader) (hp : ∀ id ∈ st'.pending, id ∈ st.pending) : Returning st' := by
  intro id hid hmem
  rw [hr]
  exact h id (ho ▸ hid) (hp id hmem)

theorem Returning.read (h : Returning st) (ho : st'.owed = st.owed)
    (hp : st'.pending = st.pending) (hr : ∀ msg k, st.reader ≠ .settled msg k) :
    Returning st' := by
  intro id hid hmem
  obtain ⟨msg, k, hreader, -⟩ := h id (ho ▸ hid) (hp ▸ hmem)
  exact absurd hreader (hr msg k)

theorem delayed_owed {p : DelayDeliveriesParams}
    (h : 0 < p.delay ∨ ∀ id ∈ p.ids, id ∉ st.pending) : (st.delayed p).owed = st.owed := by
  unfold State.delayed
  split
  · rename_i hle
    have hnone : p.ids.filter (fun id => decide (id ∈ st.pending)) = [] := by
      rw [List.filter_eq_nil_iff]
      intro id hid
      simpa using h.resolve_left (not_lt.mpr hle) id hid
    simp [State.nacked, hnone]
  · rfl

theorem returning_settle (h : Returning st) {msg : MessageStreamRequest} {tx : Tx}
    (hr : st.reader = .received msg) :
    Returning { (st.committed tx).nacked msg.nack with
      reader := .settled msg st.hooks.length } := by
  intro id hid hmem
  refine ⟨msg, _, rfl, ?_⟩
  rcases List.mem_append.mp hid with hold | hnew
  · obtain ⟨msg', k, hreader, -⟩ := h id hold hmem
    rw [hr] at hreader
    cases hreader
  · exact (List.mem_filter.mp hnew).1

theorem returning_remove (h : Returning st) {msg : MessageStreamRequest} {k : ℕ}
    (hr : st.reader = .settled msg k) : Returning (st.removed msg) := by
  intro id hid hmem
  obtain ⟨hnack, hmem⟩ := mem_eraseAll.mp hmem
  obtain ⟨-, hpending⟩ := mem_eraseAll.mp hmem
  obtain ⟨msg', k', hreader, hid'⟩ := h id hid hpending
  rw [hr] at hreader
  cases hreader
  exact absurd hid' hnack

theorem returning_insert (h : Returning st) (results : List SubscriptionMessageDelivery) :
    Returning (st.inserted results) := by
  intro id hid hmem
  obtain ⟨hold, hnot⟩ := List.mem_filter.mp hid
  rcases mem_insertAll.mp hmem with hin | hpending
  · exact absurd hin (of_decide_eq_true hnot)
  · exact h id hold hpending

theorem returning_delay (h : Returning st) {tx : Tx} {p : DelayDeliveriesParams}
    (hp : 0 < p.delay ∨ ∀ id ∈ p.ids, id ∉ st.pending) :
    Returning ((st.committed tx).delayed p) := by
  have howed : ((st.committed tx).delayed p).owed = st.owed := delayed_owed hp
  obtain ⟨owed, heq⟩ := delayed_only (st.committed tx) p
  rw [heq] at howed ⊢
  exact h.shrink howed rfl (fun _ hmem => hmem)

theorem returning_commit (h : Returning st) {e : Runs.Event} {tx : Tx}
    (hok : ByList st (.commit e) st') : Returning ((st.committed tx).nackedBy e.action) := by
  unfold State.nackedBy
  split
  · rename_i p ha
    simp only [ByList, ha] at hok
    exact returning_delay h hok
  · exact h.shrink rfl rfl (fun _ hmem => hmem)

theorem returning_next (h : Returning st) (hstep : Next ms st s st') (hok : ByList st s st') :
    Returning st' := by
  cases hstep with
  | @receive msg hr =>
    obtain ⟨fc, wakeSend, heq⟩ := received_only st msg
    rw [heq]
    exact h.read rfl rfl (by simp [hr])
  | settle hr _ _ => exact returning_settle h hr
  | remove hr _ => exact returning_remove h hr
  | @delay _ msg tx hr _ _ =>
    simp only [ByList, hr] at hok
    have hdelay := @returning_delay _ h tx ⟨msg.delay, msg.delayFor⟩ hok
    obtain ⟨owed, heq⟩ := delayed_only (st.committed tx) ⟨msg.delay, msg.delayFor⟩
    rw [heq] at hdelay ⊢
    exact hdelay.read rfl rfl (by simp [State.committed, hr])
  | delayDone hr => exact h.read rfl rfl (by simp [hr])
  | @budget anyPending =>
    obtain ⟨sender, heq, -⟩ := budgeted_only ms st anyPending
    rw [heq]
    exact h.shrink rfl rfl (fun _ hmem => hmem)
  | park => exact h
  | insert _ _ => exact returning_insert h _
  | drop _ => exact h.shrink rfl rfl (fun _ hmem => (mem_refresh.mp hmem).1)
  | tickNone => exact h
  | renew _ => exact h.shrink rfl rfl (fun _ hmem => mem_renew.mp hmem)
  | commit _ _ => exact returning_commit h hok
  | _ => exact h.shrink rfl rfl (fun _ hmem => hmem)

theorem reachable_returning (h : ((streaming ms).within ByList).Reachable st) : Returning st := by
  induction h with
  | start hinit =>
    obtain ⟨-, -, -, -, -, -, -, -, -, -, howed⟩ := hinit
    intro id hid
    rw [howed] at hid
    cases hid
  | next s _ hs ih => exact returning_next ih (step_next hs.1) hs.2

structure Processed (st : State) : Prop where
  reader : st.reader = .receiving
  hooks : ∀ hs ∈ st.hooks, hs = []
  notices : st.notices = []
  refresher : ∃ c, st.refresher = .waiting c ∧ c ∉ st.registry.closed

/-- When everything is processed, nothing that is owed a slot is pending; a
window that has had nothing else has its limits back. -/
theorem slot_given_back (h : ((streaming ms).within ByList).Reachable st) (hp : Processed st) :
    (∀ id ∈ st.owed, id ∉ st.pending) ∧
      ((∀ id ∈ st.pending, id ∈ st.owed) → budget st.fc st.pending = st.fc) := by
  have hfree : ∀ id ∈ st.owed, id ∉ st.pending := by
    intro id hid hmem
    obtain ⟨msg, k, hreader, -⟩ := reachable_returning h id hid hmem
    rw [hp.reader] at hreader
    cases hreader
  refine ⟨hfree, fun hall => ?_⟩
  have hnone : st.pending.entries = [] := by
    rw [List.eq_nil_iff_forall_not_mem]
    intro e he
    have hmem : e.1 ∈ st.pending := List.mem_map_of_mem he
    exact hfree e.1 (hall e.1 hmem) hmem
  rw [budget, hnone]
  rfl

end

def filling : List Step := [
  .refresherStart, .senderStart, .receive ⟨some ⟨1, 100⟩, [], [], [], 0⟩, .budget,
  .touch (.plain 5 50), .query (.plain 6 60), .insert, .send, .budget, .wokenBySend, .budget]

def refreshing : List Step := [
  .wokenToRefresh, .awaitAgain, .readIDs 8, .refreshQuery, .drop, .wokenByNotify, .budget]

def nackedByList : List Step :=
  filling ++ [.receive ⟨none, [], [31], [], 0⟩, .settle (.plain 7 70) (.plain 7 70), .remove]

def nackedByDelay : List Step :=
  filling ++ [.receive ⟨none, [], [], [31], 0⟩, .delay (.plain 7 70), .hook 2, .delayDone] ++
    refreshing

def nackedElsewhere : List Step :=
  filling ++ [.commit ⟨.plain 7 70, .delay ⟨[31], 0⟩, by decide⟩, .hook 2] ++ refreshing

theorem nackedByList_runs : (runs worker ByList (opened workerDB) nackedByList).isSome := rfl

def afterList : State :=
  (runs worker ByList (opened workerDB) nackedByList).get nackedByList_runs

theorem slot_given_back_byList :
    31 ∈ afterList.owed ∧ (∀ id ∈ afterList.owed, id ∉ afterList.pending) ∧
      ((∀ id ∈ afterList.pending, id ∈ afterList.owed) →
        budget afterList.fc afterList.pending = afterList.fc) := by
  have hrefresher : afterList.refresher = .waiting 0 := by decide +kernel
  have hclosed : 0 ∉ afterList.registry.closed := by decide +kernel
  have hreach : ((streaming worker).within ByList).Reachable afterList :=
    runs_reachable (.start (opened_init _)) (Option.some_get nackedByList_runs).symm
  exact ⟨by decide +kernel, slot_given_back hreach
    ⟨by decide +kernel, by decide +kernel, by decide +kernel, 0, hrefresher, hclosed⟩⟩

abbrev AnyStep (_ : State) (_ : Step) (_ : State) : Prop := True

theorem nackedByDelay_runs : (runs worker AnyStep (opened workerDB) nackedByDelay).isSome := rfl

theorem nackedElsewhere_runs :
    (runs worker AnyStep (opened workerDB) nackedElsewhere).isSome := rfl

def afterDelay : State :=
  (runs worker AnyStep (opened workerDB) nackedByDelay).get nackedByDelay_runs

def afterElsewhere : State :=
  (runs worker AnyStep (opened workerDB) nackedElsewhere).get nackedElsewhere_runs

/-- Everybody waits, and nothing is left that could wake the sender. -/
def Stuck (st : State) : Prop :=
  Processed st ∧ st.sender = .waiting true ∧ st.wakeSend = false ∧
    ∃ c, st.senderNotify = some c ∧ c ∉ st.registry.closed

theorem afterDelay_stuck : Stuck afterDelay := by
  have hrefresher : afterDelay.refresher = .waiting 2 := by decide +kernel
  have hsender : afterDelay.sender = .waiting true := by decide +kernel
  exact ⟨⟨by decide +kernel, by decide +kernel, by decide +kernel, 2, hrefresher,
    by decide +kernel⟩, hsender, by decide +kernel, 3, by decide +kernel, by decide +kernel⟩

theorem afterElsewhere_stuck : Stuck afterElsewhere := by
  have hrefresher : afterElsewhere.refresher = .waiting 2 := by decide +kernel
  have hsender : afterElsewhere.sender = .waiting true := by decide +kernel
  exact ⟨⟨by decide +kernel, by decide +kernel, by decide +kernel, 2, hrefresher,
    by decide +kernel⟩, hsender, by decide +kernel, 3, by decide +kernel, by decide +kernel⟩

/-- A delay of zero leaves the only slot taken for good, on the stream and
elsewhere. -/
theorem slot_leaked :
    (¬ ∀ st, (streaming worker).Reachable st → Processed st → ∀ id ∈ st.owed, id ∉ st.pending) ∧
    (Stuck afterDelay ∧ 31 ∈ afterDelay.owed ∧ 31 ∈ afterDelay.pending) ∧
    Stuck afterElsewhere ∧ 31 ∈ afterElsewhere.owed ∧ 31 ∈ afterElsewhere.pending := by
  have howed : 31 ∈ afterDelay.owed := by decide +kernel
  have hpending : 31 ∈ afterDelay.pending := by decide +kernel
  refine ⟨fun h => ?_, ⟨afterDelay_stuck, howed, hpending⟩, afterElsewhere_stuck,
    by decide +kernel, by decide +kernel⟩
  have hreach : ((streaming worker).within AnyStep).Reachable afterDelay :=
    runs_reachable (.start (opened_init _)) (Option.some_get nackedByDelay_runs).symm
  exact h _ hreach.of_within afterDelay_stuck.1 31 howed hpending

end Mmmbbb.Slots
