import Mmmbbb.Streaming
import Mathlib.Algebra.BigOperators.Ring.Finset

/-!
# Flow control of a stream

The budget of a fetch is what the window leaves when it is computed. Until the
results go into the window it only shrinks, so the limits hold throughout.
-/

set_option autoImplicit false

namespace Mmmbbb.FlowControl
open KeyedRows Windows Programs Mmmbbb.Schema Mmmbbb.Database Mmmbbb.Delivering Mmmbbb.Consuming
open Mmmbbb.Streaming

theorem budget_eq (fc : Streaming.FlowControl) (pending : Pending) : budget fc pending =
    ⟨fc.maxMessages - size pending, fc.maxBytes - load PendingMessage.bytes pending⟩ := by
  unfold budget size load
  generalize pending.entries = es
  induction es generalizing fc with
  | nil => simp
  | cons e es ih =>
    rw [List.foldl_cons, ih]
    simp only [List.length_cons, List.map_cons, List.sum_cons, FlowControl.mk.injEq]
    push_cast
    constructor <;> omega

structure Fits (p : GetSubscriptionMessagesParams) (results : List SubscriptionMessageDelivery) :
    Prop where
  length : (results.length : ℤ) ≤ p.maxMessages
  bytes : ((results.map (fun x => (x.payload.length : ℤ))).sum ≤ p.maxBytes) ∨
    p.maxBytesStrict = false ∧ results.length = 1

structure Filled (p : GetSubscriptionMessagesParams) (i : ℕ) (st : Applied) : Prop where
  bytes : st.bytes ≤ p.maxBytes ∨
    p.maxBytesStrict = false ∧ st.deliveries.length = 1 ∧ p.maxBytes < st.bytes ∧ 0 < i
  first : i = 0 → st.deliveries = []

section
variable {env : Env} {p : GetSubscriptionMessagesParams} {sub : Subscription} {i : ℕ}
  {rest : List (Delivery × Message)} {st st' : Applied}

theorem Filled.skip (h : Filled p i st) : Filled p (i + 1) st where
  bytes := h.bytes.imp_right (fun ⟨hstrict, hone, hover, _⟩ => ⟨hstrict, hone, hover, i.succ_pos⟩)
  first := fun hi => absurd hi i.succ_ne_zero

theorem Filled.deliver (h : Filled p i st) {x : SubscriptionMessageDelivery}
    (hskip : ¬ ((p.maxBytesStrict || decide (0 < i)) &&
      decide (p.maxBytes < st.bytes + x.payload.length)) = true) : Filled p (i + 1) (st.deliver x) := by
  simp only [Bool.and_eq_true, Bool.or_eq_true, decide_eq_true_eq, not_and_or, not_or] at hskip
  refine ⟨?_, fun hi => absurd hi i.succ_ne_zero⟩
  by_cases hover : p.maxBytes < st.bytes + x.payload.length
  · obtain ⟨hstrict, hi⟩ := hskip.resolve_right (not_not.mpr hover)
    have hzero : i = 0 := by omega
    have hone : (st.deliver x).deliveries.length = 1 := by
      simp [Applied.deliver, h.first hzero]
    exact Or.inr ⟨by simpa using hstrict, hone, hover, i.succ_pos⟩
  · exact Or.inl (not_lt.mp hover)

theorem applyLoop_filled (h : applyLoop env p sub i rest st = .ok st') (hf : Filled p i st) :
    ∃ j, Filled p j st' := by
  induction rest generalizing i st with
  | nil =>
    cases h
    exact ⟨i, hf⟩
  | cons x rest ih =>
    obtain ⟨d, m⟩ := x
    rw [applyLoop] at h
    split at h
    · exact ih h hf.skip
    · rename_i hskip
      have hdeliver : Filled p (i + 1) (st.deliver (handOut env sub d m)) := hf.deliver hskip
      split at h
      · split at h
        · cases h
        · exact ih h ⟨hf.skip.bytes, hf.skip.first⟩
      · split at h
        · cases h
          exact ⟨i + 1, hdeliver⟩
        · exact ih h hdeliver

theorem applyLoop_length (h : applyLoop env p sub i rest st = .ok st') :
    st'.deliveries.length ≤ st.deliveries.length + rest.length := by
  induction rest generalizing i st with
  | nil =>
    cases h
    exact le_refl _
  | cons x rest ih =>
    obtain ⟨d, m⟩ := x
    have hone : (st.deliver (handOut env sub d m)).deliveries.length =
        st.deliveries.length + 1 := by simp [Applied.deliver]
    rw [applyLoop] at h
    rw [List.length_cons]
    split at h
    · have := ih h
      omega
    · split at h
      · split at h
        · cases h
        · have := ih h
          dsimp only at this
          omega
      · split at h
        · cases h
          omega
        · have := ih h
          omega

theorem applyResults_fits {deliveries : List (Delivery × Message)} {tx tx' : Tx}
    {res : GetSubscriptionMessagesResults} (hbytes : 0 ≤ p.maxBytes)
    (hlen : (deliveries.length : ℤ) ≤ p.maxMessages)
    (h : applyResults env p sub deliveries tx = .ok (res, tx')) : Fits p res.deliveries := by
  obtain ⟨t, -, h⟩ := bind_ok.mp h
  obtain ⟨last, hloop, h⟩ := bind_ok.mp h
  obtain ⟨t', -, h⟩ := bind_ok.mp h
  obtain ⟨rfl, -⟩ := Prod.mk.inj (pure_ok.mp h)
  obtain ⟨hweighed, -⟩ := applyLoop_weighed hloop rfl
  have hcount : last.deliveries.length ≤ deliveries.length := by
    simpa using applyLoop_length hloop
  obtain ⟨j, hfilled⟩ := applyLoop_filled hloop ⟨Or.inl hbytes, fun _ => rfl⟩
  refine ⟨?_, ?_⟩
  · have : (last.deliveries.length : ℤ) ≤ deliveries.length := by exact_mod_cast hcount
    exact this.trans hlen
  · rcases hfilled.bytes with hle | ⟨hstrict, hone, -, -⟩
    · exact Or.inl (hweighed ▸ hle)
    · exact Or.inr ⟨hstrict, hone⟩

theorem getSubscriptionMessages_fits {tx tx' : Tx} {res : GetSubscriptionMessagesResults}
    (hbytes : 0 ≤ p.maxBytes) (hmessages : 0 ≤ p.maxMessages)
    (h : getSubscriptionMessages env p tx = .ok (res, tx')) : Fits p res.deliveries := by
  obtain ⟨sub, -, h⟩ := bind_ok.mp h
  have hlen := queryAndLockDeliveriesOnce_length env tx.db.toTables sub p
  exact applyResults_fits hbytes (by omega) h

end

theorem smaller_later (t : Time) (id : UUID) (pending : Pending) :
    Smaller PendingMessage.bytes (later t id pending) pending := by
  unfold later
  split
  · exact .refl _
  · rename_i pm hpm
    split
    · exact smaller_insert hpm rfl
    · exact .refl _

theorem smaller_refresh (rows : List Delivery) (ids : List UUID) (pending : Pending) :
    Smaller PendingMessage.bytes (refresh rows ids pending) pending := by
  refine smaller_foldl (fun w id => ?_) ids
  unfold refreshOne
  split
  · exact smaller_erase id
  · exact smaller_later _ _ _

theorem smaller_renew (t : Time) (ids : List UUID) (pending : Pending) :
    Smaller PendingMessage.bytes (renew t ids pending) pending :=
  smaller_foldl (fun w id => smaller_later t id w) ids

structure Room (n b : ℕ) (p : GetSubscriptionMessagesParams) (pending : Pending) : Prop where
  messages : 0 ≤ p.maxMessages
  bytes : 0 ≤ p.maxBytes
  size : (size pending : ℤ) + p.maxMessages ≤ n
  load : (load PendingMessage.bytes pending : ℤ) + p.maxBytes ≤ b
  strict : p.maxBytesStrict = false → Windows.size pending = 0

structure Goes (n b : ℕ) (results : List SubscriptionMessageDelivery) (pending : Pending) :
    Prop where
  size : size pending + results.length ≤ n
  load : load PendingMessage.bytes pending + (results.map (fun x => x.payload.length)).sum ≤ b ∨
    Windows.size pending = 0 ∧ results.length = 1

section
variable {n b : ℕ} {p : GetSubscriptionMessagesParams} {v w : Pending}
  {results : List SubscriptionMessageDelivery}

theorem Room.smaller (h : Room n b p w) (hv : Smaller PendingMessage.bytes v w) :
    Room n b p v where
  messages := h.messages
  bytes := h.bytes
  size := by
    have hsize := h.size
    have hle := hv.size
    omega
  load := by
    have hload := h.load
    have hle := hv.load
    omega
  strict := fun hs => Nat.le_zero.mp (h.strict hs ▸ hv.size)

theorem Goes.smaller (h : Goes n b results w) (hv : Smaller PendingMessage.bytes v w) :
    Goes n b results v where
  size := by
    have hsize := h.size
    have hle := hv.size
    omega
  load := by
    have hle := hv.load
    rcases h.load with hload | ⟨hzero, hone⟩
    · exact Or.inl (by omega)
    · exact Or.inr ⟨Nat.le_zero.mp (hzero ▸ hv.size), hone⟩

theorem Room.goes (h : Room n b p w) (hf : Fits p results) : Goes n b results w where
  size := by
    have hsize := h.size
    have hlen := hf.length
    omega
  load := by
    have hload := h.load
    rcases hf.bytes with hle | ⟨hstrict, hone⟩
    · have hcast : (results.map (fun x => (x.payload.length : ℤ))).sum =
          ((results.map (fun x => x.payload.length)).sum : ℕ) := by
        rw [Nat.cast_list_sum, List.map_map]
        rfl
      exact Or.inl (by omega)
    · exact Or.inr ⟨h.strict hstrict, hone⟩

theorem Goes.within (h : Goes n b results w) :
    Within PendingMessage.bytes n b (insertPending results w) := by
  have hsize : Windows.size (insertPending results w) ≤ Windows.size w + results.length :=
    size_insertAll_le results
  have hload : Windows.load PendingMessage.bytes (insertPending results w) ≤
      Windows.load PendingMessage.bytes w + (results.map (fun x => x.payload.length)).sum :=
    load_insertAll_le results
  refine ⟨hsize.trans h.size, ?_⟩
  rcases h.load with hle | ⟨hzero, hone⟩
  · exact Or.inl (hload.trans hle)
  · by_cases hempty : Windows.size (insertPending results w) = 0
    · rw [load_of_size hempty]
      exact Or.inl (Nat.zero_le b)
    · exact Or.inr (by omega)

end

structure Bounded (n b : ℕ) (st : State) : Prop where
  fc : st.fc = ⟨1, 1⟩ ∨ st.fc = ⟨n, b⟩
  window : Within PendingMessage.bytes n b st.pending
  room : ∀ p, st.sender = .entering p ∨ st.sender = .fetching p → Room n b p st.pending
  goes : ∀ results k, st.sender = .fetched results k → Goes n b results st.pending

def Controlled (n b : ℕ) (_ : State) (s : Step) (_ : State) : Prop :=
  match s with
  | .receive msg => msg.flowControl = none ∨ msg.flowControl = some ⟨n, b⟩
  | _ => True

instance (n b : ℕ) (st : State) (s : Step) (st' : State) : Decidable (Controlled n b st s st') := by
  induction s using Step.casesOn <;> unfold Controlled <;> infer_instance

section
variable {n b : ℕ} {ms : MessageStreamer} {st st' : State} {s : Step}

theorem Bounded.shrink (h : Bounded n b st) (hfc : st'.fc = st.fc) (hs : st'.sender = st.sender)
    (hp : Smaller PendingMessage.bytes st'.pending st.pending) : Bounded n b st' where
  fc := hfc ▸ h.fc
  window := h.window.smaller hp
  room := fun p hphase => (h.room p (hs ▸ hphase)).smaller hp
  goes := fun results k hphase => (h.goes results k (hs ▸ hphase)).smaller hp

theorem Bounded.free (h : Bounded n b st) (hfc : st'.fc = st.fc)
    (hp : st'.pending = st.pending) (hroom : ∀ p, st'.sender ≠ .entering p ∧ st'.sender ≠ .fetching p)
    (hgoes : ∀ results k, st'.sender ≠ .fetched results k) : Bounded n b st' where
  fc := hfc ▸ h.fc
  window := hp ▸ h.window
  room := fun p hphase => absurd hphase (not_or.mpr (hroom p))
  goes := fun results k hphase => absurd hphase (hgoes results k)

theorem bounded_budgeted (hn : 1 ≤ n) (hb : 1 ≤ b) (h : Bounded n b st) (anyPending : Bool) :
    Bounded n b (st.budgeted ms anyPending) := by
  have hfc : st.fc.maxMessages ≤ n ∧ st.fc.maxBytes ≤ b := by
    rcases h.fc with hfc | hfc
    · rw [hfc]
      dsimp only
      omega
    · simp [hfc]
  unfold State.budgeted
  dsimp only
  rw [budget_eq]
  split
  · rename_i hpos
    refine ⟨h.fc, h.window, fun p hphase => ?_, fun results k hphase => by cases hphase⟩
    have hp : fetchParams ms ⟨st.fc.maxMessages - size st.pending,
        st.fc.maxBytes - load PendingMessage.bytes st.pending⟩
        (anyPending || decide (st.pending.entries ≠ [])) = p := by simpa using hphase
    subst hp
    dsimp only [fetchParams] at hpos ⊢
    refine ⟨?_, ?_, ?_, ?_, fun hstrict => ?_⟩
    · exact le_min hpos.2.le (by norm_num)
    · exact hpos.1.le
    · have hmin := min_le_left (st.fc.maxMessages - (size st.pending : ℤ)) 100
      dsimp only
      omega
    · dsimp only
      omega
    · simp only [ne_eq, decide_not, Bool.or_eq_false_iff, Bool.not_eq_false',
        decide_eq_true_eq] at hstrict
      exact List.length_eq_zero_iff.mpr hstrict.2
  · exact h.free rfl rfl (by simp) (by simp)

theorem bounded_received (h : Bounded n b st) {msg : MessageStreamRequest}
    (hmsg : msg.flowControl = none ∨ msg.flowControl = some ⟨n, b⟩) :
    Bounded n b (st.received msg) := by
  unfold State.received
  split
  · exact h.shrink rfl rfl (.refl _)
  · rename_i fc hfc
    rcases hmsg with hnone | hsome
    · rw [hnone] at hfc
      cases hfc
    · obtain rfl := Option.some.inj (hfc.symm.trans hsome)
      exact ⟨Or.inr rfl, h.window, h.room, h.goes⟩

theorem bounded_fetched (h : Bounded n b st) {p : GetSubscriptionMessagesParams}
    {results : List SubscriptionMessageDelivery} (hp : st.sender = .fetching p)
    (hf : Fits p results) (hfc : st'.fc = st.fc) (hpending : st'.pending = st.pending)
    (hs : st'.sender = .fetched results st.hooks.length) : Bounded n b st' := by
  refine ⟨hfc ▸ h.fc, hpending ▸ h.window, fun p' hphase => ?_, fun results' k hphase => ?_⟩
  · rw [hs] at hphase
    rcases hphase with hphase | hphase <;> cases hphase
  · rw [hs] at hphase
    cases hphase
    rw [hpending]
    exact (h.room p (Or.inr hp)).goes hf

theorem bounded_next (hn : 1 ≤ n) (hb : 1 ≤ b) (h : Bounded n b st) (hstep : Next ms st s st')
    (hc : Controlled n b st s st') : Bounded n b st' := by
  cases hstep with
  | receive _ => exact bounded_received h hc
  | settle _ _ _ => exact h.shrink rfl rfl (.refl _)
  | remove _ _ =>
    refine h.shrink rfl rfl ?_
    exact (smaller_eraseAll _).trans (smaller_eraseAll _)
  | @delay _ msg tx _ _ _ =>
    obtain ⟨owed, heq⟩ := delayed_only (st.committed tx) ⟨msg.delay, msg.delayFor⟩
    rw [heq]
    exact h.shrink rfl rfl (.refl _)
  | delayDone _ => exact h.shrink rfl rfl (.refl _)
  | senderStart _ => exact h.free rfl rfl (by simp) (by simp)
  | budget _ => exact bounded_budgeted hn hb h _
  | wokenBySend _ => exact h.free rfl rfl (by simp) (by simp)
  | wokenByNotify _ => exact h.free rfl rfl (by simp) (by simp)
  | @touch env p tx hs _ _ =>
    refine ⟨h.fc, h.window, fun p' hphase => ?_, fun _ _ hphase => by cases hphase⟩
    obtain rfl : p = p' := by simpa using hphase
    exact h.room p (Or.inl hs)
  | park => exact h
  | @query env p res tx hs hget _ =>
    have hroom := h.room p (Or.inr hs)
    exact bounded_fetched h hs (getSubscriptionMessages_fits hroom.bytes hroom.messages hget)
      rfl rfl rfl
  | @giveUp env p sub res tx hs hget _ =>
    have hroom := h.room p (Or.inr hs)
    exact bounded_fetched h hs (applyResults_fits hroom.bytes (by simpa using hroom.messages) hget)
      rfl rfl rfl
  | @insert results k hs _ =>
    refine ⟨h.fc, (h.goes results k hs).within, fun p hphase => ?_, fun _ _ hphase => ?_⟩
    all_goals
      unfold State.inserted at hphase
      dsimp only at hphase
      split at hphase <;> simp at hphase
  | send _ => exact h.free rfl rfl (by simp) (by simp)
  | refresherStart _ => exact h.shrink rfl rfl (.refl _)
  | wokenToRefresh _ => exact h.shrink rfl rfl (.refl _)
  | awaitAgain _ => exact h.shrink rfl rfl (.refl _)
  | readNone _ _ => exact h.shrink rfl rfl (.refl _)
  | readIDs _ => exact h.shrink rfl rfl (.refl _)
  | refreshQuery _ => exact h.shrink rfl rfl (.refl _)
  | drop _ => exact h.shrink rfl rfl (smaller_refresh _ _ _)
  | loadDelay _ => exact h.shrink rfl rfl (.refl _)
  | tickNone => exact h
  | tick _ => exact h.shrink rfl rfl (.refl _)
  | autoDelay _ _ _ => exact h.shrink rfl rfl (.refl _)
  | renew _ => exact h.shrink rfl rfl (smaller_renew _ _ _)
  | @commit e _ tx _ _ =>
    obtain ⟨owed, heq⟩ := nackedBy_only (st.committed tx) e.action
    rw [heq]
    exact h.shrink rfl rfl (.refl _)
  | hook _ _ => exact h.shrink rfl rfl (.refl _)
  | notice _ _ => exact h.shrink rfl rfl (.refl _)
  | other _ _ => exact h.shrink rfl rfl (.refl _)

theorem init_bounded (h : Init st) : Bounded n b st := by
  obtain ⟨-, -, -, hfc, hpending, -, hs, -⟩ := h
  refine ⟨Or.inl hfc, ?_, fun p hphase => ?_, fun results k hphase => ?_⟩
  · rw [hpending]
    exact ⟨Nat.zero_le n, Or.inl (Nat.zero_le b)⟩
  · rw [hs] at hphase
    rcases hphase with hphase | hphase <;> cases hphase
  · rw [hs] at hphase
    cases hphase

theorem reachable_bounded (hn : 1 ≤ n) (hb : 1 ≤ b)
    (h : ((streaming ms).within (Controlled n b)).Reachable st) : Bounded n b st := by
  induction h with
  | start hinit => exact init_bounded hinit
  | next s _ hs ih => exact bounded_next hn hb ih (step_next hs.1) hs.2

/-- Whatever the parties do in whatever order, the window has at most
`n` entries, and they weigh at most `b` bytes unless there is only one. -/
theorem flow_control (hn : 1 ≤ n) (hb : 1 ≤ b)
    (h : ((streaming ms).within (Controlled n b)).Reachable st) :
    size st.pending ≤ n ∧ (load PendingMessage.bytes st.pending ≤ b ∨ size st.pending = 1) :=
  ⟨(reachable_bounded hn hb h).window.size, (reachable_bounded hn hb h).window.load⟩

end

def oversized : List Step := [
  .receive ⟨some ⟨2, 2⟩, [], [], [], 0⟩, .senderStart, .budget, .touch (.plain 5 50),
  .query (.plain 6 60), .insert]

theorem oversized_runs : (runs worker (Controlled 2 2) (opened workerDB) oversized).isSome := by
  decide +kernel

def afterOversized : State :=
  (runs worker (Controlled 2 2) (opened workerDB) oversized).get oversized_runs

theorem flow_control_oversized : load PendingMessage.bytes afterOversized.pending = 3 ∧
    size afterOversized.pending ≤ 2 ∧
    (load PendingMessage.bytes afterOversized.pending ≤ 2 ∨ size afterOversized.pending = 1) :=
  ⟨by decide +kernel, flow_control (by decide) (by decide)
    (runs_reachable (.start (opened_init _)) (Option.some_get oversized_runs).symm)⟩

end Mmmbbb.FlowControl
