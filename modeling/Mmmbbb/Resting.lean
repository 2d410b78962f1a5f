import Mathlib.Algebra.Group.Action.Defs
import Mathlib.Algebra.Order.BigOperators.Group.Finset
import Mmmbbb.Exhaustion
import Mmmbbb.Processes

/-!
# Coming to rest

What the processes have begun comes to an end when nothing new is begun: what
is received is never sent on, and each round of a queue is the last one for
what it has taken off its channels.
-/

set_option autoImplicit false

namespace Mmmbbb.Resting
open Programs Exhaustion Mmmbbb.Schema Mmmbbb.Processes
open Mmmbbb.Relaying hiding Step run

def carriesOn : Step → Bool
  | .call _ => false
  | .lose => false
  | _ => true

def queueWork (st : State) : ℕ :=
  3 * onChannels st +
    match st.phase with
    | .waiting => 0
    | .draining => 2
    | .sending => 1

/-- A notification starts at most two goroutines. -/
def connWork : Connection → ℕ
  | .listening n received => 1 + (listenChannels.length - n) + 3 * received.length
  | .awake received => 3 * received.length

def processWork (p : Process) : ℕ :=
  (match p.conn with
    | none => 2 + listenChannels.length
    | some k => connWork k) + p.started.length

section
variable {text : PlainText} {st : State} {p : Process}

theorem receive_length (text : PlainText) (n : Notification) : (receive text n).length ≤ 2 := by
  unfold receive
  split
  · split <;> simp
  · split
    · split <;> simp
    · split
      · split <;> simp
      · simp

theorem sendEvents_length {ps : List UUID} {ts ss : List IDName} (h : st.Sends ps ts ss) :
    (sendEvents ps ts ss).length ≤ held st := by
  have hps := List.toFinset_card_of_nodup h.pubNodup
  have hts := List.toFinset_card_of_nodup h.topicNodup
  have hss := List.toFinset_card_of_nodup h.subNodup
  rw [h.pub] at hps
  rw [h.topic] at hts
  rw [h.sub] at hss
  simp only [sendEvents, List.length_append, List.length_map, held]
  omega

variable (text p) in
theorem loop_works (e : Relaying.Step) (he : enqueues e = false) :
    ({ p with queue := p.queue.after text e } = p ∧ p.sent text (.relay e) = []) ∨
      (queueWork (p.queue.after text e) < queueWork p.queue ∧
        held (p.queue.after text e) ≤ held p.queue ∧
        (p.sent text (.relay e)).length ≤ held p.queue) := by
  by_cases hsend : ∃ ps ts ss, e = .send ps ts ss ∧ p.queue.Sends ps ts ss
  · right
    obtain ⟨ps, ts, ss, rfl, hsends⟩ := hsend
    have hlength : (p.sent text (.relay (.send ps ts ss))).length ≤ held p.queue := by
      rw [Process.sent, if_pos hsends, List.length_map]
      exact sendEvents_length hsends
    refine ⟨?_, ?_, hlength⟩
    · simp [queueWork, State.after, hsends, hsends.phase, onChannels]
    · simp only [held, State.after, hsends, if_pos, hsends.emptied, onChannels,
        Finset.card_empty]
      omega
  · have hsent : p.sent text (.relay e) = [] := by
      cases e with
      | send ps ts ss => exact if_neg fun h => hsend ⟨ps, ts, ss, rfl, h⟩
      | _ => rfl
    rw [hsent]
    have hmoved := after_moved text p.queue e
    generalize p.queue.after text e = st' at hmoved
    cases hmoved with
    | still _ => exact Or.inl ⟨rfl, rfl⟩
    | @enqueued x _ _ => cases x <;> cases he
    | took _ _ hless hheld =>
      refine Or.inr ⟨?_, hheld, Nat.zero_le _⟩
      unfold queueWork
      split <;> split <;> omega
    | drained hphase =>
      refine Or.inr ⟨?_, le_refl _, Nat.zero_le _⟩
      simp [queueWork, hphase, onChannels]
    | sent hsends => exact absurd ⟨_, _, _, rfl, hsends⟩ hsend

variable (text p) in
theorem sendSome_length (ps : List UUID) (ts ss : List IDName) (failed : List Event) :
    (p.sent text (.sendSome ps ts ss failed)).length ≤
      (p.sent text (.relay (.send ps ts ss))).length := by
  simp only [Process.sent]
  split
  · rw [List.length_map, List.length_map]
    exact List.length_filter_le _ _
  · exact le_refl _

variable (text p) in
theorem process_works (e : Step) (he : carriesOn e = true) :
    (p.after text e = p ∧ p.sent text e = []) ∨
      (queueWork (p.after text e).queue < queueWork p.queue ∧
        held (p.after text e).queue ≤ held p.queue ∧ processWork (p.after text e) = processWork p ∧
        (p.sent text e).length ≤ held p.queue) ∨
      ((p.after text e).queue = p.queue ∧ processWork (p.after text e) < processWork p ∧
        p.sent text e = []) := by
  by_cases hrelay : ∃ e', e = .relay e'
  · obtain ⟨e', rfl⟩ := hrelay
    by_cases hloop : enqueues e' = true
    · left
      simp only [Process.after, hloop, if_pos, true_and]
      cases e' <;> first | rfl | cases hloop
    · rw [Bool.not_eq_true] at hloop
      have hafter : p.after text (.relay e') = { p with queue := p.queue.after text e' } := by
        simp [Process.after, hloop]
      rw [hafter]
      rcases loop_works text p e' hloop with hidle | ⟨hless, hheld, hsent⟩
      · exact Or.inl hidle
      · exact Or.inr (Or.inl ⟨hless, hheld, rfl, hsent⟩)
  by_cases hsome : ∃ ps ts ss failed, e = .sendSome ps ts ss failed
  · obtain ⟨ps, ts, ss, failed, rfl⟩ := hsome
    have hfewer := sendSome_length text p ps ts ss failed
    rcases loop_works text p (.send ps ts ss) rfl with ⟨hidle, hsent⟩ | ⟨hless, hheld, hsent⟩
    · rw [hsent, List.length_nil, Nat.le_zero, List.length_eq_zero_iff] at hfewer
      exact Or.inl ⟨hidle, hfewer⟩
    · exact Or.inr (Or.inl ⟨hless, hheld, rfl, hfewer.trans hsent⟩)
  · have hsent : p.sent text e = [] := by
      cases e with
      | relay e' => exact absurd ⟨e', rfl⟩ hrelay
      | sendSome ps ts ss failed => exact absurd ⟨ps, ts, ss, failed, rfl⟩ hsome
      | _ => rfl
    rw [hsent]
    have hact := process_acts text p e
    generalize p.after text e = p' at hact
    cases hact with
    | still _ => exact Or.inl ⟨rfl, rfl⟩
    | called _ => cases he
    | handed _ _ _ => cases he
    | relayed _ => exact absurd ⟨_, rfl⟩ hrelay
    | unsent hphase =>
      refine Or.inr (Or.inl ⟨?_, le_refl _, rfl, Nat.zero_le _⟩)
      simp [queueWork, hphase, onChannels]
    | someSent => exact absurd ⟨_, _, _, _, rfl⟩ hsome
    | connected hnone =>
      refine Or.inr (Or.inr ⟨rfl, ?_, rfl⟩)
      simp [processWork, hnone, connWork]
    | listened hconn hlt =>
      refine Or.inr (Or.inr ⟨rfl, ?_, rfl⟩)
      simp only [processWork, hconn, connWork]
      omega
    | awoke hconn =>
      refine Or.inr (Or.inr ⟨rfl, ?_, rfl⟩)
      simp only [processWork, hconn, connWork]
      omega
    | @received n rest hconn =>
      have hlength := receive_length text n
      refine Or.inr (Or.inr ⟨rfl, ?_, rfl⟩)
      simp only [processWork, hconn, connWork, List.length_append, List.length_cons]
      omega
    | @woke i e' hget =>
      have hlt := (List.getElem?_eq_some_iff.mp hget).1
      refine Or.inr (Or.inr ⟨rfl, ?_, rfl⟩)
      simp only [processWork, List.length_eraseIdx, hlt, if_pos]
      omega
    | lost => cases he

theorem deliver_nil (p : Process) : p.deliver [] = p := by
  have hsame : ∀ k, Connection.deliver [] k = k := by
    intro k
    cases k <;> simp [Connection.deliver, Connection.heard]
  have hconn : p.conn.map (Connection.deliver []) = p.conn := by
    cases p.conn with
    | none => rfl
    | some k => exact congrArg some (hsame k)
  rw [Process.deliver, hconn]

theorem deliver_work (ns : List Notification) (p : Process) :
    processWork (p.deliver ns) ≤ processWork p + 3 * ns.length := by
  have hheard : ∀ k : Connection, (k.heard ns).length ≤ ns.length :=
    fun k => List.length_filter_le _ _
  unfold processWork
  rw [deliver_conn]
  cases p.conn with
  | none =>
    show 2 + listenChannels.length + p.started.length ≤
      2 + listenChannels.length + p.started.length + 3 * ns.length
    omega
  | some k =>
    have hk := hheard k
    show connWork (k.deliver ns) + p.started.length ≤ connWork k + p.started.length + 3 * ns.length
    cases k <;> simp only [Connection.deliver, connWork, List.length_append] <;> omega

end

section
variable {ι : Type} [DecidableEq ι] [Fintype ι] {text : PlainText} {s : ι → Process}

theorem sum_le_of_one {f g : ι → ℕ} (r : ι) (hr : f r ≤ g r) (hother : ∀ o, o ≠ r → f o = g o) :
    ∑ o, f o ≤ ∑ o, g o := by
  refine Finset.sum_le_sum fun o _ => ?_
  by_cases ho : o = r
  · exact ho ▸ hr
  · exact (hother o ho).le

theorem sum_lt_of_one {f g : ι → ℕ} (r : ι) (hr : f r < g r) (hother : ∀ o, o ≠ r → f o = g o) :
    ∑ o, f o < ∑ o, g o := by
  refine Finset.sum_lt_sum (fun o _ => ?_) ⟨r, Finset.mem_univ r, hr⟩
  by_cases ho : o = r
  · exact ho ▸ hr.le
  · exact (hother o ho).le

theorem weighted_lt {w w' k k' r r' : ℕ} (hw : w' < w) (hk : k' ≤ k) (hr : r' ≤ r + k) :
    w' * (k' + 1) + r' < w * (k + 1) + r := by
  have hmul : (w' + 1) * (k + 1) ≤ w * (k + 1) := Nat.mul_le_mul_right _ hw
  have hmono : w' * (k' + 1) ≤ w' * (k + 1) := Nat.mul_le_mul_left _ (Nat.succ_le_succ hk)
  have hexpand : (w' + 1) * (k + 1) = w' * (k + 1) + (k + 1) := Nat.succ_mul _ _
  omega

def queuesWork (s : ι → Process) : ℕ := ∑ q, queueWork (s q).queue

def queuesHeld (s : ι → Process) : ℕ := ∑ q, held (s q).queue

/-- Every round that is still to be sent may give every process three steps for
each of its notifications. -/
def work (s : ι → Process) : ℕ :=
  queuesWork s * (3 * (Fintype.card ι * queuesHeld s) + 1) + ∑ q, processWork (s q)

theorem system_works (s : ι → Process) (e : ι × Step) (he : carriesOn e.2 = true) :
    after text s e = s ∨ work (after text s e) < work s := by
  obtain ⟨r, e⟩ := e
  have hother : ∀ o, o ≠ r → after text s (r, e) o = (s o).deliver ((s r).sent text e) := by
    intro o ho
    rw [after, Function.update_of_ne ho]
  have hself : after text s (r, e) r = ((s r).after text e).deliver ((s r).sent text e) := by
    rw [after, Function.update_self]
  rcases process_works text (s r) e he with ⟨hsame, hsent⟩ |
      ⟨hless, hheld, hwork, hsent⟩ | ⟨hqueue, hless, hsent⟩
  · left
    funext o
    by_cases ho : o = r
    · subst ho
      rw [hself, hsame, hsent, deliver_nil]
    · rw [hother o ho, hsent, deliver_nil]
  · right
    have hqueue : ∀ o, o ≠ r → (after text s (r, e) o).queue = (s o).queue := by
      intro o ho
      rw [hother o ho]
      rfl
    have hfewer : queuesWork (after text s (r, e)) < queuesWork s := by
      refine sum_lt_of_one r ?_ fun o ho => by rw [hqueue o ho]
      rw [hself]
      exact hless
    have hkept : queuesHeld (after text s (r, e)) ≤ queuesHeld s := by
      refine sum_le_of_one r ?_ fun o ho => by rw [hqueue o ho]
      rw [hself]
      exact hheld
    have hheldAll : held (s r).queue ≤ queuesHeld s :=
      Finset.single_le_sum (f := fun q => held (s q).queue) (fun _ _ => Nat.zero_le _)
        (Finset.mem_univ r)
    have hrest : ∀ o,
        processWork (after text s (r, e) o) ≤ processWork (s o) + 3 * queuesHeld s := by
      intro o
      have hlength : ((s r).sent text e).length ≤ queuesHeld s := hsent.trans hheldAll
      by_cases ho : o = r
      · subst ho
        rw [hself]
        have hdeliver := deliver_work ((s o).sent text e) ((s o).after text e)
        omega
      · rw [hother o ho]
        have hdeliver := deliver_work ((s r).sent text e) (s o)
        omega
    have hsum : ∑ o, processWork (after text s (r, e) o) ≤
        ∑ o, processWork (s o) + 3 * (Fintype.card ι * queuesHeld s) := by
      calc ∑ o, processWork (after text s (r, e) o) ≤ ∑ o, (processWork (s o) + 3 * queuesHeld s) :=
            Finset.sum_le_sum fun o _ => hrest o
        _ = ∑ o, processWork (s o) + 3 * (Fintype.card ι * queuesHeld s) := by
            rw [Finset.sum_add_distrib, Finset.sum_const, Finset.card_univ, smul_eq_mul,
              Nat.mul_left_comm]
    exact weighted_lt hfewer (Nat.mul_le_mul_left _ (Nat.mul_le_mul_left _ hkept)) hsum
  · right
    have hqueues : ∀ o, (after text s (r, e) o).queue = (s o).queue := by
      intro o
      by_cases ho : o = r
      · subst ho
        rw [hself]
        exact hqueue
      · rw [hother o ho]
        rfl
    have hfewer : ∑ o, processWork (after text s (r, e) o) < ∑ o, processWork (s o) := by
      refine sum_lt_of_one r ?_ fun o ho => ?_
      · rw [hself, hsent, deliver_nil]
        exact hless
      · rw [hother o ho, hsent, deliver_nil]
    simp only [work, queuesWork, queuesHeld, hqueues]
    exact Nat.add_lt_add_left hfewer _

end

section
variable {ι : Type} [DecidableEq ι] {text : PlainText} {s : ι → Process}

def Active (s : ι → Process) (e : ι × Step) (s' : ι → Process) : Prop :=
  carriesOn e.2 = true ∧ s' ≠ s

theorem after_ne_of_queue {q : ι} {e : Step} (h : ((s q).after text e).queue ≠ (s q).queue) :
    after text s (q, e) ≠ s := by
  intro heq
  have hq := congrArg Process.queue (congrFun heq q)
  rw [after, Function.update_self] at hq
  exact h hq

theorem after_ne_of_quiet {q : ι} {e : Step} (h : (s q).after text e ≠ s q)
    (hsent : (s q).sent text e = []) : after text s (q, e) ≠ s := by
  intro heq
  have hq := congrFun heq q
  rw [after, Function.update_self, hsent, deliver_nil] at hq
  exact h hq

variable (text) in
theorem queue_goes_on {st : State} (h : ¬ Drained st) :
    ∃ e, enqueues e = false ∧ st.after text e ≠ st := by
  by_cases hsending : st.phase = .sending
  · obtain ⟨ps, ts, ss, hsends⟩ := exists_sends hsending
    refine ⟨.send ps ts ss, rfl, fun heq => ?_⟩
    have hphase := congrArg State.phase heq
    simp [State.after, hsends, hsending] at hphase
  · cases hpub : st.pubNotifies with
    | cons p rest =>
      refine ⟨.takePub, rfl, fun heq => ?_⟩
      have hrest := congrArg State.pubNotifies heq
      simp [State.after, hpub, hsending] at hrest
    | nil =>
      cases htopic : st.topicNotifies with
      | cons t rest =>
        refine ⟨.takeTopic, rfl, fun heq => ?_⟩
        have hrest := congrArg State.topicNotifies heq
        simp [State.after, htopic, hsending] at hrest
      | nil =>
        cases hsub : st.subNotifies with
        | cons k rest =>
          refine ⟨.takeSub, rfl, fun heq => ?_⟩
          have hrest := congrArg State.subNotifies heq
          simp [State.after, hsub, hsending] at hrest
        | nil =>
          have hdraining : st.phase = .draining := by
            cases hphase : st.phase with
            | waiting => exact absurd ⟨by simp [onChannels, hpub, htopic, hsub], hphase⟩ h
            | draining => rfl
            | sending => exact absurd hphase hsending
          refine ⟨.drained, rfl, fun heq => ?_⟩
          have hphase := congrArg State.phase heq
          simp [State.after, hpub, htopic, hsub, hdraining] at hphase

variable (text) in
theorem process_goes_on {q : ι} (h : ¬ Quiet (s q)) :
    ∃ e, Active s (q, e) (after text s (q, e)) := by
  by_cases hqueue : Drained (s q).queue
  · cases hconn : (s q).conn with
    | none =>
      refine ⟨.connect, rfl, after_ne_of_quiet (fun heq => ?_) rfl⟩
      have hnew := congrArg Process.conn heq
      simp [Process.after, hconn] at hnew
    | some k =>
      cases k with
      | listening n received =>
        by_cases hlt : n < listenChannels.length
        · refine ⟨.listen, rfl, after_ne_of_quiet (fun heq => ?_) rfl⟩
          have hnew := congrArg Process.conn heq
          simp [Process.after, hconn, hlt] at hnew
        · refine ⟨.wakeAll, rfl, after_ne_of_quiet (fun heq => ?_) rfl⟩
          have hnew := congrArg Process.conn heq
          simp [Process.after, hconn, hlt] at hnew
      | awake received =>
        cases received with
        | cons n rest =>
          refine ⟨.receive, rfl, after_ne_of_quiet (fun heq => ?_) rfl⟩
          have hnew := congrArg Process.conn heq
          simp [Process.after, hconn] at hnew
        | nil =>
          cases hstarted : (s q).started with
          | nil => exact absurd ⟨hqueue, hconn, hstarted⟩ h
          | cons e rest =>
            refine ⟨.wake 0, rfl, after_ne_of_quiet (fun heq => ?_) rfl⟩
            have hnew := congrArg Process.started heq
            simp [Process.after, hstarted] at hnew
  · obtain ⟨e, hloop, hne⟩ := queue_goes_on text hqueue
    refine ⟨.relay e, rfl, after_ne_of_queue fun heq => hne ?_⟩
    simpa [Process.after, hloop] using heq

end

/-- What has been begun comes to an end: there is a bound on the steps that
carry it on, in whatever order they are taken, and as long as some process is
not quiet there is such a step. In particular no notification leads to another. -/
theorem comes_to_rest {ι : Type} [DecidableEq ι] [Fintype ι] (text : PlainText)
    (before : List (ι × Step)) :
    ∃ bound, ∀ es, Throughout (after text) Active (run text before) es →
      es.length ≤ bound ∧
      ((∀ q, Quiet (run text (before ++ es) q)) ∨
        ∃ e, Active (run text (before ++ es)) e (after text (run text (before ++ es)) e)) := by
  refine ⟨work (run text before), fun es hes => ⟨?_, ?_⟩⟩
  · have hless : ∀ (s : ι → Process) es, Throughout (after text) Active s es →
        Throughout (after text) (fun s _ s' => work s' < work s) s es := by
      intro s es
      induction es generalizing s with
      | nil => exact fun h => h
      | cons e es ih =>
        exact fun h => ⟨(system_works s e h.1.1).resolve_left h.1.2, ih _ h.2⟩
    exact le_of_add_le_left (length_le (hless _ es hes))
  · by_cases hquiet : ∀ q, Quiet (run text (before ++ es) q)
    · exact Or.inl hquiet
    · rw [not_forall] at hquiet
      obtain ⟨q, hq⟩ := hquiet
      obtain ⟨e, he⟩ := process_goes_on text hq
      exact Or.inr ⟨(q, e), he⟩

end Mmmbbb.Resting
