import Mmmbbb.Leases

/-!
# Renewed in time

Each step of a stream in time keeps what the database owes it covered. So at
every instant between two ticks no delivery is due that the client still
holds. What has been completed in the meantime is renewed in the window all
the same, and not in the database.
-/

set_option autoImplicit false

namespace Mmmbbb.Renewals
open KeyedRows WaitSets Windows Programs Mmmbbb.Schema Mmmbbb.Database Mmmbbb.Delivering
open Mmmbbb.Consuming Mmmbbb.Runs Mmmbbb.Streaming Mmmbbb.Onwards Mmmbbb.Leases

section
variable {ms : MessageStreamer} {b : Backoffs} {c c' : Timed} {st st' : State} {s : Step}

theorem budgeted_sender (ms : MessageStreamer) (st : State) (anyPending : Bool) : ∃ sender,
    st.budgeted ms anyPending = { st with sender := sender } ∧ sender.results = [] ∧
      ∀ p, Leases.Sender.params sender = some p → p.id = some ms.subscriptionID := by
  obtain ⟨sender, heq, hsender⟩ := budgeted_only ms st anyPending
  refine ⟨sender, heq, ?_⟩
  rcases hsender with ⟨pending, rfl⟩ | ⟨curFc, pending, rfl⟩
  · exact ⟨rfl, fun p hp => by cases hp⟩
  · refine ⟨rfl, fun p hp => ?_⟩
    cases hp
    rfl

theorem afterRemove_request {msg r : MessageStreamRequest}
    (h : Leases.Reader.request (afterRemove msg) = some r) : r = msg := by
  unfold afterRemove at h
  split at h
  · cases h
  · exact (Option.some.inj h).symm

theorem afterReceive_request {msg r : MessageStreamRequest}
    (h : Leases.Reader.request (afterReceive msg) = some r) : r = msg := by
  unfold afterReceive at h
  split at h
  · exact afterRemove_request h
  · exact (Option.some.inj h).symm

theorem request_next (h : Next ms st s st') (hs : Permitted s)
    (hr : ∀ msg, Leases.Reader.request st.reader = some msg → Clean msg) :
    ∀ msg, Leases.Reader.request st'.reader = some msg → Clean msg := by
  cases h with
  | @receive msg =>
    intro r hreq
    obtain ⟨fc, wakeSend, heq⟩ := received_only st msg
    rw [heq] at hreq
    exact afterReceive_request hreq ▸ hs
  | @settle _ _ msg _ _ hreader =>
    intro r hreq
    obtain rfl := Option.some.inj hreq
    exact hr msg (by rw [hreader]; rfl)
  | @remove msg _ hreader =>
    intro r hreq
    exact afterRemove_request hreq ▸ hr msg (by rw [hreader]; rfl)
  | delay =>
    intro r hreq
    cases hreq
  | delayDone =>
    intro r hreq
    cases hreq
  | @budget anyPending =>
    obtain ⟨sender, heq, -⟩ := budgeted_sender ms st anyPending
    rw [heq]
    exact hr
  | @commit e _ tx =>
    obtain ⟨owed, heq⟩ := nackedBy_only (st.committed tx) e.action
    rw [heq]
    exact hr
  | _ => exact hr

theorem params_next (h : Next ms st s st')
    (hp : ∀ p, Leases.Sender.params st.sender = some p → p.id = some ms.subscriptionID) :
    ∀ p, Leases.Sender.params st'.sender = some p → p.id = some ms.subscriptionID := by
  cases h with
  | @receive msg =>
    obtain ⟨fc, wakeSend, heq⟩ := received_only st msg
    rw [heq]
    exact hp
  | @delay _ msg tx =>
    obtain ⟨owed, heq⟩ := delayed_only (st.committed tx) ⟨msg.delay, msg.delayFor⟩
    rw [heq]
    exact hp
  | @budget anyPending =>
    obtain ⟨sender, heq, -, hsender⟩ := budgeted_sender ms st anyPending
    rw [heq]
    exact hsender
  | @touch _ p _ hs =>
    intro q hq
    obtain rfl := Option.some.inj hq
    exact hp p (by rw [hs]; rfl)
  | @commit e _ tx =>
    obtain ⟨owed, heq⟩ := nackedBy_only (st.committed tx) e.action
    rw [heq]
    exact hp
  | @insert results =>
    intro q hq
    unfold State.inserted at hq
    dsimp only at hq
    split at hq <;> cases hq
  | senderStart | wokenBySend | wokenByNotify | query | giveUp | send =>
    intro q hq
    cases hq
  | _ => exact hp

theorem autoDelay_next (h : Next ms st s st') : st'.autoDelay = st.autoDelay ∨ s = .loadDelay ∨
    (∃ now, s = .tick now) ∨ (∃ env, s = .autoDelay env) ∨ s = .renew := by
  cases h with
  | @receive msg =>
    obtain ⟨fc, wakeSend, heq⟩ := received_only st msg
    exact Or.inl (by rw [heq])
  | @delay _ msg tx =>
    obtain ⟨owed, heq⟩ := delayed_only (st.committed tx) ⟨msg.delay, msg.delayFor⟩
    exact Or.inl (by rw [heq]; rfl)
  | @budget anyPending =>
    obtain ⟨sender, heq, -⟩ := budgeted_sender ms st anyPending
    exact Or.inl (by rw [heq])
  | @commit e _ tx =>
    obtain ⟨owed, heq⟩ := nackedBy_only (st.committed tx) e.action
    exact Or.inl (by rw [heq]; rfl)
  | loadDelay => exact Or.inr (Or.inl rfl)
  | tickNone => exact Or.inr (Or.inr (Or.inl ⟨_, rfl⟩))
  | tick => exact Or.inr (Or.inr (Or.inl ⟨_, rfl⟩))
  | autoDelay => exact Or.inr (Or.inr (Or.inr (Or.inl ⟨_, rfl⟩)))
  | renew => exact Or.inr (Or.inr (Or.inr (Or.inr rfl)))
  | _ => exact Or.inl rfl

theorem took_eq (hl : s ≠ .loadDelay) (ht : ∀ now, s ≠ .tick now) :
    c.took s st = ⟨st, c.clock, c.ticked, c.next⟩ := by
  unfold Timed.took
  cases s with
  | loadDelay => exact absurd rfl hl
  | tick now => exact absurd rfl (ht now)
  | _ => rfl

theorem ticking_same (h : Ticking b c) (ha : st.autoDelay = c.stream.autoDelay) :
    Ticking b ⟨st, c.clock, c.ticked, c.next⟩ := by
  unfold Ticking at h ⊢
  dsimp only
  rw [ha]
  exact h

theorem loadDelay_some (h : step ms c.stream .loadDelay = some st) :
    c.stream.autoDelay = .starting ∧
      ∃ sub ∈ c.stream.db.subscriptions, sub.id = ms.subscriptionID ∧
        st = { c.stream with autoDelay := .ticking (delayAmounts sub).1 (delayAmounts sub).2 } := by
  simp only [step] at h
  split at h
  · rename_i sub ha hs
    obtain ⟨hmem, hid⟩ := fetch_mem hs
    split at h
    · cases h
    · exact ⟨ha, sub, hmem, hid, (Option.some.inj h).symm⟩
  · cases h

theorem tick_some {now : Time} (h : step ms c.stream (.tick now) = some st) :
    ∃ d i, c.stream.autoDelay = .ticking d i ∧
      (dueIDs (now + i) c.stream.pending = [] ∧ st = c.stream ∨
        st = { c.stream with
          autoDelay := .delaying d i (dueIDs (now + i) c.stream.pending) now }) := by
  simp only [step] at h
  split at h
  · rename_i d i ha
    split at h
    · rename_i hnone
      exact ⟨d, i, ha, Or.inl ⟨hnone, (Option.some.inj h).symm⟩⟩
    · exact ⟨d, i, ha, Or.inr (Option.some.inj h).symm⟩
  · cases h

theorem ticking_took (hb : Proper b) (hf : Fixed ms b c.stream.db) (ht : Ticking b c)
    (h : step ms c.stream s = some st) (hat : At c.clock s) : Ticking b (c.took s st) := by
  by_cases hl : s = .loadDelay
  · subst hl
    obtain ⟨ha, sub, hmem, hid, rfl⟩ := loadDelay_some h
    unfold Ticking at ht
    rw [ha] at ht
    refine ⟨delayAmounts_bounded hb (hf sub hmem hid), fun t htick => ?_⟩
    exact absurd (ht.symm.trans htick) (by simp)
  · by_cases htick : ∃ now, s = .tick now
    · obtain ⟨now, rfl⟩ := htick
      obtain rfl : now = c.clock := hat
      obtain ⟨d, i, ha, hst⟩ := tick_some h
      unfold Ticking at ht
      rw [ha] at ht
      cases hst with
      | inl hnone =>
        obtain ⟨-, rfl⟩ := hnone
        unfold Ticking Timed.took
        dsimp only
        rw [ha]
        refine ⟨ht.1, fun t htick => ?_⟩
        obtain rfl := Option.some.inj htick
        exact ⟨le_refl _, rfl⟩
      | inr hdue =>
        subst hdue
        exact ⟨ht.1, rfl, rfl, rfl⟩
    · rw [took_eq hl (fun now hnow => htick ⟨now, hnow⟩)]
      have hnext := step_next h
      by_cases hsame : st.autoDelay = c.stream.autoDelay
      · exact ticking_same ht hsame
      · unfold Ticking at ht
        rcases (autoDelay_next hnext).resolve_left hsame with hs | hs | hs | hs
        · exact absurd hs hl
        · exact absurd hs htick
        · obtain ⟨env, rfl⟩ := hs
          cases hnext with
          | autoDelay ha =>
            rw [ha] at ht
            exact ht
        · subst hs
          cases hnext with
          | renew ha =>
            rw [ha] at ht
            refine ⟨ht.1, fun t htick => ?_⟩
            obtain rfl := Option.some.inj (htick.symm.trans ht.2.2.1)
            exact ⟨ht.2.1.le, ht.2.2.2⟩

theorem less_stream (hp : st.pending = c.stream.pending)
    (hs : st.sender = c.stream.sender ∨ st.sender.results = [])
    (hr : st.refresher = c.stream.refresher ∨ Leases.Refresher.rows st.refresher = [])
    (ha : st.autoDelay = c.stream.autoDelay) : Less c ⟨st, c.clock, c.ticked, c.next⟩ where
  pending := fun id pm hl => hp ▸ hl
  results := by
    intro x hx
    cases hs with
    | inl hsame => exact hsame ▸ hx
    | inr hnone =>
      rw [hnone] at hx
      cases hx
  rows := by
    intro r hrow
    cases hr with
    | inl hsame => exact hsame ▸ hrow
    | inr hnone =>
      rw [hnone] at hrow
      cases hrow
  autoDelay := ha
  clock := rfl
  ticked := rfl

theorem covered_next (hb : Proper b) (hc : Covered b c) (hshape : Shape ms b c)
    (h : Next ms c.stream s st) (hl : s ≠ .loadDelay) (ht : ∀ now, s ≠ .tick now)
    (hat : At c.clock s) (hperm : Permitted s) (hf : Fresh c.stream st) :
    Covered b ⟨st, c.clock, c.ticked, c.next⟩ := by
  have hticking := hshape.ticking
  cases h with
  | @receive msg =>
    obtain ⟨fc, wakeSend, heq⟩ := received_only c.stream msg
    rw [heq]
    exact hc.less (less_stream rfl (Or.inl rfl) (Or.inl rfl) rfl) rfl
  | @settle _ _ msg _ tx hreader hok hu =>
    obtain ⟨hnack, -⟩ := hshape.request msg (by rw [hreader]; rfl)
    exact hc.commit (less_stream rfl (Or.inl rfl) (Or.inl rfl) rfl) (settle_onward hnack hok) hu
      rfl hf
  | remove =>
    refine hc.less ⟨fun id pm hl => ?_, fun _ hx => hx, fun _ hr => hr, rfl, rfl, rfl⟩ rfl
    exact lookup_eraseAll (lookup_eraseAll hl)
  | @delay env msg tx hreader hok hu =>
    obtain ⟨-, hpos⟩ := hshape.request msg (by rw [hreader]; rfl)
    obtain ⟨owed, heq⟩ := delayed_only (c.stream.committed tx) ⟨msg.delay, msg.delayFor⟩
    rw [heq] at hf ⊢
    exact hc.commit (less_stream rfl (Or.inl rfl) (Or.inl rfl) rfl) (hok ▸ delays_onward hpos) hu
      rfl hf
  | delayDone => exact hc.less (less_stream rfl (Or.inl rfl) (Or.inl rfl) rfl) rfl
  | senderStart => exact hc.less (less_stream rfl (Or.inr rfl) (Or.inl rfl) rfl) rfl
  | @budget anyPending =>
    obtain ⟨sender, heq, hnone, -⟩ := budgeted_sender ms c.stream anyPending
    rw [heq]
    exact hc.less (less_stream rfl (Or.inr hnone) (Or.inl rfl) rfl) rfl
  | wokenBySend => exact hc.less (less_stream rfl (Or.inr rfl) (Or.inl rfl) rfl) rfl
  | wokenByNotify => exact hc.less (less_stream rfl (Or.inr rfl) (Or.inl rfl) rfl) rfl
  | touch _ hok hu =>
    exact hc.commit (less_stream rfl (Or.inr rfl) (Or.inl rfl) rfl) (touch_onward hok) hu rfl hf
  | park => exact hc
  | @query env p res tx hsender hok hu =>
    obtain ⟨honward, sub, hsub, hgiven⟩ := get_onward hok
    have hbefore : Covered b ⟨c.stream.committed tx, c.clock, c.ticked, c.next⟩ :=
      hc.commit (less_stream rfl (Or.inl rfl) (Or.inl rfl) rfl) honward hu rfl hf
    have hparams := hshape.params p (by rw [hsender]; rfl)
    have hbackoffs := verifySub_backoffs hshape.fixed hparams hsub
    refine covered_fetched hbefore (fun x hx => ?_)
    have hlead := handedOut_lead hb hbackoffs (hgiven x hx)
    rwa [show env.now = c.clock from hat] at hlead
  | giveUp _ hok hu =>
    obtain ⟨honward, hnone⟩ := giveUp_onward hok
    exact hc.commit (less_stream rfl (Or.inr hnone) (Or.inl rfl) rfl) honward hu rfl hf
  | insert hs => exact covered_insert hc hticking hs
  | send => exact hc.less (less_stream rfl (Or.inr rfl) (Or.inl rfl) rfl) rfl
  | refresherStart => exact hc.less (less_stream rfl (Or.inl rfl) (Or.inr rfl) rfl) rfl
  | wokenToRefresh => exact hc.less (less_stream rfl (Or.inl rfl) (Or.inr rfl) rfl) rfl
  | awaitAgain => exact hc.less (less_stream rfl (Or.inl rfl) (Or.inr rfl) rfl) rfl
  | readNone => exact hc.less (less_stream rfl (Or.inl rfl) (Or.inr rfl) rfl) rfl
  | readIDs => exact hc.less (less_stream rfl (Or.inl rfl) (Or.inr rfl) rfl) rfl
  | refreshQuery => exact covered_read hc _ _ _
  | drop hr => exact covered_drop hc hr
  | loadDelay => exact absurd rfl hl
  | tickNone => exact absurd rfl (ht _)
  | tick => exact absurd rfl (ht _)
  | @autoDelay env d i ids now tx ha hok hu =>
    unfold Ticking at hticking
    rw [ha] at hticking
    obtain ⟨hbounded, rfl, -⟩ := hticking
    have honward : Onward c.stream.db tx.db := hok ▸ onward_delay hbounded.pos
    have hbefore : Covered b ⟨c.stream.committed tx, c.clock, c.ticked, c.next⟩ :=
      hc.commit (less_stream rfl (Or.inl rfl) (Or.inl rfl) rfl) honward hu rfl hf
    refine covered_autoDelay hbefore ha hbounded.delay (fun id hid => ?_)
    have hlead := delay_lead env (p := ⟨ids, d⟩) (Tx.begin c.stream.db) hid
    rwa [hok, show env.now = c.clock from hat] at hlead
  | renew ha =>
    unfold Ticking at hticking
    rw [ha] at hticking
    exact covered_renew hc ha hticking.2.2.1
  | @commit e _ tx hok hu =>
    obtain ⟨owed, heq⟩ := nackedBy_only (c.stream.committed tx) e.action
    rw [heq] at hf ⊢
    exact hc.commit (less_stream rfl (Or.inl rfl) (Or.inl rfl) rfl) (exec_onward hperm hok) hu rfl
      hf
  | hook => exact hc.less (less_stream rfl (Or.inl rfl) (Or.inl rfl) rfl) rfl
  | notice => exact hc.less (less_stream rfl (Or.inl rfl) (Or.inl rfl) rfl) rfl
  | other => exact hc.less (less_stream rfl (Or.inl rfl) (Or.inl rfl) rfl) rfl

theorem tick_covered {now : Time} (hc : Covered b c)
    (h : step ms c.stream (.tick now) = some st) (hat : At c.clock (.tick now)) :
    Covered b (c.took (.tick now) st) := by
  obtain rfl : now = c.clock := hat
  obtain ⟨d, i, ha, hst⟩ := tick_some h
  cases hst with
  | inl hnone =>
    obtain ⟨hnone, rfl⟩ := hnone
    exact covered_tickNone hc ha hnone
  | inr hdue =>
    subst hdue
    exact covered_tick hc d i _ _

theorem covered_took (hb : Proper b) (hc : Covered b c) (hshape : Shape ms b c)
    (h : step ms c.stream s = some st) (hat : At c.clock s) (hperm : Permitted s)
    (hf : Fresh c.stream st) : Covered b (c.took s st) := by
  by_cases hl : s = .loadDelay
  · subst hl
    obtain ⟨ha, sub, -, -, rfl⟩ := loadDelay_some h
    have hnone := hshape.ticking
    unfold Ticking at hnone
    rw [ha] at hnone
    exact covered_load hc hnone _ _ _
  · by_cases htick : ∃ now, s = .tick now
    · obtain ⟨now, rfl⟩ := htick
      exact tick_covered hc h hat
    · have ht : ∀ now, s ≠ .tick now := fun now hnow => htick ⟨now, hnow⟩
      rw [took_eq hl ht]
      exact covered_next hb hc hshape (step_next h) hl ht hat hperm hf

theorem shape_took (hb : Proper b) (hshape : Shape ms b c)
    (h : step ms c.stream s = some st) (hat : At c.clock s) (hperm : Permitted s)
    (hfixed : Fixed ms b st.db) : Shape ms b (c.took s st) where
  fixed := hfixed
  request := request_next (step_next h) hperm hshape.request
  params := params_next (step_next h) hshape.params
  ticking := ticking_took hb hshape.fixed hshape.ticking h hat

theorem shape_pass (hshape : Shape ms b c) (hidle : Idle c.stream) {now : Time}
    (hle : c.clock ≤ now) : Shape ms b { c with clock := now } where
  fixed := hshape.fixed
  request := hshape.request
  params := hshape.params
  ticking := by
    obtain ⟨-, htimer⟩ := hidle
    have ht := hshape.ticking
    unfold Ticking at ht ⊢
    dsimp only
    cases ha : c.stream.autoDelay with
    | starting =>
      rw [ha] at ht
      exact ht
    | ticking d i =>
      rw [ha] at ht
      refine ⟨ht.1, fun t htick => ?_⟩
      obtain ⟨hbefore, hnext⟩ := ht.2 t htick
      exact ⟨hbefore.trans hle, hnext⟩
    | delaying d i ids t =>
      rw [ha] at htimer
      exact htimer.elim
    | delayed d i ids t k =>
      rw [ha] at htimer
      exact htimer.elim

theorem step_some {e : Happening} (h : c.step ms b e = some c') :
    (∃ now, c.clock ≤ now ∧ Idle c.stream ∧ c' = { c with clock := now }) ∨
      ∃ s st, step ms c.stream s = some st ∧ At c.clock s ∧ Permitted s ∧ Fresh c.stream st ∧
        Fixed ms b st.db ∧ c' = c.took s st := by
  cases e with
  | pass now =>
    simp only [Timed.step] at h
    split at h
    · rename_i hok
      exact Or.inl ⟨now, hok.1, hok.2.1, (Option.some.inj h).symm⟩
    · cases h
  | take s =>
    simp only [Timed.step] at h
    split at h
    · cases h
    · rename_i st hst
      split at h
      · rename_i hok
        obtain ⟨hat, hperm, -, hf, hfixed⟩ := hok
        exact Or.inr ⟨s, st, hst, hat, hperm, hf, hfixed, (Option.some.inj h).symm⟩
      · cases h

theorem step_covered {e : Happening} (hb : Proper b) (h : c.step ms b e = some c')
    (hi : Covered b c ∧ Shape ms b c) : Covered b c' ∧ Shape ms b c' := by
  obtain ⟨hc, hshape⟩ := hi
  rcases step_some h with hpass | htake
  · obtain ⟨now, hle, hidle, rfl⟩ := hpass
    exact ⟨covered_pass hc hidle now, shape_pass hshape hidle hle⟩
  · obtain ⟨s, st, hst, hat, hperm, hf, hfixed, rfl⟩ := htake
    exact ⟨covered_took hb hc hshape hst hat hperm hf, shape_took hb hshape hst hat hperm hfixed⟩

theorem init_covered (h : (timed ms b).init c) : Covered b c ∧ Shape ms b c := by
  obtain ⟨⟨-, -, -, -, hpending, hreader, hsender, -, hrefresher, hauto, -⟩, hfixed, hticked, -⟩ := h
  constructor
  · refine covered_of (fun id pm hl => ?_) (fun x hx => ?_) (fun r hr => ?_) ?_
    · rw [hpending] at hl
      cases hl
    · rw [hsender] at hx
      cases hx
    · rw [hrefresher] at hr
      cases hr
    · unfold Kept
      rw [hauto]
      trivial
  · refine ⟨hfixed, fun msg hmsg => ?_, fun p hp => ?_, ?_⟩
    · rw [hreader] at hmsg
      cases hmsg
    · rw [hsender] at hp
      cases hp
    · unfold Ticking
      rw [hauto]
      exact hticked

theorem reachable_covered (hb : Proper b) (h : (timed ms b).Reachable c) :
    Covered b c ∧ Shape ms b c :=
  h.invariant (fun _ => init_covered) (fun _ _ _ hi hstep => step_covered hb hstep hi)

/-- What is pending and open is not due before the next tick, and the window
knows of no later attempt than the database. -/
theorem leases_kept (hb : Proper b) (h : (timed ms b).Reachable c) {id : UUID}
    {pm : PendingMessage} {d : Delivery} (hl : c.stream.pending.lookup id = some pm)
    (hd : d ∈ c.stream.db.deliveries) (hid : d.id = id) (hopen : d.completedAt = none) :
    pm.nextAttemptAt ≤ d.attemptAt ∧
      ∀ t n, c.ticked = some t → c.next = some n → t < c.clock → c.clock < n →
        c.clock < d.attemptAt := by
  obtain ⟨hc, hshape⟩ := reachable_covered hb h
  refine ⟨hc.window id pm hl d hd hid hopen, fun t n htick hnext hafter hbefore => ?_⟩
  have hticking := hshape.ticking
  have hkept := hc.kept
  have hmem : id ∈ c.stream.pending := AList.lookup_isSome.mp (by simp [hl])
  unfold Ticking at hticking
  unfold Kept at hkept
  cases ha : c.stream.autoDelay with
  | starting =>
    rw [ha, htick] at hticking
    cases hticking
  | ticking delayAmount checkInterval =>
    rw [ha] at hticking hkept
    have hn := (hticking.2 t htick).2
    obtain rfl := Option.some.inj (hnext.symm.trans hn)
    exact hbefore.trans_le (hkept t htick id hmem d hd hid hopen)
  | delaying delayAmount checkInterval ids now =>
    rw [ha] at hticking
    obtain ⟨-, hnow, hthen, -⟩ := hticking
    obtain rfl := Option.some.inj (htick.symm.trans hthen)
    exact absurd hnow hafter.ne
  | delayed delayAmount checkInterval ids now k =>
    rw [ha] at hticking
    obtain ⟨-, hnow, hthen, -⟩ := hticking
    obtain rfl := Option.some.inj (htick.symm.trans hthen)
    exact absurd hnow hafter.ne

end

def runs (ms : MessageStreamer) (b : Backoffs) (c : Timed) (hs : List Happening) : Option Timed :=
  hs.foldlM (Timed.step ms b) c

theorem runs_reachable {ms : MessageStreamer} {b : Backoffs} {hs : List Happening} {c c' : Timed}
    (h : (timed ms b).Reachable c) (hrun : runs ms b c hs = some c') :
    (timed ms b).Reachable c' :=
  h.foldlM (fun _ _ _ hstep => hstep) hrun

def holder : MessageStreamer := ⟨20, "worker", false⟩

def unset : Backoffs := (none, none)

def begun : Timed := ⟨opened workerDB, 5, none, none⟩

theorem begun_init : (timed holder unset).init begun :=
  ⟨opened_init _, by decide, rfl, rfl⟩

def holding : List Happening := [
  .take .refresherStart, .take .senderStart, .take .loadDelay,
  .take (.receive ⟨some ⟨2, 100⟩, [], [], [], 0⟩), .take .budget, .take (.touch (.plain 5 50)),
  .take (.query (.plain 5 60)), .take .insert, .take .send,
  .pass 4500000005, .take (.tick 4500000005), .pass 9000000005]

def delaying : List Happening := [
  .take (.tick 9000000005), .take (.autoDelay (.plain 9000000005 70)), .take .renew]

theorem held_runs :
    (runs holder unset begun (holding ++ delaying ++ [.pass 11000000005])).isSome := by
  decide +kernel

def heldState : Timed :=
  (runs holder unset begun (holding ++ delaying ++ [.pass 11000000005])).get held_runs

theorem heldState_rows : 0 < heldState.stream.db.deliveries.length := by decide +kernel

def heldDelivery : Delivery := heldState.stream.db.deliveries.get ⟨0, heldState_rows⟩

theorem leases_kept_held : 14000000005 ≤ heldDelivery.attemptAt ∧
    heldState.clock < heldDelivery.attemptAt := by
  have hreach : (timed holder unset).Reachable heldState :=
    runs_reachable (.start begun_init) (Option.some_get held_runs).symm
  have hl : heldState.stream.pending.lookup 31 = some ⟨3, 14000000005⟩ := by decide +kernel
  have hkept := leases_kept (d := heldDelivery) (Or.inl rfl) hreach hl (List.get_mem _ _)
    (by decide +kernel) (by decide +kernel)
  exact ⟨hkept.1, hkept.2 9000000005 13500000005 (by decide +kernel) (by decide +kernel)
    (by decide +kernel) (by decide +kernel)⟩

def acking : List Happening := [
  .take (.receive ⟨none, [31], [], [], 0⟩),
  .take (.settle (.plain 9000000005 70) (.plain 9000000005 70))]

theorem acked_runs : (runs holder unset begun (holding ++ acking ++ delaying)).isSome := by
  decide +kernel

def ackedState : Timed := (runs holder unset begun (holding ++ acking ++ delaying)).get acked_runs

/-- The window renews what was delayed, and the database has let be what is
completed. -/
theorem copy_overtakes : Proper unset ∧ (timed holder unset).Reachable ackedState ∧
    ackedState.stream.pending.lookup 31 = some ⟨3, 14000000005⟩ ∧
      ∃ d ∈ ackedState.stream.db.deliveries, d.id = 31 ∧ d.attemptAt = 11571067823 ∧
        d.completedAt = some 9000000005 := by
  have hreach : (timed holder unset).Reachable ackedState :=
    runs_reachable (.start begun_init) (Option.some_get acked_runs).symm
  exact ⟨Or.inl rfl, hreach, by decide +kernel, by decide +kernel⟩

end Mmmbbb.Renewals
