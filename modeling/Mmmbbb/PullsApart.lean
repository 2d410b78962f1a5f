import Mmmbbb.Competing
import Mmmbbb.Streaming

/-!
# Pulls keep apart

Whatever runs at once, a delivery is leased to one pull at a time: it is handed
out again only when its lease has run out, and never once it is completed.
-/

set_option autoImplicit false

namespace Mmmbbb.PullsApart
open KeyedRows Programs ReadCommitted Leasing Mmmbbb.Schema Mmmbbb.Database Mmmbbb.Delivering
open Mmmbbb.Consuming Mmmbbb.Competing
open Mmmbbb.Settling (forwardRows update)

section
variable {env : Env} {u : Pull} {t : Ledger} {log : List Write} {tx tx' : Tx}

theorem competing_statement : competing.statement = statement := rfl

theorem solo_advance {as : List Statement} {drawn i i' : ℕ} {rest rest' : List (Delivery × Message)}
    {bytes bytes' : ℤ} {results results' : List SubscriptionMessageDelivery}
    (h : u.advance i rest bytes results = u.advance i' rest' bytes' results') :
    competing.solo t (.next :: as) ⟨log, .applying u drawn i rest bytes results⟩ =
      competing.solo t (.next :: as) ⟨log, .applying u drawn i' rest' bytes' results'⟩ := by
  have hsame : competing.statement .next (.applying u drawn i rest bytes results)
      (log.foldl competing.apply t) =
        competing.statement .next (.applying u drawn i' rest' bytes' results')
          (log.foldl competing.apply t) := by
    simp only [competing_statement, statement, h]
  rw [Program.solo, Program.solo]
  simp only [hsame]

theorem insert_all (t : Ledger) (rows : List Delivery) :
    ((rows.map Write.insert).foldl Ledger.apply t).tables =
      { t.tables with deliveries := t.tables.deliveries ++ rows } := by
  induction rows generalizing t with
  | nil => simp
  | cons d rows ih => simp [ih, Ledger.apply, Write.apply]

theorem solo_deadLetter {topicID : UUID} {d : Delivery} {i i' : ℕ}
    {rest rest' : List (Delivery × Message)} {bytes bytes' : ℤ}
    {results results' : List SubscriptionMessageDelivery}
    (hadvance : u.advance i rest bytes results = .deadLetter topicID d i' rest' bytes' results')
    (hview : (seen t log).tables = tx.db.toTables)
    (h : deadLetterDelivery u.env (deadLetterDataFromEntities d topicID) tx = .ok tx') :
    ∃ log', competing.solo t [.next, .next]
        ⟨log, .applying u tx.drawn i rest bytes results⟩ =
          .ok ⟨log', .applying u tx'.drawn i' rest' bytes' results'⟩ ∧
      (seen t log').tables = tx'.db.toTables := by
  obtain ⟨mid, hmid, h⟩ := bind_ok.mp h
  obtain ⟨last, hlast, h⟩ := bind_ok.mp h
  obtain rfl := pure_ok.mp h
  obtain ⟨rows, hrows, hnodup, hfresh, htables, hdrawn⟩ := Settling.deliverDeadLetter_forward hmid
  obtain ⟨hhas, hupdate, hdrawn'⟩ := Settling.updateDelivery_update hlast
  have hforward : competing.statement .next (.applying u tx.drawn i rest bytes results)
      (log.foldl competing.apply t) =
        .ok (rows.map Write.insert, .forwarded u mid.drawn d i' rest' bytes' results') := by
    simp only [competing_statement, statement, hadvance]
    rw [hdrawn]
    have hseen : (log.foldl competing.apply t).tables = tx.db.toTables := hview
    refine bind_ok.mpr ⟨rows, hseen ▸ hrows, bind_ok.mpr ⟨(), failWhen_ok.mpr ?_, rfl⟩⟩
    rw [hseen]
    exact not_not.mpr ⟨hnodup, hfresh⟩
  have hmidView : (seen t (log ++ rows.map Write.insert)).tables = mid.db.toTables := by
    rw [seen_append, seen, insert_all, hview, htables]
  have hcomplete : competing.statement .next (.forwarded u mid.drawn d i' rest' bytes' results')
      ((log ++ rows.map Write.insert).foldl competing.apply t) =
        .ok ([.complete [d.id] u.env.now],
          .applying u mid.drawn i' rest' bytes' results') := by
    refine bind_ok.mpr ⟨(), failWhen_ok.mpr ?_, rfl⟩
    rw [show ((log ++ rows.map Write.insert).foldl competing.apply t).tables = _ from hmidView]
    exact not_not.mpr hhas
  refine ⟨log ++ rows.map Write.insert ++ [.complete [d.id] u.env.now], ?_, ?_⟩
  · rw [solo_cons (P := competing) hforward, solo_cons (P := competing) hcomplete, ← hdrawn']
    rfl
  · rw [seen_append]
    show update [d.id] _ (seen t (log ++ rows.map Write.insert)).tables = _
    rw [hmidView]
    exact hupdate

theorem solo_loop (asked : Time) {p : GetSubscriptionMessagesParams} {sub : Subscription} {i : ℕ}
    {rest : List (Delivery × Message)} {st st' : Applied}
    (h : applyLoop env p sub i rest st = .ok st')
    (hview : (seen t log).tables = st.tx.db.toTables) :
    ∃ k log', competing.solo t (.next :: List.replicate k .next)
        ⟨log, .applying ⟨p, sub, asked, env⟩ st.tx.drawn i rest st.bytes st.deliveries⟩ =
          .ok ⟨log', .attempting ⟨p, sub, asked, env⟩ st'.deliveries⟩ ∧
      (seen t log').tables = st'.tx.db.toTables := by
  induction rest generalizing i st log with
  | nil =>
    cases h
    exact ⟨0, log ++ [], solo_cons (P := competing) rfl, by simpa using hview⟩
  | cons x rest ih =>
    obtain ⟨d, m⟩ := x
    rw [applyLoop] at h
    split at h
    · rename_i hskip
      obtain ⟨k, log', hsolo, hend⟩ := ih h hview
      refine ⟨k, log', ?_, hend⟩
      rw [solo_advance, hsolo]
      rw [Pull.advance, if_pos hskip]
    · rename_i hfits
      split at h
      · rename_i topicID htopic
        split at h
        · cases h
        · rename_i tx htx
          have hadvance : Pull.advance ⟨p, sub, asked, env⟩ i ((d, m) :: rest) st.bytes
              st.deliveries = .deadLetter topicID d (i + 1) rest st.bytes st.deliveries := by
            rw [Pull.advance, if_neg hfits]
            simp only [htopic]
          obtain ⟨mid, hmid, hmidView⟩ := solo_deadLetter hadvance hview htx
          obtain ⟨k, log', hsolo, hend⟩ := ih h hmidView
          exact ⟨k + 2, log', (solo_append hmid).trans hsolo, hend⟩
      · rename_i htopic
        split at h
        · rename_i hlast
          cases h
          refine ⟨0, log ++ [], solo_cons (P := competing) ?_, ?_⟩
          rotate_left
          · rw [List.append_nil]
            exact hview
          have hadvance : Pull.advance ⟨p, sub, asked, env⟩ i ((d, m) :: rest) st.bytes
              st.deliveries = .finished (st.deliveries ++ [handOut env sub d m]) := by
            rw [Pull.advance, if_neg hfits]
            simp only [htopic]
            rw [if_pos hlast]
          simp only [competing_statement, statement, hadvance]
          rfl
        · rename_i hmore
          have hdelivered : (seen t log).tables =
              (st.deliver (handOut env sub d m)).tx.db.toTables := hview
          obtain ⟨k, log', hsolo, hend⟩ := ih h hdelivered
          refine ⟨k, log', ?_, hend⟩
          rw [← hsolo]
          refine solo_advance ?_
          rw [Pull.advance, if_neg hfits]
          simp only [htopic]
          rw [if_neg hmore]
          rfl

theorem solo_attempts (u : Pull) {results : List SubscriptionMessageDelivery}
    (hview : (seen t log).tables = tx.db.toTables)
    (h : markAttempted u.env results tx = .ok tx') :
    ∃ log', competing.solo t (List.replicate results.length (.attempt 0))
        ⟨log, .attempting u results⟩ = .ok ⟨log', .attempting u []⟩ ∧
      (seen t log').tables = tx'.db.toTables := by
  induction results generalizing tx log with
  | nil =>
    obtain rfl : tx = tx' := by simpa [markAttempted] using h
    exact ⟨log, rfl, hview⟩
  | cons x results ih =>
    rw [markAttempted, List.foldlM_cons] at h
    obtain ⟨mid, hmid, hrest⟩ := bind_ok.mp h
    obtain ⟨hhas, hupdate, -⟩ := Settling.updateDelivery_update hmid
    have hstep : competing.statement (.attempt 0) (.attempting u (x :: results))
        (log.foldl competing.apply t) =
          .ok ([.attempt x u.asked u.env.now], .attempting u results) := by
      have hseen : (log.foldl competing.apply t).tables = tx.db.toTables := hview
      refine bind_ok.mpr ⟨(), failWhen_ok.mpr ?_, rfl⟩
      rw [hseen]
      exact not_not.mpr hhas
    have hmidView : (seen t (log ++ [.attempt x u.asked u.env.now])).tables = mid.db.toTables := by
      rw [seen_append]
      show update [x.id] (attemptUpdate u.env x) (seen t log).tables = _
      rw [hview]
      exact hupdate
    obtain ⟨log', hsolo, hend⟩ := ih hmidView hrest
    refine ⟨log', ?_, hend⟩
    rw [List.length_cons, List.replicate_succ, solo_cons (P := competing) hstep]
    exact hsolo

end

def call (env : Env) (p : GetSubscriptionMessagesParams) (loop results : ℕ) : List Statement :=
  [.verify p, .select env [], .refresh env] ++ .next :: List.replicate loop .next ++
    List.replicate results (.attempt 0) ++ [.next]

theorem skipped_none (env : Env) (t : Tables) (sub : Subscription)
    (p : GetSubscriptionMessagesParams) :
    queryAndSkipLocked env t sub p [] = queryAndLockDeliveriesOnce env t sub p := by
  simp [queryAndSkipLocked, queryAndLockDeliveriesOnce]

/-- Run while no other transaction is under way, the statements of a pull that
finds something do what the pull does. -/
theorem pull_alone {n : ℕ} {st : Sessions n} (i : Fin n) {env : Env} {db : DB} {tx : Tx}
    {p : GetSubscriptionMessagesParams} {sub : Subscription} {res : GetSubscriptionMessagesResults}
    (hst : ∀ j, st.session j = competing.fresh) (hdb : st.committed.tables = db.toTables)
    (hsub : verifySub p db.toTables = .ok sub)
    (hfound : queryAndLockDeliveriesOnce env db.toTables sub p ≠ [])
    (h : getSubscriptionMessages env p (.begin db) = .ok (res, tx)) :
    ∃ k, ∃ st' : Sessions n, competing.runs (fun _ _ _ => True) st
        ((call env p k res.deliveries.length).map (.run i) ++ [.commit i]) = some st' ∧
      st'.committed.tables = tx.db.toTables ∧ st'.session = st.session := by
  obtain ⟨sub', hsub', h⟩ := bind_ok.mp h
  obtain rfl : sub = sub' := Except.ok.inj (hsub.symm.trans hsub')
  obtain ⟨mid, hmid, h⟩ := bind_ok.mp h
  obtain ⟨last, hlast, h⟩ := bind_ok.mp h
  obtain ⟨tx', hmark, h⟩ := bind_ok.mp h
  obtain ⟨rfl, rfl⟩ := Prod.mk.inj (pure_ok.mp h)
  let rows := queryAndLockDeliveriesOnce env db.toTables sub p
  let lock := Write.lock (rows.map (fun x => x.1.id))
  let refresh := Write.extend sub.id (env.now + sub.ttl)
  have hview : (seen st.committed [lock, refresh]).tables = mid.db.toTables := by
    rw [DB.updateSubscriptions_ok (refreshExpiration_ok hmid)]
    show refresh.apply st.committed.tables = _
    rw [hdb]
    rfl
  have hdrawn : mid.drawn = 0 := by
    obtain ⟨db', -, hpure⟩ := bind_ok.mp hmid
    rw [← pure_ok.mp hpure]
    rfl
  obtain ⟨k, log, hloop, hlog⟩ := solo_loop env.now hlast hview
  obtain ⟨log', hattempts, hlog'⟩ := solo_attempts ⟨p, sub, env.now, env⟩ hlog hmark
  have hverify : competing.statement (.verify p) .ready st.committed = .ok ([], .verified p sub) :=
    map_ok.mpr ⟨sub, hdb ▸ hsub, rfl⟩
  have hselect : competing.statement (.select env []) (.verified p sub) st.committed =
      .ok ([lock], .found p sub env.now rows) := by
    simp only [competing_statement, statement, skipped_none, hdb, if_neg hfound]
    rfl
  have hrefresh : competing.solo st.committed [.verify p, .select env [], .refresh env]
      competing.fresh =
        .ok ⟨[lock, refresh], .applying ⟨p, sub, env.now, env⟩ mid.drawn 0 rows 0 []⟩ := by
    rw [hdrawn]
    refine (solo_cons (P := competing) (s := competing.fresh) hverify).trans ?_
    refine (solo_cons (P := competing) hselect).trans ?_
    exact solo_cons (P := competing) rfl
  have hloops := (solo_append hrefresh).trans hloop
  have hresults := (solo_append hloops).trans hattempts
  have hall : competing.solo st.committed (call env p k last.deliveries.length) competing.fresh =
      .ok ⟨log' ++ [], .ready⟩ := (solo_append hresults).trans (solo_cons (P := competing) rfl)
  rw [List.append_nil] at hall
  exact ⟨k, _, runs_alone hst hall rfl, hlog', rfl⟩

theorem clash_symm {w w' : Write} (h : w.clash w' = false) : w'.clash w = false := by
  obtain ⟨htouches, hkeys⟩ := Bool.or_eq_false_iff.mp h
  refine Bool.or_eq_false_iff.mpr ⟨?_, ?_⟩
  · rw [List.any_eq_false] at htouches ⊢
    exact fun k hk hin => htouches k (of_decide_eq_true hin) (decide_eq_true hk)
  · split
    · rw [decide_eq_false_iff_not] at hkeys ⊢
      exact Ne.symm hkeys
    · rw [decide_eq_false_iff_not] at hkeys ⊢
      exact Ne.symm hkeys
    · rfl

section
variable {n : ℕ} {start : Tables} {st : Sessions n}

/-- A query skips only what another connection has locked. -/
def SkipsLocked (st : Sessions n) (e : ReadCommitted.Event n Statement) (_ : Sessions n) : Prop :=
  match e with
  | .run i (.select _ skipped) =>
    ∀ id ∈ skipped, ∃ j, j ≠ i ∧ ∃ w ∈ (st.session j).log, id ∈ w.touches
  | _ => True

instance (st st' : Sessions n) (e : ReadCommitted.Event n Statement) :
    Decidable (SkipsLocked st e st') := by
  cases e with
  | run i a => cases a <;> unfold SkipsLocked <;> infer_instance
  | commit i => exact inferInstanceAs (Decidable True)
  | rollback i => exact inferInstanceAs (Decidable True)

structure Starts (start : Tables) (t : Ledger) : Prop where
  tables : t.tables = start
  history : t.history = []
  keys : UniqueKeys Delivery.id start.deliveries

theorem leased_start {t : Ledger} (h : Starts start t) : Leased start t competing.fresh := by
  refine ⟨?_, fun id => ?_, fun id => ?_, fun id => trivial, fun k hk => ?_, List.nodup_nil⟩
  · show (t.tables.deliveries.map Delivery.id).Nodup
    rw [h.tables]
    exact h.keys
  · rw [h.history]
    trivial
  · rw [h.history, h.tables]
    rfl
  · cases hk

theorem leased_rule : Rule n competing SkipsLocked (Leased start) NoClash where
  symm := fun s s' h w hw w' hw' => clash_symm (h w' hw' w hw)
  fresh := fun _ _ h => h.fresh
  apart := fun s w hw => by cases hw
  commit := fun t s s' h h' hfree _ => h.commit h' hfree
  run := by
    intro st i a ws q hall hapart hst hfree _
    refine ⟨does_leased (hall i) (statement_does hst), fun j hj w hw w' hw' => ?_⟩
    rcases List.mem_append.mp hw with hw | hw
    · exact hapart i j hj.symm w hw w' hw'
    · exact not_clash hfree hj hw hw'

theorem op_attempt {x : SubscriptionMessageDelivery} (asked now : Time) :
    (Write.attempt x asked now).op x.id = some (.give asked (dueAgain x) x.numAttempts) := by
  simp [Write.op]

theorem op_completes {w : Write} {id : UUID} (h : id ∈ w.completes) : w.op id = some .finish := by
  cases w with
  | complete ids now => simp only [Write.op, if_pos (show id ∈ ids from h)]
  | lock => cases h
  | attempt => cases h
  | reschedule => cases h
  | insert => cases h
  | message => cases h
  | extend => cases h

theorem op_moves {w : Write} {id : UUID} {op : Op Time} (hop : w.op id = some op)
    (hsets : op.Sets) : id ∈ w.moves := by
  cases w with
  | attempt x asked now =>
    by_cases hid : x.id = id
    · simp [Write.moves, hid]
    · simp [Write.op, hid] at hop
  | reschedule ids attemptAt =>
    by_cases hid : id ∈ ids
    · exact hid
    · simp [Write.op, hid] at hop
  | complete ids now =>
    by_cases hid : id ∈ ids
    · simp only [Write.op, if_pos hid, Option.some.injEq] at hop
      rw [← hop] at hsets
      exact hsets.elim
    · simp [Write.op, hid] at hop
  | insert d =>
    by_cases hid : d.id = id
    · simp only [Write.op, if_pos hid, Option.some.injEq] at hop
      rw [← hop] at hsets
      exact hsets.elim
    · simp [Write.op, hid] at hop
  | lock => cases hop
  | message => cases hop
  | extend => cases hop

/-- Whatever pulls, acks, nacks, delays, publish calls and sweeps do at once,
each delivery is a lease: what has been committed is what a holder of leases
may do, and it has led to the row. In particular a delivery is handed out again
only under a higher number, when its lease has run out or has been moved, and
never once it has been completed. -/
theorem pulls_apart
    (h : ((competing.system n (Starts start)).within SkipsLocked).Reachable st) :
    (∀ id, Lawful (lease start id) (ops id st.committed.history) ∧
      (ops id st.committed.history).foldl after (lease start id) =
        lease st.committed.tables id) ∧
    ∀ pre mid post x asked now y asked' now', st.committed.history =
        pre ++ .attempt x asked now :: mid ++ .attempt y asked' now' :: post → x.id = y.id →
      x.numAttempts < y.numAttempts ∧ (∀ w ∈ pre ++ mid, x.id ∉ w.completes) ∧
        ((∀ w ∈ mid, x.id ∉ w.moves) → dueAgain x ≤ asked') := by
  have hleased := (leased_rule.reachable (fun _ => leased_start) h).committed
  refine ⟨fun id => ⟨hleased.history id, hleased.result id⟩, ?_⟩
  intro pre mid post x asked now y asked' now' hhistory hid
  have hlawful := hleased.history x.id
  have hops : ops x.id st.committed.history =
      ops x.id pre ++ .give asked (dueAgain x) x.numAttempts :: ops x.id mid ++
        .give asked' (dueAgain y) y.numAttempts :: ops x.id post := by
    rw [hhistory, ops_append, ops_append]
    simp only [ops, List.filterMap_cons, op_attempt asked now]
    rw [hid, op_attempt asked' now']
  rw [hops] at hlawful
  obtain ⟨hcount, hpre, hmid, hdue⟩ := given_apart hlawful
  have hcompletes : ∀ log : List Write, .finish ∉ ops x.id log →
      ∀ w ∈ log, x.id ∉ w.completes := fun log hno w hw hin =>
    hno (List.mem_filterMap.mpr ⟨w, hw, op_completes hin⟩)
  refine ⟨by omega, fun w hw => ?_, fun hmoves => hdue fun op hop hsets => ?_⟩
  · rcases List.mem_append.mp hw with hw | hw
    · exact hcompletes pre hpre w hw
    · exact hcompletes mid hmid w hw
  · obtain ⟨w, hw, hwop⟩ := List.mem_filterMap.mp hop
    exact hmoves w hw (op_moves hwop hsets)

end

def connections : Sessions 2 :=
  ⟨⟨Streaming.workerDB.toTables, []⟩, fun _ => competing.fresh⟩

def pullOne : GetSubscriptionMessagesParams := ⟨"worker", none, 1, 1000, false⟩

def selecting (i : Fin 2) (now : Time) (skipped : List UUID) :
    List (ReadCommitted.Event 2 Statement) :=
  [.run i (.verify pullOne), .run i (.select (.plain now 0) skipped)]

def handingOut (i : Fin 2) (now : Time) : List (ReadCommitted.Event 2 Statement) :=
  [.run i (.refresh (.plain now 0)), .run i .next, .run i (.attempt 0), .run i .next, .commit i]

def redelivering : List (ReadCommitted.Event 2 Statement) :=
  selecting 0 50 [] ++ selecting 1 51 [31] ++ handingOut 1 52 ++ handingOut 0 53 ++
    selecting 1 (20 * second) [] ++ handingOut 1 (20 * second)

theorem redelivering_runs : (competing.runs SkipsLocked connections redelivering).isSome := by
  decide +kernel

def redelivered : Sessions 2 :=
  (competing.runs SkipsLocked connections redelivering).get redelivering_runs

theorem pulls_apart_redelivered :
    ops 41 redelivered.committed.history =
        [.give 51 11571067870 1, .give 20000000000 32917652292 2] ∧
      Lawful (lease Streaming.workerDB.toTables 41)
        [.give 51 11571067870 1, .give 20000000000 32917652292 2] := by
  have hreach : ((competing.system 2 (Starts Streaming.workerDB.toTables)).within
      SkipsLocked).Reachable redelivered :=
    runs_reachable (.start ⟨⟨rfl, rfl, Streaming.workerDB.sound.delivery_pk⟩, fun _ => rfl⟩)
      (Option.some_get redelivering_runs).symm
  have hops : ops 41 redelivered.committed.history =
      [.give 51 11571067870 1, .give 20000000000 32917652292 2] := by decide +kernel
  have hlawful := ((pulls_apart hreach).1 41).1
  rw [hops] at hlawful
  exact ⟨hops, hlawful⟩

end Mmmbbb.PullsApart
