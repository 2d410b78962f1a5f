import Mmmbbb.Portions
import Mmmbbb.Handlers

/-!
# A pull whose transactions are retried

`ExecuteClient` runs each of its transactions again while it fails with a
deadlock error. The results are kept on the action, which no rollback undoes,
and the loop returns as soon as there are some.
-/

set_option autoImplicit false

namespace Mmmbbb.Retrying
open KeyedRows Programs Mmmbbb.Schema Mmmbbb.Database Mmmbbb.Delivering Mmmbbb.Consuming
open Mmmbbb.Portions Mmmbbb.Handlers Mmmbbb.Runs Mmmbbb.Administering

inductive Failure
  | deadlockDetected
  | cancelled
  | other (e : Error)
  deriving DecidableEq, Repr

/-- Where in a transaction a statement fails: as it begins, as it looks up the
subscription, later in its body, or as it commits. -/
inductive Stage
  | begin
  | verify
  | body
  | commit
  deriving DecidableEq, Repr

structure Attempt extends Moment where
  fault : Option (Stage × Failure)

structure Commit where
  before : DB
  after : DB

structure Call where
  params : GetSubscriptionMessagesParams
  results : Option GetSubscriptionMessagesResults
  commits : List Commit

structure Done where
  results : Option GetSubscriptionMessagesResults
  tx : Tx

abbrev Body :=
  Env → GetSubscriptionMessagesParams → Subscription → Tx → Except Error Done

/-- `DoTx`: the action is changed as the body goes on, the database only by
the commit. -/
def doTx (locate : GetSubscriptionMessagesParams → Tables → Except Error Subscription)
    (body : Body) (x : Attempt) (a : Call) : Except Failure Subscription × Call :=
  match x.fault with
  | some (.begin, e) | some (.verify, e) => (.error e, a)
  | fault =>
    match locate a.params x.db.toTables with
    | .error e => (.error (.other e), a)
    | .ok sub =>
      let a := { a with params := { a.params with id := some sub.id } }
      match fault with
      | some (.body, e) => (.error e, a)
      | fault =>
        match body x.env a.params sub (Tx.begin x.db) with
        | .error e => (.error (.other e), a)
        | .ok done =>
          let a := { a with results := done.results.or a.results }
          match fault with
          | some (_, e) => (.error e, a)
          | none => (.ok sub, { a with commits := a.commits ++ [⟨x.db, done.tx.db⟩] })

/-- `DoCtxTxRetry`; nothing is returned while the attempts go on. -/
def doCtxTxRetry (locate : GetSubscriptionMessagesParams → Tables → Except Error Subscription)
    (body : Body) : List Attempt → Call → Option (Except Failure Subscription × Call)
  | [], _ => none
  | x :: xs, a =>
    match doTx locate body x a with
    | (.error .deadlockDetected, a) => doCtxTxRetry locate body xs a
    | r => some r

def touchBody : Body := fun env _ sub tx => (refreshExpiration env sub tx).map (fun tx => ⟨none, tx⟩)

def roundBody : Body := fun env p sub tx =>
  match queryAndLockDeliveriesOnce env tx.db.toTables sub p with
  | [] => .ok ⟨none, tx⟩
  | deliveries =>
    (applyResults env p sub deliveries tx).map (fun r => ⟨some r.1, r.2⟩)

def giveUpBody : Body := fun env p sub tx =>
  (applyResults env p sub [] tx).map (fun r => ⟨some r.1, r.2⟩)

/-- The row that the last round has loaded, updated by its identifier. -/
def loadedSub (sub : Subscription) (_ : GetSubscriptionMessagesParams) (t : Tables) :
    Except Error Subscription :=
  if Has Subscription.id sub.id t.subscriptions then .ok sub else .error .errNotFound

inductive Wake
  | again
  | findTimeout (attempts : List Attempt)
  | done

structure Round where
  attempts : List Attempt
  wake : Wake

def retryRounds : List Round → Call → Option (Except Failure Unit × Call)
  | [], _ => none
  | r :: rs, a =>
    match doCtxTxRetry (fun p => verifySub p) roundBody r.attempts a with
    | none => none
    | some (.error e, a) => some (.error e, a)
    | some (.ok sub, a) =>
      if a.results.isSome then some (.ok (), a)
      else
        match r.wake with
        | .again => retryRounds rs a
        | .findTimeout attempts =>
          (doCtxTxRetry (loadedSub sub) giveUpBody attempts a).map
            (fun r => (r.1.map (fun _ => ()), r.2))
        | .done => some (.error .cancelled, a)

def executeClient (p : GetSubscriptionMessagesParams) (first : List Attempt)
    (rounds : List Round) : Option (Except Failure Unit × Call) :=
  match doCtxTxRetry (fun p => verifySub p) touchBody first ⟨p, none, []⟩ with
  | none => none
  | some (.error e, a) => some (.error e, a)
  | some (.ok _, a) => retryRounds rounds a

def Commit.Attempted (w : Commit) (y : SubscriptionMessageDelivery) : Prop :=
  ∃ d ∈ w.before.deliveries, ∃ d' ∈ w.after.deliveries, d.id = y.id ∧ d'.id = y.id ∧
    y.numAttempts = d.attempts + 1 ∧ d'.attempts = d.attempts + 1 ∧
    d'.attemptAt = y.nextAttemptAt + y.fuzzDelay

def Call.Reported (a : Call) : Prop :=
  ∀ res, a.results = some res → ∀ y ∈ res.deliveries, ∃ w ∈ a.commits, w.Attempted y

/-- An attempt fails, it sets results and loses its commit, or it commits. -/
inductive Fate
  | failed (e : Failure)
  | lost (res : GetSubscriptionMessagesResults) (e : Failure)
  | found (res : GetSubscriptionMessagesResults) (sub : Subscription) (after : DB)
  | barren (sub : Subscription)

def fate (p : GetSubscriptionMessagesParams) (x : Attempt) : Fate :=
  match x.fault with
  | some (.begin, e) | some (.verify, e) => .failed e
  | fault =>
    match verifySub p x.db.toTables with
    | .error e => .failed (.other e)
    | .ok sub =>
      match fault with
      | some (.body, e) => .failed e
      | fault =>
        match roundBody x.env p sub (Tx.begin x.db) with
        | .error e => .failed (.other e)
        | .ok done =>
          match done.results, fault with
          | none, some (_, e) => .failed e
          | none, none => .barren sub
          | some res, some (_, e) => .lost res e
          | some res, none => .found res sub done.tx.db

def Fate.Retried : Fate → Prop
  | .failed e | .lost _ e => e = .deadlockDetected
  | _ => False

def Fate.set : Fate → Option GetSubscriptionMessagesResults
  | .lost res _ => some res
  | _ => none

def lastLost (p : GetSubscriptionMessagesParams) (xs : List Attempt) :
    Option GetSubscriptionMessagesResults :=
  (xs.filterMap (fun x => (fate p x).set)).getLast?

section
variable {a : Call} {k : UUID} {x : Attempt} {xs : List Attempt}

theorem verifySub_bound {p : GetSubscriptionMessagesParams} (hp : p.id = some k) {t : Tables}
    {sub : Subscription} (h : verifySub p t = .ok sub) : { p with id := some sub.id } = p := by
  have hmatch := (only_ok h).2
  simp only [subMatch, hp, idMatches, Bool.and_eq_true, decide_eq_true_eq] at hmatch
  rw [hmatch.1.2, ← hp]

theorem roundBody_barren {env : Env} {p : GetSubscriptionMessagesParams} {sub : Subscription}
    {tx : Tx} {done : Done} (h : roundBody env p sub tx = .ok done) (hnone : done.results = none) :
    done.tx = tx := by
  unfold roundBody at h
  split at h
  · cases h
    rfl
  · obtain ⟨r, -, rfl⟩ := map_ok.mp h
    cases hnone

/-- Once the subscription is bound, an attempt at a round does to the action
what its fate says. -/
theorem doTx_fate (hp : a.params.id = some k) (x : Attempt) :
    doTx (fun p => verifySub p) roundBody x a =
      match fate a.params x with
      | .failed e => (.error e, a)
      | .lost res e => (.error e, { a with results := some res })
      | .found res sub after =>
        (.ok sub, { a with results := some res, commits := a.commits ++ [⟨x.db, after⟩] })
      | .barren sub => (.ok sub, { a with commits := a.commits ++ [⟨x.db, x.db⟩] }) := by
  obtain ⟨m, fault⟩ := x
  obtain ⟨p, results, commits⟩ := a
  unfold doTx fate
  dsimp only at hp ⊢
  cases hsub : verifySub p m.db.toTables with
  | error e =>
    cases fault with
    | none => rfl
    | some f =>
      obtain ⟨stage, err⟩ := f
      cases stage <;> rfl
  | ok sub =>
    have hbound := verifySub_bound hp hsub
    cases hbody : roundBody m.env p sub (Tx.begin m.db) with
    | error e =>
      cases fault with
      | none => simp [hbound, hbody]
      | some f =>
        obtain ⟨stage, err⟩ := f
        cases stage <;> simp [hbound, hbody]
    | ok done =>
      have hsame := roundBody_barren hbody
      obtain ⟨set, tx⟩ := done
      cases fault with
      | none =>
        cases set with
        | none =>
          have htx : tx.db = m.db := congrArg Tx.db (hsame rfl)
          simp [hbound, hbody, htx]
        | some res => simp [hbound, hbody]
      | some f =>
        obtain ⟨stage, err⟩ := f
        cases stage <;> cases set <;> simp [hbound, hbody]

theorem lastLost_cons (p : GetSubscriptionMessagesParams) (y : Attempt) (pre : List Attempt) :
    lastLost p (y :: pre) = (lastLost p pre).or (fate p y).set := by
  simp only [lastLost, List.filterMap_cons]
  cases (fate p y).set with
  | none => rw [Option.or_none]
  | some res =>
    dsimp only
    rw [List.getLast?_cons]
    cases (pre.filterMap (fun x => (fate p x).set)).getLast? <;> rfl

theorem doCtxTxRetry_append (hp : a.params.id = some k) {pre : List Attempt}
    (hpre : ∀ y ∈ pre, (fate a.params y).Retried) :
    doCtxTxRetry (fun p => verifySub p) roundBody (pre ++ xs) a =
      doCtxTxRetry (fun p => verifySub p) roundBody xs
        { a with results := (lastLost a.params pre).or a.results } := by
  induction pre generalizing a with
  | nil => rfl
  | cons y pre ih =>
    have hy := hpre y (by simp)
    have hrest : ∀ z ∈ pre, (fate a.params z).Retried := fun z hz => hpre z (by simp [hz])
    rw [List.cons_append, doCtxTxRetry, doTx_fate hp]
    cases hf : fate a.params y with
    | failed e =>
      rw [hf] at hy
      cases hy
      have hset : (fate a.params y).set = none := by rw [hf]; rfl
      rw [lastLost_cons, hset, Option.or_none]
      exact ih hp hrest
    | lost res e =>
      rw [hf] at hy
      cases hy
      have hlater := ih (a := { a with results := some res }) hp hrest
      dsimp only at hlater ⊢
      have hset : (fate a.params y).set = some res := by rw [hf]; rfl
      rw [hlater, lastLost_cons, hset, Option.or_assoc, Option.some_or]
    | found res sub after =>
      rw [hf] at hy
      cases hy
    | barren sub =>
      rw [hf] at hy
      cases hy

theorem doCtxTxRetry_stop (hp : a.params.id = some k) (hx : ¬(fate a.params x).Retried) :
    doCtxTxRetry (fun p => verifySub p) roundBody (x :: xs) a =
      some (doTx (fun p => verifySub p) roundBody x a) := by
  rw [doCtxTxRetry]
  have hfate := doTx_fate hp x
  cases hf : fate a.params x with
  | failed e =>
    rw [hf] at hfate hx
    cases e with
    | deadlockDetected => exact absurd rfl hx
    | cancelled => rw [hfate]
    | other e => rw [hfate]
  | lost res e =>
    rw [hf] at hfate hx
    cases e with
    | deadlockDetected => exact absurd rfl hx
    | cancelled => rw [hfate]
    | other e => rw [hfate]
  | found res sub after =>
    rw [hf] at hfate
    rw [hfate]
  | barren sub =>
    rw [hf] at hfate
    rw [hfate]

end

section
variable {α : Type} {P : α → Prop}

theorem exists_stop (P : α → Prop) (xs : List α) :
    (∀ y ∈ xs, P y) ∨ ∃ pre x post, xs = pre ++ x :: post ∧ (∀ y ∈ pre, P y) ∧ ¬P x := by
  induction xs with
  | nil => simp
  | cons x xs ih =>
    by_cases hx : P x
    · rcases ih with hall | ⟨pre, y, post, rfl, hpre, hy⟩
      · exact Or.inl (by simpa [hx] using hall)
      · exact Or.inr ⟨x :: pre, y, post, rfl, by simpa [hx] using hpre, hy⟩
    · exact Or.inr ⟨[], x, xs, rfl, by simp, hx⟩

theorem stop_unique {pre pre' post post' : List α} {x x' : α}
    (h : pre ++ x :: post = pre' ++ x' :: post') (hpre : ∀ y ∈ pre, P y)
    (hpre' : ∀ y ∈ pre', P y) (hx : ¬P x) (hx' : ¬P x') : pre = pre' ∧ x = x' := by
  induction pre generalizing pre' with
  | nil =>
    cases pre' with
    | nil => exact ⟨rfl, (List.cons.inj h).1⟩
    | cons y pre' =>
      have hy : x = y := (List.cons.inj h).1
      exact absurd (hy ▸ hpre' y (by simp)) hx
  | cons y pre ih =>
    cases pre' with
    | nil =>
      have hy : y = x' := (List.cons.inj h).1
      exact absurd (hy ▸ hpre y (by simp)) hx'
    | cons y' pre' =>
      obtain ⟨hy, hrest⟩ := List.cons.inj h
      have hsame := ih hrest (fun z hz => hpre z (by simp [hz])) (fun z hz => hpre' z (by simp [hz]))
      exact ⟨by rw [hy, hsame.1], hsame.2⟩

end

/-- The attempts are run again up to one that commits without having found
anything; `left` is what the attempts before it have left in the results. -/
def Ends (p : GetSubscriptionMessagesParams) (attempts : List Attempt)
    (left : Option GetSubscriptionMessagesResults) : Prop :=
  ∃ pre x post sub, attempts = pre ++ x :: post ∧ (∀ y ∈ pre, (fate p y).Retried) ∧
    fate p x = .barren sub ∧ lastLost p pre = left

/-- An attempt has handed something out and lost its commit, and the one that
ends the round finds nothing any more. -/
def Stale (p : GetSubscriptionMessagesParams) (attempts : List Attempt) : Prop :=
  ∃ res, Ends p attempts (some res) ∧ res.deliveries ≠ []

def StaleRun (p : GetSubscriptionMessagesParams) (rounds : List Round) : Prop :=
  ∃ pre r post, rounds = pre ++ r :: post ∧
    (∀ q ∈ pre, Ends p q.attempts none ∧ q.wake = .again) ∧ Stale p r.attempts

section
variable {a a' : Call} {k : UUID} {p : GetSubscriptionMessagesParams} {x : Attempt}

theorem Ends.unique {attempts pre post : List Attempt}
    {left : Option GetSubscriptionMessagesResults} (h : Ends p attempts left)
    (hsplit : attempts = pre ++ x :: post) (hpre : ∀ y ∈ pre, (fate p y).Retried)
    (hx : ¬(fate p x).Retried) : (∃ sub, fate p x = .barren sub) ∧ lastLost p pre = left := by
  obtain ⟨pre', x', post', sub, hsplit', hpre', hx', hleft⟩ := h
  have hnot : ¬(fate p x').Retried := by rw [hx']; exact id
  obtain ⟨rfl, rfl⟩ := stop_unique (hsplit.symm.trans hsplit') hpre hpre' hx hnot
  exact ⟨⟨sub, hx'⟩, hleft⟩

theorem staleRun_cons {r : Round} {rs : List Round} :
    StaleRun p (r :: rs) ↔
      Stale p r.attempts ∨ Ends p r.attempts none ∧ r.wake = .again ∧ StaleRun p rs := by
  constructor
  · rintro ⟨pre, q, post, hsplit, hpre, hstale⟩
    cases pre with
    | nil =>
      obtain ⟨rfl, -⟩ := List.cons.inj hsplit
      exact Or.inl hstale
    | cons q' pre =>
      obtain ⟨rfl, rfl⟩ := List.cons.inj hsplit
      obtain ⟨hends, hwake⟩ := hpre r (by simp)
      exact Or.inr ⟨hends, hwake, pre, q, post, rfl, fun z hz => hpre z (by simp [hz]), hstale⟩
  · rintro (hstale | ⟨hends, hwake, pre, q, post, rfl, hpre, hstale⟩)
    · exact ⟨[], r, rs, rfl, by simp, hstale⟩
    · refine ⟨r :: pre, q, post, rfl, ?_, hstale⟩
      intro z hz
      rcases List.mem_cons.mp hz with rfl | hz
      · exact ⟨hends, hwake⟩
      · exact hpre z hz

def Commit.Still (w : Commit) : Prop := w.after.deliveries = w.before.deliveries

theorem Commit.Still.not_attempted {w : Commit} (h : w.Still) (y : SubscriptionMessageDelivery) :
    ¬w.Attempted y := by
  rintro ⟨d, hd, d', hd', hid, hid', -, hattempts, -⟩
  rw [h] at hd'
  have hsame : d = d' := w.before.sound.delivery_pk.eq hd hd' (hid.trans hid'.symm)
  rw [hsame] at hattempts
  omega

theorem fate_found {res : GetSubscriptionMessagesResults} {sub : Subscription} {after : DB}
    (h : fate p x = .found res sub after) :
    ∃ done, roundBody x.env p sub (Tx.begin x.db) = .ok done ∧ done.results = some res ∧
      done.tx.db = after := by
  unfold fate at h
  split at h
  · cases h
  · cases h
  · split at h
    · cases h
    · split at h
      · cases h
      · split at h
        · cases h
        · rename_i done hbody
          split at h
          · cases h
          · cases h
          · cases h
          · rename_i hset _
            cases h
            exact ⟨done, hbody, hset, rfl⟩

theorem fate_lost {res : GetSubscriptionMessagesResults} {e : Failure}
    (h : fate p x = .lost res e) : x.fault = some (.commit, e) := by
  obtain ⟨m, fault⟩ := x
  cases fault with
  | none =>
    simp only [fate] at h
    split at h
    · cases h
    · split at h
      · cases h
      · split at h
        · cases h
        · cases h
        · rename_i hfault
          cases hfault
        · cases h
  | some f =>
    obtain ⟨stage, err⟩ := f
    cases stage with
    | begin => cases h
    | verify => cases h
    | body =>
      simp only [fate] at h
      split at h <;> cases h
    | commit =>
      simp only [fate] at h
      split at h
      · cases h
      · split at h
        · cases h
        · split at h
          · cases h
          · cases h
          · rename_i hfault
            cases h
            cases hfault
            rfl
          · cases h

/-- Only a commit that fails makes a round stale. -/
theorem not_stale_of_commits {rounds : List Round}
    (h : ∀ r ∈ rounds, ∀ y ∈ r.attempts, ∀ e, y.fault ≠ some (.commit, e)) :
    ¬StaleRun p rounds := by
  rintro ⟨pre, r, post, rfl, -, res, ⟨before, y, after, sub, hsplit, -, -, hlost⟩, -⟩
  obtain ⟨z, hz, hset⟩ := List.mem_filterMap.mp (List.mem_of_getLast? hlost)
  cases hf : fate p z with
  | lost res' e => exact h r (by simp) z (by simp [hsplit, hz]) e (fate_lost hf)
  | failed e =>
    rw [hf] at hset
    cases hset
  | found res' s db =>
    rw [hf] at hset
    cases hset
  | barren s =>
    rw [hf] at hset
    cases hset

theorem found_attempted {res : GetSubscriptionMessagesResults} {sub : Subscription} {after : DB}
    (h : fate p x = .found res sub after) :
    ∀ y ∈ res.deliveries, Commit.Attempted ⟨x.db, after⟩ y := by
  obtain ⟨done, hbody, hset, rfl⟩ := fate_found h
  unfold roundBody at hbody
  split at hbody
  · cases hbody
    cases hset
  · obtain ⟨⟨res', tx'⟩, happly, rfl⟩ := map_ok.mp hbody
    cases hset
    have hloaded := queryAndLockDeliveriesOnce_loaded x.env (Tx.begin x.db).db sub p
    have hmarked := (applyResults_marked hloaded happly).1
    intro y hy
    rw [applyResults_deliveries happly] at hy
    obtain ⟨z, hz, rfl⟩ := List.mem_map.mp hy
    have hrow := hloaded.rows z ((Budgets.portion_taken_sublist _ _ _ _).subset hz)
    exact ⟨z.1, hrow, _, hmarked.attempted z hz, rfl, DeliveryUpdate.apply_id _ _, rfl, rfl, rfl⟩

theorem doTx_ok {locate : GetSubscriptionMessagesParams → Tables → Except Error Subscription}
    {body : Body} {sub : Subscription} (h : doTx locate body x a = (.ok sub, a')) :
    ∃ p done, body x.env p sub (Tx.begin x.db) = .ok done ∧
      a'.results = done.results.or a.results := by
  unfold doTx at h
  split at h
  · cases h
  · cases h
  · split at h
    · cases h
    · dsimp only at h
      split at h
      · cases h
      · split at h
        · cases h
        · rename_i done hbody
          split at h
          · cases h
          · cases h
            exact ⟨_, done, hbody, rfl⟩

theorem giveUp_results {sub s : Subscription} {attempts : List Attempt}
    (h : doCtxTxRetry (loadedSub sub) giveUpBody attempts a = some (.ok s, a')) :
    ∃ res, a'.results = some res ∧ res.deliveries = [] := by
  induction attempts generalizing a with
  | nil => cases h
  | cons x xs ih =>
    rw [doCtxTxRetry] at h
    split at h
    · exact ih h
    · obtain ⟨p, done, hbody, hset⟩ := doTx_ok (Option.some.inj h)
      obtain ⟨⟨res, tx'⟩, happly, rfl⟩ := map_ok.mp hbody
      exact ⟨res, hset, applyResults_deliveries happly⟩

structure StopsAt (p : GetSubscriptionMessagesParams) (attempts pre : List Attempt) (x : Attempt) :
    Prop where
  split : ∃ post, attempts = pre ++ x :: post
  before : ∀ y ∈ pre, (fate p y).Retried
  stop : ¬(fate p x).Retried

section
variable {attempts pre : List Attempt} {q : Round} {rs : List Round} {sub : Subscription}

theorem StopsAt.unique (h : StopsAt p attempts pre x)
    {left : Option GetSubscriptionMessagesResults} (hends : Ends p attempts left) :
    (∃ sub, fate p x = .barren sub) ∧ lastLost p pre = left := by
  obtain ⟨post, hsplit⟩ := h.split
  exact hends.unique hsplit h.before h.stop

theorem StopsAt.ends (h : StopsAt p attempts pre x) (hf : fate p x = .barren sub) :
    Ends p attempts (lastLost p pre) := by
  obtain ⟨post, hsplit⟩ := h.split
  exact ⟨pre, x, post, sub, hsplit, h.before, hf, rfl⟩

theorem StopsAt.not_staleRun (h : StopsAt p q.attempts pre x)
    (hnot : ∀ sub, fate p x ≠ .barren sub) : ¬StaleRun p (q :: rs) := by
  intro hstale
  rcases staleRun_cons.mp hstale with ⟨res, hends, -⟩ | ⟨hends, -⟩
  · obtain ⟨sub, hsub⟩ := (h.unique hends).1
    exact hnot sub hsub
  · obtain ⟨sub, hsub⟩ := (h.unique hends).1
    exact hnot sub hsub

theorem StopsAt.staleRun_iff (h : StopsAt p q.attempts pre x) (hf : fate p x = .barren sub)
    {res : GetSubscriptionMessagesResults} (hl : lastLost p pre = some res) :
    StaleRun p (q :: rs) ↔ res.deliveries ≠ [] := by
  have hends : Ends p q.attempts (some res) := hl ▸ h.ends hf
  rw [staleRun_cons]
  constructor
  · rintro (⟨res', hends', hne⟩ | ⟨hends', -⟩)
    · have hsame := hl.symm.trans (h.unique hends').2
      cases hsame
      exact hne
    · have hsame := hl.symm.trans (h.unique hends').2
      cases hsame
  · exact fun hne => Or.inl ⟨res, hends, hne⟩

theorem StopsAt.not_stale (h : StopsAt p attempts pre x) (hl : lastLost p pre = none) :
    ¬Stale p attempts := by
  rintro ⟨res, hends, -⟩
  have hsame := hl.symm.trans (h.unique hends).2
  cases hsame

theorem round_stops (hp : a.params.id = some k) (hnone : a.results = none)
    (h : StopsAt a.params attempts pre x) :
    doCtxTxRetry (fun p => verifySub p) roundBody attempts a =
      some (doTx (fun p => verifySub p) roundBody x
        { a with results := lastLost a.params pre }) := by
  obtain ⟨post, hsplit⟩ := h.split
  rw [hsplit, doCtxTxRetry_append hp h.before, hnone, Option.or_none]
  exact doCtxTxRetry_stop hp h.stop

theorem round_stopsAt (hp : a.params.id = some k) {rounds : List Round} {r : Except Failure Unit}
    (h : retryRounds (q :: rounds) a = some (r, a')) :
    ∃ pre x, StopsAt a.params q.attempts pre x := by
  rcases exists_stop (fun y => (fate a.params y).Retried) q.attempts with
    hall | ⟨pre, x, post, hsplit, hpre, hx⟩
  · have hnothing : doCtxTxRetry (fun p => verifySub p) roundBody (q.attempts ++ []) a =
        doCtxTxRetry (fun p => verifySub p) roundBody []
          { a with results := (lastLost a.params q.attempts).or a.results } :=
      doCtxTxRetry_append hp hall
    rw [List.append_nil] at hnothing
    rw [retryRounds, hnothing] at h
    cases h
  · exact ⟨pre, x, ⟨post, hsplit⟩, hpre, hx⟩

theorem reported_still {res : GetSubscriptionMessagesResults} {b : Call}
    (hstill : ∀ w ∈ b.commits, w.Still) (hres : b.results = some res) :
    b.Reported ↔ res.deliveries = [] := by
  constructor
  · intro hreported
    by_contra hne
    obtain ⟨y, hy⟩ := List.exists_mem_of_ne_nil _ hne
    obtain ⟨w, hw, hattempted⟩ := hreported res hres y hy
    exact (hstill w hw).not_attempted y hattempted
  · intro hnil res' hres' y hy
    rw [hres] at hres'
    cases hres'
    rw [hnil] at hy
    cases hy

end

theorem still_append {commits : List Commit} (h : ∀ w ∈ commits, w.Still) (db : DB) :
    ∀ w ∈ commits ++ [(⟨db, db⟩ : Commit)], w.Still := by
  intro w hw
  rcases List.mem_append.mp hw with hw | hw
  · exact h w hw
  · rw [List.mem_singleton.mp hw]
    rfl

/-- The rounds return with what was committed, unless one of them is stale. -/
theorem retryRounds_reported (hp : a.params.id = some k) (hnone : a.results = none)
    (hstill : ∀ w ∈ a.commits, w.Still) {rounds : List Round} {r : Except Failure Unit}
    (h : retryRounds rounds a = some (r, a')) :
    (r = .ok () → a'.Reported) ↔ ¬StaleRun a.params rounds := by
  induction rounds generalizing a with
  | nil => cases h
  | cons q rs ih =>
    obtain ⟨pre, x, hstops⟩ := round_stopsAt hp h
    have hfate := doTx_fate (a := { a with results := lastLost a.params pre }) hp x
    rw [retryRounds, round_stops hp hnone hstops, hfate] at h
    cases hf : fate a.params x with
    | failed e =>
      rw [hf] at h
      cases h
      exact iff_of_true (fun he => by cases he) (hstops.not_staleRun (by simp [hf]))
    | lost res e =>
      rw [hf] at h
      cases h
      exact iff_of_true (fun he => by cases he) (hstops.not_staleRun (by simp [hf]))
    | found res sub after =>
      rw [hf] at h
      cases h
      refine iff_of_true (fun _ => ?_) (hstops.not_staleRun (by simp [hf]))
      intro res' hres y hy
      cases hres
      exact ⟨⟨x.db, after⟩, by simp, found_attempted hf y hy⟩
    | barren sub =>
      rw [hf] at h
      have hcommits := still_append hstill x.db
      cases hl : lastLost a.params pre with
      | some res =>
        simp only [hl, Option.isSome_some, if_true] at h
        cases h
        rw [hstops.staleRun_iff hf hl, not_not]
        constructor
        · exact fun hok => (reported_still hcommits rfl).mp (hok rfl)
        · exact fun hnil _ => (reported_still hcommits rfl).mpr hnil
      | none =>
        simp only [hl, Option.isSome_none, Bool.false_eq_true, if_false] at h
        have hnotStale := hstops.not_stale hl
        have hquiet : Ends a.params q.attempts none := hl ▸ hstops.ends hf
        rw [staleRun_cons]
        cases hwake : q.wake with
        | again =>
          rw [hwake] at h
          have hrest := ih (a := { a with results := none, commits := a.commits ++ [⟨x.db, x.db⟩] })
            hp rfl hcommits h
          simpa [hnotStale, hquiet, hwake] using hrest
        | done =>
          rw [hwake] at h
          cases h
          exact iff_of_true (fun he => by cases he) (by simp [hnotStale])
        | findTimeout attempts =>
          rw [hwake] at h
          refine iff_of_true (fun hok => ?_) (by simp [hnotStale])
          obtain ⟨⟨ret, b⟩, hgive, heq⟩ := Option.map_eq_some_iff.mp h
          cases heq
          cases ret with
          | error e => cases hok
          | ok s =>
            obtain ⟨res, hres, hnil⟩ := giveUp_results hgive
            intro res' hres' y hy
            rw [hres] at hres'
            cases hres'
            rw [hnil] at hy
            cases hy

end

def bound (p : GetSubscriptionMessagesParams) (first : List Attempt) :
    Option GetSubscriptionMessagesParams :=
  match doCtxTxRetry (fun p => verifySub p) touchBody first ⟨p, none, []⟩ with
  | some (.ok _, a) => some a.params
  | _ => none

section
variable {a a' : Call} {x : Attempt}

structure Untouched (a : Call) : Prop where
  results : a.results = none
  still : ∀ w ∈ a.commits, w.Still

theorem doTx_touch (h : Untouched a) :
    Untouched (doTx (fun p => verifySub p) touchBody x a).2 ∧
      ∀ sub, (doTx (fun p => verifySub p) touchBody x a).1 = .ok sub →
        (doTx (fun p => verifySub p) touchBody x a).2.params.id = some sub.id := by
  unfold doTx
  split
  · exact ⟨h, fun sub he => by cases he⟩
  · exact ⟨h, fun sub he => by cases he⟩
  · split
    · exact ⟨h, fun sub he => by cases he⟩
    · dsimp only
      split
      · exact ⟨⟨h.results, h.still⟩, fun sub he => by cases he⟩
      · split
        · exact ⟨⟨h.results, h.still⟩, fun sub he => by cases he⟩
        · rename_i sub _ _ _ done hbody
          obtain ⟨tx, hrefresh, rfl⟩ := map_ok.mp hbody
          have hresults : (none : Option GetSubscriptionMessagesResults).or a.results = none :=
            h.results
          split
          · exact ⟨⟨hresults, h.still⟩, fun sub he => by cases he⟩
          · refine ⟨⟨hresults, fun w hw => ?_⟩, fun s he => by cases he; rfl⟩
            rcases List.mem_append.mp hw with hw | hw
            · exact h.still w hw
            · rw [List.mem_singleton.mp hw, Commit.Still,
                DB.updateSubscriptions_ok (refreshExpiration_ok hrefresh)]
              rfl

theorem touch_bound {attempts : List Attempt} {sub : Subscription} (hu : Untouched a)
    (h : doCtxTxRetry (fun p => verifySub p) touchBody attempts a = some (.ok sub, a')) :
    Untouched a' ∧ a'.params.id = some sub.id := by
  induction attempts generalizing a with
  | nil => cases h
  | cons x xs ih =>
    obtain ⟨hu', hid⟩ := doTx_touch (x := x) hu
    rw [doCtxTxRetry] at h
    split at h
    · rename_i b heq
      rw [heq] at hu'
      exact ih hu' h
    · have heq := Option.some.inj h
      rw [heq] at hu' hid
      exact ⟨hu', hid sub rfl⟩

/-- Whatever fails and whatever changes in between, a call that returns without
an error reports what it has committed, unless a round that is reached is stale. -/
theorem reported_iff {p : GetSubscriptionMessagesParams} {first : List Attempt}
    {rounds : List Round} {r : Except Failure Unit}
    (h : executeClient p first rounds = some (r, a)) :
    (r = .ok () → a.Reported) ↔ ¬∃ q, bound p first = some q ∧ StaleRun q rounds := by
  unfold executeClient at h
  unfold bound
  cases hfirst : doCtxTxRetry (fun p => verifySub p) touchBody first ⟨p, none, []⟩ with
  | none =>
    rw [hfirst] at h
    cases h
  | some result =>
    obtain ⟨ret, b⟩ := result
    rw [hfirst] at h
    cases ret with
    | error e =>
      cases h
      exact iff_of_true (fun he => by cases he) (by simp)
    | ok sub =>
      obtain ⟨hu, hid⟩ := touch_bound ⟨rfl, by simp⟩ hfirst
      have hrounds := retryRounds_reported hid hu.results hu.still h
      simpa using hrounds

end

def sharedBus : World := World.initial.run [
  Sample.ordersTopic 1 10,
  Sample.worker 2 20,
  Sample.publish "1" "" 3 30]

def sharedParams : GetSubscriptionMessagesParams := ⟨"worker", none, 10, 100, false⟩

def takenBus : World := sharedBus.run [⟨.plain 4 40, .get sharedParams, by decide⟩]

def sharedFirst : List Attempt := [⟨⟨.plain 4 50, sharedBus.db⟩, none⟩]

def sharedRounds : List Round :=
  [⟨[⟨⟨.plain 4 60, sharedBus.db⟩, some (.commit, .deadlockDetected)⟩,
    ⟨⟨.plain 5 70, takenBus.db⟩, none⟩], .again⟩]

theorem shared_returns :
    ((executeClient sharedParams sharedFirst sharedRounds).map (fun r => (r.1.toBool,
      r.2.results.map (fun res => res.deliveries.map (·.id)),
      r.2.commits.all (fun w => decide (w.after.deliveries = w.before.deliveries))))) =
      some (true, some [31], true) := by
  decide +kernel

theorem shared_unreported : bus.Reachable sharedBus ∧ bus.Reachable takenBus ∧
    ∃ a, executeClient sharedParams sharedFirst sharedRounds = some (.ok (), a) ∧ ¬a.Reported := by
  obtain ⟨⟨r, a⟩, hrun, hfacts⟩ := Option.map_eq_some_iff.mp shared_returns
  simp only [Prod.mk.injEq] at hfacts
  obtain ⟨hok, hids, hstill⟩ := hfacts
  obtain ⟨res, hres, hdeliveries⟩ := Option.map_eq_some_iff.mp hids
  have hbus : bus.Reachable sharedBus := initial_reachable _
  refine ⟨hbus, run_reachable hbus _, a, ?_, ?_⟩
  · rw [hrun]
    cases r with
    | error e => cases hok
    | ok u => rfl
  · intro hreported
    obtain ⟨y, hy⟩ : ∃ y, y ∈ res.deliveries := by
      cases hd : res.deliveries with
      | nil =>
        rw [hd] at hdeliveries
        cases hdeliveries
      | cons y rest => exact ⟨y, by simp⟩
    obtain ⟨w, hw, hattempted⟩ := hreported res hres y hy
    have hsame : w.Still := by
      simpa [Commit.Still] using List.all_eq_true.mp hstill w hw
    exact hsame.not_attempted y hattempted

theorem reported_shared : ∃ a,
    executeClient sharedParams sharedFirst [⟨[⟨⟨.plain 4 60, sharedBus.db⟩, none⟩], .again⟩] =
      some (.ok (), a) ∧ a.Reported := by
  have hreturns : (executeClient sharedParams sharedFirst
      [⟨[⟨⟨.plain 4 60, sharedBus.db⟩, none⟩], .again⟩]).map (fun r => r.1.toBool) = some true := by
    decide +kernel
  obtain ⟨⟨r, a⟩, hrun, hok⟩ := Option.map_eq_some_iff.mp hreturns
  cases r with
  | error e => cases hok
  | ok u =>
    refine ⟨a, hrun, (reported_iff hrun).mpr ?_ rfl⟩
    rintro ⟨q, -, hstale⟩
    exact not_stale_of_commits (by simp) hstale

end Mmmbbb.Retrying
