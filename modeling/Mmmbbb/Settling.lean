import Mmmbbb.Publishers

/-!
# Acknowledging and dead-lettering at once

Acks, nacks and the sweep for what has used up its attempts, as the statements
that they send, at READ COMMITTED. An ack looks at what it completes; the
update that ends a dead-lettering goes by the identifier only.
-/

set_option autoImplicit false

namespace Mmmbbb.Settling
open KeyedRows Programs ReadCommitted Mmmbbb.Schema Mmmbbb.Database Mmmbbb.Delivering
open Mmmbbb.Consuming

inductive Write
  | forward (id : UUID) (rows : List Delivery)
  | deadLetter (id : UUID) (now : Time)
  | ack (ids : List UUID) (now : Time)
  | reschedule (id : UUID) (attemptAt : Time)
  deriving DecidableEq

def Write.inserts : Write → List UUID
  | .forward _ rows => rows.map Delivery.id
  | _ => []

def Write.updates : Write → List UUID
  | .forward _ _ => []
  | .deadLetter id _ => [id]
  | .ack ids _ => ids
  | .reschedule id _ => [id]

def Write.completes : Write → List UUID
  | .deadLetter id _ => [id]
  | .ack ids _ => ids
  | _ => []

def Write.clash (w w' : Write) : Bool :=
  w.inserts.any (fun k => decide (k ∈ w'.inserts)) ||
    w.updates.any (fun k => decide (k ∈ w'.updates))

def update (ids : List UUID) (u : DeliveryUpdate) (t : Tables) : Tables :=
  { t with deliveries := t.deliveries.map (setWhere (fun d => decide (d.id ∈ ids)) u.apply) }

def Write.apply (t : Tables) : Write → Tables
  | .forward _ rows => { t with deliveries := t.deliveries ++ rows }
  | .deadLetter id now => update [id] { completedAt := some (some now) } t
  | .ack ids now => update ids { completedAt := some (some now) } t
  | .reschedule id attemptAt => update [id] { attemptAt := some attemptAt } t

structure Ledger where
  tables : Tables
  history : List Write

def Ledger.apply (t : Ledger) (w : Write) : Ledger := ⟨w.apply t.tables, t.history ++ [w]⟩

inductive Task
  | deadLetter (data : DeadLetterData)
  | reschedule (id : UUID) (attemptAt : Time)
  | missing

/-- How far an action has come: the tasks that are left, or half of a
dead-lettering and the tasks after it. -/
inductive Point
  | ready
  | working (env : Env) (drawn : ℕ) (tasks : List Task)
  | forwarded (env : Env) (drawn : ℕ) (data : DeadLetterData) (tasks : List Task)

def Point.owed : Point → List UUID
  | .forwarded _ _ data _ => [data.deliveryID]
  | _ => []

inductive Statement
  | sweep (env : Env) (maxDeliveries : ℕ)
  | nack (env : Env) (ids : List UUID)
  | ack (env : Env) (ids : List UUID)
  | next

def sweepTasks (env : Env) (maxDeliveries : ℕ) (t : Tables) : List Task :=
  (deadLetterSelection env t maxDeliveries).map .deadLetter

def nackTask (env : Env) (subs : List Subscription) (d : Delivery) : Task :=
  match fetch Subscription.id d.subscriptionID subs with
  | none => .missing
  | some sub =>
    match sub.deadLetterTopicFor d with
    | some deadLetterTopicID => .deadLetter (deadLetterDataFromEntities d deadLetterTopicID)
    | none => .reschedule d.id (env.now + (nextDelayFor sub d.attempts).2)

def nackTasks (env : Env) (ids : List UUID) (t : Tables) : List Task :=
  (orderBy (fun d => (d.id : ℤ))
    (env.deliveries.run (t.deliveries.filter (nackPredicates env.now ids)))).map
      (nackTask env t.subscriptions)

def forwardRows (env : Env) (drawn : ℕ) (data : DeadLetterData) (t : Tables) :
    Except Error (List Delivery) :=
  match liveTopic t data.deadLetterTopicID with
  | none => .ok []
  | some dlTopic =>
    let subs := liveSubscriptions env t dlTopic.id
    if subs = [] then .ok []
    else
      match fetch Message.id data.deliveryMessageID t.messages with
      | none => .error .errNotFound
      | some m =>
        .ok (deliveryRows env drawn (subs.filterMap (fun s => deliverToSubscription env t s m)))

def statement : Statement → Point → Ledger → Except Error (List Write × Point)
  | .sweep env maxDeliveries, .ready, t =>
    .ok ([], .working env 0 (sweepTasks env maxDeliveries t.tables))
  | .nack env ids, .ready, t => .ok ([], .working env 0 (nackTasks env ids t.tables))
  | .ack env ids, .ready, t =>
    .ok ([.ack ((t.tables.deliveries.filter (ackPredicates ids)).map Delivery.id) env.now], .ready)
  | .next, .working _ _ [], _ => .ok ([], .ready)
  | .next, .working env drawn (.deadLetter data :: tasks), t => do
    let rows ← forwardRows env drawn data t.tables
    failWhen (¬ ((rows.map Delivery.id).Nodup ∧
      ∀ r ∈ rows, ¬ Has Delivery.id r.id t.tables.deliveries)) .constraint
    pure ([.forward data.deliveryID rows], .forwarded env (drawn + rows.length) data tasks)
  | .next, .forwarded env drawn data tasks, t => do
    failWhen (¬ Has Delivery.id data.deliveryID t.tables.deliveries) .errNotFound
    pure ([.deadLetter data.deliveryID env.now], .working env drawn tasks)
  | .next, .working env drawn (.reschedule id attemptAt :: tasks), t => do
    failWhen (¬ Has Delivery.id id t.tables.deliveries) .errNotFound
    pure ([.reschedule id attemptAt], .working env drawn tasks)
  | _, _, _ => .error .panic

def settling : Program Statement Ledger Write Point Error where
  start := .ready
  apply := Ledger.apply
  clash := Write.clash
  statement := statement
  ready
    | .ready => true
    | _ => false

abbrev Sessions (n : ℕ) := State n Ledger Write Point

inductive Does (t : Ledger) : Statement → Point → List Write → Point → Prop
  | sweep {env : Env} {maxDeliveries : ℕ} :
      Does t (.sweep env maxDeliveries) .ready []
        (.working env 0 (sweepTasks env maxDeliveries t.tables))
  | nack {env : Env} {ids : List UUID} :
      Does t (.nack env ids) .ready [] (.working env 0 (nackTasks env ids t.tables))
  | ack {env : Env} {ids : List UUID} :
      Does t (.ack env ids) .ready
        [.ack ((t.tables.deliveries.filter (ackPredicates ids)).map Delivery.id) env.now] .ready
  | finish {env : Env} {drawn : ℕ} : Does t .next (.working env drawn []) [] .ready
  | forward {env : Env} {drawn : ℕ} {data : DeadLetterData} {tasks : List Task}
      {rows : List Delivery} : forwardRows env drawn data t.tables = .ok rows →
      (rows.map Delivery.id).Nodup →
      (∀ r ∈ rows, ¬ Has Delivery.id r.id t.tables.deliveries) →
      Does t .next (.working env drawn (.deadLetter data :: tasks))
        [.forward data.deliveryID rows] (.forwarded env (drawn + rows.length) data tasks)
  | complete {env : Env} {drawn : ℕ} {data : DeadLetterData} {tasks : List Task} :
      Has Delivery.id data.deliveryID t.tables.deliveries →
      Does t .next (.forwarded env drawn data tasks) [.deadLetter data.deliveryID env.now]
        (.working env drawn tasks)
  | reschedule {env : Env} {drawn : ℕ} {id : UUID} {attemptAt : Time} {tasks : List Task} :
      Has Delivery.id id t.tables.deliveries →
      Does t .next (.working env drawn (.reschedule id attemptAt :: tasks))
        [.reschedule id attemptAt] (.working env drawn tasks)

theorem statement_does {t : Ledger} {a : Statement} {p q : Point} {ws : List Write}
    (h : statement a p t = .ok (ws, q)) : Does t a p ws q := by
  unfold statement at h
  split at h
  · cases h
    exact .sweep
  · cases h
    exact .nack
  · cases h
    exact .ack
  · cases h
    exact .finish
  · obtain ⟨rows, hrows, h⟩ := bind_ok.mp h
    obtain ⟨u, hu, h⟩ := bind_ok.mp h
    obtain ⟨rfl, rfl⟩ := Prod.mk.inj (pure_ok.mp h)
    obtain ⟨hnodup, hfresh⟩ := not_not.mp (failWhen_ok.mp hu)
    exact .forward hrows hnodup hfresh
  · obtain ⟨u, hu, h⟩ := bind_ok.mp h
    obtain ⟨rfl, rfl⟩ := Prod.mk.inj (pure_ok.mp h)
    exact .complete (not_not.mp (failWhen_ok.mp hu))
  · obtain ⟨u, hu, h⟩ := bind_ok.mp h
    obtain ⟨rfl, rfl⟩ := Prod.mk.inj (pure_ok.mp h)
    exact .reschedule (not_not.mp (failWhen_ok.mp hu))
  · cases h

def runTask (env : Env) : Task → Tx → Except Error Tx
  | .deadLetter data, tx => deadLetterDelivery env data tx
  | .reschedule id attemptAt, tx => tx.updateDelivery id { attemptAt := some attemptAt }
  | .missing, _ => .error .panic

section
variable {env : Env} {t : Ledger} {log : List Write} {tx tx' : Tx}

theorem updateDelivery_update {id : UUID} {u : DeliveryUpdate}
    (h : tx.updateDelivery id u = .ok tx') :
    Has Delivery.id id tx.db.deliveries ∧ update [id] u tx.db.toTables = tx'.db.toTables ∧
      tx'.drawn = tx.drawn := by
  unfold Tx.updateDelivery at h
  split at h
  · rename_i hhas
    cases h
    have hone : (fun d : Delivery => decide (d.id ∈ [id])) = fun d => decide (d.id = id) := by
      funext d
      simp
    refine ⟨hhas, ?_, rfl⟩
    rw [update, hone]
    rfl
  · cases h

theorem deliverDeadLetter_forward {data : DeadLetterData}
    (h : deliverDeadLetter env data tx = .ok tx') :
    ∃ rows, forwardRows env tx.drawn data tx.db.toTables = .ok rows ∧
      (rows.map Delivery.id).Nodup ∧ (∀ r ∈ rows, ¬ Has Delivery.id r.id tx.db.deliveries) ∧
      tx'.db.toTables = { tx.db.toTables with deliveries := tx.db.deliveries ++ rows } ∧
      tx'.drawn = tx.drawn + rows.length := by
  unfold deliverDeadLetter at h
  unfold forwardRows
  cases hlive : liveTopic tx.db.toTables data.deadLetterTopicID with
  | none =>
    simp only [hlive] at h
    cases h
    exact ⟨[], rfl, by simp⟩
  | some dlTopic =>
    by_cases hsubs : liveSubscriptions env tx.db.toTables dlTopic.id = []
    · simp only [hlive, hsubs, if_true] at h ⊢
      cases h
      exact ⟨[], rfl, by simp⟩
    · cases hm : fetch Message.id data.deliveryMessageID tx.db.messages with
      | none =>
        simp only [hlive, hsubs, if_false, hm] at h
        cases h
      | some m =>
        simp only [hlive, hsubs, if_false, hm] at h ⊢
        obtain ⟨hnodup, hfresh, htables, hdrawn⟩ := createBulk_rows h
        exact ⟨_, rfl, hnodup, hfresh, htables, by simpa [deliverAll] using hdrawn⟩

theorem solo_deadLetter {data : DeadLetterData} (tasks : List Task)
    (hview : (log.foldl Ledger.apply t).tables = tx.db.toTables)
    (h : deadLetterDelivery env data tx = .ok tx') :
    ∃ log', settling.solo t [.next, .next] ⟨log, .working env tx.drawn (.deadLetter data :: tasks)⟩ =
        .ok ⟨log', .working env tx'.drawn tasks⟩ ∧
      (log'.foldl Ledger.apply t).tables = tx'.db.toTables := by
  obtain ⟨mid, hmid, h⟩ := bind_ok.mp h
  obtain ⟨last, hlast, h⟩ := bind_ok.mp h
  obtain rfl := pure_ok.mp h
  obtain ⟨rows, hrows, hnodup, hfresh, htables, hdrawn⟩ := deliverDeadLetter_forward hmid
  obtain ⟨hhas, hupdate, hdrawn'⟩ := updateDelivery_update hlast
  have hforward : settling.statement .next (.working env tx.drawn (.deadLetter data :: tasks))
      (log.foldl Ledger.apply t) =
        .ok ([.forward data.deliveryID rows], .forwarded env mid.drawn data tasks) := by
    rw [hdrawn]
    refine bind_ok.mpr ⟨rows, hview ▸ hrows, bind_ok.mpr ⟨(), failWhen_ok.mpr ?_, rfl⟩⟩
    rw [hview]
    exact not_not.mpr ⟨hnodup, hfresh⟩
  have hmidView : ((log ++ [Write.forward data.deliveryID rows]).foldl Ledger.apply t).tables =
      mid.db.toTables := by
    rw [List.foldl_append, htables, ← hview]
    rfl
  have hcomplete : settling.statement .next (.forwarded env mid.drawn data tasks)
      ((log ++ [Write.forward data.deliveryID rows]).foldl Ledger.apply t) =
        .ok ([.deadLetter data.deliveryID env.now], .working env mid.drawn tasks) := by
    refine bind_ok.mpr ⟨(), failWhen_ok.mpr ?_, rfl⟩
    rw [hmidView]
    exact not_not.mpr hhas
  refine ⟨log ++ [.forward data.deliveryID rows] ++ [.deadLetter data.deliveryID env.now], ?_, ?_⟩
  · rw [solo_cons (P := settling) hforward, solo_cons (P := settling) hcomplete, ← hdrawn']
    rfl
  · rw [List.foldl_append]
    simp only [List.foldl_cons, List.foldl_nil, Ledger.apply, Write.apply, hmidView]
    exact hupdate

theorem solo_tasks (tasks : List Task) (hview : (log.foldl Ledger.apply t).tables = tx.db.toTables)
    (h : tasks.foldlM (fun tx task => runTask env task tx) tx = .ok tx') :
    ∃ k log', settling.solo t (List.replicate k .next) ⟨log, .working env tx.drawn tasks⟩ =
        .ok ⟨log', .ready⟩ ∧
      (log'.foldl Ledger.apply t).tables = tx'.db.toTables := by
  induction tasks generalizing tx log with
  | nil =>
    obtain rfl : tx = tx' := by simpa using h
    refine ⟨1, log ++ [], ?_, by simpa using hview⟩
    exact solo_cons (P := settling) (a := .next) rfl
  | cons task tasks ih =>
    rw [List.foldlM_cons] at h
    obtain ⟨mid, hmid, hrest⟩ := bind_ok.mp h
    cases task with
    | deadLetter data =>
      obtain ⟨log', hsolo, hview'⟩ := solo_deadLetter tasks hview hmid
      obtain ⟨k, last, hlast, hend⟩ := ih hview' hrest
      refine ⟨k + 2, last, ?_, hend⟩
      rw [Nat.add_comm, List.replicate_add]
      exact (solo_append hsolo).trans hlast
    | reschedule id attemptAt =>
      obtain ⟨hhas, hupdate, hdrawn⟩ := updateDelivery_update hmid
      have hview' : ((log ++ [Write.reschedule id attemptAt]).foldl Ledger.apply t).tables =
          mid.db.toTables := by
        rw [List.foldl_append, ← hupdate, ← hview]
        rfl
      have hstep : settling.statement .next
          (.working env tx.drawn (.reschedule id attemptAt :: tasks))
          (log.foldl Ledger.apply t) =
            .ok ([.reschedule id attemptAt], .working env tx.drawn tasks) := by
        refine bind_ok.mpr ⟨(), failWhen_ok.mpr ?_, rfl⟩
        rw [hview]
        exact not_not.mpr hhas
      obtain ⟨k, last, hlast, hend⟩ := ih hview' hrest
      refine ⟨k + 1, last, ?_, hend⟩
      rw [List.replicate_succ, solo_cons (P := settling) hstep, ← hdrawn]
      exact hlast
    | missing => cases hmid

end

section
variable {n : ℕ} {st : Sessions n} {i : Fin n} {env : Env} {db : DB} {tx : Tx}

/-- Run while no other session is under way, the statements of an action do
what the action does. -/
theorem alone {a : Statement} {tasks : List Task} (hst : ∀ j, st.session j = settling.fresh)
    (hdb : st.committed.tables = db.toTables)
    (ha : statement a .ready st.committed = .ok ([], .working env 0 tasks))
    (h : tasks.foldlM (fun tx task => runTask env task tx) (.begin db) = .ok tx) :
    ∃ k, ∃ st' : Sessions n, settling.runs (fun _ _ _ => True) st
        ((a :: List.replicate k .next).map (.run i) ++ [.commit i]) = some st' ∧
      st'.committed.tables = tx.db.toTables ∧ st'.session = st.session := by
  have hstart : (([] : List Write).foldl Ledger.apply st.committed).tables =
      (Tx.begin db).db.toTables := hdb
  obtain ⟨k, log, hsolo, hend⟩ := solo_tasks tasks hstart h
  have hall : settling.solo st.committed (a :: List.replicate k .next) settling.fresh =
      .ok ⟨log, .ready⟩ := by
    rw [solo_cons (P := settling) (s := settling.fresh) ha]
    exact hsolo
  exact ⟨k, _, runs_alone hst hall rfl, hend, rfl⟩

theorem sweep_alone {maxDeliveries : ℕ} {res : DeadLetterDeliveriesResults}
    (hst : ∀ j, st.session j = settling.fresh) (hdb : st.committed.tables = db.toTables)
    (h : deadLetterDeliveries env maxDeliveries (.begin db) = .ok (res, tx)) :
    ∃ k, ∃ st' : Sessions n, settling.runs (fun _ _ _ => True) st
        ((.sweep env maxDeliveries :: List.replicate k .next).map (.run i) ++ [.commit i]) =
          some st' ∧
      st'.committed.tables = tx.db.toTables ∧ st'.session = st.session := by
  obtain ⟨last, hlast, h⟩ := bind_ok.mp h
  obtain ⟨-, rfl⟩ := Prod.mk.inj (pure_ok.mp h)
  have htasks : (sweepTasks env maxDeliveries st.committed.tables).foldlM
      (fun tx task => runTask env task tx) (.begin db) = .ok last := by
    rw [sweepTasks, List.foldlM_map, hdb]
    exact hlast
  exact alone hst hdb rfl htasks

theorem nack_tasks {subs : List Subscription} {rows : List Delivery} {st st' : Tx × ℕ}
    (h : rows.foldlM (nackOne env subs) st = .ok st') :
    (rows.map (nackTask env subs)).foldlM (fun tx task => runTask env task tx) st.1 =
      .ok st'.1 := by
  induction rows generalizing st with
  | nil =>
    obtain rfl : st = st' := by simpa using h
    rfl
  | cons d rows ih =>
    rw [List.foldlM_cons] at h
    obtain ⟨mid, hmid, hrest⟩ := bind_ok.mp h
    rw [List.map_cons, List.foldlM_cons]
    refine bind_ok.mpr ⟨mid.1, ?_, ih hrest⟩
    unfold nackOne at hmid
    unfold nackTask
    cases hsub : fetch Subscription.id d.subscriptionID subs with
    | none =>
      simp only [hsub] at hmid
      cases hmid
    | some sub =>
      cases hk : sub.deadLetterTopicFor d with
      | some k =>
        simp only [hsub, hk] at hmid ⊢
        obtain ⟨tx, htx, rfl⟩ := map_ok.mp hmid
        exact htx
      | none =>
        simp only [hsub, hk] at hmid ⊢
        obtain ⟨tx, htx, rfl⟩ := map_ok.mp hmid
        exact htx

theorem nack_alone {ms : List UUID} {res : NackDeliveriesResults}
    (hst : ∀ j, st.session j = settling.fresh) (hdb : st.committed.tables = db.toTables)
    (h : nackDeliveries env ms (.begin db) = .ok (res, tx)) :
    ∃ k, ∃ st' : Sessions n, settling.runs (fun _ _ _ => True) st
        ((.nack env ms :: List.replicate k .next).map (.run i) ++ [.commit i]) = some st' ∧
      st'.committed.tables = tx.db.toTables ∧ st'.session = st.session := by
  obtain ⟨last, hlast, h⟩ := bind_ok.mp h
  obtain ⟨-, rfl⟩ := Prod.mk.inj (pure_ok.mp h)
  have htasks : (nackTasks env ms st.committed.tables).foldlM
      (fun tx task => runTask env task tx) (.begin db) = .ok last.1 := by
    rw [nackTasks, hdb]
    exact nack_tasks hlast
  exact alone hst hdb rfl htasks

theorem update_matched {t : Tables} {p : Delivery → Bool} {u : DeliveryUpdate}
    (h : UniqueKeys Delivery.id t.deliveries) :
    update ((t.deliveries.filter p).map Delivery.id) u t =
      { t with deliveries := t.deliveries.map (setWhere p u.apply) } := by
  have hmatched : ∀ d ∈ t.deliveries,
      decide (d.id ∈ (t.deliveries.filter p).map Delivery.id) = p d := by
    intro d hd
    cases hp : p d with
    | true => simpa using ⟨d, ⟨hd, hp⟩, rfl⟩
    | false =>
      have hnone : d.id ∉ (t.deliveries.filter p).map Delivery.id := by
        intro hmem
        obtain ⟨x, hx, hid⟩ := List.mem_map.mp hmem
        obtain ⟨hx, hpx⟩ := List.mem_filter.mp hx
        rw [h.eq hx hd hid, hp] at hpx
        cases hpx
      exact decide_eq_false hnone
  rw [update]
  congr 1
  refine List.map_congr_left fun d hd => ?_
  simp only [setWhere, hmatched d hd]

theorem ack_alone {ms : List UUID} (hst : ∀ j, st.session j = settling.fresh)
    (hdb : st.committed.tables = db.toTables) :
    ∃ st' : Sessions n, settling.runs (fun _ _ _ => True) st [.run i (.ack env ms), .commit i] =
        some st' ∧
      st'.committed.tables = (ackDeliveries env ms (.begin db)).2.db.toTables ∧
      st'.session = st.session := by
  have hall : settling.solo st.committed [.ack env ms] settling.fresh =
      .ok ⟨[.ack ((st.committed.tables.deliveries.filter (ackPredicates ms)).map Delivery.id)
        env.now], .ready⟩ := solo_cons (P := settling) (s := settling.fresh) rfl
  refine ⟨_, runs_alone hst hall rfl, ?_, rfl⟩
  change update _ _ st.committed.tables = _
  rw [hdb, update_matched db.sound.delivery_pk]
  rfl

end

end Mmmbbb.Settling
