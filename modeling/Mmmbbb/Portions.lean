import Mmmbbb.Attempts
import Mmmbbb.Budgets

/-!
# What a pull does with the deliveries it has fetched

The loop of `applyResults` is a budgeted pass: what has used up its attempts
is set aside to be dead-lettered, and what is taken is handed out. The writes
that follow touch the rows of these two kinds and no other.
-/

set_option autoImplicit false

namespace Mmmbbb.Portions
open KeyedRows Budgets Programs Mmmbbb.Schema Mmmbbb.Database Mmmbbb.Delivering Mmmbbb.Consuming
open Mmmbbb.Pruning Mmmbbb.Runs Mmmbbb.Writes

abbrev Fetched := Delivery × Message

def payloadSize (x : Fetched) : ℤ := x.2.payload.length

theorem payloadSize_nonneg (x : Fetched) : 0 ≤ payloadSize x := Int.natCast_nonneg _

def pullPass (p : GetSubscriptionMessagesParams) (sub : Subscription) : Pass Fetched UUID where
  size := payloadSize
  aside := fun x => sub.deadLetterTopicFor x.1
  limit := p.maxBytes
  most := p.maxMessages
  strict := p.maxBytesStrict

def deadLetterAll (env : Env) (xs : List (Fetched × UUID)) (tx : Tx) : Except Error Tx :=
  xs.foldlM (fun tx x => deadLetterDelivery env (deadLetterDataFromEntities x.1.1 x.2) tx) tx

section
variable {env : Env} {p : GetSubscriptionMessagesParams} {sub : Subscription}

theorem applyLoop_eq (i : ℕ) (rest : List Fetched) (st : Applied) :
    applyLoop env p sub i rest st =
      (deadLetterAll env ((pullPass p sub).portion i st.bytes rest).aside st.tx).map (fun tx => {
        tx := tx
        bytes := st.bytes +
          (pullPass p sub).total ((pullPass p sub).portion i st.bytes rest).taken
        deliveries := st.deliveries ++
          ((pullPass p sub).portion i st.bytes rest).taken.map (fun x => handOut env sub x.1 x.2)
        numDeadLettered := st.numDeadLettered +
          ((pullPass p sub).portion i st.bytes rest).aside.length }) := by
  induction rest generalizing i st with
  | nil => simp [applyLoop, Pass.portion, deadLetterAll, Except.map, pure, Except.pure]
  | cons x rest ih =>
    obtain ⟨d, m⟩ := x
    have hover : (pullPass p sub).Over i st.bytes (d, m) ↔
        ((p.maxBytesStrict || decide (0 < i)) &&
          decide (p.maxBytes < st.bytes + m.payload.length)) = true := by
      simp [Pass.Over, pullPass, payloadSize]
    rw [applyLoop, Pass.portion]
    by_cases hskip : (pullPass p sub).Over i st.bytes (d, m)
    · rw [if_pos hskip, if_pos (hover.mp hskip)]
      exact ih (i + 1) st
    · rw [if_neg hskip, if_neg (fun h => hskip (hover.mpr h))]
      cases ht : sub.deadLetterTopicFor d with
      | some t =>
        have haside : (pullPass p sub).aside (d, m) = some t := ht
        simp only [haside]
        rw [deadLetterAll, List.foldlM_cons]
        cases htx : deadLetterDelivery env (deadLetterDataFromEntities d t) st.tx with
        | error err => rfl
        | ok tx =>
          dsimp only
          rw [ih, List.length_cons, ← Nat.add_assoc, Nat.add_right_comm]
          rfl
      | none =>
        have haside : (pullPass p sub).aside (d, m) = none := ht
        simp only [haside]
        by_cases hbreak : p.maxMessages ≤ (i : ℤ) + 1
        · have hmost : (pullPass p sub).most ≤ (i : ℤ) + 1 := hbreak
          rw [if_pos hbreak, if_pos hmost]
          simp [deadLetterAll, Except.map, pure, Except.pure, Applied.deliver, handOut, pullPass,
            payloadSize]
        · have hmost : ¬ (pullPass p sub).most ≤ (i : ℤ) + 1 := hbreak
          rw [if_neg hbreak, if_neg hmost, ih]
          simp only [Applied.deliver, handOut, Pass.total_cons, List.map_cons, List.append_assoc,
            List.singleton_append]
          simp only [pullPass, payloadSize, add_assoc]

theorem applyResults_deliveries {fetched : List Fetched} {tx tx' : Tx}
    {res : GetSubscriptionMessagesResults}
    (h : applyResults env p sub fetched tx = .ok (res, tx')) :
    res.deliveries =
      ((pullPass p sub).portion 0 0 fetched).taken.map (fun x => handOut env sub x.1 x.2) := by
  obtain ⟨start, -, h⟩ := bind_ok.mp h
  obtain ⟨st, hst, h⟩ := bind_ok.mp h
  obtain ⟨last, -, h⟩ := bind_ok.mp h
  obtain ⟨rfl, -⟩ := Prod.mk.inj (pure_ok.mp h)
  rw [applyLoop_eq] at hst
  obtain ⟨mid, -, rfl⟩ := map_ok.mp hst
  exact List.nil_append _

end

def completion (env : Env) : DeliveryUpdate := { completedAt := some (some env.now) }

structure Copied (db : DB) (x : Fetched × UUID) (r : Delivery) : Prop where
  fresh : ¬ Has Delivery.id r.id db.deliveries
  message : r.messageID = x.1.1.messageID
  attempts : r.attempts = 0
  completedAt : r.completedAt = none
  subscription : ∃ s ∈ db.subscriptions, s.id = r.subscriptionID ∧ s.topicID = x.2 ∧
    s.deletedAt = none

theorem deliverDeadLetter_rows {env : Env} {x : Fetched × UUID} {tx tx' : Tx}
    (h : deliverDeadLetter env (deadLetterDataFromEntities x.1.1 x.2) tx = .ok tx') :
    ∃ new, tx'.db.toTables = { tx.db.toTables with deliveries := tx.db.deliveries ++ new } ∧
      ∀ r ∈ new, Copied tx.db x r := by
  unfold deliverDeadLetter at h
  split at h
  · cases h
    exact ⟨[], by simp⟩
  · rename_i dlTopic hsome
    have hid : dlTopic.id = x.2 := by
      have hfound := List.find?_some hsome
      simp only [deadLetterDataFromEntities, Bool.and_eq_true] at hfound
      exact of_decide_eq_true hfound.1
    dsimp only at h
    split at h
    · cases h
      exact ⟨[], by simp⟩
    · split at h
      · cases h
      · rename_i m hf
        have hm : m.id = x.1.1.messageID := (fetch_mem hf).2
        obtain ⟨-, hnew, htab, -⟩ := createBulk_rows h
        refine ⟨_, htab, fun r hr => ?_⟩
        have hfresh := hnew r hr
        obtain ⟨k, hk, rfl⟩ := mem_deliveryRows.mp hr
        obtain ⟨s, hs, hc⟩ := List.mem_filterMap.mp (List.getElem_mem hk)
        obtain ⟨-, hset⟩ := deliverToSubscription_some.mp hc
        obtain ⟨hs, htopic, hlive⟩ := mem_liveSubscriptions.mp hs
        rw [← hset] at hfresh ⊢
        exact ⟨hfresh, hm, rfl, rfl, s, hs, rfl, htopic.trans hid, hlive⟩

def completed (env : Env) (ks : List UUID) (rows : List Delivery) : List Delivery :=
  rows.map (setWhere (fun d => decide (d.id ∈ ks)) (completion env).apply)

theorem completed_nil (env : Env) (rows : List Delivery) : completed env [] rows = rows := by
  have hid : ∀ r : Delivery,
      setWhere (fun d => decide (d.id ∈ ([] : List UUID))) (completion env).apply r = r := by
    intro r
    simp [setWhere]
  rw [completed, List.map_congr_left (fun r _ => hid r), List.map_id']

theorem completed_fresh {env : Env} {ks : List UUID} {rows : List Delivery}
    (h : ∀ r ∈ rows, r.id ∉ ks) : completed env ks rows = rows := by
  have hid : ∀ r ∈ rows, setWhere (fun d => decide (d.id ∈ ks)) (completion env).apply r = r := by
    intro r hr
    simp [setWhere, h r hr]
  rw [completed, List.map_congr_left hid, List.map_id']

theorem completed_append (env : Env) (ks : List UUID) (rows new : List Delivery) :
    completed env ks (rows ++ new) = completed env ks rows ++ completed env ks new :=
  List.map_append

theorem completed_cons (env : Env) (k : UUID) (ks : List UUID) (rows : List Delivery) :
    completed env ks (completed env [k] rows) = completed env (k :: ks) rows := by
  simp only [completed, List.map_map]
  refine List.map_congr_left fun r _ => ?_
  by_cases hk : r.id = k
  · by_cases hks : r.id ∈ ks <;> simp [setWhere, hk, completion, DeliveryUpdate.apply]
  · by_cases hks : r.id ∈ ks <;> simp [setWhere, hk, hks]

theorem has_completed {env : Env} {ks : List UUID} {rows : List Delivery} {k : UUID} :
    Has Delivery.id k (completed env ks rows) ↔ Has Delivery.id k rows := by
  constructor
  · rintro ⟨x, hx, hid⟩
    obtain ⟨r, hr, rfl⟩ := List.mem_map.mp hx
    exact ⟨r, hr, by rwa [setWhere_id] at hid⟩
  · intro h
    exact h.map (setWhere_keeps Delivery.id (completion env).apply_id)

theorem updated_completed (env : Env) (db : DB) (k : UUID) :
    (db.updateDeliveries (fun d => decide (d.id = k)) (completion env)).toTables =
      { db.toTables with deliveries := completed env [k] db.deliveries } := by
  simp [DB.updateDeliveries, completed]

theorem Copied.before {db mid : DB} {x : Fetched × UUID} {r : Delivery} (h : Copied mid x r)
    (hsubs : mid.subscriptions = db.subscriptions)
    (hrows : ∀ k, Has Delivery.id k db.deliveries → Has Delivery.id k mid.deliveries) :
    Copied db x r where
  fresh := fun hhas => h.fresh (hrows _ hhas)
  message := h.message
  attempts := h.attempts
  completedAt := h.completedAt
  subscription := hsubs ▸ h.subscription

def fetchedIDs (xs : List (Fetched × UUID)) : List UUID := xs.map (fun x => x.1.1.id)

/-- The sweep loads no messages. -/
def unloaded : Message := ⟨0, 0, [], [], 0, none⟩

def selected (env : Env) (t : Tables) (n : ℕ) : List (Fetched × UUID) :=
  ((env.deliveries.run
    (t.deliveries.filter (fun d => (deadLetterTarget env.now t d).isSome))).take n).filterMap
      (fun d => (deadLetterTarget env.now t d).map (fun k => ((d, unloaded), k)))

theorem selected_data (env : Env) (t : Tables) (n : ℕ) :
    deadLetterSelection env t n =
      (selected env t n).map (fun x => deadLetterDataFromEntities x.1.1 x.2) := by
  rw [deadLetterSelection, selected, List.map_filterMap]
  refine congrArg (fun f => List.filterMap f _) (funext fun d => ?_)
  rw [Option.map_map]
  rfl

theorem fetchedIDs_filterMap {f : Delivery → Option UUID} {rows : List Delivery}
    (h : ∀ d ∈ rows, (f d).isSome) :
    fetchedIDs (rows.filterMap (fun d => (f d).map (fun k => ((d, unloaded), k)))) =
      rows.map Delivery.id := by
  induction rows with
  | nil => rfl
  | cons d rows ih =>
    obtain ⟨k, hk⟩ := Option.isSome_iff_exists.mp (h d (by simp))
    have hrest := ih fun r hr => h r (by simp [hr])
    rw [List.filterMap_cons, hk, List.map_cons, ← hrest]
    rfl

theorem selected_ids (env : Env) (t : Tables) (n : ℕ) :
    fetchedIDs (selected env t n) = selectIDs Delivery.id env.deliveries
      (fun d => (deadLetterTarget env.now t d).isSome) n t.deliveries := by
  refine fetchedIDs_filterMap fun d hd => ?_
  have hrun := List.mem_of_mem_take hd
  rw [ScanOrder.mem_run, List.mem_filter] at hrun
  exact hrun.2

theorem selected_mem {env : Env} {t : Tables} {n : ℕ} {x : Fetched × UUID}
    (h : x ∈ selected env t n) :
    x.1.1 ∈ t.deliveries ∧ deadLetterTarget env.now t x.1.1 = some x.2 := by
  obtain ⟨d, hd, hx⟩ := List.mem_filterMap.mp h
  obtain ⟨k, hk, rfl⟩ := Option.map_eq_some_iff.mp hx
  have hrun := List.mem_of_mem_take hd
  rw [ScanOrder.mem_run, List.mem_filter] at hrun
  exact ⟨hrun.1, hk⟩

/-- A sweep selects as many as it may, or everything there is to be swept. -/
theorem selected_full (env : Env) (t : Tables) (n : ℕ) :
    (fetchedIDs (selected env t n)).length = n ∨ ∀ d ∈ t.deliveries,
      (deadLetterTarget env.now t d).isSome = true → d.id ∈ fetchedIDs (selected env t n) := by
  rw [selected_ids]
  by_cases hless : (selectIDs Delivery.id env.deliveries
      (fun d => (deadLetterTarget env.now t d).isSome) n t.deliveries).length < n
  · exact Or.inr fun d hd hsome => selectIDs_all hless hd hsome
  · have hmost : (selectIDs Delivery.id env.deliveries
        (fun d => (deadLetterTarget env.now t d).isSome) n t.deliveries).length ≤ n := by
      rw [selectIDs, List.length_map]
      exact List.length_take_le ..
    exact Or.inl (by omega)

/-- The dead-lettering completes the fetched rows, adds the copies and leaves
every other row as it was. -/
theorem deadLetterAll_rows {env : Env} {xs : List (Fetched × UUID)} {tx tx' : Tx}
    (hrows : ∀ x ∈ xs, Has Delivery.id x.1.1.id tx.db.deliveries)
    (h : deadLetterAll env xs tx = .ok tx') :
    ∃ new, tx'.db.toTables = { tx.db.toTables with
        deliveries := completed env (fetchedIDs xs) tx.db.deliveries ++ new } ∧
      ∀ r ∈ new, ∃ x ∈ xs, Copied tx.db x r := by
  induction xs generalizing tx with
  | nil =>
    obtain rfl : tx = tx' := by simpa [deadLetterAll] using h
    exact ⟨[], by simp [fetchedIDs, completed_nil]⟩
  | cons x xs ih =>
    rw [deadLetterAll, List.foldlM_cons] at h
    obtain ⟨mid, hmid, hrest⟩ := bind_ok.mp h
    obtain ⟨sent, hsent, hdb⟩ := deadLetterDelivery_ok hmid
    obtain ⟨new, htab, hnew⟩ := deliverDeadLetter_rows hsent
    have hmidTab : mid.db.toTables = { tx.db.toTables with
        deliveries := completed env [x.1.1.id] tx.db.deliveries ++ new } := by
      have hkept : completed env [x.1.1.id] new = new := by
        refine completed_fresh fun r hr hmem => (hnew r hr).fresh ?_
        rw [List.mem_singleton.mp hmem]
        exact hrows x (by simp)
      have hupdate := updated_completed env sent.db x.1.1.id
      simp only [htab, completed_append, hkept] at hupdate
      rw [hdb]
      exact hupdate
    have hhas : ∀ k, Has Delivery.id k tx.db.deliveries → Has Delivery.id k mid.db.deliveries := by
      intro k hk
      rw [hmidTab]
      exact (has_completed.mpr hk).append_left _
    obtain ⟨later, hlater, hcopies⟩ := ih (fun y hy => hhas _ (hrows y (by simp [hy]))) hrest
    have hkept : completed env (fetchedIDs xs) new = new := by
      refine completed_fresh fun r hr hmem => (hnew r hr).fresh ?_
      obtain ⟨y, hy, hid⟩ := List.mem_map.mp hmem
      rw [← hid]
      exact hrows y (by simp [hy])
    refine ⟨new ++ later, ?_, ?_⟩
    · rw [hlater, hmidTab]
      have hcons : fetchedIDs (x :: xs) = x.1.1.id :: fetchedIDs xs := rfl
      simp only [completed_append, completed_cons, hkept, List.append_assoc, hcons]
    · intro r hr
      rcases List.mem_append.mp hr with hr | hr
      · exact ⟨x, by simp, hnew r hr⟩
      · obtain ⟨y, hy, hcopy⟩ := hcopies r hr
        exact ⟨y, by simp [hy], hcopy.before (by rw [hmidTab]) hhas⟩

def attempted (env : Env) (xs : List SubscriptionMessageDelivery) (rows : List Delivery) :
    List Delivery :=
  xs.foldl (fun rows x =>
    rows.map (setWhere (fun d => decide (d.id = x.id)) (attemptUpdate env x).apply)) rows

section
variable {env : Env} {xs : List SubscriptionMessageDelivery} {rows : List Delivery} {r : Delivery}

theorem markAttempted_rows {tx tx' : Tx} (h : markAttempted env xs tx = .ok tx') :
    tx'.db.toTables = { tx.db.toTables with deliveries := attempted env xs tx.db.deliveries } := by
  induction xs generalizing tx with
  | nil =>
    obtain rfl : tx = tx' := by simpa [markAttempted] using h
    rfl
  | cons x xs ih =>
    rw [markAttempted, List.foldlM_cons] at h
    obtain ⟨mid, hmid, hrest⟩ := bind_ok.mp h
    rw [ih hrest, Tx.updateDelivery_ok hmid]
    rfl

theorem attempted_other (hr : r ∈ rows) (hid : r.id ∉ xs.map (·.id)) :
    r ∈ attempted env xs rows := by
  induction xs generalizing rows with
  | nil => exact hr
  | cons x xs ih =>
    rw [List.map_cons, List.mem_cons, not_or] at hid
    have hsame : setWhere (fun d => decide (d.id = x.id)) (attemptUpdate env x).apply r = r := by
      simp [setWhere, hid.1]
    have hmem := List.mem_map_of_mem
      (f := setWhere (fun d => decide (d.id = x.id)) (attemptUpdate env x).apply) hr
    rw [hsame] at hmem
    exact ih hmem hid.2

theorem attempted_hit (hr : r ∈ rows) {x : SubscriptionMessageDelivery} (hx : x ∈ xs)
    (hid : r.id = x.id) (hn : (xs.map (·.id)).Nodup) :
    (attemptUpdate env x).apply r ∈ attempted env xs rows := by
  induction xs generalizing rows with
  | nil => cases hx
  | cons y xs ih =>
    rw [List.map_cons, List.nodup_cons] at hn
    have hmem := List.mem_map_of_mem
      (f := setWhere (fun d => decide (d.id = y.id)) (attemptUpdate env y).apply) hr
    rcases List.mem_cons.mp hx with rfl | hx
    · have hset : setWhere (fun d => decide (d.id = x.id)) (attemptUpdate env x).apply r =
          (attemptUpdate env x).apply r := by simp [setWhere, hid]
      rw [hset] at hmem
      have hlater : ((attemptUpdate env x).apply r).id ∉ xs.map (·.id) := by
        rw [DeliveryUpdate.apply_id, hid]
        exact hn.1
      have hkept : (attemptUpdate env x).apply r ∈ attempted env xs (rows.map
          (setWhere (fun d => decide (d.id = x.id)) (attemptUpdate env x).apply)) :=
        attempted_other hmem hlater
      exact hkept
    · have hne : r.id ≠ y.id := by
        intro he
        apply hn.1
        rw [← he, hid]
        exact List.mem_map_of_mem (f := fun z : SubscriptionMessageDelivery => z.id) hx
      have hset : setWhere (fun d => decide (d.id = y.id)) (attemptUpdate env y).apply r = r := by
        simp [setWhere, hne]
      rw [hset] at hmem
      exact ih hmem hx hn.2

theorem attempted_back (h : r ∈ attempted env xs rows) : ∃ x ∈ rows, x.id = r.id ∧
    (r.id ∉ xs.map (·.id) → x = r) := by
  induction xs generalizing rows with
  | nil => exact ⟨r, h, rfl, fun _ => rfl⟩
  | cons y xs ih =>
    obtain ⟨x, hx, hid, hsame⟩ := ih h
    obtain ⟨z, hz, rfl⟩ := List.mem_map.mp hx
    rw [setWhere_id] at hid
    refine ⟨z, hz, hid, fun hnot => ?_⟩
    rw [List.map_cons, List.mem_cons, not_or] at hnot
    have hset : setWhere (fun d => decide (d.id = y.id)) (attemptUpdate env y).apply z = z := by
      simp [setWhere, hid, hnot.1]
    rw [← hset]
    exact hsame hnot.2

end

structure Loaded (db : DB) (fetched : List Fetched) : Prop where
  rows : ∀ x ∈ fetched, x.1 ∈ db.deliveries
  messages : ∀ x ∈ fetched, x.2 ∈ db.messages ∧ x.2.id = x.1.messageID
  once : (fetched.map (fun x => x.1.id)).Nodup

theorem queryAndLockDeliveriesOnce_loaded (env : Env) (db : DB) (sub : Subscription)
    (p : GetSubscriptionMessagesParams) :
    Loaded db (queryAndLockDeliveriesOnce env db.toTables sub p) where
  rows := fun _ hx => (queryAndLockDeliveriesOnce_mem hx).1
  messages := fun _ hx => (queryAndLockDeliveriesOnce_mem hx).2.2
  once := queryAndLockDeliveriesOnce_nodup env db sub p

theorem fetched_ne_nil {env : Env} {db : DB} {sub : Subscription}
    {p : GetSubscriptionMessagesParams} {d : Delivery} (hmost : 1 ≤ p.maxMessages)
    (hd : d ∈ db.deliveries) (hq : buildDeliveryQuery env.now db.toTables sub
      (fun d => decide (d.attemptAt ≤ env.now)) d = true) :
    queryAndLockDeliveriesOnce env db.toTables sub p ≠ [] := by
  unfold queryAndLockDeliveriesOnce
  dsimp only
  have hfilter : d ∈ orderBy Delivery.attemptAt (env.deliveries.run (db.deliveries.filter
      (buildDeliveryQuery env.now db.toTables sub (fun d => decide (d.attemptAt ≤ env.now))))) := by
    rw [mem_orderBy, ScanOrder.mem_run, List.mem_filter]
    exact ⟨hd, hq⟩
  have hall : ∀ x ∈ orderBy Delivery.attemptAt (env.deliveries.run (db.deliveries.filter
      (buildDeliveryQuery env.now db.toTables sub (fun d => decide (d.attemptAt ≤ env.now))))),
      x ∈ db.deliveries := by
    intro x hx
    rw [mem_orderBy, ScanOrder.mem_run] at hx
    exact List.mem_of_mem_filter hx
  generalize orderBy Delivery.attemptAt (env.deliveries.run (db.deliveries.filter
      (buildDeliveryQuery env.now db.toTables sub (fun d => decide (d.attemptAt ≤ env.now))))) =
      rows at hfilter hall
  cases rows with
  | nil => cases hfilter
  | cons x rest =>
    obtain ⟨n, hn⟩ : ∃ n, p.maxMessages.toNat = n + 1 := ⟨p.maxMessages.toNat - 1, by omega⟩
    obtain ⟨m, hm, hid⟩ := db.sound.delivery_message x (hall x (by simp))
    have hfetch := fetch_of_mem db.sound.message_pk hm
    rw [hn, List.take_succ_cons, List.filterMap_cons, ← hid, hfetch]
    exact List.cons_ne_nil _ _

/-- What a pull of `fetched` has done when it has returned `res`: `given` went
to the subscriber and `retired` to the dead-letter topic. -/
structure Pulled (env : Env) (p : GetSubscriptionMessagesParams) (sub : Subscription)
    (fetched given : List Fetched) (retired : List (Fetched × UUID))
    (res : GetSubscriptionMessagesResults) (a b : DB) : Prop where
  given_fetched : given.Sublist fetched
  retired_fetched : (retired.map Prod.fst).Sublist fetched
  results : res.deliveries = given.map (fun x => handOut env sub x.1 x.2)
  numDeadLettered : res.numDeadLettered = retired.length
  spent : ∀ x ∈ retired, sub.deadLetterTopicFor x.1.1 = some x.2
  unspent : ∀ x ∈ given, sub.deadLetterTopicFor x.1 = none
  count : (given.length : ℤ) ≤ p.maxMessages
  bytes : (given.map payloadSize).sum ≤ p.maxBytes ∨
    p.maxBytesStrict = false ∧ ∃ x, fetched.head? = some x ∧ given = [x]
  attempted : ∀ x ∈ given, { x.1 with
    attempts := x.1.attempts + 1
    lastAttemptedAt := some env.now
    attemptAt := (handOut env sub x.1 x.2).nextAttemptAt +
      (handOut env sub x.1 x.2).fuzzDelay } ∈ b.deliveries
  completed : ∀ x ∈ retired, { x.1.1 with completedAt := some env.now } ∈ b.deliveries ∧
    x.1.1.id ∉ res.deliveries.map (·.id)
  kept : ∀ r ∈ a.deliveries, r ∉ given.map Prod.fst → r ∉ retired.map (fun x => x.1.1) →
    r ∈ b.deliveries
  created : ∀ r ∈ b.deliveries, Has Delivery.id r.id a.deliveries ∨ ∃ x ∈ retired, Copied a x r
  topics : b.topics = a.topics
  messages : b.messages = a.messages
  snapshots : b.snapshots = a.snapshots

section
variable {env : Env} {p : GetSubscriptionMessagesParams} {sub : Subscription}
  {fetched given : List Fetched} {retired : List (Fetched × UUID)} {tx tx' : Tx}
  {res : GetSubscriptionMessagesResults}

theorem given_ids (env : Env) (sub : Subscription) (given : List Fetched) :
    (given.map (fun x => handOut env sub x.1 x.2)).map (·.id) = given.map (fun x => x.1.id) := by
  rw [List.map_map]
  rfl

theorem Loaded.apart {db : DB} (h : Loaded db fetched) (hgiven : given.Sublist fetched)
    (hretired : (retired.map Prod.fst).Sublist fetched)
    (hapart : ∀ x ∈ given, x ∉ retired.map Prod.fst) :
    ∀ x ∈ retired, x.1.1.id ∉ given.map (fun x => x.1.id) := by
  intro x hx hmem
  obtain ⟨y, hy, hid⟩ := List.mem_map.mp hmem
  have hx' : x.1 ∈ retired.map Prod.fst := List.mem_map_of_mem hx
  have heq : y = x.1 :=
    List.inj_on_of_nodup_map h.once (hgiven.subset hy) (hretired.subset hx') hid
  exact hapart y hy (heq ▸ hx')

structure Marked (env : Env) (sub : Subscription) (given : List Fetched)
    (retired : List (Fetched × UUID)) (a b : DB) : Prop where
  attempted : ∀ x ∈ given, (attemptUpdate env (handOut env sub x.1 x.2)).apply x.1 ∈ b.deliveries
  completed : ∀ x ∈ retired, (completion env).apply x.1.1 ∈ b.deliveries
  kept : ∀ r ∈ a.deliveries, r.id ∉ given.map (fun x => x.1.id) → r.id ∉ fetchedIDs retired →
    r ∈ b.deliveries
  created : ∀ r ∈ b.deliveries, Has Delivery.id r.id a.deliveries ∨ ∃ x ∈ retired, Copied a x r

theorem marked_of_writes {new : List Delivery} {a b : DB} (hloaded : Loaded a fetched)
    (hgiven : given.Sublist fetched) (hretired : (retired.map Prod.fst).Sublist fetched)
    (hapart : ∀ x ∈ given, x ∉ retired.map Prod.fst)
    (hnew : ∀ r ∈ new, ∃ x ∈ retired, Copied a x r)
    (hb : b.deliveries = Portions.attempted env (given.map (fun x => handOut env sub x.1 x.2))
      (Portions.completed env (fetchedIDs retired) a.deliveries ++ new)) :
    Marked env sub given retired a b := by
  have hdiffer := hloaded.apart hgiven hretired hapart
  have hgivenRow : ∀ x ∈ given, x.1 ∈ a.deliveries := fun x hx =>
    hloaded.rows x (hgiven.subset hx)
  have hretiredRow : ∀ x ∈ retired, x.1.1 ∈ a.deliveries := fun x hx =>
    hloaded.rows x.1 (hretired.subset (List.mem_map_of_mem hx))
  have huntouched : ∀ r ∈ a.deliveries, r.id ∉ fetchedIDs retired →
      r ∈ Portions.completed env (fetchedIDs retired) a.deliveries ++ new := by
    intro r hr hid
    exact List.mem_append_left _ (List.mem_map.mpr ⟨r, hr, by simp [setWhere, hid]⟩)
  constructor
  · intro x hx
    have hid : x.1.id ∉ fetchedIDs retired := by
      intro hmem
      obtain ⟨y, hy, heq⟩ := List.mem_map.mp hmem
      exact hdiffer y hy (heq ▸ List.mem_map_of_mem (f := fun x : Fetched => x.1.id) hx)
    have hn : ((given.map (fun x => handOut env sub x.1 x.2)).map (·.id)).Nodup := by
      rw [given_ids]
      exact hloaded.once.sublist (hgiven.map _)
    rw [hb]
    exact attempted_hit (huntouched x.1 (hgivenRow x hx) hid) (List.mem_map_of_mem hx) rfl hn
  · intro x hx
    have hmem : x.1.1.id ∈ fetchedIDs retired :=
      List.mem_map_of_mem (f := fun x : Fetched × UUID => x.1.1.id) hx
    have hdone : (completion env).apply x.1.1 ∈
        Portions.completed env (fetchedIDs retired) a.deliveries ++ new :=
      List.mem_append_left _ (List.mem_map.mpr
        ⟨x.1.1, hretiredRow x hx, by simp [setWhere, hmem]⟩)
    rw [hb]
    exact attempted_other hdone (by rw [given_ids]; exact hdiffer x hx)
  · intro r hr hnotGiven hnotRetired
    rw [hb]
    exact attempted_other (huntouched r hr hnotRetired) (by rw [given_ids]; exact hnotGiven)
  · intro r hr
    rw [hb] at hr
    obtain ⟨x, hx, hid, hsame⟩ := attempted_back hr
    rcases List.mem_append.mp hx with hx | hx
    · have hhas : Has Delivery.id x.id a.deliveries := has_completed.mp (Has.of_mem hx)
      exact Or.inl (hid ▸ hhas)
    · obtain ⟨y, hy, hcopy⟩ := hnew x hx
      have hnot : r.id ∉ (given.map (fun x => handOut env sub x.1 x.2)).map (·.id) := by
        rw [given_ids, ← hid]
        intro hmem
        obtain ⟨z, hz, hzid⟩ := List.mem_map.mp hmem
        exact hcopy.fresh ⟨z.1, hgivenRow z hz, hzid⟩
      exact Or.inr ⟨y, hy, hsame hnot ▸ hcopy⟩

theorem Copied.unrefreshed {x : Fetched × UUID} {r : Delivery}
    (hstart : refreshExpiration env sub tx = .ok tx') (h : Copied tx'.db x r) :
    Copied tx.db x r := by
  have htab := DB.updateSubscriptions_ok (refreshExpiration_ok hstart)
  have hfresh := h.fresh
  obtain ⟨s, hs, hid, htopic, hlive⟩ := h.subscription
  rw [htab] at hfresh hs
  obtain ⟨s', hs', rfl⟩ := List.mem_map.mp hs
  have hsame := settled_refresh (env.now + sub.ttl) (fun s => decide (s.id = sub.id)) s'
  rw [Subscription.settled_eq hsame Subscription.id (fun _ => rfl)] at hid
  rw [Subscription.settled_eq hsame Subscription.topicID (fun _ => rfl)] at htopic
  rw [Subscription.settled_eq hsame Subscription.deletedAt (fun _ => rfl)] at hlive
  exact ⟨hfresh, h.message, h.attempts, h.completedAt, s', hs', hid, htopic, hlive⟩

theorem applyResults_marked (hloaded : Loaded tx.db fetched)
    (h : applyResults env p sub fetched tx = .ok (res, tx')) :
    Marked env sub ((pullPass p sub).portion 0 0 fetched).taken
        ((pullPass p sub).portion 0 0 fetched).aside tx.db tx'.db ∧
      res.numDeadLettered = ((pullPass p sub).portion 0 0 fetched).aside.length ∧
      tx'.db.topics = tx.db.topics ∧ tx'.db.messages = tx.db.messages ∧
      tx'.db.snapshots = tx.db.snapshots := by
  obtain ⟨start, hstart, h⟩ := bind_ok.mp h
  obtain ⟨st, hst, h⟩ := bind_ok.mp h
  obtain ⟨last, hlast, h⟩ := bind_ok.mp h
  obtain ⟨rfl, rfl⟩ := Prod.mk.inj (pure_ok.mp h)
  rw [applyLoop_eq] at hst
  obtain ⟨mid, hmid, rfl⟩ := map_ok.mp hst
  dsimp only at hmid hlast ⊢
  have hgiven := portion_taken_sublist (pullPass p sub) 0 0 fetched
  have hretired := portion_aside_sublist (pullPass p sub) 0 0 fetched
  have hapart := fun x => portion_apart (pullPass p sub) 0 0 fetched (x := x)
  generalize (pullPass p sub).portion 0 0 fetched = q at *
  have hstartTab := DB.updateSubscriptions_ok (refreshExpiration_ok hstart)
  have hrows : ∀ x ∈ q.aside, Has Delivery.id x.1.1.id start.db.deliveries := by
    intro x hx
    rw [hstartTab]
    exact Has.of_mem (hloaded.rows x.1 (hretired.subset (List.mem_map_of_mem hx)))
  obtain ⟨new, hmidTab, hnew⟩ := deadLetterAll_rows hrows hmid
  have hlastTab := markAttempted_rows hlast
  have hcopied : ∀ r ∈ new, ∃ x ∈ q.aside, Copied tx.db x r := by
    intro r hr
    obtain ⟨x, hx, hcopy⟩ := hnew r hr
    exact ⟨x, hx, hcopy.unrefreshed hstart⟩
  refine ⟨marked_of_writes hloaded hgiven hretired hapart hcopied ?_, by simp, ?_⟩
  · rw [hlastTab, hmidTab, hstartTab]
    rfl
  · rw [hlastTab, hmidTab, hstartTab]
    exact ⟨rfl, rfl, rfl⟩

theorem applyResults_pulled (hloaded : Loaded tx.db fetched) (hmost : 1 ≤ p.maxMessages)
    (hlimit : 1 ≤ p.maxBytes) (h : applyResults env p sub fetched tx = .ok (res, tx')) :
    ∃ given retired, Pulled env p sub fetched given retired res tx.db tx'.db := by
  have hresults := applyResults_deliveries h
  obtain ⟨hmarked, hnum, htopics, hmessages, hsnapshots⟩ := applyResults_marked hloaded h
  have hgiven := portion_taken_sublist (pullPass p sub) 0 0 fetched
  have hretired := portion_aside_sublist (pullPass p sub) 0 0 fetched
  have hapart := fun x => portion_apart (pullPass p sub) 0 0 fetched (x := x)
  have hunspent := fun x => portion_taken (pullPass p sub) 0 0 fetched (x := x)
  have hspent := fun x => portion_aside (pullPass p sub) 0 0 fetched (x := x)
  have hcount := portion_length (pullPass p sub) 0 0 fetched
  have hbytes := pass_total (pullPass p sub) fetched (by simp only [pullPass]; omega)
    payloadSize_nonneg
  generalize (pullPass p sub).portion 0 0 fetched = q at *
  have hretiredRow : ∀ x ∈ q.aside, x.1.1 ∈ tx.db.deliveries := fun x hx =>
    hloaded.rows x.1 (hretired.subset (List.mem_map_of_mem hx))
  refine ⟨q.taken, q.aside, ?_⟩
  constructor
  · exact hgiven
  · exact hretired
  · exact hresults
  · exact hnum
  · exact hspent
  · exact hunspent
  · simp only [pullPass] at hcount
    omega
  · exact hbytes
  · exact hmarked.attempted
  · intro x hx
    refine ⟨hmarked.completed x hx, ?_⟩
    rw [hresults, given_ids]
    exact hloaded.apart hgiven hretired hapart x hx
  · intro r hr hnotGiven hnotRetired
    refine hmarked.kept r hr (fun hmem => hnotGiven ?_) (fun hmem => hnotRetired ?_)
    · obtain ⟨x, hx, hid⟩ := List.mem_map.mp hmem
      have heq := tx.db.sound.delivery_pk.eq (hloaded.rows x (hgiven.subset hx)) hr hid
      exact heq ▸ List.mem_map_of_mem hx
    · obtain ⟨x, hx, hid⟩ := List.mem_map.mp hmem
      have heq := tx.db.sound.delivery_pk.eq (hretiredRow x hx) hr hid
      exact heq ▸ List.mem_map_of_mem (f := fun x : Fetched × UUID => x.1.1) hx
  · exact hmarked.created
  · exact htopics
  · exact hmessages
  · exact hsnapshots

end

/-- The identifiers that are still to be drawn are not in the database yet. -/
def Unused (env : Env) (tx : Tx) : Prop :=
  Function.Injective env.uuid ∧
    ∀ k, tx.drawn ≤ k → ¬ Has Delivery.id (env.uuid k) tx.db.deliveries

section
variable {env : Env} {tx : Tx}

theorem insertDelivery_succeeds {db : DB} {r : Delivery}
    (hk : ¬ Has Delivery.id r.id db.deliveries) (hm : Has Message.id r.messageID db.messages)
    (hs : Has Subscription.id r.subscriptionID db.subscriptions)
    (hb : ∀ k ∈ r.notBeforeID, Has Delivery.id k db.deliveries) :
    ∃ db', db.insertDelivery r = .ok db' := by
  unfold DB.insertDelivery
  rw [dif_pos ⟨hk, hm, hs, hb⟩]
  exact ⟨_, rfl⟩

def Storable (db : DB) (c : DeliveryCreate) : Prop :=
  Has Message.id c.messageID db.messages ∧ Has Subscription.id c.subscriptionID db.subscriptions ∧
    ∀ k ∈ c.notBeforeID, Has Delivery.id k db.deliveries

theorem setUpDelivery_storable {db : DB} {s : Subscription} {m : Message}
    (hs : s ∈ db.subscriptions) (hm : m ∈ db.messages) :
    Storable db (setUpDelivery env db.toTables s m) := by
  refine ⟨Has.of_mem hm, Has.of_mem hs, fun k hk => ?_⟩
  simp only [setUpDelivery] at hk
  split at hk
  · obtain ⟨b, hb, rfl⟩ := Option.map_eq_some_iff.mp hk
    exact Has.of_mem (lastDelivery_some hb).1
  · cases hk

theorem createBulk_succeeds {dc : List DeliveryCreate} (hu : Unused env tx)
    (hdc : ∀ c ∈ dc, Storable tx.db c) :
    ∃ tx', createBulk env dc tx = .ok tx' ∧ Unused env tx' := by
  induction dc generalizing tx with
  | nil => exact ⟨tx, rfl, hu⟩
  | cons c dc ih =>
    obtain ⟨hm, hs, hb⟩ := hdc c (by simp)
    obtain ⟨db, hdb⟩ := insertDelivery_succeeds (r := c.row (env.uuid tx.drawn))
      (hu.2 tx.drawn (le_refl _)) hm hs hb
    have htab := (DB.insertDelivery_ok hdb).2
    have hunused : Unused env { tx with db := db, drawn := tx.drawn + 1 } := by
      refine ⟨hu.1, fun k hk => ?_⟩
      have hlater : tx.drawn + 1 ≤ k := hk
      rintro ⟨r, hr, hid⟩
      simp only [htab, List.mem_append, List.mem_singleton] at hr
      rcases hr with hr | rfl
      · exact hu.2 k (by omega) ⟨r, hr, hid⟩
      · have hidx : tx.drawn = k := hu.1 hid
        omega
    have hrest : ∀ x ∈ dc, Storable db x := by
      intro x hx
      obtain ⟨hxm, hxs, hxb⟩ := hdc x (by simp [hx])
      refine ⟨by simpa [htab] using hxm, by simpa [htab] using hxs, fun k hk => ?_⟩
      rw [htab]
      exact (hxb k hk).append_left _
    obtain ⟨tx', hrun, hu'⟩ := ih hunused hrest
    refine ⟨tx', ?_, hu'⟩
    rw [createBulk, List.foldlM_cons, hdb]
    exact hrun

theorem Tx.updateDelivery_succeeds {id : UUID} {u : DeliveryUpdate}
    (h : Has Delivery.id id tx.db.deliveries) : ∃ tx', tx.updateDelivery id u = .ok tx' ∧
      tx'.drawn = tx.drawn := by
  unfold Tx.updateDelivery
  rw [if_pos h]
  exact ⟨_, rfl, rfl⟩

theorem Unused.update {tx' : Tx} {p : Delivery → Bool} {u : DeliveryUpdate} (hu : Unused env tx)
    (hdb : tx'.db = tx.db.updateDeliveries p u) (hdrawn : tx'.drawn = tx.drawn) :
    Unused env tx' := by
  refine ⟨hu.1, fun k hk => ?_⟩
  rintro ⟨r, hr, hid⟩
  rw [hdb] at hr
  obtain ⟨x, hx, rfl⟩ := DB.mem_updateDeliveries.mp hr
  rw [setWhere_id] at hid
  exact hu.2 k (hdrawn ▸ hk) ⟨x, hx, hid⟩

theorem deliverDeadLetter_succeeds {data : DeadLetterData} (hu : Unused env tx)
    (hm : Has Message.id data.deliveryMessageID tx.db.messages) :
    ∃ tx', deliverDeadLetter env data tx = .ok tx' ∧ Unused env tx' := by
  unfold deliverDeadLetter
  cases htopic : liveTopic tx.db.toTables data.deadLetterTopicID with
  | none => exact ⟨tx, rfl, hu⟩
  | some dlTopic =>
    dsimp only
    by_cases hsubs : liveSubscriptions env tx.db.toTables dlTopic.id = []
    · rw [if_pos hsubs]
      exact ⟨tx, rfl, hu⟩
    · rw [if_neg hsubs]
      have hfound := fetch_isSome hm
      cases hf : fetch Message.id data.deliveryMessageID tx.db.messages with
      | none => simp [hf] at hfound
      | some m =>
        have hloaded := (fetch_mem hf).1
        have hunused : Unused env (deliverAll env (liveSubscriptions env tx.db.toTables dlTopic.id)
            m tx).2 := hu
        refine createBulk_succeeds hunused fun c hc => ?_
        obtain ⟨s, hs, hc⟩ := List.mem_filterMap.mp hc
        obtain ⟨-, rfl⟩ := deliverToSubscription_some.mp hc
        exact setUpDelivery_storable (mem_liveSubscriptions.mp hs).1 hloaded

theorem deadLetterDelivery_succeeds {data : DeadLetterData} (hu : Unused env tx)
    (hd : Has Delivery.id data.deliveryID tx.db.deliveries)
    (hm : Has Message.id data.deliveryMessageID tx.db.messages) :
    ∃ tx', deadLetterDelivery env data tx = .ok tx' ∧ Unused env tx' := by
  obtain ⟨mid, hmid, hu⟩ := deliverDeadLetter_succeeds hu hm
  obtain ⟨new, htab, -⟩ := deliverDeadLetter_ok hmid
  have hhas : Has Delivery.id data.deliveryID mid.db.deliveries := by
    rw [htab]
    exact hd.append_left _
  obtain ⟨last, hlast, hdrawn⟩ := Tx.updateDelivery_succeeds
    (u := { completedAt := some (some env.now) }) hhas
  have hunused := hu.update (Tx.updateDelivery_ok hlast) hdrawn
  exact ⟨last.hook (.wakePublishListeners false [data.deliverySubscriptionID]),
    bind_ok.mpr ⟨mid, hmid, bind_ok.mpr ⟨last, hlast, rfl⟩⟩, hunused⟩

theorem deadLetterAll_succeeds {xs : List (Fetched × UUID)} (hu : Unused env tx)
    (hd : ∀ x ∈ xs, Has Delivery.id x.1.1.id tx.db.deliveries)
    (hm : ∀ x ∈ xs, Has Message.id x.1.1.messageID tx.db.messages) :
    ∃ tx', deadLetterAll env xs tx = .ok tx' := by
  induction xs generalizing tx with
  | nil => exact ⟨tx, rfl⟩
  | cons x xs ih =>
    have hfirst : ∃ mid, deadLetterDelivery env (deadLetterDataFromEntities x.1.1 x.2) tx =
        .ok mid ∧ Unused env mid := deadLetterDelivery_succeeds hu (hd x (by simp)) (hm x (by simp))
    obtain ⟨mid, hmid, hunused⟩ := hfirst
    have hframe := deadLetter_frame (e := ⟨env, .ack [], trivial⟩) hmid
    obtain ⟨tx', hrun⟩ := ih hunused (fun y hy => hframe.has _ (hd y (by simp [hy])))
      (fun y hy => hframe.messages ▸ hm y (by simp [hy]))
    refine ⟨tx', ?_⟩
    rw [deadLetterAll, List.foldlM_cons, hmid]
    exact hrun

theorem markAttempted_succeeds {xs : List SubscriptionMessageDelivery}
    (hd : ∀ x ∈ xs, Has Delivery.id x.id tx.db.deliveries) :
    ∃ tx', markAttempted env xs tx = .ok tx' := by
  induction xs generalizing tx with
  | nil => exact ⟨tx, rfl⟩
  | cons x xs ih =>
    obtain ⟨mid, hmid, -⟩ := Tx.updateDelivery_succeeds (u := attemptUpdate env x)
      (hd x (by simp))
    have hrows : ∀ y ∈ xs, Has Delivery.id y.id mid.db.deliveries := by
      intro y hy
      rw [Tx.updateDelivery_ok hmid]
      exact (hd y (by simp [hy])).map (setWhere_keeps Delivery.id (attemptUpdate env x).apply_id)
    obtain ⟨tx', hrun⟩ := ih hrows
    refine ⟨tx', ?_⟩
    rw [markAttempted, List.foldlM_cons, hmid]
    exact hrun

theorem refreshExpiration_succeeds (env : Env) (sub : Subscription) (tx : Tx) :
    ∃ tx', refreshExpiration env sub tx = .ok tx' ∧ tx'.drawn = tx.drawn := by
  unfold refreshExpiration DB.updateSubscriptions
  rw [dif_pos (by simp)]
  exact ⟨_, rfl, rfl⟩

theorem applyResults_succeeds {p : GetSubscriptionMessagesParams} {sub : Subscription}
    {fetched : List Fetched} (hloaded : Loaded tx.db fetched) (hu : Unused env tx) :
    ∃ r, applyResults env p sub fetched tx = .ok r := by
  obtain ⟨start, hstart, hdrawn⟩ := refreshExpiration_succeeds env sub tx
  have hstartTab := DB.updateSubscriptions_ok (refreshExpiration_ok hstart)
  have hunused : Unused env start := by
    refine ⟨hu.1, fun k hk => ?_⟩
    rw [hstartTab]
    exact hu.2 k (hdrawn ▸ hk)
  have hgiven := portion_taken_sublist (pullPass p sub) 0 0 fetched
  have hretired := portion_aside_sublist (pullPass p sub) 0 0 fetched
  have hrow : ∀ x ∈ fetched, Has Delivery.id x.1.id start.db.deliveries := by
    intro x hx
    rw [hstartTab]
    exact Has.of_mem (hloaded.rows x hx)
  have hmessage : ∀ x ∈ fetched, Has Message.id x.1.messageID start.db.messages := by
    intro x hx
    rw [hstartTab, ← (hloaded.messages x hx).2]
    exact Has.of_mem (hloaded.messages x hx).1
  have hasideIn : ∀ x ∈ ((pullPass p sub).portion 0 0 fetched).aside, x.1 ∈ fetched :=
    fun x hx => hretired.subset (List.mem_map_of_mem hx)
  obtain ⟨mid, hmid⟩ := deadLetterAll_succeeds hunused (fun x hx => hrow _ (hasideIn x hx))
    (fun x hx => hmessage _ (hasideIn x hx))
  obtain ⟨new, hmidTab, -⟩ := deadLetterAll_rows (fun x hx => hrow _ (hasideIn x hx)) hmid
  have hresults : ∀ y ∈ ((pullPass p sub).portion 0 0 fetched).taken.map
      (fun x => handOut env sub x.1 x.2), Has Delivery.id y.id mid.db.deliveries := by
    intro y hy
    obtain ⟨x, hx, rfl⟩ := List.mem_map.mp hy
    rw [hmidTab]
    exact (has_completed.mpr (hrow x (hgiven.subset hx))).append_left _
  obtain ⟨last, hlast⟩ := markAttempted_succeeds hresults
  have hloop : applyLoop env p sub 0 fetched ⟨start, 0, [], 0⟩ = _ := applyLoop_eq 0 fetched _
  rw [hmid] at hloop
  exact ⟨_, bind_ok.mpr ⟨start, hstart, bind_ok.mpr ⟨_, hloop, bind_ok.mpr ⟨last, hlast, rfl⟩⟩⟩⟩

end

/-- A pull stays within its budget and touches only the rows it gives or
retires; with unused identifiers it returns. -/
theorem pull_exact {env : Env} {p : GetSubscriptionMessagesParams} {sub : Subscription}
    {fetched : List Fetched} {tx : Tx} (hloaded : Loaded tx.db fetched)
    (hmost : 1 ≤ p.maxMessages) (hlimit : 1 ≤ p.maxBytes) :
    (∀ res tx', applyResults env p sub fetched tx = .ok (res, tx') →
      ∃ given retired, Pulled env p sub fetched given retired res tx.db tx'.db) ∧
    (Unused env tx → ∃ r, applyResults env p sub fetched tx = .ok r) :=
  ⟨fun _ _ h => applyResults_pulled hloaded hmost hlimit h, applyResults_succeeds hloaded⟩

theorem plain_unused {now : Time} {firstID : ℕ} {db : DB}
    (h : ∀ d ∈ db.deliveries, d.id < firstID) : Unused (.plain now firstID) (Tx.begin db) := by
  constructor
  · intro a b hab
    have hsum : firstID + a = firstID + b := hab
    omega
  · rintro k - ⟨d, hd, hid⟩
    have hlt := h d hd
    have heq : d.id = firstID + k := hid
    rw [heq] at hlt
    exact Nat.not_lt.mpr (Nat.le_add_right firstID k) hlt

def largeBus : World := World.initial.run [
  Sample.ordersTopic 1 10,
  Sample.failedTopic 2 20,
  Sample.failingWorker 3 30,
  Sample.publish "1" "" 4 40,
  Sample.getSmall 5 50,
  Sample.publish "2345" "" (12 * second) 60]

def largeSubscription : Subscription :=
  ⟨30, 10, "worker", 5 + hour, none, hour, hour, false, [], none, none, none, none, some 1, some 20,
    0⟩

def largeEnv : Env := .plain (13 * second) 70

def largeParams (maxBytes : ℤ) : GetSubscriptionMessagesParams :=
  ⟨"worker", none, 10, maxBytes, false⟩

def largeFetched (maxBytes : ℤ) : List Fetched :=
  queryAndLockDeliveriesOnce largeEnv largeBus.db.toTables largeSubscription (largeParams maxBytes)

theorem largeUnused : Unused largeEnv (Tx.begin largeBus.db) := plain_unused (by decide +kernel)

theorem largeLoaded (maxBytes : ℤ) : Loaded (Tx.begin largeBus.db).db (largeFetched maxBytes) :=
  queryAndLockDeliveriesOnce_loaded _ _ _ _

theorem pull_exact_large :
    (largeFetched 4).map (fun x => x.1.id) = [41, 61] ∧
      ∃ res tx', applyResults largeEnv (largeParams 4) largeSubscription (largeFetched 4)
        (Tx.begin largeBus.db) = .ok (res, tx') ∧ ∃ given retired,
          Pulled largeEnv (largeParams 4) largeSubscription (largeFetched 4) given retired res
            largeBus.db tx'.db := by
  have hall := @pull_exact largeEnv (largeParams 4) largeSubscription _ _ (largeLoaded 4)
    (by decide) (by decide)
  obtain ⟨⟨res, tx'⟩, hok⟩ := hall.2 largeUnused
  exact ⟨by decide +kernel, res, tx', hok, hall.1 res tx' hok⟩

def Unspent (sub : Subscription) (x : Fetched) : Prop := sub.deadLetterTopicFor x.1 = none

instance (sub : Subscription) (x : Fetched) : Decidable (Unspent sub x) :=
  inferInstanceAs (Decidable (_ = _))

/-- The first one fetched is unspent, or an unspent one fits by itself. -/
def MayProgress (p : GetSubscriptionMessagesParams) (sub : Subscription) (fetched : List Fetched) :
    Prop :=
  (∃ x, fetched.head? = some x ∧ Unspent sub x) ∨
    ∃ x ∈ fetched, Unspent sub x ∧ payloadSize x ≤ p.maxBytes

theorem applyResults_ne_nil {env : Env} {p : GetSubscriptionMessagesParams} {sub : Subscription}
    {fetched : List Fetched} {tx tx' : Tx} {res : GetSubscriptionMessagesResults}
    (hstrict : p.maxBytesStrict = false)
    (h : applyResults env p sub fetched tx = .ok (res, tx')) :
    res.deliveries ≠ [] ↔ MayProgress p sub fetched := by
  have hpass := pass_ne_nil (pullPass p sub) fetched hstrict
  rw [applyResults_deliveries h, ne_eq, List.map_eq_nil_iff]
  exact hpass

theorem progress_iff {env : Env} {p : GetSubscriptionMessagesParams} {sub : Subscription}
    {fetched : List Fetched} {tx : Tx} (hloaded : Loaded tx.db fetched)
    (hstrict : p.maxBytesStrict = false) :
    (∀ res tx', applyResults env p sub fetched tx = .ok (res, tx') →
      (((∃ x ∈ fetched, Unspent sub x) → res.deliveries ≠ []) ↔
        ((∃ x ∈ fetched, Unspent sub x) → MayProgress p sub fetched))) ∧
    (Unused env tx → ∃ r, applyResults env p sub fetched tx = .ok r) := by
  refine ⟨fun res tx' h => ?_, applyResults_succeeds hloaded⟩
  rw [applyResults_ne_nil hstrict h]

theorem progress_iff_large :
    ∃ res tx', applyResults largeEnv (largeParams 4) largeSubscription (largeFetched 4)
      (Tx.begin largeBus.db) = .ok (res, tx') ∧ res.deliveries ≠ [] := by
  have hall := @progress_iff largeEnv (largeParams 4) largeSubscription _ _ (largeLoaded 4) rfl
  obtain ⟨⟨res, tx'⟩, hok⟩ := hall.2 largeUnused
  have hunspent : ∃ x ∈ largeFetched 4, Unspent largeSubscription x := by decide +kernel
  have hfits : ∃ x ∈ largeFetched 4, Unspent largeSubscription x ∧ payloadSize x ≤ 4 := by
    decide +kernel
  exact ⟨res, tx', hok, (hall.1 res tx' hok).mpr (fun _ => Or.inr hfits) hunspent⟩

theorem progress_large :
    bus.Reachable largeBus ∧ verifySub (largeParams 3) largeBus.db.toTables = .ok largeSubscription ∧
      (∃ x ∈ largeFetched 3, Unspent largeSubscription x) ∧
      (applyResults largeEnv (largeParams 3) largeSubscription (largeFetched 3)
        (Tx.begin largeBus.db)).map Prod.fst = .ok ⟨[], 1⟩ := by
  refine ⟨initial_reachable _, ?_, ?_, ?_⟩
  all_goals decide +kernel

end Mmmbbb.Portions
