import Mmmbbb.Collecting
import Mmmbbb.Pacing
import Mmmbbb.Portions

/-!
# The background services

Each of the services that prune, and the one that dead-letters, runs its action
whenever its ticker is due, and sets the ticker by what the action has found.
-/

set_option autoImplicit false

namespace Mmmbbb.Maintenance
open KeyedRows Programs Pacing Mmmbbb.Schema Mmmbbb.Database Mmmbbb.Delivering Mmmbbb.Consuming
open Mmmbbb.Administering Mmmbbb.Pruning Mmmbbb.Runs Mmmbbb.Portions Mmmbbb.Collecting

structure PruneCommonSettings where
  params : PruneCommonParams
  interval : Duration
  fuzz : Duration
  backoff : Duration

def millisecond : Duration := 1000000

def pcDefaults : PruneCommonSettings where
  params := { minAge := 1 * hour, maxDelete := 100 }
  interval := minute
  fuzz := 10 * second
  backoff := 100 * millisecond

/-- The zero value is what has not been set. -/
def orDefault {α : Type} [DecidableEq α] [OfNat α 0] (x y : α) : α := if x = 0 then y else x

def PruneCommonSettings.applyDefaults (s : PruneCommonSettings) : PruneCommonSettings where
  params := {
    minAge := orDefault s.params.minAge pcDefaults.params.minAge
    maxDelete := orDefault s.params.maxDelete pcDefaults.params.maxDelete }
  interval := orDefault s.interval pcDefaults.interval
  fuzz := orDefault s.fuzz pcDefaults.fuzz
  backoff := orDefault s.backoff pcDefaults.backoff

def PruneCommonSettings.pace (s : PruneCommonSettings) : Pace :=
  ⟨s.interval, s.backoff, s.params.maxDelete⟩

structure DeadLetterSettings where
  maxDeliveries : ℕ
  interval : Duration
  fuzz : Duration
  backoff : Duration

def dlDefaults : DeadLetterSettings where
  maxDeliveries := 100
  interval := minute
  fuzz := 10 * second
  backoff := 100 * millisecond

def DeadLetterSettings.applyDefaults (s : DeadLetterSettings) : DeadLetterSettings where
  maxDeliveries := orDefault s.maxDeliveries dlDefaults.maxDeliveries
  interval := orDefault s.interval dlDefaults.interval
  fuzz := orDefault s.fuzz dlDefaults.fuzz
  backoff := orDefault s.backoff dlDefaults.backoff

def DeadLetterSettings.pace (s : DeadLetterSettings) : Pace :=
  ⟨s.interval, s.backoff, s.maxDeliveries⟩

/-- A tick: how late it is received, the environment of the transaction, how
long that takes, what `rand.Int63n` draws after it, and whether the transaction
can be begun and committed. -/
structure Round where
  late : ℕ
  env : Env
  took : ℕ
  fuzz : Duration
  connected : Bool

def execute (env : Env) (p : PruneCommonParams) (tx : Tx) : Service → Except Error (ℕ × Tx)
  | .pruneCompletedDeliveries => .ok (pruneCompletedDeliveries env p tx)
  | .pruneExpiredDeliveries => .ok (pruneExpiredDeliveries env p tx)
  | .pruneCompletedMessages => pruneCompletedMessages env p tx
  | .pruneDeletedSubscriptionDeliveries => .ok (pruneDeletedSubscriptionDeliveries env p tx)
  | .pruneDeletedSubscriptions => pruneDeletedSubscriptions env p tx
  | .pruneDeletedTopics => pruneDeletedTopics env p tx
  | .deleteExpiredSubscriptions => deleteExpiredSubscriptions env p.maxDelete tx

def runOnce (r : Round) (action : Tx → Except Error (ℕ × Tx)) (db : DB) : Option ℕ × DB :=
  if r.connected then
    match action (Tx.begin db) with
    | .ok (n, tx) => (some n, tx.db)
    | .error _ => (none, db)
  else (none, db)

def pruneJob (set : PruneCommonSettings) (s : Service) : Job DB Round where
  late := Round.late
  took := Round.took
  time := fun r => r.env.now
  fuzz := Round.fuzz
  perform := fun r => runOnce r (fun tx => execute r.env set.params tx s)

def deadLetterJob (set : DeadLetterSettings) : Job DB Round where
  late := Round.late
  took := Round.took
  time := fun r => r.env.now
  fuzz := Round.fuzz
  perform := fun r => runOnce r (fun tx =>
    (deadLetterDeliveries r.env set.maxDeliveries tx).map (fun x => (x.1.numDeadLettered, x.2)))

theorem execute_exec (env : Env) (p : PruneCommonParams) (tx : Tx) (s : Service) :
    exec env (s.action p) tx = (execute env p tx s).map (fun x => ([], x.2)) := by
  cases s <;> rfl

theorem runOnce_some {r : Round} {action : Tx → Except Error (ℕ × Tx)} {db : DB} {n : ℕ}
    (h : (runOnce r action db).1 = some n) :
    ∃ tx, action (Tx.begin db) = .ok (n, tx) ∧ (runOnce r action db).2 = tx.db := by
  by_cases hconn : r.connected = true
  · rw [runOnce, if_pos hconn] at h ⊢
    cases hact : action (Tx.begin db) with
    | ok x =>
      rw [hact] at h
      obtain rfl : x.1 = n := Option.some.inj h
      exact ⟨x.2, rfl, rfl⟩
    | error err =>
      rw [hact] at h
      cases h
  · rw [runOnce, if_neg hconn] at h
    cases h

section
variable {α : Type} {key : α → UUID} {scan : ScanOrder α} {p : α → Bool} {n : ℕ} {rows : List α}

theorem removed_length {ids : List UUID} (hids : ids.Nodup) (h : ∀ k ∈ ids, ∃ r ∈ rows, key r = k) :
    (rows.filter (fun r => !decide (key r ∈ ids))).length + ids.length ≤ rows.length := by
  have hsub : ids ⊆ (rows.filter (fun r => decide (key r ∈ ids))).map key := by
    intro k hk
    obtain ⟨r, hr, rfl⟩ := h k hk
    exact List.mem_map_of_mem (List.mem_filter.mpr ⟨hr, by simpa using hk⟩)
  have hlen := (List.subperm_of_subset hids hsub).length_le
  rw [List.length_map] at hlen
  have hsplit := List.length_eq_length_filter_add (l := rows) (fun r => decide (key r ∈ ids))
  omega

variable (scan p n) in
theorem selected_length (h : UniqueKeys key rows) :
    (rows.filter (fun r => !decide (key r ∈ selectIDs key scan p n rows))).length +
      (selectIDs key scan p n rows).length ≤ rows.length := by
  refine removed_length (selectIDs_nodup h) fun k hk => ?_
  obtain ⟨r, hr, -, hkey⟩ := selectIDs_mem hk
  exact ⟨r, hr, hkey⟩

end

def Pruned (now : Time) (minAge : Duration) (t : Tables) : Service → Prop
  | .pruneDeletedTopics => ∀ r ∈ t.topics, ¬ Abandoned now minAge t r
  | s => s.Done now minAge t

def Clears (env : Env) (p : PruneCommonParams) (s : Service) (db : DB) (n : ℕ) (db' : DB) : Prop :=
  size db' + n ≤ size db ∧ (n < p.maxDelete → Pruned env.now p.minAge db'.toTables s)

section
variable {env : Env} {p : PruneCommonParams} {db : DB} {n : ℕ} {tx : Tx}

theorem deleteDeliveryIDs_size {scan : ScanOrder Delivery} {q : Delivery → Bool} {k : ℕ} :
    size (db.deleteDeliveries (fun d => decide (d.id ∈
      selectIDs Delivery.id scan q k db.deliveries))) +
        (selectIDs Delivery.id scan q k db.deliveries).length ≤ size db := by
  have hlen := selected_length scan q k db.sound.delivery_pk
  simp only [size, DB.deleteDeliveries, deliveriesWithout, List.length_map]
  omega

theorem deleteDeliveryIDs_left {scan : ScanOrder Delivery} {q : Delivery → Bool} {k : ℕ}
    (hless : (selectIDs Delivery.id scan q k db.deliveries).length < k) :
    ∀ d ∈ (db.deleteDeliveries (fun d => decide (d.id ∈
      selectIDs Delivery.id scan q k db.deliveries))).deliveries,
        ∃ r ∈ db.deliveries, q r = false ∧ r.completedAt = d.completedAt ∧
          r.expiresAt = d.expiresAt ∧ r.subscriptionID = d.subscriptionID := by
  intro d hd
  obtain ⟨r, hr, hkept, rfl⟩ := mem_deliveriesWithout.mp hd
  refine ⟨r, hr, ?_, rfl, rfl, rfl⟩
  by_contra hq
  rw [Bool.not_eq_false] at hq
  simp [selectIDs_all hless hr hq] at hkept

theorem completedDeliveries_clears :
    Clears env p .pruneCompletedDeliveries db (pruneCompletedDeliveries env p (Tx.begin db)).1
      (pruneCompletedDeliveries env p (Tx.begin db)).2.db := by
  refine ⟨deleteDeliveryIDs_size, fun hless d hd haged => ?_⟩
  obtain ⟨r, -, hq, hcompleted, -⟩ := deleteDeliveryIDs_left hless d hd
  rw [hcompleted, agedBy_iff.mpr haged] at hq
  cases hq

theorem expiredDeliveries_clears :
    Clears env p .pruneExpiredDeliveries db (pruneExpiredDeliveries env p (Tx.begin db)).1
      (pruneExpiredDeliveries env p (Tx.begin db)).2.db := by
  refine ⟨deleteDeliveryIDs_size, fun hless d hd => ?_⟩
  obtain ⟨r, -, hq, -, hexpires, -⟩ := deleteDeliveryIDs_left hless d hd
  rw [hexpires] at hq
  exact not_lt.mp (of_decide_eq_false hq)

theorem subscriptionDeliveries_clears :
    Clears env p .pruneDeletedSubscriptionDeliveries db
      (pruneDeletedSubscriptionDeliveries env p (Tx.begin db)).1
      (pruneDeletedSubscriptionDeliveries env p (Tx.begin db)).2.db := by
  refine ⟨deleteDeliveryIDs_size, fun hless d hd s hs hid haged => ?_⟩
  obtain ⟨r, -, hq, -, -, hsub⟩ := deleteDeliveryIDs_left hless d hd
  rw [hsub, List.any_eq_false] at hq
  exact hq s hs (by simp [hid, agedBy_iff.mpr haged])

theorem kept_unselected {α : Type} {key : α → UUID} {scan : ScanOrder α} {q : α → Bool} {k : ℕ}
    {rows : List α} (hless : (selectIDs key scan q k rows).length < k) {r : α}
    (hr : r ∈ rows.filter (fun r => !decide (key r ∈ selectIDs key scan q k rows))) :
    r ∈ rows ∧ q r = false := by
  obtain ⟨hr, hkept⟩ := List.mem_filter.mp hr
  refine ⟨hr, ?_⟩
  by_contra hq
  rw [Bool.not_eq_false] at hq
  simp [selectIDs_all hless hr hq] at hkept

theorem deleteMessages_size {scan : ScanOrder Message} {q : Message → Bool} {k : ℕ} {db' : DB}
    (h : db.deleteMessages (fun m => decide (m.id ∈ selectIDs Message.id scan q k db.messages)) =
      .ok db') :
    size db' + (selectIDs Message.id scan q k db.messages).length ≤ size db := by
  have hlen := selected_length scan q k db.sound.message_pk
  simp only [size, (DB.deleteMessages_ok h).2]
  omega

theorem completedMessages_clears (h : pruneCompletedMessages env p (Tx.begin db) = .ok (n, tx)) :
    Clears env p .pruneCompletedMessages db n tx.db := by
  obtain ⟨db', hdb, h⟩ := bind_ok.mp h
  obtain ⟨rfl, rfl⟩ := Prod.mk.inj (pure_ok.mp h)
  refine ⟨deleteMessages_size hdb, fun hless m hm haged => ?_⟩
  have htab := (DB.deleteMessages_ok hdb).2
  have hmessages := congrArg Tables.messages htab
  have hdeliveries := congrArg Tables.deliveries htab
  rw [hmessages] at hm
  rw [hdeliveries]
  obtain ⟨-, hq⟩ := kept_unselected hless hm
  simpa [haged] using hq

theorem deleteSubscriptions_size {scan : ScanOrder Subscription} {q : Subscription → Bool} {k : ℕ}
    {db' : DB} (h : db.deleteSubscriptions (fun s => decide (s.id ∈
      selectIDs Subscription.id scan q k db.subscriptions)) = .ok db') :
    size db' + (selectIDs Subscription.id scan q k db.subscriptions).length ≤ size db := by
  have hlen := selected_length scan q k db.sound.subscription_pk
  have hlive : (db.subscriptions.filter (fun s => !decide (s.id ∈
      selectIDs Subscription.id scan q k db.subscriptions))).countP (fun s => s.deletedAt.isNone) ≤
        db.subscriptions.countP (fun s => s.deletedAt.isNone) :=
    List.Sublist.countP_le List.filter_sublist
  simp only [size, DB.deleteSubscriptions_ok h]
  omega

theorem deletedSubscriptions_clears
    (h : pruneDeletedSubscriptions env p (Tx.begin db) = .ok (n, tx)) :
    Clears env p .pruneDeletedSubscriptions db n tx.db := by
  obtain ⟨db', hdb, h⟩ := bind_ok.mp h
  obtain ⟨rfl, rfl⟩ := Prod.mk.inj (pure_ok.mp h)
  refine ⟨deleteSubscriptions_size hdb, fun hless s hs haged => ?_⟩
  have htab := DB.deleteSubscriptions_ok hdb
  have hsubscriptions := congrArg Tables.subscriptions htab
  have hdeliveries := congrArg Tables.deliveries htab
  rw [hsubscriptions] at hs
  rw [hdeliveries]
  obtain ⟨-, hq⟩ := kept_unselected hless hs
  simpa [agedBy_iff.mpr haged] using hq

theorem deleteTopics_size {scan : ScanOrder Topic} {q : Topic → Bool} {k : ℕ} {db' : DB}
    (h : db.deleteTopics (fun t => decide (t.id ∈ selectIDs Topic.id scan q k db.topics)) =
      .ok db') : size db' + (selectIDs Topic.id scan q k db.topics).length ≤ size db := by
  have hlen := selected_length scan q k db.sound.topic_pk
  simp only [size, DB.deleteTopics_ok h, List.length_map, List.countP_map, Function.comp_def,
    Subscription.forgetTopics]
  omega

theorem deletedTopics_clears (h : pruneDeletedTopics env p (Tx.begin db) = .ok (n, tx)) :
    Clears env p .pruneDeletedTopics db n tx.db := by
  obtain ⟨db', hdb, h⟩ := bind_ok.mp h
  obtain ⟨rfl, rfl⟩ := Prod.mk.inj (pure_ok.mp h)
  refine ⟨deleteTopics_size hdb, fun hless r hr ⟨haged, hfree⟩ => ?_⟩
  have htab := DB.deleteTopics_ok hdb
  have htopics := congrArg Tables.topics htab
  have hsubscriptions := congrArg Tables.subscriptions htab
  rw [htopics] at hr
  obtain ⟨-, hq⟩ := kept_unselected hless hr
  simp only [agedBy_iff.mpr haged, Bool.true_and, List.all_eq_false, decide_eq_true_eq,
    not_not] at hq
  obtain ⟨s, hs, htopic⟩ := hq
  rw [hsubscriptions] at hfree
  exact absurd htopic (hfree (Subscription.forgetTopics _ s) (List.mem_map_of_mem hs))

theorem markDeleted_size {scan : ScanOrder Subscription} {q : Subscription → Bool} {k : ℕ}
    {t : Time} {db' : DB} (hq : ∀ s, q s = true → s.deletedAt = none)
    (h : db.updateSubscriptions (fun s => decide (s.id ∈
      selectIDs Subscription.id scan q k db.subscriptions)) { deletedAt := some t } = .ok db') :
    size db' + (selectIDs Subscription.id scan q k db.subscriptions).length ≤ size db := by
  generalize hids : selectIDs Subscription.id scan q k db.subscriptions = ids at h
  have hlive : ∀ i ∈ ids,
      ∃ s ∈ db.subscriptions.filter (fun s => s.deletedAt.isNone), s.id = i := by
    intro i hi
    rw [← hids] at hi
    obtain ⟨s, hs, hsel, hid⟩ := selectIDs_mem hi
    exact ⟨s, List.mem_filter.mpr ⟨hs, by simp [hq s hsel]⟩, hid⟩
  have hlen := removed_length (hids ▸ selectIDs_nodup db.sound.subscription_pk) hlive
  have htab := DB.updateSubscriptions_ok h
  have hcount : db'.subscriptions.countP (fun s => s.deletedAt.isNone) =
      ((db.subscriptions.filter (fun s => s.deletedAt.isNone)).filter
        (fun s => !decide (s.id ∈ ids))).length := by
    rw [congrArg Tables.subscriptions htab, List.countP_map, List.countP_eq_length_filter,
      List.filter_filter]
    refine congrArg List.length (List.filter_congr fun s _ => ?_)
    by_cases hs : s.id ∈ ids
    · simp [setWhere, hs, SubscriptionUpdate.apply]
    · simp [setWhere, hs]
  have hbefore : db.subscriptions.countP (fun s => s.deletedAt.isNone) =
      (db.subscriptions.filter (fun s => s.deletedAt.isNone)).length :=
    List.countP_eq_length_filter
  have hsubscriptions : db'.subscriptions.length = db.subscriptions.length := by
    rw [congrArg Tables.subscriptions htab, List.length_map]
  have hdeliveries : db'.deliveries = db.deliveries := by rw [htab]
  have hmessages : db'.messages = db.messages := by rw [htab]
  have htopics : db'.topics = db.topics := by rw [htab]
  rw [size, size, hcount, hbefore, hsubscriptions, hdeliveries, hmessages, htopics]
  omega

theorem markDeleted_left {scan : ScanOrder Subscription} {q : Subscription → Bool} {k : ℕ}
    {t : Time} {db' : DB} (hless : (selectIDs Subscription.id scan q k db.subscriptions).length < k)
    (h : db.updateSubscriptions (fun s => decide (s.id ∈
      selectIDs Subscription.id scan q k db.subscriptions)) { deletedAt := some t } = .ok db') :
    ∀ s ∈ db'.subscriptions, s.deletedAt = none → q s = false := by
  intro s hs hlive
  rw [congrArg Tables.subscriptions (DB.updateSubscriptions_ok h)] at hs
  obtain ⟨r, hr, rfl⟩ := List.mem_map.mp hs
  by_cases hmem : r.id ∈ selectIDs Subscription.id scan q k db.subscriptions
  · simp [setWhere, hmem, SubscriptionUpdate.apply] at hlive
  · by_contra hq
    simp only [setWhere, hmem, decide_false, Bool.false_eq_true, if_false,
      Bool.not_eq_false] at hq
    exact hmem (selectIDs_all hless hr hq)

theorem expiredSubscriptions_clears
    (h : deleteExpiredSubscriptions env p.maxDelete (Tx.begin db) = .ok (n, tx)) :
    Clears env p .deleteExpiredSubscriptions db n tx.db := by
  obtain ⟨db', hdb, h⟩ := bind_ok.mp h
  obtain ⟨rfl, rfl⟩ := Prod.mk.inj (pure_ok.mp h)
  have hlive : ∀ s : Subscription,
      (decide (s.expiresAt < env.now) && s.deletedAt.isNone) = true → s.deletedAt = none := by
    intro s hs
    rw [Bool.and_eq_true, Option.isNone_iff_eq_none] at hs
    exact hs.2
  have hsize := markDeleted_size hlive hdb
  rw [selectIDs, List.length_map] at hsize
  refine ⟨hsize, fun hless s hs hnone => ?_⟩
  have hleft := markDeleted_left (by rwa [selectIDs, List.length_map]) hdb s hs hnone
  simpa [hnone] using hleft

theorem execute_clears {s : Service} (h : execute env p (Tx.begin db) s = .ok (n, tx)) :
    Clears env p s db n tx.db := by
  cases s with
  | pruneCompletedDeliveries =>
    obtain ⟨rfl, rfl⟩ := Prod.mk.inj (Except.ok.inj h)
    exact completedDeliveries_clears
  | pruneExpiredDeliveries =>
    obtain ⟨rfl, rfl⟩ := Prod.mk.inj (Except.ok.inj h)
    exact expiredDeliveries_clears
  | pruneCompletedMessages => exact completedMessages_clears h
  | pruneDeletedSubscriptionDeliveries =>
    obtain ⟨rfl, rfl⟩ := Prod.mk.inj (Except.ok.inj h)
    exact subscriptionDeliveries_clears
  | pruneDeletedSubscriptions => exact deletedSubscriptions_clears h
  | pruneDeletedTopics => exact deletedTopics_clears h
  | deleteExpiredSubscriptions => exact expiredSubscriptions_clears h

theorem pruneJob_clears (set : PruneCommonSettings) (s : Service) :
    (pruneJob set s).Clears set.pace size
      (fun now db => Pruned now set.params.minAge db.toTables s) where
  less := by
    intro r db n hn
    obtain ⟨tx, hok, hdb⟩ := runOnce_some hn
    show size (runOnce _ _ _).2 + n ≤ _
    rw [hdb]
    exact (execute_clears hok).1
  done := by
    intro r db n hn hless
    obtain ⟨tx, hok, hdb⟩ := runOnce_some hn
    show Pruned _ _ (runOnce _ _ _).2.toTables s
    rw [hdb]
    exact (execute_clears hok).2 hless

end

def single : PruneCommonSettings := PruneCommonSettings.applyDefaults ⟨⟨0, 1⟩, 0, 0, 0⟩

def quietRounds : List Round :=
  [102, 207, 61212, 122217, 183222].map
    (fun t => ⟨2000000, .plain (2 * hour + t * millisecond) 70, 3000000, second, true⟩)

theorem sweep_rows {env : Env} {n : ℕ} {db : DB} {r : DeadLetterDeliveriesResults} {tx : Tx}
    (h : deadLetterDeliveries env n (Tx.begin db) = .ok (r, tx)) :
    r.numDeadLettered = (fetchedIDs (selected env db.toTables n)).length ∧
      ∃ new, tx.db.toTables = { db.toTables with
          deliveries :=
            completed env (fetchedIDs (selected env db.toTables n)) db.deliveries ++ new } ∧
        ∀ c ∈ new, c.attempts = 0 := by
  obtain ⟨last, hloop, h⟩ := bind_ok.mp h
  obtain ⟨rfl, rfl⟩ := Prod.mk.inj (pure_ok.mp h)
  have hdata : deadLetterSelection env (Tx.begin db).db.toTables n =
      (selected env db.toTables n).map (fun x => deadLetterDataFromEntities x.1.1 x.2) :=
    selected_data env db.toTables n
  rw [hdata, List.foldlM_map] at hloop
  have hrows : ∀ x ∈ selected env db.toTables n,
      Has Delivery.id x.1.1.id (Tx.begin db).db.deliveries := by
    intro x hx
    have hid : x.1.1.id ∈ fetchedIDs (selected env db.toTables n) :=
      List.mem_map_of_mem (f := fun x : Fetched × UUID => x.1.1.id) hx
    rw [selected_ids] at hid
    obtain ⟨d, hd, -, hid⟩ := selectIDs_mem hid
    exact ⟨d, hd, hid⟩
  obtain ⟨new, htab, hnew⟩ := deadLetterAll_rows hrows hloop
  refine ⟨?_, new, htab, fun c hc => ?_⟩
  · rw [hdata, fetchedIDs, List.length_map, List.length_map]
  · obtain ⟨x, -, hcopy⟩ := hnew c hc
    exact hcopy.attempts

def tried (db : DB) : ℕ :=
  db.deliveries.countP (fun d => d.completedAt.isNone && decide (0 < d.attempts))

section
variable {env : Env} {n : ℕ} {db : DB} {r : DeadLetterDeliveriesResults} {tx : Tx}

theorem sweep_tried (h : deadLetterDeliveries env n (Tx.begin db) = .ok (r, tx)) :
    tried tx.db + r.numDeadLettered ≤ tried db := by
  obtain ⟨hcount, new, htab, hnew⟩ := sweep_rows h
  have hnone : new.countP (fun d => d.completedAt.isNone && decide (0 < d.attempts)) = 0 := by
    rw [List.countP_eq_zero]
    intro c hc
    simp [hnew c hc]
  have hids := selected_ids env db.toTables n
  generalize fetchedIDs (selected env db.toTables n) = ids at *
  have hmem : ∀ i ∈ ids, ∃ d ∈ db.deliveries.filter
      (fun d => d.completedAt.isNone && decide (0 < d.attempts)), d.id = i := by
    intro i hi
    rw [hids] at hi
    obtain ⟨d, hd, hsel, hid⟩ := selectIDs_mem hi
    obtain ⟨k, hk⟩ := Option.isSome_iff_exists.mp hsel
    obtain ⟨s, -, -, hout, -, hspent⟩ := deadLetterTarget_some.mp hk
    have hpos := Subscription.deadLetterTopicFor_attempts hspent
    exact ⟨d, List.mem_filter.mpr ⟨hd, by simp [hout.1, hpos]⟩, hid⟩
  have hlen := removed_length (hids ▸ selectIDs_nodup db.sound.delivery_pk) hmem
  have hleft : (completed env ids db.deliveries).countP
      (fun d => d.completedAt.isNone && decide (0 < d.attempts)) =
        ((db.deliveries.filter (fun d => d.completedAt.isNone && decide (0 < d.attempts))).filter
          (fun d => !decide (d.id ∈ ids))).length := by
    rw [completed, List.countP_map, List.countP_eq_length_filter, List.filter_filter]
    refine congrArg List.length (List.filter_congr fun d _ => ?_)
    by_cases hd : d.id ∈ ids
    · simp [setWhere, hd, completion, DeliveryUpdate.apply]
    · simp [setWhere, hd]
  have hbefore : tried db = (db.deliveries.filter
      (fun d => d.completedAt.isNone && decide (0 < d.attempts))).length :=
    List.countP_eq_length_filter
  rw [hcount, hbefore, tried, congrArg Tables.deliveries htab, List.countP_append, hnone, hleft]
  exact hlen

theorem sweep_done (h : deadLetterDeliveries env n (Tx.begin db) = .ok (r, tx))
    (hless : r.numDeadLettered < n) :
    ∀ d ∈ tx.db.deliveries, deadLetterTarget env.now tx.db.toTables d = none := by
  obtain ⟨hcount, new, htab, hnew⟩ := sweep_rows h
  rw [hcount, selected_ids] at hless
  intro d hd
  by_contra hsome
  obtain ⟨k, hk⟩ := Option.ne_none_iff_exists'.mp hsome
  obtain ⟨s, hs, hlive, hout, hdue, hspent⟩ := deadLetterTarget_some.mp hk
  rw [congrArg Tables.deliveries htab] at hd
  rw [congrArg Tables.subscriptions htab] at hs
  rcases List.mem_append.mp hd with hd | hd
  · obtain ⟨r, hr, rfl⟩ := List.mem_map.mp hd
    by_cases hid : r.id ∈ fetchedIDs (selected env db.toTables n)
    · have hcompleted := hout.1
      simp [setWhere, hid, completion, DeliveryUpdate.apply] at hcompleted
    · simp only [setWhere, hid, decide_false, Bool.false_eq_true, if_false] at hs hout hdue hspent
      have htarget := deadLetterTarget_some.mpr ⟨s, hs, hlive, hout, hdue, hspent⟩
      rw [selected_ids] at hid
      exact hid (selectIDs_all hless hr (by rw [htarget]; rfl))
  · have hpos := Subscription.deadLetterTopicFor_attempts hspent
    rw [hnew d hd] at hpos
    exact absurd hpos (lt_irrefl 0)

end

theorem deadLetterJob_clears (set : DeadLetterSettings) :
    (deadLetterJob set).Clears set.pace tried
      (fun now db => ∀ d ∈ db.deliveries, deadLetterTarget now db.toTables d = none) where
  less := by
    intro r db n hn
    obtain ⟨tx, hok, hdb⟩ := runOnce_some hn
    obtain ⟨⟨res, tx'⟩, hsweep, heq⟩ := map_ok.mp hok
    obtain ⟨rfl, rfl⟩ := Prod.mk.inj heq
    show tried (runOnce _ _ _).2 + _ ≤ _
    rw [hdb]
    exact sweep_tried hsweep
  done := by
    intro r db n hn hless
    obtain ⟨tx, hok, hdb⟩ := runOnce_some hn
    obtain ⟨⟨res, tx'⟩, hsweep, heq⟩ := map_ok.mp hok
    obtain ⟨rfl, rfl⟩ := Prod.mk.inj heq
    show ∀ d ∈ (runOnce _ _ _).2.deliveries, deadLetterTarget _ (runOnce _ _ _).2.toTables d = none
    rw [hdb]
    exact sweep_done hsweep hless

def singleSweep : DeadLetterSettings := DeadLetterSettings.applyDefaults ⟨1, 0, 0, 0⟩

def sweepRounds : List Round :=
  [102, 207].map
    (fun t => ⟨2000000, .plain (13 * second + t * millisecond) 70, 3000000, second, true⟩)

end Mmmbbb.Maintenance
