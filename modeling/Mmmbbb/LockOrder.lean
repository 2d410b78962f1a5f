import Mathlib.Data.List.Lex
import Mmmbbb.PdqsortFrozen
import Mmmbbb.Portions

/-!
# The order in which a pull touches the deliveries it hands out

The final loop of `applyResults` updates a copy of the results that was sorted
by identifier, so that concurrent pulls take their row locks in one order. The
comparison it sorts by looks at the deliveries as they were fetched, whatever
has been moved or skipped since.
-/

set_option autoImplicit false

namespace Mmmbbb.LockOrder
open KeyedRows Programs Budgets Pdqsort Mmmbbb.Schema Mmmbbb.Database Mmmbbb.Delivering Mmmbbb.Consuming
open Mmmbbb.Portions Mmmbbb.Runs Mmmbbb.Administering

def bytesLess : List ℕ → List ℕ → Bool
  | a :: as, b :: bs => if a < b then true else if b < a then false else bytesLess as bs
  | _, _ => false

def uuidLess (a b : UUID) : Bool := bytesLess (uuidBytes a) (uuidBytes b)

theorem bytesLess_iff {as bs : List ℕ} (h : as.length = bs.length) :
    bytesLess as bs = true ↔ as < bs := by
  induction as generalizing bs with
  | nil =>
    have hnil : bs = [] := List.length_eq_zero_iff.mp h.symm
    simp [hnil, bytesLess]
  | cons a as ih =>
    cases bs with
    | nil => cases h
    | cons b bs =>
      have hlength : as.length = bs.length := by simpa using h
      have hrest := ih hlength
      rw [bytesLess, List.cons_lt_cons_iff]
      split
      · rename_i hlt
        simp [hlt]
      · rename_i hge
        split
        · rename_i hlt
          have hne : a ≠ b := by omega
          simp [hge, hne]
        · have heq : a = b := by omega
          simp [heq, hrest]

theorem uuidLess_iff {a b : UUID} : uuidLess a b = true ↔ uuidBytes a < uuidBytes b :=
  bytesLess_iff (by simp [uuidBytes])

def lessAt (ids : List UUID) (i j : ℕ) : Bool :=
  match ids[i]?, ids[j]? with
  | some a, some b => uuidLess a b
  | _, _ => false

theorem lessAt_getElem {ids : List UUID} {i j : ℕ} (hi : i < ids.length) (hj : j < ids.length) :
    lessAt ids i j = true ↔ (ids.map uuidBytes).get ⟨i, by simpa using hi⟩ <
      (ids.map uuidBytes).get ⟨j, by simpa using hj⟩ := by
  simp only [lessAt, List.getElem?_eq_getElem hi, List.getElem?_eq_getElem hj, List.get_eq_getElem,
    List.getElem_map]
  exact uuidLess_iff

def fetchedIDs (fetched : List Fetched) : List UUID := fetched.map (fun x => x.1.id)

/-- `sort.Slice` of the copy of the results; the comparison is closed over the
deliveries that were fetched. -/
def sortedDeliveries (fetched : List Fetched) (results : List SubscriptionMessageDelivery) :
    List SubscriptionMessageDelivery :=
  sortSlice (frozen SubscriptionMessageDelivery (lessAt (fetchedIDs fetched))) results

/-- `applyResults` with the identifiers it updates, in the order it does so. -/
def applyResultsTouching (env : Env) (p : GetSubscriptionMessagesParams) (sub : Subscription)
    (deliveries : List Fetched) (tx : Tx) :
    Except Error ((GetSubscriptionMessagesResults × List UUID) × Tx) := do
  let tx ← refreshExpiration env sub tx
  let st ← applyLoop env p sub 0 deliveries ⟨tx, 0, [], 0⟩
  let tx ← markAttempted env (sortedDeliveries deliveries st.deliveries) st.tx
  pure ((⟨st.deliveries, st.numDeadLettered⟩,
    (sortedDeliveries deliveries st.deliveries).map (fun x => x.id)), tx)

section
variable {env : Env}

def attemptRow (env : Env) (db : DB) (x : SubscriptionMessageDelivery) : DB :=
  db.updateDeliveries (fun d => decide (d.id = x.id)) (attemptUpdate env x)

theorem has_attemptRow {db : DB} {x : SubscriptionMessageDelivery} {k : UUID} :
    Has Delivery.id k (attemptRow env db x).deliveries ↔ Has Delivery.id k db.deliveries := by
  constructor
  · rintro ⟨r, hr, hid⟩
    obtain ⟨d, hd, rfl⟩ := DB.mem_updateDeliveries.mp hr
    exact ⟨d, hd, by rwa [setWhere_id] at hid⟩
  · exact fun h => h.map (setWhere_keeps Delivery.id (attemptUpdate env x).apply_id)

theorem attemptRow_comm (db : DB) {x y : SubscriptionMessageDelivery} (hne : x.id ≠ y.id) :
    attemptRow env (attemptRow env db x) y = attemptRow env (attemptRow env db y) x := by
  have hrow : ∀ r : Delivery,
      setWhere (fun d => decide (d.id = y.id)) (attemptUpdate env y).apply
          (setWhere (fun d => decide (d.id = x.id)) (attemptUpdate env x).apply r) =
        setWhere (fun d => decide (d.id = x.id)) (attemptUpdate env x).apply
          (setWhere (fun d => decide (d.id = y.id)) (attemptUpdate env y).apply r) := by
    intro r
    by_cases hx : r.id = x.id
    · have hy : r.id ≠ y.id := hx ▸ hne
      simp [setWhere, hx, hne]
    · simp only [setWhere, hx, decide_false, Bool.false_eq_true, if_false]
      split <;> simp [hx]
  apply DB.ext'
  simp only [attemptRow, DB.updateDeliveries, List.map_map]
  congr 1
  exact List.map_congr_left fun r _ => hrow r

theorem markAttempted_eq (xs : List SubscriptionMessageDelivery) (tx : Tx) :
    markAttempted env xs tx =
      if ∀ x ∈ xs, Has Delivery.id x.id tx.db.deliveries then
        .ok { tx with db := xs.foldl (attemptRow env) tx.db }
      else .error .errNotFound := by
  induction xs generalizing tx with
  | nil => rfl
  | cons x xs ih =>
    rw [markAttempted, List.foldlM_cons, Tx.updateDelivery]
    by_cases hx : Has Delivery.id x.id tx.db.deliveries
    · have hrest := ih { tx with db := attemptRow env tx.db x }
      simp only [has_attemptRow] at hrest
      have hall : (∀ y ∈ x :: xs, Has Delivery.id y.id tx.db.deliveries) ↔
          ∀ y ∈ xs, Has Delivery.id y.id tx.db.deliveries := by
        simp [hx]
      rw [if_pos hx, if_congr hall rfl rfl]
      exact hrest
    · rw [if_neg hx, if_neg (fun h => hx (h x (by simp)))]
      rfl

theorem markAttempted_perm {xs ys : List SubscriptionMessageDelivery} (h : xs.Perm ys)
    (hn : (xs.map (·.id)).Nodup) (tx : Tx) :
    markAttempted env xs tx = markAttempted env ys tx := by
  have hcomm : ∀ x ∈ xs, ∀ y ∈ xs, ∀ db,
      attemptRow env (attemptRow env db x) y = attemptRow env (attemptRow env db y) x := by
    intro x hx y hy db
    by_cases hid : x.id = y.id
    · have hxy : x = y := List.inj_on_of_nodup_map hn hx hy hid
      rw [hxy]
    · exact attemptRow_comm db hid
  have hmem : (∀ x ∈ xs, Has Delivery.id x.id tx.db.deliveries) ↔
      ∀ x ∈ ys, Has Delivery.id x.id tx.db.deliveries := by
    simp only [h.mem_iff]
  rw [markAttempted_eq, markAttempted_eq, if_congr hmem rfl rfl, h.foldl_eq' hcomm]

end

section
variable {env : Env} {p : GetSubscriptionMessagesParams} {sub : Subscription}
  {fetched : List Fetched} {tx : Tx}

def DistinctIDs (fetched : List Fetched) : Prop :=
  ((fetchedIDs fetched).map uuidBytes).Nodup

instance (fetched : List Fetched) : Decidable (DistinctIDs fetched) :=
  inferInstanceAs (Decidable (List.Nodup _))

/-- What the loop hands out of the fetched deliveries: the rest is skipped or
dead-lettered. -/
def givenIDs (p : GetSubscriptionMessagesParams) (sub : Subscription) (fetched : List Fetched) :
    List UUID :=
  fetchedIDs ((pullPass p sub).portion 0 0 fetched).taken

theorem givenIDs_sublist (p : GetSubscriptionMessagesParams) (sub : Subscription)
    (fetched : List Fetched) : (givenIDs p sub fetched).Sublist (fetchedIDs fetched) :=
  (portion_taken_sublist (pullPass p sub) 0 0 fetched).map _

theorem applyLoop_given_ids {st : Applied}
    (h : applyLoop env p sub 0 fetched ⟨tx, 0, [], 0⟩ = .ok st) :
    st.deliveries.map (·.id) = givenIDs p sub fetched := by
  rw [applyLoop_eq] at h
  obtain ⟨mid, -, rfl⟩ := map_ok.mp h
  simp [givenIDs, fetchedIDs, handOut, Function.comp_def]

theorem applyResultsTouching_eq (hn : DistinctIDs fetched) :
    (applyResultsTouching env p sub fetched tx).map (fun r => (r.1.1, r.2)) =
      applyResults env p sub fetched tx := by
  rw [applyResultsTouching, applyResults]
  cases refreshExpiration env sub tx with
  | error e => rfl
  | ok start =>
    simp only [bind, Except.bind]
    cases hloop : applyLoop env p sub 0 fetched ⟨start, 0, [], 0⟩ with
    | error e => rfl
    | ok st =>
      have hids : (st.deliveries.map (·.id)).Nodup := by
        rw [applyLoop_given_ids hloop]
        exact (hn.of_map _).sublist (givenIDs_sublist p sub fetched)
      have hperm : st.deliveries.Perm (sortedDeliveries fetched st.deliveries) :=
        (sortSlice_perm _ _).symm
      simp only [← markAttempted_perm hperm hids]
      cases markAttempted env st.deliveries st.tx with
      | error e => rfl
      | ok last => rfl

structure TouchedInOrder (given touched : List UUID) : Prop where
  once : touched.Perm given
  increasing : touched.Pairwise (fun a b => uuidLess a b = true)

/-- Nowhere among the first places does the comparison ask for an exchange. -/
def Ascends (ids : List UUID) (n : ℕ) : Prop :=
  ∀ k, k + 1 < n → lessAt ids (k + 1) k = false

/-- Two of the given identifiers stand the wrong way round exactly when the
fetched ones descend all the way from the one place to the other: the insertion
sort for up to twelve turns each descent of the fetched ones round. With more of
them, the fetched ones must not descend at all. -/
structure Straightened (fetched given : List UUID) : Prop where
  inversions : ∀ i j, i < j → j < given.length →
    (lessAt given j i = true ↔ ∀ k, i ≤ k → k < j → lessAt fetched (k + 1) k = true)
  ascends : 12 < given.length → Ascends fetched given.length

theorem touching_touched {res : GetSubscriptionMessagesResults} {touched : List UUID} {tx' : Tx}
    (h : applyResultsTouching env p sub fetched tx = .ok ((res, touched), tx')) :
    touched = sortSlice (frozen UUID (lessAt (fetchedIDs fetched))) (givenIDs p sub fetched) := by
  obtain ⟨start, -, h⟩ := bind_ok.mp h
  obtain ⟨st, hst, h⟩ := bind_ok.mp h
  obtain ⟨last, -, h⟩ := bind_ok.mp h
  cases pure_ok.mp h
  rw [sortedDeliveries, ← sortSlice_map, applyLoop_given_ids hst]

theorem touching_given {res : GetSubscriptionMessagesResults} {touched : List UUID} {tx' : Tx}
    (h : applyResultsTouching env p sub fetched tx = .ok ((res, touched), tx')) :
    res.deliveries.map (·.id) = givenIDs p sub fetched := by
  obtain ⟨start, -, h⟩ := bind_ok.mp h
  obtain ⟨st, hst, h⟩ := bind_ok.mp h
  obtain ⟨last, -, h⟩ := bind_ok.mp h
  cases pure_ok.mp h
  exact applyLoop_given_ids hst

theorem lessAt_false {ids : List UUID} {i j : ℕ} (hi : i < ids.length) (hj : j < ids.length) :
    lessAt ids j i = false ↔ (ids.map uuidBytes).get ⟨i, by simpa using hi⟩ ≤
      (ids.map uuidBytes).get ⟨j, by simpa using hj⟩ := by
  rw [← Bool.not_eq_true, lessAt_getElem hj hi, not_lt]

theorem lessAt_ascending {ids : List UUID} {n : ℕ} (hn : n ≤ ids.length) (h : Ascends ids n) :
    ∀ p q, p < q → q < n → lessAt ids q p = false := by
  intro p q hpq
  induction q, hpq using Nat.le_induction with
  | base => exact h p
  | succ q hpq ih =>
    intro hq
    have hlast := h q hq
    have hbefore := ih (by omega)
    rw [lessAt_false (by omega) (by omega)] at hlast hbefore ⊢
    exact hbefore.trans hlast

theorem sorted_iff_bytes {fetched given : List UUID} :
    (sortSlice (frozen UUID (lessAt fetched)) given).Pairwise (fun a b => uuidLess a b = true) ↔
      (sortSlice (frozen (List ℕ) (lessAt fetched)) (given.map uuidBytes)).Pairwise (· < ·) := by
  rw [sortSlice_map, List.pairwise_map]
  simp only [uuidLess_iff]

theorem sorted_short_iff {fetched given : List UUID} (hn : (given.map uuidBytes).Nodup)
    (hshort : given.length ≤ 12) :
    (sortSlice (frozen UUID (lessAt fetched)) given).Pairwise (fun a b => uuidLess a b = true) ↔
      Straightened fetched given := by
  rw [sorted_iff_bytes, sortSlice_short (lessAt fetched) (by simpa using hshort) hn]
  simp only [List.length_map]
  constructor
  · intro h
    refine ⟨fun i j hij hj => ?_, fun hlong => absurd hlong (by omega)⟩
    rw [lessAt_getElem hj (hij.trans hj)]
    exact h i j hij hj
  · intro h i j hij hj
    have hiff := h.inversions i j hij hj
    rw [lessAt_getElem hj (hij.trans hj)] at hiff
    exact hiff

theorem sorted_ascending_iff {fetched given : List UUID} (hn : (given.map uuidBytes).Nodup)
    (hlength : given.length ≤ fetched.length) (hascends : Ascends fetched given.length) :
    (sortSlice (frozen UUID (lessAt fetched)) given).Pairwise (fun a b => uuidLess a b = true) ↔
      Straightened fetched given := by
  rw [sortSlice_ascending given (lessAt_ascending hlength hascends)]
  -- one step of the fetched identifiers goes up, so no two are to be exchanged
  have hturn : ∀ i j, i < j → j < given.length →
      ¬∀ k, i ≤ k → k < j → lessAt fetched (k + 1) k = true := by
    intro i j hij hj hdescends
    have hfirst := hdescends i (le_refl i) hij
    rw [hascends i (by omega)] at hfirst
    cases hfirst
  constructor
  · intro h
    refine ⟨fun i j hij hj => iff_of_false ?_ (hturn i j hij hj), fun _ => hascends⟩
    have hbytes := (List.pairwise_map.mpr (h.imp uuidLess_iff.mp)).rel_get_of_lt
      (a := ⟨i, by simpa using hij.trans hj⟩) (b := ⟨j, by simpa using hj⟩) hij
    rw [Bool.not_eq_true, lessAt_false (hij.trans hj) hj]
    exact hbytes.le
  · intro h
    rw [List.pairwise_iff_getElem]
    intro i j hi hj hij
    have hstands : lessAt given j i = false := by
      rw [← Bool.not_eq_true, h.inversions i j hij hj]
      exact hturn i j hij hj
    rw [lessAt_false hi hj] at hstands
    have hplaces : (⟨i, by simpa using hi⟩ : Fin (given.map uuidBytes).length) ≠
        ⟨j, by simpa using hj⟩ := by simpa using hij.ne
    have hlt := lt_of_le_of_ne hstands (hn.injective_get.ne hplaces)
    rw [List.get_eq_getElem, List.get_eq_getElem, List.getElem_map, List.getElem_map] at hlt
    exact uuidLess_iff.mpr hlt

theorem sorted_prefix_iff {fetched given : List UUID} (hn : (given.map uuidBytes).Nodup)
    (hstarts : given <+: fetched) (hlong : 12 < given.length) :
    (sortSlice (frozen UUID (lessAt fetched)) given).Pairwise (fun a b => uuidLess a b = true) ↔
      Straightened fetched given := by
  have hlt : ∀ i j (hi : i < (given.map uuidBytes).length) (hj : j < (given.map uuidBytes).length),
      lessAt fetched i j = true ↔ (given.map uuidBytes)[i] < (given.map uuidBytes)[j] := by
    intro i j hi hj
    simp only [List.length_map] at hi hj
    have hle := hstarts.length_le
    rw [lessAt_getElem (by omega) (by omega)]
    simp [hstarts.getElem hi, hstarts.getElem hj]
  constructor
  · intro h
    have hascends : Ascends fetched given.length := by
      simpa [Ascends] using sortSlice_long (by simpa using hlong) hlt (sorted_iff_bytes.mp h)
    exact (sorted_ascending_iff hn hstarts.length_le hascends).mp h
  · intro h
    exact (sorted_ascending_iff hn hstarts.length_le (h.ascends hlong)).mpr h

/-- The final loop touches what it hands out in increasing order when what is
fetched and what is given of it stand so that the comparison of the one sorts
the other; and only then, unless more than twelve are handed out with some
passed over among them and the comparison asks for an exchange. -/
theorem touched_in_order_iff {res : GetSubscriptionMessagesResults} {touched : List UUID}
    {tx' : Tx} (hn : DistinctIDs fetched)
    (h : applyResultsTouching env p sub fetched tx = .ok ((res, touched), tx')) :
    (Straightened (fetchedIDs fetched) (givenIDs p sub fetched) →
      TouchedInOrder (res.deliveries.map (·.id)) touched) ∧
    ((12 < (givenIDs p sub fetched).length →
        givenIDs p sub fetched <+: fetchedIDs fetched ∨
          Ascends (fetchedIDs fetched) (givenIDs p sub fetched).length) →
      TouchedInOrder (res.deliveries.map (·.id)) touched →
      Straightened (fetchedIDs fetched) (givenIDs p sub fetched)) := by
  have hsub := givenIDs_sublist p sub fetched
  have hgiven : ((givenIDs p sub fetched).map uuidBytes).Nodup := hn.sublist (hsub.map _)
  have hiff : (12 < (givenIDs p sub fetched).length →
      givenIDs p sub fetched <+: fetchedIDs fetched ∨
        Ascends (fetchedIDs fetched) (givenIDs p sub fetched).length) →
      ((sortSlice (frozen UUID (lessAt (fetchedIDs fetched))) (givenIDs p sub fetched)).Pairwise
        (fun a b => uuidLess a b = true) ↔
          Straightened (fetchedIDs fetched) (givenIDs p sub fetched)) := by
    intro hcond
    by_cases hlong : 12 < (givenIDs p sub fetched).length
    · rcases hcond hlong with hstarts | hascends
      · exact sorted_prefix_iff hgiven hstarts hlong
      · exact sorted_ascending_iff hgiven hsub.length_le hascends
    · exact sorted_short_iff hgiven (by omega)
  rw [touching_touched h, touching_given h]
  constructor
  · intro hstraight
    exact ⟨sortSlice_perm _ _, (hiff fun hlong => .inr (hstraight.ascends hlong)).mpr hstraight⟩
  · intro hcond hboth
    exact (hiff hcond).mp hboth.increasing

end

def dueBus : World := World.initial.run [
  Sample.ordersTopic 1 10,
  Sample.worker 2 20,
  Sample.publish "1" "" 3 40,
  Sample.publish "2" "" 4 50,
  Sample.publish "3" "" 5 30]

def dueEnv : Env := .plain 6 60

def dueParams : GetSubscriptionMessagesParams := ⟨"worker", none, 10, 100, false⟩

def dueSubscription : Subscription :=
  ⟨20, 10, "worker", 2 + hour, none, hour, hour, false, [], none, none, none, none, none, none, 0⟩

def dueFetched : List Fetched :=
  queryAndLockDeliveriesOnce dueEnv dueBus.db.toTables dueSubscription dueParams

theorem dueDistinct : DistinctIDs dueFetched := by decide +kernel

theorem due_succeeds : ∃ r, applyResultsTouching dueEnv dueParams dueSubscription dueFetched
    (Tx.begin dueBus.db) = .ok r := by
  have hloaded : Loaded (Tx.begin dueBus.db).db dueFetched :=
    queryAndLockDeliveriesOnce_loaded _ _ _ _
  have hunused : Unused dueEnv (Tx.begin dueBus.db) := plain_unused (by decide +kernel)
  have hsucceeds : ∃ r, applyResults dueEnv dueParams dueSubscription dueFetched
      (Tx.begin dueBus.db) = .ok r := applyResults_succeeds hloaded hunused
  obtain ⟨r, hr⟩ := hsucceeds
  rw [← applyResultsTouching_eq dueDistinct] at hr
  obtain ⟨x, hx, -⟩ := map_ok.mp hr
  exact ⟨x, hx⟩

theorem touched_in_order_due : ∃ res touched tx',
    applyResultsTouching dueEnv dueParams dueSubscription dueFetched (Tx.begin dueBus.db) =
      .ok ((res, touched), tx') ∧ ¬TouchedInOrder (res.deliveries.map (·.id)) touched := by
  obtain ⟨⟨⟨res, touched⟩, tx'⟩, hok⟩ := due_succeeds
  refine ⟨res, touched, tx', hok, fun hboth => ?_⟩
  have hfetched : fetchedIDs dueFetched = [41, 51, 31] := by decide +kernel
  have hgiven : givenIDs dueParams dueSubscription dueFetched = [41, 51, 31] := by decide +kernel
  have hshort : ¬12 < (givenIDs dueParams dueSubscription dueFetched).length := by
    rw [hgiven]
    decide
  have h := (touched_in_order_iff dueDistinct hok).2 (fun hlong => absurd hlong hshort) hboth
  rw [hfetched, hgiven] at h
  -- the first and the last one stand the wrong way round, the first two do not
  have hdescends :=
    (h.inversions 0 2 (by decide) (by decide)).mp (by decide +kernel) 0 (by decide) (by decide)
  exact absurd hdescends (by decide +kernel)

/-- The deliveries are fetched as 41, 51, 31 and updated as 41, 31, 51. -/
theorem due_unordered : bus.Reachable dueBus ∧
    verifySub dueParams dueBus.db.toTables = .ok dueSubscription ∧
    fetchedIDs dueFetched = [41, 51, 31] ∧
    ∃ res tx', applyResultsTouching dueEnv dueParams dueSubscription dueFetched
        (Tx.begin dueBus.db) = .ok ((res, [41, 31, 51]), tx') ∧
      ¬TouchedInOrder (res.deliveries.map (·.id)) [41, 31, 51] := by
  obtain ⟨⟨⟨res, touched⟩, tx'⟩, hok⟩ := due_succeeds
  have htouched : touched = [41, 31, 51] := by
    rw [touching_touched hok, sortSlice_insertion _ (by decide +kernel)]
    decide +kernel
  refine ⟨initial_reachable _, by decide +kernel, by decide +kernel, res, tx', htouched ▸ hok, ?_⟩
  intro h
  exact absurd h.increasing (by decide +kernel)

end Mmmbbb.LockOrder
