import Mmmbbb.Runs
import Mathlib.Data.List.Dedup

/-!
# What a transaction announces

Publishing, acknowledging, dead-lettering and seeking register a commit hook
for every subscription whose deliveries they change, and each hook names one
subscription. A get or a nack registers one for what it dead-letters.
-/

set_option autoImplicit false

namespace Mmmbbb.Waking
open KeyedRows Programs Mmmbbb.Schema Mmmbbb.Database Mmmbbb.Delivering Mmmbbb.Consuming
open Mmmbbb.Seeking Mmmbbb.Runs

def rowsOf (id : UUID) (rows : List Delivery) : List Delivery :=
  rows.filter (fun d => decide (d.subscriptionID = id))

def wakeFor (id : UUID) : Hook := .wakePublishListeners false [id]

/-- The subscriptions whose deliveries have changed, as far as one looks at
them, are announced. -/
def Told {γ : Type} (look : List Delivery → γ) (start : DB) (tx : Tx) : Prop :=
  ∀ id, look (rowsOf id tx.db.deliveries) ≠ look (rowsOf id start.deliveries) →
    wakeFor id ∈ tx.onCommit

def standing (rows : List Delivery) : List (UUID × Option Time) :=
  rows.map (fun d => (d.id, d.completedAt))

section
variable {γ : Type} {look : List Delivery → γ} {start : DB} {tx tx' : Tx}

theorem told_begin (db : DB) : Told look db (.begin db) := fun _ h => absurd rfl h

theorem Told.next (h : Told look start tx) (hkeep : ∀ x ∈ tx.onCommit, x ∈ tx'.onCommit)
    (hnew : ∀ id, look (rowsOf id tx'.db.deliveries) ≠ look (rowsOf id tx.db.deliveries) →
      wakeFor id ∈ tx'.onCommit) : Told look start tx' := by
  intro id hne
  by_cases hsame : look (rowsOf id tx'.db.deliveries) = look (rowsOf id tx.db.deliveries)
  · rw [hsame] at hne
    exact hkeep _ (h id hne)
  · exact hnew id hsame

theorem rowsOf_append {id : UUID} {rows new : List Delivery}
    (h : ∀ d ∈ new, d.subscriptionID ≠ id) : rowsOf id (rows ++ new) = rowsOf id rows := by
  have hnone : rowsOf id new = [] := by
    simpa [rowsOf, List.filter_eq_nil_iff] using h
  rw [rowsOf, List.filter_append]
  exact (congrArg (_ ++ ·) hnone).trans (List.append_nil _)

theorem rowsOf_update {id : UUID} {rows : List Delivery} {p : Delivery → Bool} {u : DeliveryUpdate}
    (h : ∀ d ∈ rows, d.subscriptionID = id → p d = false) :
    rowsOf id (rows.map (setWhere p u.apply)) = rowsOf id rows := by
  induction rows with
  | nil => rfl
  | cons d rows ih =>
    have hrest := ih fun x hx => h x (List.mem_cons_of_mem _ hx)
    simp only [rowsOf, List.map_cons, List.filter_cons, setWhere_subscriptionID] at hrest ⊢
    by_cases hd : d.subscriptionID = id
    · simp [hd, hrest, setWhere, h d (by simp) hd]
    · simp [hd, hrest]

theorem createBulk_onCommit {env : Env} {dc : List DeliveryCreate}
    (h : createBulk env dc tx = .ok tx') : tx'.onCommit = tx.onCommit := by
  refine loop_invariant (I := fun t : Tx => t.onCommit = tx.onCommit) dc (fun c _ t t' ht hc => ?_)
    rfl h
  obtain ⟨db, -, hc⟩ := bind_ok.mp hc
  obtain rfl := pure_ok.mp hc
  exact ht

theorem told_deliver {env : Env} {subs : List Subscription} {m : Message} (h : Told look start tx)
    (hbulk : createBulk env (deliverAll env subs m tx).1 (deliverAll env subs m tx).2 = .ok tx') :
    Told look start tx' := by
  have hhooks := createBulk_onCommit hbulk
  obtain ⟨-, -, htables, -⟩ := createBulk_rows hbulk
  have hrows : tx'.db.deliveries = tx.db.deliveries ++
      deliveryRows env tx.drawn (deliverAll env subs m tx).1 := congrArg Tables.deliveries htables
  refine h.next (fun x hx => ?_) fun id hne => ?_
  · rw [hhooks]
    exact List.mem_append_left _ hx
  · rw [hrows] at hne
    by_contra hnot
    refine hne (congrArg look (rowsOf_append fun d hd hid => hnot ?_))
    obtain ⟨k, hk, rfl⟩ := mem_deliveryRows.mp hd
    rw [hhooks]
    refine List.mem_append_right _ (List.mem_map.mpr ⟨_, List.getElem_mem hk, ?_⟩)
    exact congrArg wakeFor hid

theorem told_publish {env : Env} {p : PublishMessageParams} {db : DB} {res : PublishMessageResults}
    (h : publishMessage env p (.begin db) = .ok (res, tx')) : Told id db tx' := by
  obtain ⟨t, -, h⟩ := bind_ok.mp h
  obtain ⟨-, -, h⟩ := bind_ok.mp h
  obtain ⟨mid, hmid, h⟩ := bind_ok.mp h
  obtain ⟨last, hlast, h⟩ := bind_ok.mp h
  obtain ⟨-, rfl⟩ := Prod.mk.inj (pure_ok.mp h)
  obtain ⟨-, htables⟩ := DB.insertMessage_ok hmid
  have hrows : mid.deliveries = db.deliveries := by
    rw [htables]
    rfl
  have hstart : Told id db ⟨mid, 1, []⟩ := fun id hne => absurd (congrArg (rowsOf id) hrows) hne
  exact told_deliver hstart hlast

theorem told_ack (env : Env) (ids : List UUID) (db : DB) :
    Told id db (ackDeliveries env ids (.begin db)).2 := by
  intro id hne
  by_contra hnot
  refine hne (rowsOf_update fun d hd hid => ?_)
  by_contra hp
  refine hnot (List.mem_append_right _ (List.mem_map.mpr ⟨id, ?_, rfl⟩))
  rw [distinctSubscriptions, List.mem_dedup]
  refine List.mem_map.mpr ⟨d, ?_, hid⟩
  rw [ScanOrder.mem_run]
  exact List.mem_filter.mpr ⟨hd, by simpa using hp⟩

def Names (db : DB) (data : DeadLetterData) : Prop :=
  ∃ d ∈ db.deliveries, d.id = data.deliveryID ∧ d.subscriptionID = data.deliverySubscriptionID

theorem deliverDeadLetter_told {env : Env} {data : DeadLetterData}
    (h : deliverDeadLetter env data tx = .ok tx') (ht : Told look start tx) :
    Told look start tx' := by
  unfold deliverDeadLetter at h
  split at h
  · cases h
    exact ht
  · dsimp only at h
    split at h
    · cases h
      exact ht
    · split at h
      · cases h
      · exact told_deliver ht h

theorem names_row {db : DB} {data : DeadLetterData} (h : Names db data) {d : Delivery}
    (hd : d ∈ db.deliveries) (hid : d.id = data.deliveryID) :
    d.subscriptionID = data.deliverySubscriptionID := by
  obtain ⟨x, hx, hxid, hsub⟩ := h
  rw [db.sound.delivery_pk.eq hd hx (hid.trans hxid.symm)]
  exact hsub

theorem deliverDeadLetter_names {env : Env} {data data' : DeadLetterData}
    (h : deliverDeadLetter env data tx = .ok tx') (hn : Names tx.db data') :
    Names tx'.db data' := by
  obtain ⟨new, htables, -⟩ := deliverDeadLetter_ok h
  obtain ⟨d, hd, hid, hsub⟩ := hn
  refine ⟨d, ?_, hid, hsub⟩
  rw [congrArg Tables.deliveries htables]
  exact List.mem_append_left _ hd

theorem deadLetterDelivery_told {env : Env} {data : DeadLetterData} (hn : Names tx.db data)
    (h : deadLetterDelivery env data tx = .ok tx') (ht : Told look start tx) :
    Told look start tx' := by
  obtain ⟨mid, hmid, h⟩ := bind_ok.mp h
  obtain ⟨last, hlast, h⟩ := bind_ok.mp h
  obtain rfl := pure_ok.mp h
  have hhooks : last.onCommit = mid.onCommit := by
    unfold Tx.updateDelivery at hlast
    split at hlast
    · cases hlast
      rfl
    · cases hlast
  have hnames := deliverDeadLetter_names hmid hn
  refine (deliverDeadLetter_told hmid ht).next (fun x hx => ?_) fun id hne => ?_
  · exact List.mem_append_left _ (hhooks ▸ hx)
  · by_cases hid : id = data.deliverySubscriptionID
    · rw [hid]
      exact List.mem_append_right _ (List.mem_singleton_self _)
    · rw [Tx.hook_db, Tx.updateDelivery_ok hlast] at hne
      refine absurd (congrArg look (rowsOf_update fun d hd hsub => ?_)) hne
      by_contra hp
      exact hid (hsub.symm.trans (names_row hnames hd (by simpa using hp)))

theorem deadLetterDelivery_names {env : Env} {data data' : DeadLetterData}
    (h : deadLetterDelivery env data tx = .ok tx') (hn : Names tx.db data') :
    Names tx'.db data' := by
  obtain ⟨mid, hmid, hdb⟩ := deadLetterDelivery_ok h
  obtain ⟨d, hd, hid, hsub⟩ := deliverDeadLetter_names hmid hn
  rw [hdb]
  exact ⟨_, DB.updateDeliveries_row _ _ hd, by simpa using hid, by simpa using hsub⟩

theorem told_deadLetters {env : Env} (data : List DeadLetterData)
    (hn : ∀ x ∈ data, Names tx.db x) (ht : Told look start tx)
    (h : data.foldlM (fun tx datum => deadLetterDelivery env datum tx) tx = .ok tx') :
    Told look start tx' := by
  have hall := loop_invariant (I := fun t : Tx => Told look start t ∧ ∀ x ∈ data, Names t.db x) data
    (fun x hx t t' hI hone => ⟨deadLetterDelivery_told (hI.2 x hx) hone hI.1,
      fun y hy => deadLetterDelivery_names hone (hI.2 y hy)⟩) ⟨ht, hn⟩ h
  exact hall.1

theorem told_sweep {env : Env} {n : ℕ} {db : DB} {res : DeadLetterDeliveriesResults}
    (h : deadLetterDeliveries env n (.begin db) = .ok (res, tx')) : Told id db tx' := by
  obtain ⟨last, hlast, h⟩ := bind_ok.mp h
  obtain ⟨-, rfl⟩ := Prod.mk.inj (pure_ok.mp h)
  refine told_deadLetters _ (fun x hx => ?_) (told_begin db) hlast
  obtain ⟨d, hd, hx⟩ := List.mem_filterMap.mp hx
  have hd := List.mem_of_mem_take hd
  simp only [ScanOrder.mem_run, List.mem_filter] at hd
  obtain ⟨t, -, rfl⟩ := Option.map_eq_some_iff.mp hx
  exact ⟨d, hd.1, rfl, rfl⟩

theorem updateCounting_zero {p : Delivery → Bool} {u : DeliveryUpdate} {db : DB}
    (h : (updateCounting p u db).1 = 0) (id : UUID) :
    rowsOf id (updateCounting p u db).2.deliveries = rowsOf id db.deliveries := by
  have hnone : db.deliveries.filter p = [] := List.length_eq_zero_iff.mp h
  refine rowsOf_update fun d hd _ => ?_
  by_contra hp
  exact absurd (List.mem_filter.mpr ⟨hd, by simpa using hp⟩) (by simp [hnone])

theorem updateCounting_other {p : Delivery → Bool} {u : DeliveryUpdate} {db : DB} {id sub : UUID}
    (hp : ∀ d, p d = true → d.subscriptionID = sub) (hid : id ≠ sub) :
    rowsOf id (updateCounting p u db).2.deliveries = rowsOf id db.deliveries := by
  refine rowsOf_update fun d hd hsub => ?_
  by_contra hpd
  exact hid (hsub.symm.trans (hp d (by simpa using hpd)))

theorem told_seeked {sub : Subscription} {a b : ℕ} {db : DB} {tx : Tx}
    (hother : ∀ id, id ≠ sub.id → rowsOf id tx.db.deliveries = rowsOf id db.deliveries)
    (hzero : a = 0 → b = 0 → ∀ id, rowsOf id tx.db.deliveries = rowsOf id db.deliveries) :
    Told id db (wakeIfSeeked sub a b tx) := by
  intro id hne
  dsimp only [id_eq] at hne
  rw [wakeIfSeeked_db] at hne
  have hid : id = sub.id := by
    by_contra h
    exact hne (hother id h)
  have hcount : a ≠ 0 ∨ b ≠ 0 := by
    by_contra h
    obtain ⟨ha, hb⟩ := not_or.mp h
    exact hne (hzero (not_not.mp ha) (not_not.mp hb) id)
  rw [wakeIfSeeked, if_pos hcount, hid]
  exact List.mem_append_right _ (List.mem_singleton_self _)

theorem told_seekToTime {env : Env} {p : SeekSubscriptionToTimeParams} {db : DB}
    {res : SeekResults} (h : seekSubscriptionToTime env p (.begin db) = .ok (res, tx')) :
    Told id db tx' := by
  obtain ⟨sub, -, h⟩ := bind_ok.mp h
  obtain ⟨-, rfl⟩ := Prod.mk.inj (pure_ok.mp h)
  refine told_seeked (fun id hid => ?_) fun ha hb id => ?_
  · refine (updateCounting_other (fun d hd => ?_) hid).trans
      (updateCounting_other (fun d hd => ?_) hid)
    all_goals
      simp only [seekTimeAcks, seekTimeDeAcks, Bool.and_eq_true, decide_eq_true_eq] at hd
      exact hd.1.1.1
  · exact (updateCounting_zero hb id).trans (updateCounting_zero ha id)

theorem told_seekToSnapshot {env : Env} {p : SeekSubscriptionToSnapshotParams} {db : DB}
    {res : SeekResults} (h : seekSubscriptionToSnapshot env p (.begin db) = .ok (res, tx')) :
    Told id db tx' := by
  obtain ⟨sub, -, h⟩ := bind_ok.mp h
  obtain ⟨snap, -, h⟩ := bind_ok.mp h
  obtain ⟨-, rfl⟩ := Prod.mk.inj (pure_ok.mp h)
  refine told_seeked (fun id hid => ?_) fun ha hb id => ?_
  · refine (updateCounting_other (fun d hd => ?_) hid).trans
      ((updateCounting_other (fun d hd => ?_) hid).trans
        (updateCounting_other (fun d hd => ?_) hid))
    all_goals
      simp only [seekSnapshotAcksBefore, seekSnapshotAcksListed, seekSnapshotDeAcks,
        Bool.and_eq_true, decide_eq_true_eq] at hd
      exact hd.1.1.1
  · obtain ⟨ha, hlisted⟩ := Nat.add_eq_zero_iff.mp ha
    exact (updateCounting_zero hb id).trans
      ((updateCounting_zero hlisted id).trans (updateCounting_zero ha id))

theorem standing_update {id : UUID} {rows : List Delivery} {p : Delivery → Bool}
    {u : DeliveryUpdate} (hu : u.completedAt = none) :
    standing (rowsOf id (rows.map (setWhere p u.apply))) = standing (rowsOf id rows) := by
  induction rows with
  | nil => rfl
  | cons d rows ih =>
    simp only [rowsOf, standing, List.map_cons, List.filter_cons, setWhere_subscriptionID] at ih ⊢
    by_cases hd : d.subscriptionID = id
    · simp only [hd, decide_true, if_true, List.map_cons, ih, setWhere_id,
        setWhere_completedAt p d hu]
    · simp only [hd, decide_false, Bool.false_eq_true, if_false, ih]

theorem told_update {id : UUID} {u : DeliveryUpdate} (hu : u.completedAt = none)
    (h : tx.updateDelivery id u = .ok tx') (ht : Told standing start tx) :
    Told standing start tx' := by
  have hdb := Tx.updateDelivery_ok h
  have hhooks : tx'.onCommit = tx.onCommit := by
    unfold Tx.updateDelivery at h
    split at h
    · cases h
      rfl
    · cases h
  refine ht.next (fun x hx => hhooks ▸ hx) fun id hne => ?_
  rw [hdb] at hne
  exact absurd (standing_update hu) hne

theorem updateDelivery_names {id : UUID} {u : DeliveryUpdate} {data : DeadLetterData}
    (h : tx.updateDelivery id u = .ok tx') (hn : Names tx.db data) : Names tx'.db data := by
  obtain ⟨d, hd, hid, hsub⟩ := hn
  rw [Tx.updateDelivery_ok h]
  exact ⟨_, DB.updateDeliveries_row _ _ hd, by simpa using hid, by simpa using hsub⟩

theorem told_nack {env : Env} {ids : List UUID} {db : DB} {res : NackDeliveriesResults}
    (h : nackDeliveries env ids (.begin db) = .ok (res, tx')) : Told standing db tx' := by
  obtain ⟨last, hlast, h⟩ := bind_ok.mp h
  obtain ⟨-, rfl⟩ := Prod.mk.inj (pure_ok.mp h)
  have hmem : ∀ d, d ∈ orderBy (fun d => (d.id : ℤ)) (env.deliveries.run
      ((Tx.begin db).db.deliveries.filter (nackPredicates env.now ids))) → d ∈ db.deliveries := by
    intro d hd
    simp only [mem_orderBy, ScanOrder.mem_run, List.mem_filter] at hd
    exact hd.1
  generalize orderBy (fun d => (d.id : ℤ)) (env.deliveries.run
    ((Tx.begin db).db.deliveries.filter (nackPredicates env.now ids))) = rows at hlast hmem
  have hall := loop_invariant (I := fun st : Tx × ℕ => Told standing db st.1 ∧
    ∀ d ∈ rows, ∀ k, Names st.1.db (deadLetterDataFromEntities d k)) rows
    (fun d hd st st' hI hone => ?_)
    ⟨told_begin db, fun d hd k => ⟨d, hmem d hd, rfl, rfl⟩⟩ hlast
  · exact hall.1
  · unfold nackOne at hone
    split at hone
    · cases hone
    · split at hone
      · obtain ⟨t, ht, rfl⟩ := map_ok.mp hone
        exact ⟨deadLetterDelivery_told (hI.2 d hd _) ht hI.1,
          fun x hx k => deadLetterDelivery_names ht (hI.2 x hx k)⟩
      · obtain ⟨t, ht, rfl⟩ := map_ok.mp hone
        exact ⟨told_update rfl ht hI.1, fun x hx k => updateDelivery_names ht (hI.2 x hx k)⟩

theorem told_applyLoop {env : Env} {p : GetSubscriptionMessagesParams} {sub : Subscription}
    {i : ℕ} {rest : List (Delivery × Message)} {st st' : Applied}
    (hn : ∀ x ∈ rest, ∀ k, Names st.tx.db (deadLetterDataFromEntities x.1 k))
    (h : applyLoop env p sub i rest st = .ok st') (ht : Told look start st.tx) :
    Told look start st'.tx := by
  induction rest generalizing i st with
  | nil =>
    cases h
    exact ht
  | cons x rest ih =>
    obtain ⟨d, m⟩ := x
    have hrest : ∀ x ∈ rest, ∀ k, Names st.tx.db (deadLetterDataFromEntities x.1 k) :=
      fun x hx => hn x (List.mem_cons_of_mem _ hx)
    rw [applyLoop] at h
    split at h
    · exact ih hrest h ht
    · split at h
      · split at h
        · cases h
        · rename_i tx hdead
          exact ih (fun x hx k => deadLetterDelivery_names hdead (hrest x hx k)) h
            (deadLetterDelivery_told (hn (d, m) (by simp) _) hdead ht)
      · split at h
        · cases h
          exact ht
        · exact @ih _ (st.deliver (handOut env sub d m)) hrest h ht

theorem told_get {env : Env} {p : GetSubscriptionMessagesParams} {db : DB}
    {res : GetSubscriptionMessagesResults}
    (h : getSubscriptionMessages env p (.begin db) = .ok (res, tx')) : Told standing db tx' := by
  obtain ⟨sub, -, h⟩ := bind_ok.mp h
  obtain ⟨t, ht, h⟩ := bind_ok.mp h
  obtain ⟨st, hloop, h⟩ := bind_ok.mp h
  obtain ⟨last, hlast, h⟩ := bind_ok.mp h
  obtain ⟨-, rfl⟩ := Prod.mk.inj (pure_ok.mp h)
  have hrows : t.db.deliveries = db.deliveries := by
    rw [DB.updateSubscriptions_ok (refreshExpiration_ok ht)]
    rfl
  have hstart : Told standing db t := fun id hne => absurd (by rw [hrows]) hne
  have hgiven := told_applyLoop (fun x hx k => ?_) hloop hstart
  · exact loop_invariant (I := Told standing db) st.deliveries
      (fun x _ t t' hI hone => told_update rfl hone hI) hgiven hlast
  · have hmem := (queryAndLockDeliveriesOnce_mem hx).1
    exact ⟨x.1, hrows ▸ hmem, rfl, rfl⟩

/-- What an action announces of a subscription: any change of its deliveries;
of a get and of a nack what they dead-letter, which adds deliveries and
completes others, but not what they only move. -/
def Announces (before after : DB) (id : UUID) : Action → Prop
  | .publish _ | .ack _ | .deadLetter _ | .seekToTime _ | .seekToSnapshot _ =>
    rowsOf id after.deliveries ≠ rowsOf id before.deliveries
  | .get _ | .nack _ =>
    standing (rowsOf id after.deliveries) ≠ standing (rowsOf id before.deliveries)
  | _ => False

instance (before after : DB) (id : UUID) (a : Action) :
    Decidable (Announces before after id a) := by
  induction a using Runs.Action.casesOn <;> unfold Announces <;> infer_instance

theorem told {env : Env} {a : Action} {db : DB} {given : List SubscriptionMessageDelivery}
    {id : UUID} (h : exec env a (.begin db) = .ok (given, tx'))
    (ha : Announces db tx'.db id a) : wakeFor id ∈ tx'.onCommit := by
  cases a with
  | publish p =>
    obtain ⟨-, r, hr⟩ := quiet_ok h
    exact told_publish hr id ha
  | ack ids =>
    obtain ⟨-, rfl⟩ := Prod.mk.inj (Except.ok.inj h)
    exact told_ack env ids db id ha
  | deadLetter n =>
    obtain ⟨-, r, hr⟩ := quiet_ok h
    exact told_sweep hr id ha
  | seekToTime p =>
    obtain ⟨-, r, hr⟩ := quiet_ok h
    exact told_seekToTime hr id ha
  | seekToSnapshot p =>
    obtain ⟨-, r, hr⟩ := quiet_ok h
    exact told_seekToSnapshot hr id ha
  | nack ids =>
    obtain ⟨-, r, hr⟩ := quiet_ok h
    exact told_nack hr id ha
  | get p =>
    obtain ⟨r, hr, he⟩ := map_ok.mp h
    obtain rfl := (Prod.mk.inj he).2
    exact told_get hr id ha
  | _ => exact False.elim ha

end

end Mmmbbb.Waking
