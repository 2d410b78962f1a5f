import Mmmbbb.Changes
import Mmmbbb.Waking

/-!
# Completed deliveries are announced

Whatever transaction completes a delivery, it announces its subscription, and
no row changes to another subscription.
-/

set_option autoImplicit false

namespace Mmmbbb.Completions
open KeyedRows Programs Mmmbbb.Schema Mmmbbb.Database Mmmbbb.Delivering Mmmbbb.Consuming
open Mmmbbb.Runs Mmmbbb.Writes Mmmbbb.Changes Mmmbbb.Waking

def Traced (a : DB) (hooks : List Hook) (d : Delivery) : Prop :=
  (∃ r ∈ a.deliveries, r.id = d.id ∧ r.subscriptionID = d.subscriptionID ∧
    (d.completedAt ≠ none → r.completedAt ≠ none ∨ wakeFor d.subscriptionID ∈ hooks)) ∨
  ¬ Has Delivery.id d.id a.deliveries

structure Announcing (a b : Tx) : Prop where
  kept : ∀ r ∈ a.db.deliveries, Has Delivery.id r.id b.db.deliveries
  hooks : ∀ h ∈ a.onCommit, h ∈ b.onCommit
  row : ∀ d ∈ b.db.deliveries, Traced a.db b.onCommit d

section
variable {a b c : Tx}

theorem traced_self {db : DB} {hooks : List Hook} {d : Delivery} (h : d ∈ db.deliveries) :
    Traced db hooks d :=
  Or.inl ⟨d, h, rfl, rfl, Or.inl⟩

theorem announcing_same (hd : b.db.deliveries = a.db.deliveries)
    (hh : ∀ h ∈ a.onCommit, h ∈ b.onCommit) : Announcing a b where
  kept := fun _ hr => hd ▸ .of_mem hr
  hooks := hh
  row := fun _ hmem => traced_self (hd ▸ hmem)

theorem Announcing.refl (a : Tx) : Announcing a a := announcing_same rfl (fun _ h => h)

theorem Announcing.trans (h : Announcing a b) (h' : Announcing b c) : Announcing a c where
  kept := by
    intro r hr
    obtain ⟨r', hr', hid⟩ := h.kept r hr
    exact hid ▸ h'.kept r' hr'
  hooks := fun x hx => h'.hooks x (h.hooks x hx)
  row := by
    intro d hd
    rcases h'.row d hd with ⟨m, hm, hid, hsub, hdone⟩ | hnew
    · rcases h.row m hm with ⟨r, hr, hid', hsub', hdone'⟩ | hnew
      · refine Or.inl ⟨r, hr, hid'.trans hid, hsub'.trans hsub, fun hd => ?_⟩
        rcases hdone hd with hm | hwake
        · exact (hdone' hm).imp_right fun hwake => h'.hooks _ (hsub ▸ hwake)
        · exact Or.inr hwake
      · exact Or.inr (hid ▸ hnew)
    · refine Or.inr ?_
      rintro ⟨r, hr, hid⟩
      exact hnew (hid ▸ h.kept r hr)

theorem announcing_append {new : List Delivery}
    (hd : b.db.deliveries = a.db.deliveries ++ new)
    (hnew : ∀ x ∈ new, ¬ Has Delivery.id x.id a.db.deliveries)
    (hh : ∀ h ∈ a.onCommit, h ∈ b.onCommit) : Announcing a b where
  kept := fun _ hr => hd ▸ Has.append_left (.of_mem hr) new
  hooks := hh
  row := by
    intro d hmem
    rw [hd] at hmem
    rcases List.mem_append.mp hmem with hold | hin
    · exact traced_self hold
    · exact Or.inr (hnew d hin)

theorem announcing_update {p : Delivery → Bool} {u : DeliveryUpdate}
    (hd : b.db = a.db.updateDeliveries p u) (hh : ∀ h ∈ a.onCommit, h ∈ b.onCommit)
    (hu : u.completedAt = none ∨
      ∀ d ∈ a.db.deliveries, p d = true → wakeFor d.subscriptionID ∈ b.onCommit) :
    Announcing a b where
  kept := fun r hr => ⟨_, hd ▸ DB.updateDeliveries_row p u hr, setWhere_id _ _⟩
  hooks := hh
  row := by
    intro d hmem
    rw [hd] at hmem
    obtain ⟨r, hr, rfl⟩ := DB.mem_updateDeliveries.mp hmem
    refine Or.inl ⟨r, hr, by simp, by simp, fun hdone => ?_⟩
    rcases hu with hnone | hwake
    · rw [setWhere_completedAt _ _ hnone] at hdone
      exact Or.inl hdone
    · by_cases hp : p r = true
      · rw [setWhere_subscriptionID]
        exact Or.inr (hwake r hr hp)
      · rw [setWhere, if_neg (by simpa using hp)] at hdone
        exact Or.inl hdone

end

section
variable {env : Env} {tx tx' : Tx}

theorem refresh_announcing {sub : Subscription} (h : refreshExpiration env sub tx = .ok tx') :
    Announcing tx tx' := by
  obtain ⟨db, hdb, h⟩ := bind_ok.mp h
  obtain rfl := pure_ok.mp h
  exact announcing_same (by simp [DB.updateSubscriptions_ok hdb]) (fun _ h => h)

theorem updateDelivery_announcing {id : UUID} {u : DeliveryUpdate} (hu : u.completedAt = none)
    (h : tx.updateDelivery id u = .ok tx') : Announcing tx tx' := by
  have hdb := Tx.updateDelivery_ok h
  unfold Tx.updateDelivery at h
  split at h
  · cases h
    exact announcing_update hdb (fun _ h => h) (Or.inl hu)
  · cases h

theorem ack_announcing (env : Env) (ids : List UUID) (tx : Tx) :
    Announcing tx (ackDeliveries env ids tx).2 := by
  refine announcing_update rfl (fun _ h => List.mem_append_left _ h) (Or.inr fun d hd hp => ?_)
  refine List.mem_append_right _ (List.mem_map.mpr ⟨d.subscriptionID, ?_, rfl⟩)
  rw [distinctSubscriptions, List.mem_dedup]
  refine List.mem_map.mpr ⟨d, ?_, rfl⟩
  rw [ScanOrder.mem_run]
  exact List.mem_filter.mpr ⟨hd, hp⟩

theorem delay_announcing (env : Env) (p : DelayDeliveriesParams) (tx : Tx) :
    Announcing tx (delayDeliveries env p tx).2 :=
  announcing_update rfl (fun _ h => List.mem_append_left _ h) (Or.inl rfl)

theorem deliverDeadLetter_announcing {data : DeadLetterData}
    (h : deliverDeadLetter env data tx = .ok tx') : Announcing tx tx' := by
  obtain ⟨new, htables, hnew, -⟩ := deliverDeadLetter_ok h
  refine announcing_append (congrArg Tables.deliveries htables) hnew ?_
  unfold deliverDeadLetter at h
  split at h
  · cases h
    exact fun _ h => h
  · dsimp only at h
    split at h
    · cases h
      exact fun _ h => h
    · split at h
      · cases h
      · rw [createBulk_onCommit h]
        exact fun _ h => List.mem_append_left _ h

theorem deadLetterDelivery_announcing {data : DeadLetterData} (hn : Names tx.db data)
    (h : deadLetterDelivery env data tx = .ok tx') : Announcing tx tx' := by
  obtain ⟨mid, hmid, h⟩ := bind_ok.mp h
  obtain ⟨last, hlast, h⟩ := bind_ok.mp h
  obtain rfl := pure_ok.mp h
  have hnames := deliverDeadLetter_names hmid hn
  have hdb := Tx.updateDelivery_ok hlast
  unfold Tx.updateDelivery at hlast
  split at hlast
  · cases hlast
    refine (deliverDeadLetter_announcing hmid).trans
      (announcing_update hdb (fun _ h => List.mem_append_left _ h) (Or.inr fun d hd hp => ?_))
    rw [names_row hnames hd (by simpa using hp)]
    exact List.mem_append_right _ (List.mem_singleton_self _)
  · cases hlast

theorem Announcing.names (h : Announcing tx tx') {data : DeadLetterData} (hn : Names tx.db data) :
    Names tx'.db data := by
  obtain ⟨d, hd, hid, hsub⟩ := hn
  obtain ⟨x, hx, hxid⟩ := h.kept d hd
  rcases h.row x hx with ⟨r, hr, hrid, hrsub, -⟩ | hnew
  · refine ⟨x, hx, hxid.trans hid, ?_⟩
    rw [← hrsub, tx.db.sound.delivery_pk.eq hr hd (hrid.trans hxid)]
    exact hsub
  · exact absurd (hxid ▸ .of_mem hd) hnew

theorem applyLoop_announcing {p : GetSubscriptionMessagesParams} {sub : Subscription} {i : ℕ}
    {rest : List (Delivery × Message)} {st st' : Applied}
    (hn : ∀ x ∈ rest, ∀ t, Names st.tx.db (deadLetterDataFromEntities x.1 t))
    (h : applyLoop env p sub i rest st = .ok st') : Announcing st.tx st'.tx := by
  induction rest generalizing i st with
  | nil =>
    cases h
    exact .refl _
  | cons x rest ih =>
    obtain ⟨d, m⟩ := x
    have hrest : ∀ x ∈ rest, ∀ t, Names st.tx.db (deadLetterDataFromEntities x.1 t) :=
      fun x hx => hn x (List.mem_cons_of_mem _ hx)
    rw [applyLoop] at h
    split at h
    · exact ih hrest h
    · split at h
      · split at h
        · cases h
        · rename_i tx hdead
          have hone := deadLetterDelivery_announcing (hn (d, m) (by simp) _) hdead
          exact hone.trans (ih (fun x hx t => hone.names (hrest x hx t)) h)
      · split at h
        · cases h
          exact .refl _
        · exact @ih _ (st.deliver (handOut env sub d m)) hrest h

theorem applyResults_announcing {p : GetSubscriptionMessagesParams} {sub : Subscription}
    {deliveries : List (Delivery × Message)} {res : GetSubscriptionMessagesResults}
    (hn : ∀ x ∈ deliveries, x.1 ∈ tx.db.deliveries)
    (h : applyResults env p sub deliveries tx = .ok (res, tx')) : Announcing tx tx' := by
  obtain ⟨t, ht, h⟩ := bind_ok.mp h
  obtain ⟨st, hloop, h⟩ := bind_ok.mp h
  obtain ⟨last, hlast, h⟩ := bind_ok.mp h
  obtain ⟨-, rfl⟩ := Prod.mk.inj (pure_ok.mp h)
  have hrefresh := refresh_announcing ht
  have hmark := loop_invariant (I := fun t : Tx => Announcing st.tx t) st.deliveries
    (fun x _ t t' hI hone => hI.trans (updateDelivery_announcing rfl hone)) (.refl _) hlast
  refine hrefresh.trans ((applyLoop_announcing (fun x hx k => ?_) hloop).trans hmark)
  exact hrefresh.names ⟨x.1, hn x hx, rfl, rfl⟩

theorem get_announcing {p : GetSubscriptionMessagesParams} {res : GetSubscriptionMessagesResults}
    (h : getSubscriptionMessages env p tx = .ok (res, tx')) : Announcing tx tx' := by
  obtain ⟨sub, -, h⟩ := bind_ok.mp h
  exact applyResults_announcing (fun x hx => (queryAndLockDeliveriesOnce_mem hx).1) h

theorem nackOne_announcing {subs : List Subscription} {st st' : Tx × ℕ} {d : Delivery}
    (hn : ∀ t, Names st.1.db (deadLetterDataFromEntities d t))
    (h : nackOne env subs st d = .ok st') : Announcing st.1 st'.1 := by
  unfold nackOne at h
  split at h
  · cases h
  · split at h
    · obtain ⟨t, ht, rfl⟩ := map_ok.mp h
      exact deadLetterDelivery_announcing (hn _) ht
    · obtain ⟨t, ht, rfl⟩ := map_ok.mp h
      exact updateDelivery_announcing rfl ht

theorem nack_announcing {ids : List UUID} {res : NackDeliveriesResults}
    (h : nackDeliveries env ids tx = .ok (res, tx')) : Announcing tx tx' := by
  obtain ⟨last, hlast, h⟩ := bind_ok.mp h
  obtain ⟨-, rfl⟩ := Prod.mk.inj (pure_ok.mp h)
  refine loop_invariant (I := fun st : Tx × ℕ => Announcing tx st.1) _
    (fun d hd st st' hI hone => hI.trans (nackOne_announcing (fun t => hI.names ?_) hone))
    (.refl tx) hlast
  simp only [mem_orderBy, ScanOrder.mem_run, List.mem_filter] at hd
  exact ⟨d, hd.1, rfl, rfl⟩

end

theorem traced_told {start : DB} {tx : Tx} (h : Told id start tx) {d : Delivery}
    (hd : d ∈ tx.db.deliveries)
    (hback : (∃ r ∈ start.deliveries, r.id = d.id ∧ r.subscriptionID = d.subscriptionID) ∨
      ¬ Has Delivery.id d.id start.deliveries) : Traced start tx.onCommit d := by
  by_cases hsame : rowsOf d.subscriptionID tx.db.deliveries =
      rowsOf d.subscriptionID start.deliveries
  · have hmem : d ∈ rowsOf d.subscriptionID tx.db.deliveries :=
      List.mem_filter.mpr ⟨hd, by simp⟩
    rw [hsame] at hmem
    exact traced_self (List.mem_of_mem_filter hmem)
  · exact hback.imp_left fun ⟨r, hr, hid, hsub⟩ =>
      ⟨r, hr, hid, hsub, fun _ => Or.inr (h _ hsame)⟩

def Back (a b : World) : Prop :=
  (∀ r ∈ a.db.deliveries, Has Delivery.id r.id b.db.deliveries) ∧
    ∀ d ∈ b.db.deliveries,
      (∃ r ∈ a.db.deliveries, r.id = d.id ∧ r.subscriptionID = d.subscriptionID) ∨
        ¬ Has Delivery.id d.id a.db.deliveries

theorem back_write {e : Runs.Event} {o v w : World} (hw : Write e o v w) {a : World}
    (h : Back a v) : Back a w := by
  obtain ⟨hkept, hrow⟩ := h
  rcases hw.deliveries with heq | ⟨x, ⟨-, -, -, -, -, -, -, hfresh, -⟩, heq⟩ | ⟨p, u, heq⟩
  · exact ⟨fun r hr => heq ▸ hkept r hr, fun d hd => hrow d (heq ▸ hd)⟩
  · refine ⟨fun r hr => heq ▸ (hkept r hr).append_left [x], fun d hd => ?_⟩
    rw [heq, List.mem_append, List.mem_singleton] at hd
    rcases hd with hd | rfl
    · exact hrow d hd
    · refine Or.inr ?_
      rintro ⟨r, hr, hid⟩
      exact hfresh (hid ▸ hkept r hr)
  · refine ⟨fun r hr => heq ▸ (hkept r hr).map (fun _ => setWhere_id _ _), fun d hd => ?_⟩
    rw [heq] at hd
    obtain ⟨r, hr, rfl⟩ := List.mem_map.mp hd
    simpa using hrow r hr

theorem back_action {e : Runs.Event} {w : World} (ha : OnDeliveries e.action) :
    Back (w.at e.env.now) (w.after e) :=
  steps_invariant (I := Back (w.at e.env.now)) (fun _ _ hw h => back_write hw h)
    (transaction_of_action w ha) ⟨fun _ hr => .of_mem hr, fun d hd => Or.inl ⟨d, hd, rfl, rfl⟩⟩

theorem exec_traced {e : Runs.Event} {db : DB} {given : List SubscriptionMessageDelivery} {tx : Tx}
    (h : exec e.env e.action (.begin db) = .ok (given, tx)) :
    ∀ d ∈ tx.db.deliveries, Traced db tx.onCommit d := by
  have hafter : (World.after ⟨db, 0, []⟩ e).db = tx.db := by
    unfold World.after
    rw [h]
  by_cases hon : OnDeliveries e.action
  · have hannounced : (∀ id, rowsOf id tx.db.deliveries ≠ rowsOf id db.deliveries →
        Announces db tx.db id e.action) → ∀ d ∈ tx.db.deliveries, Traced db tx.onCommit d := by
      intro ha d hd
      refine traced_told (fun id hne => told h (ha id hne)) hd ?_
      have hback := (back_action (w := ⟨db, 0, []⟩) hon).2 d (hafter.symm ▸ hd)
      exact hback
    cases hact : e.action with
    | get p =>
      rw [hact] at h
      obtain ⟨r, hr, he⟩ := map_ok.mp h
      obtain rfl := (Prod.mk.inj he).2
      exact (get_announcing hr).row
    | nack ids =>
      rw [hact] at h
      obtain ⟨-, r, hr⟩ := quiet_ok h
      exact (nack_announcing hr).row
    | delay p =>
      rw [hact] at h
      obtain ⟨-, rfl⟩ := Prod.mk.inj (Except.ok.inj h)
      exact (delay_announcing e.env p _).row
    | touch p =>
      rw [hact] at h
      obtain ⟨-, ht⟩ := quiet_tx h
      obtain ⟨sub, -, ht⟩ := bind_ok.mp ht
      exact (refresh_announcing ht).row
    | publish p => exact hannounced fun id hne => hact ▸ hne
    | ack ids => exact hannounced fun id hne => hact ▸ hne
    | deadLetter n => exact hannounced fun id hne => hact ▸ hne
    | seekToTime p => exact hannounced fun id hne => hact ▸ hne
    | seekToSnapshot p => exact hannounced fun id hne => hact ▸ hne
    | _ => simp [hact, OnDeliveries] at hon
  · have hchange := change_after (e := e) ⟨db, 0, []⟩
    generalize World.after ⟨db, 0, []⟩ e = w' at hchange hafter
    intro d hd
    rw [← hafter] at hd
    cases hchange with
    | write hon' _ => exact absurd hon' hon
    | prune _ =>
      obtain ⟨r, hr, -, rfl⟩ := mem_deliveriesWithout.mp hd
      exact Or.inl ⟨r, hr, rfl, rfl, Or.inl⟩
    | quiet hq => exact traced_self (hq.deliveries ▸ hd)

end Mmmbbb.Completions
