import Mmmbbb.NoLoss

/-!
# Delivery attempts

The counter of a delivery says how often a get has handed it out. Under a
dead-letter policy that stays as it is the counter never passes the limit, and
a delivery that has reached the limit is not handed out again.
-/

set_option autoImplicit false

namespace Mmmbbb.Attempts
open KeyedRows Programs Mmmbbb.Schema Mmmbbb.Database Mmmbbb.Delivering Mmmbbb.Consuming
open Mmmbbb.Runs Mmmbbb.Writes Mmmbbb.Changes Mmmbbb.NoLoss

def Fresh (w : World) (e : Event) : Prop := ∀ k, e.env.uuid k ∉ w.handedOut

theorem nothing_fresh {w : World} {e : Event} (h : w.handedOut = []) : Fresh w e := by
  simp [Fresh, h]

theorem plain_fresh {w : World} {now : Time} {k : ℕ} {a : Action} {hv : a.Valid}
    (h : ∀ id ∈ w.handedOut, id < k) : Fresh w ⟨.plain now k, a, hv⟩ := by
  intro i hi
  exact absurd (h (k + i) hi) (Nat.not_lt.mpr (Nat.le_add_right k i))

/-- Every counter is the number of times its delivery was handed out. -/
def Counted (w : World) : Prop := ∀ d ∈ w.db.deliveries, d.attempts = w.handedOut.count d.id

section
variable {e : Event} {o w w' : World}

theorem counted_edit (h : Counted w) {p : Delivery → Bool} {u : DeliveryUpdate}
    (hu : u.addAttempts = 0) : Counted (w.edit p u) := by
  intro x hx
  obtain ⟨d, hd, rfl⟩ := DB.mem_updateDeliveries.mp hx
  rw [setWhere_attempts p d hu, setWhere_id]
  exact h d hd

theorem counted_write (hfresh : Fresh o e) (hw : Write e o w w') (h : Counted w) : Counted w' := by
  cases hw
  case refresh hdb =>
    have ht := DB.updateSubscriptions_ok hdb
    simpa [Counted, World.set, ht] using h
  case message hdb =>
    have ht := (DB.insertMessage_ok hdb).2
    simpa [Counted, World.set, ht] using h
  case deliver s m c k db hs hlive hm hc hdb hgiven =>
    have ht := (DB.insertDelivery_ok hdb).2
    intro x hx
    have hx : x ∈ w.db.deliveries ∨ x = c.row (e.env.uuid k) := by
      simpa [World.set, ht] using hx
    rcases hx with hx | rfl
    · exact h x hx
    · have hzero : w.handedOut.count (e.env.uuid k) = 0 := by
        rw [List.count_eq_zero, hgiven]
        exact hfresh k
      exact hzero.symm
  case attempt d s p t ha hd₀ hd ho hs hsub hlive hlimit hord =>
    intro x hx
    obtain ⟨r, hr, rfl⟩ := DB.mem_updateDeliveries.mp hx
    rw [setWhere_id, List.count_append, ← h r hr]
    by_cases hid : r.id = d.id
    · simp [setWhere, hid, DeliveryUpdate.apply]
    · have hne : ¬ d.id = r.id := fun he => hid he.symm
      simp [setWhere, hid, hne]
  all_goals exact counted_edit h rfl

theorem counted_step (hfresh : Fresh w e) (h : Counted w) : Counted (w.after e) := by
  have hchange := change_after (e := e) w
  generalize w.after e = w' at hchange ⊢
  cases hchange
  case write hw =>
    have hstart : Counted (w.at e.env.now) := h
    exact steps_invariant (I := Counted)
      (fun v v' hv => counted_write (o := w.at e.env.now) hfresh hv) hw hstart
  case prune p hp =>
    intro x hx
    obtain ⟨d, hd, -, rfl⟩ := mem_deliveriesWithout.mp hx
    exact h d hd
  case quiet db hq =>
    intro x hx
    have hx : x ∈ w.db.deliveries := hq.deliveries ▸ hx
    exact h x hx

end

def Policy (id : UUID) (n : ℤ) (topicID : UUID) (db : DB) : Prop :=
  ∀ s ∈ db.subscriptions, s.id = id → s.deadLetterConfig = some (n, topicID)

instance (id : UUID) (n : ℤ) (topicID : UUID) (db : DB) : Decidable (Policy id n topicID db) :=
  inferInstanceAs (Decidable (∀ s ∈ db.subscriptions, _))

def Bounded (id : UUID) (n : ℤ) (w : World) : Prop :=
  ∀ d ∈ w.db.deliveries, d.subscriptionID = id → (d.attempts : ℤ) ≤ n

section
variable {e : Event} {o w w' : World} {id topicID : UUID} {n : ℤ}

theorem policy_static (hst : Static o w) (h : Policy id n topicID o.db) :
    Policy id n topicID w.db := by
  intro s hs hid
  obtain ⟨r, hr, heq⟩ := hst.subscription_before hs
  have hrid : r.id = id := (Subscription.settled_eq heq Subscription.id (fun _ => rfl)).trans hid
  have hcfg := Subscription.settled_eq heq Subscription.deadLetterConfig (fun _ => rfl)
  exact hcfg.symm.trans (h r hr hrid)

theorem bounded_edit (h : Bounded id n w) {p : Delivery → Bool} {u : DeliveryUpdate}
    (hu : u.addAttempts = 0) : Bounded id n (w.edit p u) := by
  intro x hx hid
  obtain ⟨d, hd, rfl⟩ := DB.mem_updateDeliveries.mp hx
  rw [setWhere_attempts p d hu]
  exact h d hd (by simpa using hid)

theorem bounded_write (hw : Write e o w w') (hp : Policy id n topicID w.db) (h : Bounded id n w) :
    Bounded id n w' := by
  cases hw
  case refresh hdb =>
    have ht := DB.updateSubscriptions_ok hdb
    simpa [Bounded, World.set, ht] using h
  case message hdb =>
    have ht := (DB.insertMessage_ok hdb).2
    simpa [Bounded, World.set, ht] using h
  case deliver s m c k db hs hlive hm hc hdb hgiven =>
    have ht := (DB.insertDelivery_ok hdb).2
    obtain ⟨-, rfl⟩ := deliverToSubscription_some.mp hc
    intro x hx hid
    have hx : x ∈ w.db.deliveries ∨ x = (setUpDelivery e.env w.db.toTables s m).row
        (e.env.uuid k) := by simpa [World.set, ht] using hx
    rcases hx with hx | rfl
    · exact h x hx hid
    · have hpos := (Subscription.deadLetterConfig_eq.mp (hp s hs hid)).2.2
      exact hpos.le
  case attempt d s p t ha hd₀ hd ho hs hsub hlive hlimit hord =>
    intro x hx hid
    obtain ⟨r, hr, rfl⟩ := DB.mem_updateDeliveries.mp hx
    have hrid : r.subscriptionID = id := by simpa using hid
    by_cases hrd : r.id = d.id
    · have hr' : r = d := w.db.sound.delivery_pk.eq hr hd hrd
      subst hr'
      have hcfg := hp s hs (hsub.trans hrid)
      have hbelow : ¬ n ≤ (r.attempts : ℤ) := by
        intro hle
        have := Subscription.deadLetterTopicFor_some.mpr ⟨n, hcfg, hle⟩
        simp [hlimit] at this
      simp only [setWhere, decide_true, if_true, DeliveryUpdate.apply]
      omega
    · have hmiss : setWhere (fun x : Delivery => decide (x.id = d.id)) (DeliveryUpdate.apply
          { lastAttemptedAt := some e.env.now, addAttempts := 1, attemptAt := some t }) r = r := by
        simp [setWhere, hrd]
      rw [hmiss]
      exact h r hr hrid
  all_goals exact bounded_edit h rfl

theorem bounded_step (hp : Policy id n topicID w.db) (h : Bounded id n w) :
    Bounded id n (w.after e) := by
  have hchange := change_after (e := e) w
  generalize w.after e = w' at hchange ⊢
  cases hchange
  case write hw =>
    have hstart : Static (w.at e.env.now) (w.at e.env.now) ∧ Bounded id n (w.at e.env.now) :=
      ⟨.refl _, h⟩
    refine (steps_invariant (I := fun v => Static (w.at e.env.now) v ∧ Bounded id n v) ?_ hw
      hstart).2
    rintro v v' hv ⟨hst, hb⟩
    exact ⟨hst.trans hv.static, bounded_write hv (policy_static hst hp) hb⟩
  case prune p hp =>
    intro x hx hid
    obtain ⟨d, hd, -, rfl⟩ := mem_deliveriesWithout.mp hx
    exact h d hd hid
  case quiet db hq =>
    intro x hx hid
    have hx : x ∈ w.db.deliveries := hq.deliveries ▸ hx
    exact h x hx hid

end

def Completed (now : Time) (db : DB) (id : UUID) : Prop :=
  ∃ x ∈ db.deliveries, x.id = id ∧ x.completedAt = some now

section
variable {e : Event} {db db' : DB} {id k : UUID} {tx tx' : Tx} {d : Delivery} {s : Subscription}

theorem deadLetter_completes {data : DeadLetterData} (hd : d ∈ tx.db.deliveries)
    (hid : data.deliveryID = d.id) (h : deadLetterDelivery e.env data tx = .ok tx') :
    Completed e.env.now tx'.db d.id := by
  obtain ⟨mid, hmid, hdb⟩ := deadLetterDelivery_ok h
  obtain ⟨new, htab, -⟩ := deliverDeadLetter_ok hmid
  have hd' : d ∈ mid.db.deliveries := by simp [htab, hd]
  rw [hdb]
  exact ⟨_, DB.updateDeliveries_hit hd' (decide_eq_true hid.symm), rfl, rfl⟩

theorem loop_completes {σ α : Type} (view : σ → DB) (key : α → UUID)
    {body : σ → α → Except Error σ} {items : List α} {s s' : σ}
    (h : items.foldlM body s = .ok s') {a : α} (hmem : a ∈ items) (hn : (items.map key).Nodup)
    (hframe : ∀ a s s', body s a = .ok s' → Frame (key a) (view s) (view s')) {now : Time}
    (hbody : ∀ s s', d ∈ (view s).deliveries → body s a = .ok s' → Completed now (view s') d.id)
    (ha : key a = d.id) (hd : d ∈ (view s).deliveries) : Completed now (view s') d.id := by
  induction items generalizing s with
  | nil => simp at hmem
  | cons b items ih =>
    rw [List.foldlM_cons] at h
    obtain ⟨mid, hmid, hrest⟩ := bind_ok.mp h
    rw [List.map_cons, List.nodup_cons] at hn
    rcases List.mem_cons.mp hmem with rfl | hmem
    · obtain ⟨x, hx, hid, hc⟩ := hbody s mid hd hmid
      have hnot : x.id ∉ items.map key := by rw [hid, ← ha]; exact hn.1
      exact ⟨x, loop_keeps view key hrest hframe hx hnot, hid, hc⟩
    · have hne : d.id ≠ key b := by
        intro he
        exact hn.1 (he ▸ ha ▸ List.mem_map_of_mem hmem)
      exact ih hrest hmem hn.2 ((hframe b s mid hmid).kept d hd hne)

theorem nack_completes {ids : List UUID} {r : NackDeliveriesResults} {t : UUID}
    (h : nackDeliveries e.env ids tx = .ok (r, tx')) (hd : d ∈ tx.db.deliveries)
    (hids : d.id ∈ ids) (ho : d.Outstanding e.env.now) (hs : s ∈ tx.db.subscriptions)
    (hid : s.id = d.subscriptionID) (ht : s.deadLetterTopicFor d = some t) :
    Completed e.env.now tx'.db d.id := by
  obtain ⟨st, hst, h⟩ := bind_ok.mp h
  obtain ⟨-, rfl⟩ := Prod.mk.inj (pure_ok.mp h)
  have hsub : fetch Subscription.id d.subscriptionID tx.db.subscriptions = some s :=
    hid ▸ fetch_of_mem tx.db.sound.subscription_pk hs
  have hmem : d ∈ orderBy (fun d => (d.id : ℤ)) (e.env.deliveries.run
      (tx.db.deliveries.filter (nackPredicates e.env.now ids))) := by
    have hp : nackPredicates e.env.now ids d = true := by
      have hlt : e.env.now < d.expiresAt := ho.2
      simp [nackPredicates, hids, ho.1, hlt]
    simpa using ⟨hd, hp⟩
  have hn := ((((orderBy_perm (fun d : Delivery => (d.id : ℤ)) _).trans
    (e.env.deliveries.perm (tx.db.deliveries.filter (nackPredicates e.env.now ids)))).map
      Delivery.id).nodup_iff).mpr (tx.db.sound.delivery_pk.filter _)
  refine loop_completes (fun st : Tx × ℕ => st.1.db) Delivery.id hst hmem hn
    (fun _ _ _ => nackOne_frame) ?_ rfl hd
  intro st st' hd' hone
  unfold nackOne at hone
  simp only [hsub, ht] at hone
  obtain ⟨tx'', htx, rfl⟩ := map_ok.mp hone
  exact deadLetter_completes hd' rfl htx

theorem sweep_completes {n : ℕ} {r : DeadLetterDeliveriesResults} {data : DeadLetterData}
    (h : deadLetterDeliveries e.env n tx = .ok (r, tx')) (hd : d ∈ tx.db.deliveries)
    (hdata : data ∈ deadLetterSelection e.env tx.db.toTables n) (hid : data.deliveryID = d.id) :
    Completed e.env.now tx'.db d.id := by
  obtain ⟨last, hlast, h⟩ := bind_ok.mp h
  obtain ⟨-, rfl⟩ := Prod.mk.inj (pure_ok.mp h)
  have hkey : ∀ (x : Delivery) y, (deadLetterTarget e.env.now tx.db.toTables x).map
      (deadLetterDataFromEntities x) = some y → y.deliveryID = x.id := by
    intro x y hy
    obtain ⟨k, -, rfl⟩ := Option.map_eq_some_iff.mp hy
    rfl
  have hn : ((deadLetterSelection e.env tx.db.toTables n).map DeadLetterData.deliveryID).Nodup := by
    refine List.Nodup.sublist ((filterMap_keys Delivery.id _ hkey _).trans
      ((List.take_sublist _ _).map Delivery.id)) ?_
    exact (((e.env.deliveries.perm _).map Delivery.id).nodup_iff).mpr
      (tx.db.sound.delivery_pk.filter _)
  exact loop_completes Tx.db DeadLetterData.deliveryID hlast hdata hn
    (fun _ _ _ => deadLetter_frame) (fun _ _ hd' hone => deadLetter_completes hd' hid hone) hid hd

section Get

variable {p : GetSubscriptionMessagesParams} {sub : Subscription} {i : ℕ}
  {rest : List (Delivery × Message)} {st st' : Applied} {m : Message} {t : UUID}

theorem applyLoop_keeps (h : applyLoop e.env p sub i rest st = .ok st') {x : Delivery}
    (hx : x ∈ st.tx.db.deliveries) (hid : x.id ∉ rest.map (fun y => y.1.id)) :
    x ∈ st'.tx.db.deliveries := by
  induction rest generalizing i st with
  | nil =>
    cases h
    exact hx
  | cons y rest ih =>
    obtain ⟨d, m⟩ := y
    rw [List.map_cons, List.mem_cons, not_or] at hid
    rw [applyLoop] at h
    split at h
    · exact ih h hx hid.2
    · split at h
      · split at h
        · cases h
        · rename_i tx htx
          have hkept := (deadLetter_frame htx).kept x hx hid.1
          exact ih h hkept hid.2
      · split at h
        · cases h
          exact hx
        · exact ih h hx hid.2

theorem applyLoop_spent (h : applyLoop e.env p sub i rest st = .ok st')
    (hlen : (i : ℤ) + rest.length ≤ p.maxMessages)
    (hn : (rest.map (fun y => y.1.id)).Nodup) (hrows : ∀ x ∈ rest, x.1 ∈ st.tx.db.deliveries)
    (hw : st.Weighed) (hd : (d, m) ∈ rest) (ht : sub.deadLetterTopicFor d = some t) :
    Completed e.env.now st'.tx.db d.id ∨
      (d ∈ st'.tx.db.deliveries ∧ p.maxBytes < st'.bytes + m.payload.length) := by
  induction rest generalizing i st with
  | nil => simp at hd
  | cons y rest ih =>
    obtain ⟨d', m'⟩ := y
    rw [List.map_cons, List.nodup_cons] at hn
    rw [List.length_cons] at hlen
    have hlen' : ((i + 1 : ℕ) : ℤ) + rest.length ≤ p.maxMessages := by push_cast at hlen ⊢; omega
    have hrest : ∀ x ∈ rest, x.1 ∈ st.tx.db.deliveries := fun x hx => hrows x (by simp [hx])
    rw [applyLoop] at h
    rcases List.mem_cons.mp hd with heq | hd
    · obtain ⟨rfl, rfl⟩ := Prod.mk.inj heq
      split at h
      · rename_i hskip
        simp only [Bool.and_eq_true, decide_eq_true_eq] at hskip
        obtain ⟨-, hle⟩ := applyLoop_weighed h hw
        have hkept := applyLoop_keeps h (hrows (d, m) (by simp)) hn.1
        exact Or.inr ⟨hkept, by omega⟩
      · simp only [ht] at h
        split at h
        · cases h
        · rename_i tx htx
          obtain ⟨x, hx, hid, hc⟩ := deadLetter_completes (hrows (d, m) (by simp)) rfl htx
          have hnot : x.id ∉ rest.map (fun y => y.1.id) := hid ▸ hn.1
          exact Or.inl ⟨x, applyLoop_keeps h hx hnot, hid, hc⟩
    · split at h
      · exact ih h hlen' hn.2 hrest hw hd
      · split at h
        · split at h
          · cases h
          · rename_i tx htx
            have hf := deadLetter_frame htx
            refine ih h hlen' hn.2 (fun x hx => hf.kept x.1 (hrest x hx) ?_) hw hd
            intro he
            have hmem := List.mem_map_of_mem (f := fun y : Delivery × Message => y.1.id) hx
            rw [show x.1.id = d'.id from he] at hmem
            exact hn.1 hmem
        · split at h
          · -- the query selects no more rows than asked for, so the break ends no loop early
            rename_i hbreak
            have hempty : rest.length = 0 := by omega
            rw [List.length_eq_zero_iff.mp hempty] at hd
            simp at hd
          · exact ih h hlen' hn.2 hrest (hw.deliver _) hd

theorem markAttempted_keeps {results : List SubscriptionMessageDelivery}
    (h : markAttempted e.env results tx = .ok tx') {x : Delivery} (hx : x ∈ tx.db.deliveries)
    (hid : x.id ∉ results.map (·.id)) : x ∈ tx'.db.deliveries := by
  refine loop_keeps Tx.db SubscriptionMessageDelivery.id h (fun y t t' hone => ?_) hx hid
  rw [Tx.updateDelivery_ok hone]
  exact frame_edit ⟨rfl, by simp [attemptUpdate]⟩

theorem get_spent {r : GetSubscriptionMessagesResults}
    (h : getSubscriptionMessages e.env p tx = .ok (r, tx'))
    (hsub : verifySub p tx.db.toTables = .ok sub)
    (hd : (d, m) ∈ queryAndLockDeliveriesOnce e.env tx.db.toTables sub p)
    (ht : sub.deadLetterTopicFor d = some t) :
    d.id ∉ r.deliveries.map (·.id) ∧
      (Completed e.env.now tx'.db d.id ∨ (d ∈ tx'.db.deliveries ∧
        p.maxBytes < (r.deliveries.map (fun x => (x.payload.length : ℤ))).sum +
          m.payload.length)) := by
  obtain ⟨sub', hsub', h⟩ := bind_ok.mp h
  obtain rfl : sub' = sub := Except.ok.inj (hsub'.symm.trans hsub)
  obtain ⟨mid, hmid, h⟩ := bind_ok.mp h
  obtain ⟨st, hst, h⟩ := bind_ok.mp h
  obtain ⟨last, hlast, h⟩ := bind_ok.mp h
  obtain ⟨rfl, rfl⟩ := Prod.mk.inj (pure_ok.mp h)
  have htab := DB.updateSubscriptions_ok (refreshExpiration_ok hmid)
  have hn := queryAndLockDeliveriesOnce_nodup e.env tx.db sub' p
  have hlen := queryAndLockDeliveriesOnce_length e.env tx.db.toTables sub' p
  have hpos := List.length_pos_of_mem hd
  have hlen' : ((0 : ℕ) : ℤ) + (queryAndLockDeliveriesOnce e.env tx.db.toTables sub' p).length ≤
      p.maxMessages := by omega
  have hrows : ∀ x ∈ queryAndLockDeliveriesOnce e.env tx.db.toTables sub' p,
      x.1 ∈ mid.db.deliveries := by
    intro x hx
    rw [htab]
    exact (queryAndLockDeliveriesOnce_mem hx).1
  have hw : Applied.Weighed ⟨mid, 0, [], 0⟩ := by simp [Applied.Weighed]
  have hnot : d.id ∉ st.deliveries.map (·.id) := by
    intro hgiven
    obtain ⟨x, hx, hid⟩ := List.mem_map.mp hgiven
    rcases applyLoop_given hst x hx with hx | ⟨y, hy, rfl, hnone⟩
    · simp at hx
    · have hyd : y.1 = d := tx.db.sound.delivery_pk.eq (queryAndLockDeliveriesOnce_mem hy).1
        (queryAndLockDeliveriesOnce_mem hd).1 hid
      simp [hyd, ht] at hnone
  refine ⟨hnot, ?_⟩
  have hsum := (applyLoop_weighed hst hw).1
  rcases applyLoop_spent hst hlen' hn hrows hw hd ht with hc | ⟨hkept, hbytes⟩
  · obtain ⟨x, hx, hid, hc⟩ := hc
    exact Or.inl ⟨x, markAttempted_keeps hlast hx (hid ▸ hnot), hid, hc⟩
  · exact Or.inr ⟨markAttempted_keeps hlast hkept hnot, hsum ▸ hbytes⟩

end Get

end

theorem completed_deadLettered {w : World} {e : Event} {d : Delivery} (hd : d ∈ w.db.deliveries)
    (ho : d.Outstanding e.env.now) (ha : e.action.DeadLetters d.id)
    (hc : Completed e.env.now (w.after e).db d.id) : DeadLettered e w.db (w.after e).db d := by
  have hon : OnDeliveries e.action := by
    cases hact : e.action <;> simp [hact, Action.DeadLetters, OnDeliveries] at ha ⊢
  have hrun := transaction_kept (o := w.at e.env.now) (transaction_of_action w hon) hd ho
  rcases hrun with ⟨x, hx, hxo, hxid, -⟩ | ⟨ids, hack, -⟩ | ⟨sub, -, -, hseek⟩ | hdead
  · obtain ⟨y, hy, hyid, hyc⟩ := hc
    have hxy : x = y := (w.after e).db.sound.delivery_pk.eq hx hy (hxid.trans hyid.symm)
    have hnone := hxo.1
    rw [hxy, hyc] at hnone
    cases hnone
  · simp [hack, Action.DeadLetters] at ha
  · rcases hseek with ⟨p, hact, -⟩ | ⟨p, hact, -⟩ <;> simp [hact, Action.DeadLetters] at ha
  · exact hdead

/-- The fate of a spent delivery in the next action that selects it while it
is outstanding: it is dead-lettered, or a get skips it and leaves it as it is
because its payload does not fit beside those that are handed out. -/
structure Retired (w : World) (d : Delivery) (e : Event) (given : List SubscriptionMessageDelivery)
    (after : DB) : Prop where
  nack : ∀ ids, e.action = .nack ids → d.id ∈ ids → DeadLettered e w.db after d
  sweep : ∀ k, e.action = .deadLetter k →
    ∀ data ∈ deadLetterSelection e.env w.db.toTables k, data.deliveryID = d.id →
      DeadLettered e w.db after d
  get : ∀ p sub m, e.action = .get p → verifySub p w.db.toTables = .ok sub →
    (d, m) ∈ queryAndLockDeliveriesOnce e.env w.db.toTables sub p →
      d.id ∉ given.map (·.id) ∧ (DeadLettered e w.db after d ∨ (d ∈ after.deliveries ∧
        p.maxBytes < (given.map (fun x => (x.payload.length : ℤ))).sum + m.payload.length))

theorem spent_retired {w : World} {e : Event} {d : Delivery} {s : Subscription} {t : UUID}
    (hd : d ∈ w.db.deliveries) (hs : s ∈ w.db.subscriptions) (hid : s.id = d.subscriptionID)
    (ht : s.deadLetterTopicFor d = some t) (ho : d.Outstanding e.env.now)
    {given : List SubscriptionMessageDelivery} {tx : Tx}
    (h : exec e.env e.action (Tx.begin w.db) = .ok (given, tx)) : Retired w d e given tx.db := by
  have hafter := after_ok h
  have hdead : e.action.DeadLetters d.id → Completed e.env.now tx.db d.id →
      DeadLettered e w.db tx.db d := fun ha hc =>
    hafter ▸ completed_deadLettered hd ho ha (hafter ▸ hc)
  constructor
  · intro ids ha hids
    rw [ha] at h
    obtain ⟨-, r, hn⟩ := quiet_ok h
    exact hdead (by simpa [ha, Action.DeadLetters] using hids)
      (nack_completes hn hd hids ho hs hid ht)
  · intro k ha data hdata hdid
    rw [ha] at h
    obtain ⟨-, r, hn⟩ := quiet_ok h
    exact hdead (by simp [ha, Action.DeadLetters]) (sweep_completes hn hd hdata hdid)
  · intro p sub m ha hsub hq
    rw [ha] at h
    obtain ⟨⟨r, tx'⟩, hn, heq⟩ := map_ok.mp h
    obtain ⟨rfl, rfl⟩ := Prod.mk.inj heq
    have hrow : sub = s := by
      have hbuilt := (queryAndLockDeliveriesOnce_mem hq).2.1
      simp only [buildDeliveryQuery, Bool.and_eq_true, decide_eq_true_eq] at hbuilt
      exact w.db.sound.subscription_pk.eq (only_ok hsub).1 hs (hbuilt.2.symm.trans hid.symm)
    rw [hrow] at hsub hq
    obtain ⟨hnot, hrest⟩ := get_spent hn hsub hq ht
    exact ⟨hnot, hrest.imp_left (hdead (by simp [ha, Action.DeadLetters]))⟩

/-- The steps of a run in which the dead-letter policy stays as it is. -/
def Steady (id : UUID) (n : ℤ) (topicID : UUID) (w : World) (e : Event) (w' : World) : Prop :=
  Fresh w e ∧ Policy id n topicID w'.db

theorem steady_invariant {w : World} {id topicID : UUID} {n : ℤ}
    (h : (bus.within (Steady id n topicID)).Reachable w) :
    Counted w ∧ Policy id n topicID w.db ∧ Bounded id n w := by
  refine h.invariant (I := fun w : World => Counted w ∧ Policy id n topicID w.db ∧ Bounded id n w)
    ?_ ?_
  · rintro v ⟨hdb, hgiven⟩
    have hd : v.db.deliveries = [] := by rw [hdb]; rfl
    have hs : v.db.subscriptions = [] := by rw [hdb]; rfl
    exact ⟨by simp [Counted, hd], by simp [Policy, hs], by simp [Bounded, hd]⟩
  · rintro v e v' ⟨hc, hp, hb⟩ ⟨hstep, hfresh, hp'⟩
    have hstep : v' = v.after e := hstep
    subst hstep
    exact ⟨counted_step hfresh hc, hp', bounded_step hp hb⟩

/-- Delivery attempts are bounded by the dead-letter policy. -/
theorem attempts_bounded {w : World} {id topicID : UUID} {n : ℤ}
    (h : (bus.within (Steady id n topicID)).Reachable w) {d : Delivery}
    (hd : d ∈ w.db.deliveries) (hid : d.subscriptionID = id) :
    d.attempts = w.handedOut.count d.id ∧ (w.handedOut.count d.id : ℤ) ≤ n ∧
      ((w.handedOut.count d.id : ℤ) = n → ∀ e given tx, d.Outstanding e.env.now →
        exec e.env e.action (Tx.begin w.db) = .ok (given, tx) → Retired w d e given tx.db) := by
  obtain ⟨hc, hp, hb⟩ := steady_invariant h
  have hcount := hc d hd
  have hle := hb d hd hid
  rw [← hcount]
  refine ⟨rfl, hle, fun hn e given tx ho hok => ?_⟩
  obtain ⟨s, hs, hsid⟩ := w.db.sound.delivery_subscription d hd
  have ht : s.deadLetterTopicFor d = some topicID :=
    Subscription.deadLetterTopicFor_some.mpr ⟨n, hp s hs (hsid.trans hid), hn.ge⟩
  exact spent_retired hd hs hsid ht ho hok

theorem spent_within : (bus.within (Steady 30 1 20)).Reachable spentBus := by
  refine initial_within ⟨⟨?_, ?_⟩, ⟨?_, ?_⟩, ⟨?_, ?_⟩, ⟨?_, ?_⟩, ⟨?_, ?_⟩, ⟨?_, ?_⟩,
    trivial⟩
  all_goals first
    | exact plain_fresh (by decide +kernel)
    | decide +kernel

theorem attempts_bounded_spent :
    DeadLettered nackSpent spentBus.db (spentBus.after nackSpent).db spentDelivery := by
  have hall := attempts_bounded spent_within (d := spentDelivery) (by decide +kernel) rfl
  have hcommits : (exec nackSpent.env nackSpent.action (Tx.begin spentBus.db)).isOk = true := by
    decide +kernel
  cases hok : exec nackSpent.env nackSpent.action (Tx.begin spentBus.db) with
  | error err => simp [hok, Except.isOk, Except.toBool] at hcommits
  | ok r =>
    have hret := hall.2.2 (by decide +kernel) nackSpent r.1 r.2 (by decide) hok
    rw [after_ok hok]
    exact hret.nack [51] rfl (by decide)

def skipRun : List Event := [
  Sample.ordersTopic 1 10,
  Sample.failedTopic 2 20,
  Sample.failingWorker 3 30,
  Sample.publish "123" "" 4 40,
  Sample.getSmall 5 50,
  Sample.publish "456" "" 6 60]

def skipBus : World := World.initial.run skipRun

def skipParams : GetSubscriptionMessagesParams := ⟨"worker", none, 10, 3, false⟩

def skipGet : Event := ⟨.plain minute 70, .get skipParams, by decide⟩

def skipSubscription : Subscription :=
  ⟨30, 10, "worker", 5 + hour, none, hour, hour, false, [], none, none, none, none, some 1, some 20,
    0⟩

def skippedDelivery : Delivery := ⟨41, 40, 30, 4, 11757009168, some 5, 1, none, 4 + hour, none⟩

/-- The delivery has used up its attempt, is outstanding and is selected, and
the get neither dead-letters it nor hands it out. -/
theorem spent_skipped :
    (bus.within (Steady 30 1 20)).Reachable skipBus ∧
    skippedDelivery ∈ skipBus.db.deliveries ∧ skipBus.handedOut.count skippedDelivery.id = 1 ∧
    skippedDelivery.Outstanding skipGet.env.now ∧
    verifySub skipParams skipBus.db.toTables = .ok skipSubscription ∧
    skippedDelivery ∈ (queryAndLockDeliveriesOnce skipGet.env skipBus.db.toTables skipSubscription
      skipParams).map Prod.fst ∧
    skippedDelivery ∈ (skipBus.after skipGet).db.deliveries ∧
    (skipBus.after skipGet).handedOut = [41, 61] := by
  refine ⟨initial_within ⟨⟨?_, ?_⟩, ⟨?_, ?_⟩, ⟨?_, ?_⟩, ⟨?_, ?_⟩, ⟨?_, ?_⟩,
    ⟨?_, ?_⟩, trivial⟩, ?_, ?_, ?_, rfl, ?_, ?_, ?_⟩
  all_goals first
    | exact plain_fresh (by decide +kernel)
    | decide +kernel

end Mmmbbb.Attempts
