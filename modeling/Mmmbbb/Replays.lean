import Mathlib.Algebra.Order.BigOperators.Group.List
import Mmmbbb.Portions

/-!
# Replays

A seek that un-completes a delivery makes it due again and leaves its attempts
as they were. What has used them up is then dead-lettered again by the first
action that looks at it, before any subscriber has seen it.
-/

set_option autoImplicit false

namespace Mmmbbb.Replays
open KeyedRows Budgets Programs Mmmbbb.Schema Mmmbbb.Database Mmmbbb.Delivering Mmmbbb.Consuming
open Mmmbbb.Seeking Mmmbbb.Runs Mmmbbb.Writes Mmmbbb.Changes Mmmbbb.NoLoss Mmmbbb.Attempts
open Mmmbbb.Portions

def Seeks (a : Action) : Prop := (∃ p, a = .seekToTime p) ∨ ∃ p, a = .seekToSnapshot p

structure Revived (w : World) (e : Event) (d : Delivery) : Prop where
  seeks : Seeks e.action
  row : d ∈ w.db.deliveries
  completed : d.completedAt ≠ none
  revived : ∃ x ∈ (w.after e).db.deliveries, x.id = d.id ∧ x.completedAt = none

structure Undisturbed (d : Delivery) (v : World) (e : Event) : Prop where
  acked : ¬ Acked e.action d
  seeked : ¬ Seeked e.action v.db d
  unexpired : ∀ x ∈ v.db.deliveries, x.id = d.id → e.env.now < x.expiresAt

def Quietly (d : Delivery) (v : World) (e : Event) (v' : World) : Prop :=
  Undisturbed d v e ∧ v'.handedOut.count d.id = v.handedOut.count d.id ∧
    Has Delivery.id d.id v'.db.deliveries

/-- A get that selects the delivery has room for it, beside what it hands out
of those before it. -/
def Roomy (d : Delivery) (v : World) (e : Event) : Prop :=
  ∀ p sub, e.action = .get p → verifySub p v.db.toTables = .ok sub → ∀ before x after,
    queryAndLockDeliveriesOnce e.env v.db.toTables sub p = before ++ x :: after → x.1.id = d.id →
      (pullPass p sub).Fits before x

/-- The next action does not complete the delivery, and hands it out if it is a
get that selects it. -/
structure Spared (d : Delivery) (v : World) (e : Event) : Prop where
  pending : ∀ x ∈ (v.after e).db.deliveries, x.id = d.id → x.completedAt = none
  given : ∀ p sub given tx, e.action = .get p → verifySub p v.db.toTables = .ok sub →
    (∃ x ∈ queryAndLockDeliveriesOnce e.env v.db.toTables sub p, x.1.id = d.id) →
      exec e.env e.action (Tx.begin v.db) = .ok (given, tx) → d.id ∈ given.map (·.id)

/-- As its subscription now is, it leaves the delivery a further attempt. -/
def Unspent (d : Delivery) (db : DB) : Prop :=
  ∀ s ∈ db.subscriptions, s.id = d.subscriptionID → s.deadLetterTopicFor d = none

instance (d : Delivery) (db : DB) : Decidable (Unspent d db) :=
  inferInstanceAs (Decidable (∀ s ∈ db.subscriptions, _))

def Awaits (d : Delivery) (db : DB) : Prop :=
  ∃ x ∈ db.deliveries, SameRow d x ∧ x.attempts = d.attempts ∧ x.completedAt = none

theorem deadLetterTopicFor_congr (s : Subscription) {a b : Delivery}
    (h : a.attempts = b.attempts) : s.deadLetterTopicFor a = s.deadLetterTopicFor b := by
  simp [Subscription.deadLetterTopicFor, h]

def Tallied (o : World) (d : Delivery) (w : World) : Prop :=
  ∃ x ∈ w.db.deliveries, SameRow d x ∧
    x.attempts + o.handedOut.count d.id = d.attempts + w.handedOut.count d.id

section
variable {e : Event} {o v w w' : World} {d : Delivery}

theorem tallied_edit {p : Delivery → Bool} {u : DeliveryUpdate} (h : Tallied v d w)
    (hu : u.addAttempts = 0) : Tallied v d (w.edit p u) := by
  obtain ⟨x, hx, hsame, hcount⟩ := h
  refine ⟨_, DB.updateDeliveries_row p u hx, hsame.trans (setWhere_sameRow p u x), ?_⟩
  rw [setWhere_attempts p x hu]
  exact hcount

theorem tallied_write (hw : Write e o w w') (h : Tallied v d w) : Tallied v d w' := by
  cases hw
  case refresh hdb =>
    have ht := DB.updateSubscriptions_ok hdb
    simpa [Tallied, World.set, ht] using h
  case message hdb =>
    have ht := (DB.insertMessage_ok hdb).2
    simpa [Tallied, World.set, ht] using h
  case deliver hdb _ =>
    have ht := (DB.insertDelivery_ok hdb).2
    obtain ⟨x, hx, hrest⟩ := h
    exact ⟨x, by simp [World.set, ht, hx], hrest⟩
  case attempt r s p t ha hr₀ hr ho hs hsub hlive hlimit hord =>
    obtain ⟨x, hx, hsame, hcount⟩ := h
    refine ⟨_, DB.updateDeliveries_row _ _ hx, hsame.trans (setWhere_sameRow _ _ x), ?_⟩
    rw [List.count_append]
    by_cases hid : x.id = r.id
    · have hone : [r.id].count d.id = 1 := by simp [← hid, hsame.id]
      simp only [setWhere, hid, decide_true, if_true, DeliveryUpdate.apply]
      omega
    · have hne : ¬ r.id = d.id := fun he => hid (hsame.id.trans he.symm)
      have hzero : [r.id].count d.id = 0 := by simp [hne]
      simp only [setWhere, hid, decide_false, Bool.false_eq_true, if_false]
      omega
  all_goals exact tallied_edit h rfl

/-- Whatever is left of a delivery after a step has been handed out as often as
its attempts tell. -/
theorem tallied_after {x y : Delivery} (hx : x ∈ w.db.deliveries)
    (hy : y ∈ (w.after e).db.deliveries) (hid : y.id = x.id) :
    SameRow x y ∧ y.attempts + w.handedOut.count x.id =
      x.attempts + (w.after e).handedOut.count x.id := by
  have hchange := change_after (e := e) w
  generalize w.after e = w' at hchange hy ⊢
  cases hchange
  case write hw =>
    have hstart : Tallied w x (w.at e.env.now) := ⟨x, hx, .refl x, rfl⟩
    have hend : Tallied w x w' := steps_invariant (I := Tallied w x)
      (fun _ _ hv => tallied_write hv) hw hstart
    obtain ⟨z, hz, hsame, hcount⟩ := hend
    obtain rfl : z = y := w'.db.sound.delivery_pk.eq hz hy (hsame.id.trans hid.symm)
    exact ⟨hsame, hcount⟩
  case prune p hp =>
    obtain ⟨r, hr, -, rfl⟩ := mem_deliveriesWithout.mp hy
    obtain rfl : r = x := w.db.sound.delivery_pk.eq hr hx hid
    exact ⟨⟨rfl, rfl, rfl, rfl⟩, rfl⟩
  case quiet db hq =>
    have hy : y ∈ w.db.deliveries := hq.deliveries ▸ hy
    obtain rfl : y = x := w.db.sound.delivery_pk.eq hy hx hid
    exact ⟨.refl y, rfl⟩

theorem unspent_pending (hwait : Awaits d v.db) (hun : Undisturbed d v e) (hleft : Unspent d v.db) :
    ∀ y ∈ (v.after e).db.deliveries, y.id = d.id → y.completedAt = none := by
  intro y hy hid
  obtain ⟨x, hx, hsame, hattempts, hopen⟩ := hwait
  have ho : x.Outstanding e.env.now := ⟨hopen, hun.unexpired x hx hsame.id⟩
  have hchange := change_after (e := e) v
  generalize v.after e = v' at hchange hy ⊢
  cases hchange
  case write hw =>
    have hkept := transaction_kept (o := v.at e.env.now) hw hx ho
    rcases hkept with ⟨z, hz, hzo, hzid, -⟩ | ⟨ids, ha, hmem⟩ | hseek | hdead
    · have hzy : z = y := v'.db.sound.delivery_pk.eq hz hy (hzid.trans (hsame.id.trans hid.symm))
      exact hzy ▸ hzo.1
    · exact absurd ⟨ids, ha, hsame.id ▸ hmem⟩ hun.acked
    · obtain ⟨sub, hs, hsub, hcases⟩ := hseek
      rw [hsame.subscriptionID] at hsub
      rw [hsame.publishedAt, hsame.messageID] at hcases
      exact absurd ⟨sub, hs, hsub, hcases⟩ hun.seeked
    · obtain ⟨-, -, s, hs, hsid, t, ht, -⟩ := hdead
      have hnone := hleft s hs (hsid.trans hsame.subscriptionID)
      rw [deadLetterTopicFor_congr s hattempts, hnone] at ht
      cases ht
  case prune p hp =>
    obtain ⟨r, hr, -, rfl⟩ := mem_deliveriesWithout.mp hy
    obtain rfl : r = x := v.db.sound.delivery_pk.eq hr hx (hid.trans hsame.id.symm)
    exact hopen
  case quiet db hq =>
    have hy : y ∈ v.db.deliveries := hq.deliveries ▸ hy
    obtain rfl : y = x := v.db.sound.delivery_pk.eq hy hx (hid.trans hsame.id.symm)
    exact hopen

theorem awaits_step (hwait : Awaits d v.db) (hq : Quietly d v e (v.after e))
    (hleft : Unspent d v.db) : Awaits d (v.after e).db := by
  obtain ⟨hun, hcount, y, hy, hid⟩ := hq
  have hopen := unspent_pending hwait hun hleft y hy hid
  obtain ⟨x, hx, hsame, hattempts, -⟩ := hwait
  obtain ⟨hrow, htally⟩ := tallied_after (e := e) hx hy (hid.trans hsame.id.symm)
  rw [hsame.id] at htally
  exact ⟨y, hy, hsame.trans hrow, by omega, hopen⟩

theorem unspent_given (hwait : Awaits d v.db) (hroom : Roomy d v e) (hleft : Unspent d v.db) :
    ∀ p sub given tx, e.action = .get p → verifySub p v.db.toTables = .ok sub →
      (∃ x ∈ queryAndLockDeliveriesOnce e.env v.db.toTables sub p, x.1.id = d.id) →
        exec e.env e.action (Tx.begin v.db) = .ok (given, tx) → d.id ∈ given.map (·.id) := by
  rintro p sub given tx ha hsub ⟨x, hx, hid⟩ h
  obtain ⟨before, after, hfetched⟩ := List.append_of_mem hx
  have hfits := hroom p sub ha hsub before x after hfetched hid
  obtain ⟨r, hr, hsame, hattempts, -⟩ := hwait
  obtain ⟨hrow, hbuilt, -⟩ := queryAndLockDeliveriesOnce_mem hx
  have hxr : x.1 = r := v.db.sound.delivery_pk.eq hrow hr (hid.trans hsame.id.symm)
  have hlimit : sub.deadLetterTopicFor x.1 = none := by
    simp only [buildDeliveryQuery, Bool.and_eq_true, decide_eq_true_eq] at hbuilt
    have hsid : sub.id = d.subscriptionID := by rw [← hbuilt.2, hxr, hsame.subscriptionID]
    rw [hxr, deadLetterTopicFor_congr sub hattempts]
    exact hleft sub (only_ok hsub).1 hsid
  have hmost : ((queryAndLockDeliveriesOnce e.env v.db.toTables sub p).length : ℤ) ≤
      (pullPass p sub).most := by
    have hlen := queryAndLockDeliveriesOnce_length e.env v.db.toTables sub p
    have hpos := List.length_pos_of_mem hx
    have hsame : (pullPass p sub).most = p.maxMessages := rfl
    omega
  have htaken := pass_takes (pullPass p sub) _ hfetched hmost hfits hlimit
  rw [ha] at h
  obtain ⟨⟨res, tx'⟩, hget, heq⟩ := map_ok.mp h
  obtain ⟨rfl, rfl⟩ := Prod.mk.inj heq
  obtain ⟨sub', hsub', hget⟩ := bind_ok.mp hget
  obtain rfl : sub' = sub := Except.ok.inj (hsub'.symm.trans hsub)
  rw [applyResults_deliveries hget, given_ids, ← hid]
  exact List.mem_map_of_mem (f := fun x : Fetched => x.1.id) htaken

theorem spent_nacked {x : Delivery} {s : Subscription} {t : UUID} (hx : x ∈ v.db.deliveries)
    (hopen : x.completedAt = none) (hs : s ∈ v.db.subscriptions) (hid : s.id = x.subscriptionID)
    (ht : s.deadLetterTopicFor x = some t) :
    ∃ n, n.action = .nack [x.id] ∧ n.env.now < x.expiresAt ∧
      Completed n.env.now (v.after n).db x.id := by
  have hlt : x.expiresAt - 1 < x.expiresAt := sub_one_lt _
  set env := Env.plain (x.expiresAt - 1) ((v.db.deliveries.map Delivery.id).sum + 1) with henv
  have hunused : Unused env (Tx.begin v.db) := by
    refine plain_unused fun d hd => ?_
    have hle := List.le_sum_of_mem (List.mem_map_of_mem (f := Delivery.id) hd)
    exact Nat.lt_succ_of_le hle
  have hone : ∀ r, r ∈ v.db.deliveries.filter (nackPredicates env.now [x.id]) ↔ r ∈ [x] := by
    intro r
    simp only [List.mem_filter, nackPredicates, Bool.and_eq_true, decide_eq_true_eq,
      List.mem_singleton]
    constructor
    · rintro ⟨hr, ⟨hrid, -⟩, -⟩
      exact v.db.sound.delivery_pk.eq hr hx hrid
    · rintro rfl
      exact ⟨hx, ⟨rfl, by simp [hopen]⟩, hlt⟩
  have hrows : orderBy (fun d => (d.id : ℤ)) (env.deliveries.run
      (v.db.deliveries.filter (nackPredicates env.now [x.id]))) = [x] := by
    have hnodup := (List.Nodup.of_map _ v.db.sound.delivery_pk).filter
      (nackPredicates env.now [x.id])
    have hfiltered := (List.perm_ext_iff_of_nodup hnodup (List.nodup_singleton x)).mpr hone
    exact List.perm_singleton.mp
      (((orderBy_perm _ _).trans (env.deliveries.perm _)).trans hfiltered)
  have hdead : ∃ tx, deadLetterDelivery env (deadLetterDataFromEntities x t) (Tx.begin v.db) =
      .ok tx ∧ Unused env tx :=
    deadLetterDelivery_succeeds hunused (Has.of_mem hx) (v.db.sound.delivery_message x hx)
  obtain ⟨tx, htx, -⟩ := hdead
  have hloaded : fetch Subscription.id x.subscriptionID v.db.subscriptions = some s :=
    hid ▸ fetch_of_mem v.db.sound.subscription_pk hs
  have hnack : nackDeliveries env [x.id] (Tx.begin v.db) = .ok (⟨1, 1⟩, tx) := by
    unfold nackDeliveries
    have hbegin : (Tx.begin v.db).db = v.db := rfl
    rw [hbegin, hrows]
    simp [nackOne, hloaded, ht, htx, Except.map, bind, Except.bind, pure, Except.pure]
  have hexec : exec env (.nack [x.id]) (Tx.begin v.db) = .ok ([], tx) := by
    simp [exec, hnack, Except.map]
  refine ⟨⟨env, .nack [x.id], trivial⟩, rfl, hlt, ?_⟩
  have hafter : (v.after ⟨env, .nack [x.id], trivial⟩).db = tx.db :=
    after_ok (e := ⟨env, .nack [x.id], trivial⟩) hexec
  rw [hafter]
  exact nack_completes (e := ⟨env, .nack [x.id], trivial⟩) hnack hx (by simp) ⟨hopen, hlt⟩ hs hid ht

theorem spared_unspent (hwait : Awaits d v.db)
    (hall : ∀ n, Undisturbed d v n → Roomy d v n → Spared d v n) : Unspent d v.db := by
  obtain ⟨x, hx, hsame, hattempts, hopen⟩ := hwait
  intro s hs hid
  cases ht : s.deadLetterTopicFor d with
  | none => rfl
  | some t =>
    have hlimit : s.deadLetterTopicFor x = some t :=
      (deadLetterTopicFor_congr s hattempts).trans ht
    obtain ⟨n, ha, hlt, y, hy, hyid, hdone⟩ := spent_nacked hx hopen hs
      (hid.trans hsame.subscriptionID.symm) hlimit
    have hun : Undisturbed d v n := by
      refine ⟨by simp [Acked, ha], by simp [Seeked, ha], fun r hr hrid => ?_⟩
      obtain rfl : r = x := v.db.sound.delivery_pk.eq hr hx (hrid.trans hsame.id.symm)
      exact hlt
    have hroom : Roomy d v n := by
      intro p sub hget
      simp [ha] at hget
    have hnone := (hall n hun hroom).pending y hy (hyid.trans hsame.id)
    rw [hnone] at hdone
    cases hdone

end

section
variable {e : Event} {v w : World} {d : Delivery} {es : List Event}

theorem Revived.awaits (h : Revived w e d) : Awaits d (w.after e).db := by
  obtain ⟨x, hx, hid, hopen⟩ := h.revived
  obtain ⟨hsame, htally⟩ := tallied_after h.row hx hid
  have hget : ∀ p, e.action ≠ .get p := by
    intro p ha
    rcases h.seeks with ⟨q, hq⟩ | ⟨q, hq⟩ <;> simp [ha] at hq
  rw [handedOut_after hget] at htally
  exact ⟨x, hx, hsame, by omega, hopen⟩

theorem awaits_run (hwait : Awaits d v.db) (hes : Allowed (Quietly d) v es)
    (hleft : ∀ pre, pre <+: es → Awaits d (v.run pre).db → Unspent d (v.run pre).db) :
    ∀ pre, pre <+: es → Awaits d (v.run pre).db := by
  induction es generalizing v with
  | nil =>
    intro pre hpre
    rw [List.prefix_nil.mp hpre]
    exact hwait
  | cons e es ih =>
    intro pre hpre
    cases pre with
    | nil => exact hwait
    | cons e' pre =>
      obtain ⟨rfl, hrest⟩ := List.cons_prefix_cons.mp hpre
      have hnow : Unspent d v.db := hleft [] List.nil_prefix hwait
      have hnext := awaits_step hwait hes.1 hnow
      have hlater : ∀ q, q <+: es → Awaits d ((v.after e').run q).db →
          Unspent d ((v.after e').run q).db :=
        fun q hq => hleft (e' :: q) (List.cons_prefix_cons.mpr ⟨rfl, hq⟩)
      exact ih hnext hes.2 hlater pre hrest

theorem single_roomy (h : ∀ p, e.action = .get p → p.maxMessages = 1 ∧ p.maxBytesStrict = false) :
    Roomy d v e := by
  intro p sub ha _ before x after hfetched _
  obtain ⟨hone, hstrict⟩ := h p ha
  have hlen := queryAndLockDeliveriesOnce_length e.env v.db.toTables sub p
  rw [hfetched, hone, List.length_append, List.length_cons] at hlen
  have hfirst : before.length = 0 := by
    have hmost : (1 : ℤ).toNat = 1 := rfl
    omega
  rintro ⟨hplace, -⟩
  rcases hplace with hs | hs
  · have hs : p.maxBytesStrict = true := hs
    simp [hstrict] at hs
  · omega

/-- At every point of the run the next action spares the delivery, if it leaves
it undisturbed and has room for it. -/
def Replayed (d : Delivery) (v : World) (es : List Event) : Prop :=
  ∀ pre, pre <+: es → ∀ n, Undisturbed d (v.run pre) n → Roomy d (v.run pre) n →
    Spared d (v.run pre) n

/-- A delivery that a seek has un-completed is not completed before it is handed
out again, exactly when it has a further attempt all that time. -/
theorem replayed_iff (hrev : Revived w e d) (hes : Allowed (Quietly d) (w.after e) es) :
    Replayed d (w.after e) es ↔ ∀ pre, pre <+: es → Unspent d ((w.after e).run pre).db := by
  constructor
  · intro h pre hpre
    have hleft : ∀ q, q <+: es → Awaits d ((w.after e).run q).db →
        Unspent d ((w.after e).run q).db := fun q hq hwait => spared_unspent hwait (h q hq)
    exact hleft pre hpre (awaits_run hrev.awaits hes hleft pre hpre)
  · intro h pre hpre n hun hroom
    have hwait := awaits_run hrev.awaits hes (fun q hq _ => h q hq) pre hpre
    have hleft := h pre hpre
    exact ⟨unspent_pending hwait hun hleft, unspent_given hwait hroom hleft⟩

end

def seekBefore (now : Time) : Event :=
  Sample.seekToThree now 100

def nextGet (now : Time) : Event :=
  Sample.getOne now 200

def ackedRun : List Event := [
  Sample.ordersTopic 1 10,
  Sample.failedTopic 2 20,
  ⟨.plain 3 30, .createSubscription ⟨"orders", "worker", hour, hour, false, [], "", 0, 0, "", 2,
    "failed"⟩, by decide⟩,
  Sample.publish "1" "" 4 40,
  nextGet 5,
  ⟨.plain 6 60, .ack [41], trivial⟩]

def ackedBus : World := World.initial.run ackedRun

def ackedTwiceBus : World := World.initial.run (ackedRun ++ [
  seekBefore 7,
  nextGet 8,
  ⟨.plain 9 90, .ack [41], trivial⟩])

def ackedDelivery : Delivery := ⟨41, 40, 30, 4, 11757009168, some 5, 1, some 6, 4 + hour, none⟩

def ackedTwiceDelivery : Delivery :=
  ⟨41, 40, 30, 4, 12147638253, some 8, 2, some 9, 7 + hour, none⟩

def nackReplayed : Event := ⟨.plain 8 100, .nack [41], trivial⟩

theorem acked_revived : Revived ackedBus (seekBefore 7) ackedDelivery :=
  ⟨Or.inl ⟨_, rfl⟩, by decide +kernel, by decide, by decide +kernel⟩

theorem replayed_iff_nack :
    Replayed ackedDelivery (ackedBus.after (seekBefore 7)) [nackReplayed] := by
  have hquiet : Allowed (Quietly ackedDelivery) (ackedBus.after (seekBefore 7)) [nackReplayed] := by
    refine ⟨⟨⟨?_, ?_, ?_⟩, ?_, ?_⟩, trivial⟩
    · simp [Acked, nackReplayed]
    · simp [Seeked, nackReplayed]
    · decide +kernel
    · decide +kernel
    · decide +kernel
  refine (replayed_iff acked_revived hquiet).mpr fun pre hpre => ?_
  cases pre with
  | nil => decide +kernel
  | cons n pre =>
    obtain ⟨rfl, hrest⟩ := List.cons_prefix_cons.mp hpre
    rw [List.prefix_nil.mp hrest]
    decide +kernel

/-- The delivery is replayed once more, and the next get dead-letters it. -/
theorem replay_deadLettered : ¬ ∀ w e d, bus.Reachable w → Revived w e d → ∀ es,
    Allowed (Quietly d) (w.after e) es → Replayed d (w.after e) es := by
  intro h
  have hrevived : Revived ackedTwiceBus (seekBefore 10) ackedTwiceDelivery :=
    ⟨Or.inl ⟨_, rfl⟩, by decide +kernel, by decide, by decide +kernel⟩
  have hreplayed := h _ _ _ (initial_reachable _) hrevived [] trivial [] List.nil_prefix
    (nextGet 11)
  have hun : Undisturbed ackedTwiceDelivery (ackedTwiceBus.after (seekBefore 10)) (nextGet 11) := by
    refine ⟨?_, ?_, ?_⟩
    · simp [Acked, nextGet, Sample.getOne]
    · simp [Seeked, nextGet, Sample.getOne]
    · decide +kernel
  have hroom : Roomy ackedTwiceDelivery (ackedTwiceBus.after (seekBefore 10)) (nextGet 11) := by
    refine single_roomy fun p hp => ?_
    obtain rfl := Action.get.inj hp
    exact ⟨rfl, rfl⟩
  have hpending := (hreplayed hun hroom).pending
  have hcompleted : ∃ x ∈ ((ackedTwiceBus.after (seekBefore 10)).after (nextGet 11)).db.deliveries,
      x.id = 41 ∧ x.completedAt ≠ none := by
    decide +kernel
  obtain ⟨x, hx, hid, hdone⟩ := hcompleted
  exact hdone (hpending x hx hid)

end Mmmbbb.Replays
