import Mmmbbb.Runs

/-!
# A seek to a time as a reset

The two bulk updates of a seek to a time divide the unexpired deliveries of
the subscription at the target. The second one sees what the first has done,
and no row is changed by both.
-/

set_option autoImplicit false

namespace Mmmbbb.Resets
open KeyedRows Programs Mmmbbb.Schema Mmmbbb.Database Mmmbbb.Delivering Mmmbbb.Consuming
open Mmmbbb.Seeking Mmmbbb.Runs Mmmbbb.Administering

/-- A delivery of the subscription that the seek takes for unexpired: it may
expire this very instant. -/
def Unexpired (env : Env) (sub : Subscription) (d : Delivery) : Prop :=
  d.subscriptionID = sub.id ∧ env.now ≤ d.expiresAt

instance (env : Env) (sub : Subscription) (d : Delivery) : Decidable (Unexpired env sub d) :=
  inferInstanceAs (Decidable (_ ∧ _))

structure Reset (env : Env) (sub : Subscription) (time : Time) (d d' : Delivery) : Prop where
  completed : Unexpired env sub d → (d'.completedAt.isSome ↔ d.publishedAt ≤ time)
  acked : Unexpired env sub d → d.completedAt = none → d.publishedAt ≤ time →
    d' = { d with completedAt := some env.now }
  deAcked : Unexpired env sub d → d.completedAt.isSome → time < d.publishedAt →
    d' = { d with
      completedAt := none
      expiresAt := env.now + sub.messageTTL
      attemptAt := env.now }
  consistent : Unexpired env sub d → (d.completedAt.isSome ↔ d.publishedAt ≤ time) → d' = d
  others : ¬Unexpired env sub d → d' = d

structure FullReset (env : Env) (sub : Subscription) (time : Time) (f : Delivery → Delivery)
    (res : SeekResults) (tx tx' : Tx) : Prop where
  rows : tx'.db.toTables = { tx.db.toTables with deliveries := tx.db.deliveries.map f }
  reset : ∀ d ∈ tx.db.deliveries, Reset env sub time d (f d)
  numAcked : res.numAcked =
    (tx.db.deliveries.filter (fun d => d.completedAt.isNone && (f d).completedAt.isSome)).length
  numDeAcked : res.numDeAcked =
    (tx.db.deliveries.filter (fun d => d.completedAt.isSome && (f d).completedAt.isNone)).length
  woken : tx'.onCommit = tx.onCommit ++
    if res.numAcked ≠ 0 ∨ res.numDeAcked ≠ 0 then [.wakePublishListeners false [sub.id]] else []

section
variable {env : Env} {sub : Subscription} {time : Time} {d : Delivery}

def resetRow (env : Env) (sub : Subscription) (time : Time) (d : Delivery) : Delivery :=
  setWhere (seekTimeDeAcks env sub time) (deAckAll env sub).apply
    (setWhere (seekTimeAcks env sub time) (ackAll env).apply d)

theorem seekTimeAcks_iff : seekTimeAcks env sub time d = true ↔
    Unexpired env sub d ∧ d.publishedAt ≤ time ∧ d.completedAt = none := by
  simp [seekTimeAcks, Unexpired, and_assoc]

theorem seekTimeDeAcks_iff : seekTimeDeAcks env sub time d = true ↔
    Unexpired env sub d ∧ time < d.publishedAt ∧ d.completedAt.isSome = true := by
  simp [seekTimeDeAcks, Unexpired, and_assoc]

theorem resetRow_acked (h : seekTimeAcks env sub time d = true) :
    resetRow env sub time d = { d with completedAt := some env.now } := by
  have hpublished := (seekTimeAcks_iff.mp h).2.1
  have hrow : setWhere (seekTimeAcks env sub time) (ackAll env).apply d =
      { d with completedAt := some env.now } := by
    rw [setWhere, if_pos h]
    simp [ackAll, DeliveryUpdate.apply]
  have hnot : seekTimeDeAcks env sub time { d with completedAt := some env.now } ≠ true := by
    intro hde
    exact absurd (seekTimeDeAcks_iff.mp hde).2.1 (not_lt.mpr hpublished)
  rw [resetRow, hrow, setWhere, if_neg hnot]

theorem resetRow_deAcked (h : seekTimeDeAcks env sub time d = true) :
    resetRow env sub time d = { d with
      completedAt := none
      expiresAt := env.now + sub.messageTTL
      attemptAt := env.now } := by
  have hnot : seekTimeAcks env sub time d ≠ true := by
    intro hack
    exact absurd (seekTimeAcks_iff.mp hack).2.1 (not_le.mpr (seekTimeDeAcks_iff.mp h).2.1)
  rw [resetRow, setWhere, setWhere, if_neg hnot, if_pos h]
  simp [deAckAll, DeliveryUpdate.apply]

theorem resetRow_kept (hack : seekTimeAcks env sub time d ≠ true)
    (hde : seekTimeDeAcks env sub time d ≠ true) : resetRow env sub time d = d := by
  rw [resetRow, setWhere, setWhere, if_neg hack, if_neg hde]

theorem resetRow_reset (env : Env) (sub : Subscription) (time : Time) (d : Delivery) :
    Reset env sub time d (resetRow env sub time d) := by
  by_cases hack : seekTimeAcks env sub time d = true
  · obtain ⟨hun, hpub, hnone⟩ := seekTimeAcks_iff.mp hack
    rw [resetRow_acked hack]
    exact {
      completed := fun _ => by simp [hpub]
      acked := fun _ _ _ => rfl
      deAcked := fun _ hsome => by simp [hnone] at hsome
      consistent := fun _ hiff => by simp [hnone, hpub] at hiff
      others := fun hnot => absurd hun hnot }
  by_cases hde : seekTimeDeAcks env sub time d = true
  · obtain ⟨hun, hpub, hsome⟩ := seekTimeDeAcks_iff.mp hde
    rw [resetRow_deAcked hde]
    exact {
      completed := fun _ => by simp [hpub]
      acked := fun _ hnone => by simp [hnone] at hsome
      deAcked := fun _ _ _ => rfl
      consistent := fun _ hiff => absurd (hiff.mp hsome) (not_le.mpr hpub)
      others := fun hnot => absurd hun hnot }
  · rw [resetRow_kept hack hde]
    rw [seekTimeAcks_iff] at hack
    rw [seekTimeDeAcks_iff] at hde
    exact {
      completed := fun hun => by
        constructor
        · intro hsome
          by_contra hlate
          exact hde ⟨hun, not_le.mp hlate, hsome⟩
        · intro hpub
          by_contra hopen
          exact hack ⟨hun, hpub, by simpa using hopen⟩
      acked := fun hun hnone hpub => absurd ⟨hun, hpub, hnone⟩ hack
      deAcked := fun hun hsome hpub => absurd ⟨hun, hpub, hsome⟩ hde
      consistent := fun _ _ => rfl
      others := fun _ => rfl }

theorem acked_iff : (d.completedAt.isNone && (resetRow env sub time d).completedAt.isSome) = true ↔
    seekTimeAcks env sub time d = true := by
  by_cases hack : seekTimeAcks env sub time d = true
  · simp [resetRow_acked hack, hack, (seekTimeAcks_iff.mp hack).2.2]
  · by_cases hde : seekTimeDeAcks env sub time d = true
    · simp [resetRow_deAcked hde, hack]
    · rw [resetRow_kept hack hde]
      cases hc : d.completedAt <;> simp [hack]

theorem deAcked_iff :
    (d.completedAt.isSome && (resetRow env sub time d).completedAt.isNone) = true ↔
      seekTimeDeAcks env sub time d = true := by
  by_cases hde : seekTimeDeAcks env sub time d = true
  · simp [resetRow_deAcked hde, hde, (seekTimeDeAcks_iff.mp hde).2.2]
  · by_cases hack : seekTimeAcks env sub time d = true
    · simp [resetRow_acked hack, hde]
    · rw [resetRow_kept hack hde]
      cases hc : d.completedAt <;> simp [hde]

theorem seekTimeDeAcks_after_acks : seekTimeDeAcks env sub time
    (setWhere (seekTimeAcks env sub time) (ackAll env).apply d) = seekTimeDeAcks env sub time d := by
  by_cases hack : seekTimeAcks env sub time d = true
  · have hlate : ¬time < d.publishedAt := not_lt.mpr (seekTimeAcks_iff.mp hack).2.1
    rw [setWhere, if_pos hack]
    simp [seekTimeDeAcks, ackAll, DeliveryUpdate.apply, hlate]
  · rw [setWhere, if_neg hack]

theorem seek_ok {p : SeekSubscriptionToTimeParams} {res : SeekResults} {tx tx' : Tx}
    (h : seekSubscriptionToTime env p tx = .ok (res, tx')) :
    ∃ sub, only (subMatch p.name p.id) tx.db.subscriptions = .ok sub ∧
      FullReset env sub p.time (resetRow env sub p.time) res tx tx' := by
  obtain ⟨sub, hsub, h⟩ := bind_ok.mp h
  cases pure_ok.mp h
  refine ⟨sub, hsub, ?_⟩
  have hacks : (fun d => d.completedAt.isNone && (resetRow env sub p.time d).completedAt.isSome) =
      seekTimeAcks env sub p.time := funext fun d => Bool.eq_iff_iff.mpr acked_iff
  have hdeAcks : (fun d => d.completedAt.isSome && (resetRow env sub p.time d).completedAt.isNone) =
      seekTimeDeAcks env sub p.time := funext fun d => Bool.eq_iff_iff.mpr deAcked_iff
  have hsecond : seekTimeDeAcks env sub p.time ∘
      setWhere (seekTimeAcks env sub p.time) (ackAll env).apply = seekTimeDeAcks env sub p.time :=
    funext fun d => seekTimeDeAcks_after_acks
  constructor
  · rw [wakeIfSeeked_db]
    simp only [DB.updateDeliveries, List.map_map]
    rfl
  · exact fun d _ => resetRow_reset env sub p.time d
  · rw [hacks]
  · rw [hdeAcks]
    simp only [DB.updateDeliveries, List.filter_map, List.length_map, hsecond]
  · simp only [wakeIfSeeked]
    split
    · rfl
    · rw [List.append_nil]

end

def seekOnce (db : DB) (e : Env × SeekSubscriptionToTimeParams) : Except Error DB :=
  (seekSubscriptionToTime e.1 e.2 (Tx.begin db)).map (fun r => r.2.db)

def seekAll (db : DB) (es : List (Env × SeekSubscriptionToTimeParams)) : Except Error DB :=
  es.foldlM seekOnce db

section
variable {db db' : DB} {d : Delivery}

theorem seekOnce_rows {e : Env × SeekSubscriptionToTimeParams} (h : seekOnce db e = .ok db') :
    ∃ sub, only (subMatch e.2.name e.2.id) db.subscriptions = .ok sub ∧
      db'.toTables = { db.toTables with
        deliveries := db.deliveries.map (resetRow e.1 sub e.2.time) } := by
  obtain ⟨⟨res, tx'⟩, hseek, rfl⟩ := map_ok.mp h
  obtain ⟨sub, hsub, hreset⟩ := seek_ok hseek
  exact ⟨sub, hsub, hreset.rows⟩

theorem resetRow_frame (env : Env) (sub : Subscription) (time : Time) (d : Delivery) :
    (resetRow env sub time d).id = d.id ∧
      (resetRow env sub time d).subscriptionID = d.subscriptionID ∧
      (resetRow env sub time d).publishedAt = d.publishedAt := by
  simp [resetRow]

theorem resetRow_again {env env' : Env} {sub : Subscription} (time : Time)
    (hlater : env.now ≤ env'.now) (d : Delivery) :
    resetRow env' sub time (resetRow env sub time d) = resetRow env sub time d := by
  have hfirst := resetRow_reset env sub time d
  have hsecond := resetRow_reset env' sub time (resetRow env sub time d)
  obtain ⟨-, hsub, hpub⟩ := resetRow_frame env sub time d
  by_cases hun : Unexpired env sub d
  · by_cases hun' : Unexpired env' sub (resetRow env sub time d)
    · exact hsecond.consistent hun' (hpub ▸ hfirst.completed hun)
    · exact hsecond.others hun'
  · have hsame := hfirst.others hun
    have hexpired : ¬Unexpired env' sub (resetRow env sub time d) := by
      rw [hsame]
      exact fun hun' => hun ⟨hun'.1, hlater.trans hun'.2⟩
    exact hsecond.others hexpired

theorem seekOnce_again {env env' : Env} {p : SeekSubscriptionToTimeParams} {db'' : DB}
    (hlater : env.now ≤ env'.now) (h : seekOnce db (env, p) = .ok db')
    (h' : seekOnce db' (env', p) = .ok db'') : db'' = db' := by
  obtain ⟨sub, hsub, hrows⟩ := seekOnce_rows h
  obtain ⟨sub', hsub', hrows'⟩ := seekOnce_rows h'
  rw [hrows, hsub] at hsub'
  cases hsub'
  have hagain : db'.deliveries.map (resetRow env' sub p.time) = db'.deliveries := by
    rw [hrows]
    simp only [List.map_map]
    exact List.map_congr_left fun d _ => resetRow_again p.time hlater d
  apply DB.ext'
  rw [hrows', hagain]

theorem seekAll_keeps {es : List (Env × SeekSubscriptionToTimeParams)}
    (h : seekAll db es = .ok db') (hd : d ∈ db.deliveries) :
    ∃ x ∈ db'.deliveries, x.id = d.id ∧ x.publishedAt = d.publishedAt := by
  induction es generalizing db d with
  | nil =>
    cases h
    exact ⟨d, hd, rfl, rfl⟩
  | cons e es ih =>
    rw [seekAll, List.foldlM_cons] at h
    obtain ⟨mid, hmid, hrest⟩ := bind_ok.mp h
    obtain ⟨sub, -, hrows⟩ := seekOnce_rows hmid
    obtain ⟨hid, -, hpub⟩ := resetRow_frame e.1 sub e.2.time d
    have hmem : resetRow e.1 sub e.2.time d ∈ mid.deliveries := by
      rw [hrows]
      exact List.mem_map_of_mem hd
    obtain ⟨x, hx, hxid, hxpub⟩ := ih hrest hmem
    exact ⟨x, hx, hxid.trans hid, hxpub.trans hpub⟩

def UnexpiredAt (k : UUID) (db : DB) (e : Env × SeekSubscriptionToTimeParams) : Prop :=
  ∃ sub, only (subMatch e.2.name e.2.id) db.subscriptions = .ok sub ∧
    ∃ x ∈ db.deliveries, x.id = k ∧ Unexpired e.1 sub x

theorem seekAll_last {es : List (Env × SeekSubscriptionToTimeParams)}
    {e : Env × SeekSubscriptionToTimeParams} (h : seekAll db (es ++ [e]) = .ok db')
    (hd : d ∈ db.deliveries) (hun : ∀ mid, seekAll db es = .ok mid → UnexpiredAt d.id mid e) :
    ∃ x ∈ db'.deliveries, x.id = d.id ∧ (x.completedAt.isSome ↔ d.publishedAt ≤ e.2.time) := by
  rw [seekAll, List.foldlM_append] at h
  obtain ⟨mid, hmid, hlast⟩ := bind_ok.mp h
  obtain ⟨y, hy, hyid, hypub⟩ := seekAll_keeps hmid hd
  obtain ⟨sub, hsub, x, hx, hid, hunx⟩ := hun mid hmid
  have hxy : x = y := mid.sound.delivery_pk.eq hx hy (hid.trans hyid.symm)
  have hlast : seekOnce mid e = .ok db' := by simpa using hlast
  obtain ⟨sub', hsub', hrows⟩ := seekOnce_rows hlast
  rw [hsub] at hsub'
  cases hsub'
  have hreset := resetRow_reset e.1 sub e.2.time y
  refine ⟨resetRow e.1 sub e.2.time y, ?_, ?_, ?_⟩
  · rw [hrows]
    exact List.mem_map_of_mem hy
  · exact (resetRow_frame e.1 sub e.2.time y).1.trans hyid
  · rw [hreset.completed (hxy ▸ hunx), hypub]

end

/-- A seek to a time resets all that is unexpired, the same seek later on
changes nothing, and of several seeks the last one wins. -/
theorem seek_last_wins :
    (∀ (env : Env) (p : SeekSubscriptionToTimeParams) (tx tx' : Tx) (res : SeekResults),
      seekSubscriptionToTime env p tx = .ok (res, tx') →
      ∃ sub f, only (subMatch p.name p.id) tx.db.subscriptions = .ok sub ∧
        FullReset env sub p.time f res tx tx') ∧
    (∀ (env env' : Env) (p : SeekSubscriptionToTimeParams) (db db' db'' : DB),
      env.now ≤ env'.now → seekOnce db (env, p) = .ok db' → seekOnce db' (env', p) = .ok db'' →
      db'' = db') ∧
    (∀ (es : List (Env × SeekSubscriptionToTimeParams)) (e : Env × SeekSubscriptionToTimeParams)
      (db db' : DB) (d : Delivery), seekAll db (es ++ [e]) = .ok db' → d ∈ db.deliveries →
      (∀ mid, seekAll db es = .ok mid → UnexpiredAt d.id mid e) →
      ∃ x ∈ db'.deliveries, x.id = d.id ∧
        (x.completedAt.isSome ↔ d.publishedAt ≤ e.2.time)) := by
  refine ⟨fun env p tx tx' res h => ?_, fun env env' p db db' db'' => seekOnce_again,
    fun es e db db' d => seekAll_last⟩
  obtain ⟨sub, hsub, hreset⟩ := seek_ok h
  exact ⟨sub, _, hsub, hreset⟩

def soughtBus : World := World.initial.run [
  Sample.ordersTopic 1 10,
  Sample.worker 2 20,
  Sample.publish "1" "" 3 30,
  Sample.publish "2" "" 5 40]

def seekTo (now time : Time) : Env × SeekSubscriptionToTimeParams :=
  (.plain now 50, ⟨"worker", none, time⟩)

def soughtSubscription : Subscription :=
  ⟨20, 10, "worker", 2 + hour, none, hour, hour, false, [], none, none, none, none, none, none, 0⟩

def firstDelivery : Delivery := ⟨31, 30, 20, 3, 3, none, 0, none, 3 + hour, none⟩

theorem seek_last_wins_sought :
    (∃ res tx', seekSubscriptionToTime (.plain 6 50) ⟨"worker", none, 4⟩
      (Tx.begin soughtBus.db) = .ok (res, tx') ∧ res.numAcked = 1 ∧
      ∃ sub f, FullReset (.plain 6 50) sub 4 f res (Tx.begin soughtBus.db) tx') ∧
    (∃ db' db'', seekOnce soughtBus.db (seekTo 6 4) = .ok db' ∧
      seekOnce db' (seekTo 7 4) = .ok db'' ∧ db'' = db') ∧
    (∃ db', seekAll soughtBus.db [seekTo 6 4, seekTo 8 2] = .ok db' ∧
      ∃ x ∈ db'.deliveries, x.id = 31 ∧ x.completedAt.isSome = false) := by
  obtain ⟨hreset, hagain, hlast⟩ := seek_last_wins
  refine ⟨?_, ?_, ?_⟩
  · have hrun : (seekSubscriptionToTime (.plain 6 50) ⟨"worker", none, 4⟩
        (Tx.begin soughtBus.db)).map (fun r => r.1.numAcked) = .ok 1 := by decide +kernel
    obtain ⟨⟨res, tx'⟩, hok, hnum⟩ := map_ok.mp hrun
    obtain ⟨sub, f, -, hfull⟩ := hreset _ _ _ _ _ hok
    exact ⟨res, tx', hok, hnum, sub, f, hfull⟩
  · have hrun : ((seekOnce soughtBus.db (seekTo 6 4)).bind
        (fun db' => (seekOnce db' (seekTo 7 4)).map (fun _ => ()))) = .ok () := by decide +kernel
    obtain ⟨db', hfirst, hrest⟩ := bind_ok.mp hrun
    obtain ⟨db'', hsecond, -⟩ := map_ok.mp hrest
    exact ⟨db', db'', hfirst, hsecond, hagain _ _ _ _ _ _ (by decide) hfirst hsecond⟩
  · have hrun : (seekAll soughtBus.db ([seekTo 6 4] ++ [seekTo 8 2])).map (fun _ => ()) = .ok () := by
      decide +kernel
    obtain ⟨db', hok, -⟩ := map_ok.mp hrun
    have hfound : (seekAll soughtBus.db [seekTo 6 4]).map (fun mid =>
        (only (subMatch "worker" none) mid.subscriptions, mid.deliveries.head?)) =
        .ok (.ok soughtSubscription, some { firstDelivery with completedAt := some 6 }) := by
      decide +kernel
    have hun : ∀ mid, seekAll soughtBus.db [seekTo 6 4] = .ok mid →
        UnexpiredAt 31 mid (seekTo 8 2) := by
      intro mid hmid
      rw [hmid] at hfound
      obtain ⟨hsub, hrow⟩ := Prod.mk.inj (Except.ok.inj hfound)
      exact ⟨_, hsub, _, List.mem_of_mem_head? hrow, rfl, by decide⟩
    obtain ⟨x, hx, hid, hiff⟩ := hlast [seekTo 6 4] (seekTo 8 2) soughtBus.db db' firstDelivery hok
      (by decide +kernel) hun
    refine ⟨db', hok, x, hx, hid, ?_⟩
    cases hc : x.completedAt.isSome with
    | false => rfl
    | true => exact absurd (hiff.mp hc) (by decide)

end Mmmbbb.Resets
