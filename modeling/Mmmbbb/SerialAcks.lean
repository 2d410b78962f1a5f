import Mmmbbb.Serials
import Mmmbbb.SettledOnce

/-!
# Acks in the order of their commits

The condition on what an ack completes is looked at again once it has its
locks. Acks that run at once do therefore what the bus does with them one
after another.
-/

set_option autoImplicit false

namespace Mmmbbb.SerialAcks
open KeyedRows Programs ReadCommitted Serials Mmmbbb.Schema Mmmbbb.Database Mmmbbb.Delivering
open Mmmbbb.Consuming Mmmbbb.Runs Mmmbbb.Settling Mmmbbb.SettledOnce

def IsAck : Statement → Prop
  | .ack _ _ => True
  | _ => False

instance : DecidablePred IsAck := by
  intro a
  cases a <;> unfold IsAck <;> infer_instance

section
variable {n : ℕ}

def Acks (_ : Sessions n) (e : ReadCommitted.Event n Statement) (_ : Sessions n) : Prop :=
  match e with
  | .run _ a => IsAck a
  | _ => True

instance (st st' : Sessions n) (e : ReadCommitted.Event n Statement) :
    Decidable (Acks st e st') := by
  cases e <;> unfold Acks <;> infer_instance

end

def ackEvent : Statement → List Runs.Event
  | .ack env ids => [⟨env, .ack ids, trivial⟩]
  | _ => []

def selects (ids : List UUID) (t : Ledger) : List UUID :=
  (t.tables.deliveries.filter (ackPredicates ids)).map Delivery.id

structure OnlyAcks (s : Session Write Point) : Prop where
  point : s.point = .ready
  log : ∀ w ∈ s.log, ∃ ks now, w = .ack ks now

section
variable {t : Ledger} {s : Session Write Point} {a : Statement} {ws : List Write} {q : Point}

theorem onlyAcks_fresh : OnlyAcks settling.fresh where
  point := rfl
  log := by simp [Program.fresh]

theorem ack_ok (ha : IsAck a) (h : settling.statement a s.point t = .ok (ws, q)) :
    ∃ env ids, a = .ack env ids ∧ s.point = .ready ∧ q = .ready ∧
      ws = [.ack (selects ids t) env.now] := by
  cases a with
  | ack env ids =>
    cases hp : s.point with
    | ready =>
      rw [hp] at h
      obtain ⟨rfl, rfl⟩ := Prod.mk.inj (Except.ok.inj h)
      exact ⟨env, ids, rfl, rfl, rfl, rfl⟩
    | working env drawn tasks =>
      rw [hp] at h
      cases h
    | forwarded env drawn data tasks =>
      rw [hp] at h
      cases h
  | sweep => cases ha
  | nack => cases ha
  | next => cases ha

theorem OnlyAcks.run (h : OnlyAcks s) (ha : IsAck a)
    (hst : settling.statement a s.point (s.log.foldl settling.apply t) = .ok (ws, q)) :
    OnlyAcks ⟨s.log ++ ws, q⟩ := by
  obtain ⟨env, ids, -, -, rfl, rfl⟩ := ack_ok ha hst
  refine ⟨rfl, fun w hw => ?_⟩
  rcases List.mem_append.mp hw with hw | hw
  · exact h.log w hw
  · exact ⟨_, _, List.mem_singleton.mp hw⟩

theorem selects_acked {log : List Write} (hlog : ∀ w ∈ log, ∃ ks now, w = Write.ack ks now)
    (t : Ledger) (ids : List UUID) :
    selects ids (log.foldl settling.apply t) =
      (t.tables.deliveries.filter (fun d => ackPredicates ids d &&
        log.all (fun w => !decide (d.id ∈ w.updates)))).map Delivery.id := by
  induction log generalizing t with
  | nil => simp [selects]
  | cons w log ih =>
    obtain ⟨ks, now, rfl⟩ := hlog w (by simp)
    rw [List.foldl_cons, ih (fun w hw => hlog w (by simp [hw]))]
    show ((update ks _ t.tables).deliveries.filter _).map _ = _
    rw [update, List.filter_map, List.map_map]
    have hid : Delivery.id ∘ setWhere (fun d => decide (d.id ∈ ks))
        (DeliveryUpdate.apply { completedAt := some (some now) }) = Delivery.id := by
      funext d
      exact setWhere_id _ d
    rw [hid]
    refine congrArg (List.map Delivery.id) (List.filter_congr fun d _ => ?_)
    have hupdates : (Write.ack ks now).updates = ks := rfl
    by_cases hd : d.id ∈ ks
    · simp [setWhere, hd, ackPredicates, DeliveryUpdate.apply, hupdates]
    · simp [setWhere, hd, hupdates]

end

theorem ack_replay {t : Ledger} {s s' mid : Session Write Point} {a : Statement} {ws : List Write}
    {q : Point} (hs : OnlyAcks s) (hmid : OnlyAcks mid) (ha : IsAck a) (hfree : NoClash s s')
    (hlog : mid.log ++ ws ⊆ s'.log)
    (hst : settling.statement a mid.point (mid.log.foldl settling.apply t) = .ok (ws, q)) :
    settling.statement a mid.point
      (mid.log.foldl settling.apply (s.log.foldl settling.apply t)) = .ok (ws, q) := by
  obtain ⟨env, ids, rfl, hpoint, rfl, rfl⟩ := ack_ok ha hst
  have hselects : selects ids (mid.log.foldl settling.apply (s.log.foldl settling.apply t)) =
      selects ids (mid.log.foldl settling.apply t) := by
    have hboth : ∀ w ∈ s.log ++ mid.log, ∃ ks now, w = Write.ack ks now := by
      intro w hw
      rcases List.mem_append.mp hw with hw | hw
      · exact hs.log w hw
      · exact hmid.log w hw
    have hapart : ∀ k ∈ selects ids (mid.log.foldl settling.apply t), ∀ w ∈ s.log,
        k ∉ w.updates := by
      intro k hk w hw hin
      have hfree' := hfree w hw _ (hlog (List.mem_append_right _ (List.mem_singleton_self _)))
      rw [Write.clash, Bool.or_eq_false_iff] at hfree'
      exact List.any_eq_false.mp hfree'.2 k hin (decide_eq_true hk)
    rw [← List.foldl_append, selects_acked hboth]
    rw [selects_acked hmid.log] at hapart ⊢
    refine congrArg (List.map Delivery.id) (List.filter_congr fun d hd => ?_)
    rw [List.all_append]
    by_cases hsel : (ackPredicates ids d &&
        mid.log.all (fun w => !decide (d.id ∈ w.updates))) = true
    · have hnone : s.log.all (fun w => !decide (d.id ∈ w.updates)) = true := by
        rw [List.all_eq_true]
        intro w hw
        have hnot := hapart d.id (List.mem_map_of_mem (List.mem_filter.mpr ⟨hd, hsel⟩)) w hw
        simpa using hnot
      rw [hnone, Bool.true_and]
    · rw [Bool.not_eq_true] at hsel
      rw [hsel, Bool.and_left_comm, hsel, Bool.and_false]
  rw [hpoint]
  show Except.ok ([Write.ack (selects ids _) env.now], Point.ready) = _
  rw [hselects]

theorem log_grows {t : Ledger} {rest : List Statement} {s s' : Session Write Point}
    (h : settling.solo t rest s = .ok s') : s.log ⊆ s'.log := by
  refine solo_keeps (J := fun r => s.log ⊆ r.log) (fun _ _ => trivial)
    (fun r a ws q hr _ _ => ?_) (List.Subset.refl _) h
  exact List.Subset.trans hr (List.subset_append_left _ _)

theorem solo_onlyAcks {t : Ledger} {as : List Statement} {s : Session Write Point}
    (has : ∀ a ∈ as, IsAck a) (h : settling.solo t as settling.fresh = .ok s) : OnlyAcks s :=
  solo_keeps has (fun _ _ _ _ hs ha hst => hs.run ha hst) onlyAcks_fresh h

theorem acks_undisturbed {n : ℕ} :
    Undisturbed settling n Acks IsAck (fun _ => True) NoClash where
  allow := fun _ _ _ _ h => h
  symm := (settled_rule (n := n)).symm
  apart := (settled_rule (n := n)).apart
  run := by
    intro st i a ws q _ hapart _ hfree _ j hj w hw w' hw'
    rcases List.mem_append.mp hw with hw | hw
    · exact hapart i j hj.symm w hw w' hw'
    · exact not_clash hfree hj hw hw'
  replay := by
    intro t as bs s s' _ has hbs hs hs' hfree
    refine solo_replay hbs (fun _ _ _ _ h ha hst => h.run ha hst) ?_ onlyAcks_fresh hs'
    intro mid a ws q rest hmid ha hst hrest
    exact ack_replay (solo_onlyAcks has hs) hmid ha hfree (log_grows hrest) hst
  keep := fun _ _ _ _ _ _ _ => trivial

theorem ack_bus {w : World} {t : Ledger} (hw : t.tables = w.db.toTables) (env : Env)
    (ids : List UUID) :
    ((Write.ack (selects ids t) env.now).apply t.tables) =
      (w.after ⟨env, .ack ids, trivial⟩).db.toTables := by
  have hafter : (w.after ⟨env, .ack ids, trivial⟩).db =
      (ackDeliveries env ids (Tx.begin w.db)).2.db :=
    after_ok (e := ⟨env, .ack ids, trivial⟩) rfl
  rw [hafter, selects, hw]
  exact update_matched w.db.sound.delivery_pk

theorem acks_bus {t : Ledger} {as : List Statement} {s s' : Session Write Point} {w : World}
    (has : ∀ a ∈ as, IsAck a) (hw : (s.log.foldl settling.apply t).tables = w.db.toTables)
    (h : settling.solo t as s = .ok s') :
    (s'.log.foldl settling.apply t).tables = (w.run (as.flatMap ackEvent)).db.toTables := by
  induction as generalizing s w with
  | nil =>
    cases h
    exact hw
  | cons a as ih =>
    rw [Program.solo] at h
    split at h
    · cases h
    · rename_i ws q hst
      obtain ⟨env, ids, rfl, -, -, rfl⟩ := ack_ok (has a (by simp)) hst
      refine ih (fun b hb => has b (by simp [hb])) (w := w.after ⟨env, .ack ids, trivial⟩) ?_ h
      rw [← ack_bus hw env ids, List.foldl_append]
      rfl

/-- Acks from any number of connections, interleaved in any way, leave the
tables that the bus leaves after the acks of the committed transactions, in the
order of their commits. -/
theorem acks_serial {n : ℕ} {st st' : Sessions n} {w : World}
    {es : List (ReadCommitted.Event n Statement)} (hst : ∀ i, st.session i = settling.fresh)
    (hw : st.committed.tables = w.db.toTables) (hrun : settling.runs Acks st es = some st') :
    st'.committed.tables =
      (w.run ((trace es).done.flatten.flatMap ackEvent)).db.toTables := by
  obtain ⟨hserial, hdone⟩ := serial_of_runs acks_undisturbed hst trivial hrun
  have hfollow : ∀ (w : World) (t : Ledger) (as : List Statement) (s : Session Write Point),
      t.tables = w.db.toTables → (∀ a ∈ as, IsAck a) →
      settling.solo t as settling.fresh = .ok s → settling.ready s.point = true →
      (s.log.foldl settling.apply t).tables =
        ((as.flatMap ackEvent).foldl World.after w).db.toTables := by
    intro w t as s hw has hsolo _
    have hfresh : (settling.fresh.log.foldl settling.apply t).tables = w.db.toTables := hw
    exact acks_bus has hfresh hsolo
  exact hserial.follows (R := fun w t => t.tables = (World.db w).toTables) hfollow hw hdone

def twoDeliveries : World := World.initial.run [
  Sample.ordersTopic 1 10,
  Sample.worker 2 20,
  Sample.publish "1" "" 3 30,
  Sample.publish "2" "" 4 40]

def connections : Sessions 2 := ⟨⟨twoDeliveries.db.toTables, []⟩, fun _ => settling.fresh⟩

def crossing : List (ReadCommitted.Event 2 Statement) := [
  .run 0 (.ack (.plain 5 0) [31]), .run 1 (.ack (.plain 6 0) [41]), .commit 1,
  .run 0 (.ack (.plain 7 0) [41]), .commit 0, .run 1 (.ack (.plain 8 0) [31, 41]), .commit 1]

theorem crossing_runs : (settling.runs Acks connections crossing).isSome := by decide +kernel

theorem acks_serial_crossing :
    ((settling.runs Acks connections crossing).get crossing_runs).committed.tables =
      (twoDeliveries.run [⟨.plain 6 0, .ack [41], trivial⟩, ⟨.plain 5 0, .ack [31], trivial⟩,
        ⟨.plain 7 0, .ack [41], trivial⟩, ⟨.plain 8 0, .ack [31, 41], trivial⟩]).db.toTables :=
  acks_serial (fun _ => rfl) rfl (Option.some_get crossing_runs).symm

end Mmmbbb.SerialAcks
