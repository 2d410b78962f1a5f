import Mmmbbb.Links
import Mmmbbb.ReadCommitted

/-!
# Publishers that run at once

The body of a publish call as the statements that it sends, at READ COMMITTED.
The delivery that a new one is linked to is read without a lock.
-/

set_option autoImplicit false

namespace Mmmbbb.Publishers
open KeyedRows Programs ReadCommitted Mmmbbb.Schema Mmmbbb.Database Mmmbbb.Delivering
open Mmmbbb.Consuming

inductive Insert
  | message (m : Message)
  | delivery (d : Delivery)

def Insert.apply (t : Tables) : Insert → Tables
  | .message m => { t with messages := t.messages ++ [m] }
  | .delivery d => { t with deliveries := t.deliveries ++ [d] }

def Insert.clash : Insert → Insert → Bool
  | .message m, .message m' => decide (m.id = m'.id)
  | .delivery d, .delivery d' => decide (d.id = d'.id)
  | _, _ => false

/-- How far a call has come: before its next message or its end, or in the
loop over the subscriptions of the topic, with the deliveries set up so far. -/
inductive Point
  | ready
  | delivering (env : Env) (m : Message) (subs : List Subscription) (dc : List DeliveryCreate)

inductive Statement
  | execute (env : Env) (p : PublishMessageParams)
  | setUp
  | save

def statement : Statement → Point → Tables → Except Error (List Insert × Point)
  | .execute env p, .ready, t => do
    let topic ← publishTopic p t
    let m := newMessage env (env.uuid 0) topic.id p
    failWhen (storedPayload env p.payload = none) .invalidPayload
    failWhen (Has Message.id m.id t.messages) .constraint
    pure ([.message m], .delivering env m (liveSubscriptions env t topic.id) [])
  | .setUp, .delivering env m (s :: subs) dc, t =>
    .ok ([], .delivering env m subs (dc ++ (deliverToSubscription env t s m).toList))
  | .save, .delivering env _ [] dc, t => do
    let rows := deliveryRows env 1 dc
    failWhen (¬ ((rows.map Delivery.id).Nodup ∧
      ∀ r ∈ rows, ¬ Has Delivery.id r.id t.deliveries)) .constraint
    pure (rows.map .delivery, .ready)
  | _, _, _ => .error .panic

def publishers : Program Statement Tables Insert Point Error where
  start := .ready
  apply := Insert.apply
  clash := Insert.clash
  statement := statement
  ready
    | .ready => true
    | .delivering .. => false

abbrev Calls (n : ℕ) := State n Tables Insert Point

theorem execute_ok {env : Env} {p : PublishMessageParams} {q q' : Point} {t : Tables}
    {ws : List Insert} (h : statement (.execute env p) q t = .ok (ws, q')) :
    ∃ topic : Topic, q = .ready ∧ ws = [.message (newMessage env (env.uuid 0) topic.id p)] ∧
      q' = .delivering env (newMessage env (env.uuid 0) topic.id p)
        (liveSubscriptions env t topic.id) [] := by
  cases q with
  | ready =>
    obtain ⟨topic, -, h⟩ := bind_ok.mp h
    obtain ⟨-, -, h⟩ := bind_ok.mp h
    obtain ⟨-, -, h⟩ := bind_ok.mp h
    obtain ⟨rfl, rfl⟩ := Prod.mk.inj (pure_ok.mp h)
    exact ⟨topic, rfl, rfl, rfl⟩
  | delivering => cases h

theorem setUp_ok {q q' : Point} {t : Tables} {ws : List Insert}
    (h : statement .setUp q t = .ok (ws, q')) :
    ∃ env m s subs dc, q = .delivering env m (s :: subs) dc ∧ ws = [] ∧
      q' = .delivering env m subs (dc ++ (deliverToSubscription env t s m).toList) := by
  cases q with
  | ready => cases h
  | delivering env m subs dc =>
    cases subs with
    | nil => cases h
    | cons s subs =>
      obtain ⟨rfl, rfl⟩ := Prod.mk.inj (Except.ok.inj h)
      exact ⟨env, m, s, subs, dc, rfl, rfl, rfl⟩

theorem save_ok {q q' : Point} {t : Tables} {ws : List Insert}
    (h : statement .save q t = .ok (ws, q')) :
    ∃ env m dc, q = .delivering env m [] dc ∧ q' = .ready ∧
      ws = (deliveryRows env 1 dc).map .delivery ∧
      ∀ r ∈ deliveryRows env 1 dc, ¬ Has Delivery.id r.id t.deliveries := by
  cases q with
  | ready => cases h
  | delivering env m subs dc =>
    cases subs with
    | cons s subs => cases h
    | nil =>
      obtain ⟨u, hu, h⟩ := bind_ok.mp h
      obtain ⟨rfl, rfl⟩ := Prod.mk.inj (pure_ok.mp h)
      exact ⟨env, m, dc, rfl, rfl, rfl, (not_not.mp (failWhen_ok.mp hu)).2⟩

def inserted (log : List Insert) : List Delivery :=
  log.filterMap (fun
    | .message _ => none
    | .delivery d => some d)

theorem inserted_append (log ws : List Insert) :
    inserted (log ++ ws) = inserted log ++ inserted ws := List.filterMap_append

@[simp] theorem inserted_rows (rows : List Delivery) :
    inserted (rows.map Insert.delivery) = rows := by
  simp [inserted, List.filterMap_map]

theorem apply_deliveries (log : List Insert) (t : Tables) :
    (log.foldl Insert.apply t).deliveries = t.deliveries ++ inserted log := by
  induction log generalizing t with
  | nil => simp [inserted]
  | cons w log ih =>
    cases w <;> simp [ih, Insert.apply, inserted]

theorem apply_subscriptions (log : List Insert) (t : Tables) :
    (log.foldl Insert.apply t).subscriptions = t.subscriptions := by
  induction log generalizing t with
  | nil => rfl
  | cons w log ih => cases w <;> simp [ih, Insert.apply]

theorem apply_messages (log : List Insert) {a b : Tables} (h : a.messages ⊆ b.messages) :
    (log.foldl Insert.apply a).messages ⊆ (log.foldl Insert.apply b).messages := by
  induction log generalizing a b with
  | nil => exact h
  | cons w log ih =>
    refine ih ?_
    cases w with
    | message m =>
      have hleft : a.messages ⊆ b.messages ++ [m] := List.Subset.trans h (by simp)
      exact List.append_subset.mpr ⟨hleft, by simp [Insert.apply]⟩
    | delivery d => exact h

theorem apply_keeps (log : List Insert) (t : Tables) :
    t.messages ⊆ (log.foldl Insert.apply t).messages := by
  induction log generalizing t with
  | nil => exact List.Subset.refl _
  | cons w log ih =>
    refine List.Subset.trans ?_ (ih _)
    cases w <;> simp [Insert.apply]

def Point.creates : Point → List DeliveryCreate
  | .ready => []
  | .delivering _ _ _ dc => dc

section
variable {env : Env} {m : Message}

theorem apply_rows (rows : List Delivery) (t : Tables) :
    (rows.map Insert.delivery).foldl Insert.apply t =
      { t with deliveries := t.deliveries ++ rows } := by
  induction rows generalizing t with
  | nil => simp
  | cons r rows ih => simp [ih, Insert.apply]

theorem solo_setUp (t : Tables) (subs : List Subscription) (dc : List DeliveryCreate)
    (log : List Insert) :
    publishers.solo t (List.replicate subs.length .setUp) ⟨log, .delivering env m subs dc⟩ =
      .ok ⟨log, .delivering env m []
        (dc ++ subs.filterMap (fun s => deliverToSubscription env (log.foldl Insert.apply t) s m))⟩ := by
  induction subs generalizing dc with
  | nil => simp [Program.solo]
  | cons s subs ih =>
    have hrest := ih (dc ++ (deliverToSubscription env (log.foldl Insert.apply t) s m).toList)
    simp only [List.length_cons, List.replicate_succ, Program.solo]
    change publishers.solo t _ ⟨log ++ [], _⟩ = _
    rw [List.append_nil]
    refine hrest.trans ?_
    cases hs : deliverToSubscription env (log.foldl Insert.apply t) s m <;> simp [hs]

def call (env : Env) (p : PublishMessageParams) (subscriptions : ℕ) : List Statement :=
  .execute env p :: (List.replicate subscriptions .setUp ++ [.save])

theorem solo_call {p : PublishMessageParams} {db : DB} {res : PublishMessageResults} {tx : Tx}
    (h : publishMessage env p (.begin db) = .ok (res, tx)) :
    ∃ k s, publishers.solo db.toTables (call env p k) publishers.fresh = .ok s ∧
      s.point = .ready ∧ s.log.foldl Insert.apply db.toTables = tx.db.toTables := by
  obtain ⟨topic, htopic, h⟩ := bind_ok.mp h
  obtain ⟨u, hpayload, h⟩ := bind_ok.mp h
  obtain ⟨db', hdb, h⟩ := bind_ok.mp h
  obtain ⟨tx', hbulk, h⟩ := bind_ok.mp h
  obtain ⟨-, rfl⟩ := Prod.mk.inj (pure_ok.mp h)
  obtain ⟨hfresh, htables⟩ := DB.insertMessage_ok hdb
  set m := newMessage env (env.uuid 0) topic.id p with hm
  set subs := liveSubscriptions env db.toTables topic.id with hsubs
  have hexecute : publishers.statement (.execute env p) publishers.fresh.point
      (publishers.fresh.log.foldl publishers.apply db.toTables) =
        .ok ([.message m], .delivering env m subs []) := by
    have htopic : publishTopic p db.toTables = .ok topic := htopic
    have hfresh : ¬ Has Message.id m.id db.messages := hfresh
    exact bind_ok.mpr ⟨topic, htopic, bind_ok.mpr ⟨u, hpayload,
      bind_ok.mpr ⟨(), failWhen_ok.mpr hfresh, rfl⟩⟩⟩
  obtain ⟨hnodup, hnew, hrows, -⟩ := createBulk_rows hbulk
  set dc := subs.filterMap (fun s => deliverToSubscription env db'.toTables s m) with hdc
  have hsetUp := @solo_setUp env m db.toTables subs [] [.message m]
  have hview : [Insert.message m].foldl Insert.apply db.toTables = db'.toTables := htables.symm
  rw [hview, List.nil_append] at hsetUp
  have hsave : publishers.statement .save (.delivering env m [] dc)
      ([Insert.message m].foldl publishers.apply db.toTables) =
        .ok ((deliveryRows env 1 dc).map .delivery, .ready) := by
    rw [show [Insert.message m].foldl publishers.apply db.toTables = db'.toTables from hview]
    exact bind_ok.mpr ⟨(), failWhen_ok.mpr (not_not.mpr ⟨hnodup, hnew⟩), rfl⟩
  refine ⟨subs.length, ⟨[.message m] ++ (deliveryRows env 1 dc).map .delivery, .ready⟩, ?_, rfl, ?_⟩
  · rw [call, solo_cons hexecute]
    change publishers.solo db.toTables _ ⟨[.message m], .delivering env m subs []⟩ = _
    rw [solo_append hsetUp, solo_cons hsave]
    rfl
  · rw [List.foldl_append, hview, apply_rows]
    exact hrows.symm

/-- A call that runs while no other is under way does what the action does. -/
theorem publish_alone {n : ℕ} {st : Calls n} {i : Fin n} {p : PublishMessageParams} {db : DB}
    {res : PublishMessageResults} {tx : Tx} (hst : ∀ j, st.session j = publishers.fresh)
    (hdb : st.committed = db.toTables) (h : publishMessage env p (.begin db) = .ok (res, tx)) :
    ∃ k, publishers.runs (fun _ _ _ => True) st
      ((call env p k).map (.run i) ++ [.commit i]) =
        some ⟨tx.db.toTables, st.session⟩ := by
  obtain ⟨k, s, hsolo, hpoint, hlog⟩ := solo_call h
  rw [← hdb] at hsolo hlog
  have hready : publishers.ready s.point = true := by
    rw [hpoint]
    rfl
  have hrun := runs_alone (i := i) hst hsolo hready
  exact ⟨k, hlog ▸ hrun⟩

end

end Mmmbbb.Publishers
