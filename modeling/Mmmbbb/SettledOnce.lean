import Mmmbbb.Runs
import Mmmbbb.Settling
import Mathlib.Data.List.Flatten

/-!
# Settled once

As long as the update that ends a dead-lettering finds its delivery still
uncompleted, every delivery is settled once: it is acknowledged, or it is
dead-lettered with one set of new deliveries.
-/

set_option autoImplicit false

namespace Mmmbbb.SettledOnce
open KeyedRows Programs ReadCommitted Mmmbbb.Schema Mmmbbb.Database Mmmbbb.Delivering
open Mmmbbb.Consuming Mmmbbb.Runs Mmmbbb.Settling

def insertions (ws : List Write) : List UUID := ws.flatMap Write.inserts

def completions (ws : List Write) : List UUID := ws.flatMap Write.completes

def forwarded (ws : List Write) : List UUID :=
  ws.filterMap (fun
    | .forward id _ => some id
    | _ => none)

def deadLettered (ws : List Write) : List UUID :=
  ws.filterMap (fun
    | .deadLetter id _ => some id
    | _ => none)

def OneEach (ws : List Write) : Prop :=
  ∀ id rows, .forward id rows ∈ ws → (rows.map Delivery.subscriptionID).Nodup

theorem deadLettered_completions (ws : List Write) :
    (deadLettered ws).Sublist (completions ws) := by
  induction ws with
  | nil => simp [deadLettered, completions]
  | cons w ws ih =>
    cases w with
    | deadLetter id now => simpa [deadLettered, completions, Write.completes] using ih
    | ack ids now =>
      simp only [deadLettered, completions, List.filterMap_cons, List.flatMap_cons] at ih ⊢
      exact ih.trans (List.sublist_append_right _ _)
    | _ => simpa [deadLettered, completions, Write.completes] using ih

def ids (t : Ledger) : List UUID := t.tables.deliveries.map Delivery.id

theorem ids_apply (t : Ledger) (w : Write) : ids (t.apply w) = ids t ++ w.inserts := by
  cases w <;> simp [ids, Ledger.apply, Write.apply, Write.inserts, update, Function.comp_def]

def seen (t : Ledger) (log : List Write) : Ledger := log.foldl Ledger.apply t

theorem ids_seen (t : Ledger) (log : List Write) : ids (seen t log) = ids t ++ insertions log := by
  induction log generalizing t with
  | nil => simp [seen, insertions]
  | cons w log ih =>
    have hrest := ih (t.apply w)
    rw [ids_apply, List.append_assoc] at hrest
    exact hrest

theorem history_seen (t : Ledger) (log : List Write) :
    (seen t log).history = t.history ++ log := by
  induction log generalizing t with
  | nil => simp [seen]
  | cons w log ih =>
    refine (ih (t.apply w)).trans ?_
    simp [Ledger.apply]

theorem subscriptions_seen (t : Ledger) (log : List Write) :
    (seen t log).tables.subscriptions = t.tables.subscriptions := by
  induction log generalizing t with
  | nil => rfl
  | cons w log ih =>
    refine (ih (t.apply w)).trans ?_
    cases w <;> rfl

theorem seen_append (t : Ledger) (log ws : List Write) :
    seen t (log ++ ws) = seen (seen t log) ws := List.foldl_append

def Completed (t : Ledger) (ks : List UUID) : Prop :=
  ∀ d ∈ t.tables.deliveries, d.id ∈ ks → d.completedAt ≠ none

theorem completed_update {t : Ledger} {ks ms : List UUID} (h : Completed t ks) (now : Time)
    (history : List Write) :
    Completed ⟨update ms { completedAt := some (some now) } t.tables, history⟩ (ks ++ ms) := by
  intro d hd hid
  obtain ⟨x, hx, rfl⟩ := List.mem_map.mp hd
  rw [setWhere_id] at hid
  by_cases hmem : x.id ∈ ms
  · simp [setWhere, hmem, DeliveryUpdate.apply]
  · have hks : x.id ∈ ks := (List.mem_append.mp hid).resolve_right hmem
    simpa [setWhere, hmem] using h x hx hks

theorem completed_apply {t : Ledger} {ks : List UUID} {w : Write} (h : Completed t ks)
    (hw : ∀ k ∈ w.inserts, k ∉ ks) : Completed (t.apply w) (ks ++ w.completes) := by
  cases w with
  | forward id rows =>
    intro d hd hid
    have hid : d.id ∈ ks := by simpa [Write.completes] using hid
    rcases List.mem_append.mp hd with hd | hd
    · exact h d hd hid
    · exact absurd hid (hw d.id (List.mem_map_of_mem hd))
  | deadLetter id now => exact completed_update h now _
  | ack ms now => exact completed_update h now _
  | reschedule id attemptAt =>
    intro d hd hid
    have hid : d.id ∈ ks := by simpa [Write.completes] using hid
    obtain ⟨x, hx, rfl⟩ := List.mem_map.mp hd
    rw [setWhere_completedAt _ _ rfl]
    rw [setWhere_id] at hid
    exact h x hx hid

def Ordered (ws : List Write) : Prop :=
  ws.Pairwise (fun w w' => ∀ k ∈ w'.inserts, k ∉ w.completes)

theorem completed_seen {t : Ledger} {ks : List UUID} {log : List Write} (h : Completed t ks)
    (hfresh : ∀ k ∈ insertions log, k ∉ ks) (hordered : Ordered log) :
    Completed (seen t log) (ks ++ completions log) := by
  induction log generalizing t ks with
  | nil => simpa [seen, completions] using h
  | cons w log ih =>
    obtain ⟨hw, hrest⟩ := List.pairwise_cons.mp hordered
    have hfirst : ∀ k ∈ w.inserts, k ∉ ks := fun k hk => hfresh k (by simp [insertions, hk])
    have hlater : ∀ k ∈ insertions log, k ∉ ks ++ w.completes := by
      intro k hk hmem
      obtain ⟨w', hw', hk'⟩ := List.mem_flatMap.mp hk
      rcases List.mem_append.mp hmem with hmem | hmem
      · refine hfresh k ?_ hmem
        simp only [insertions, List.flatMap_cons]
        exact List.mem_append_right _ hk
      · exact hw w' hw' k hk' hmem
    have hstep := ih (completed_apply h hfirst) hlater hrest
    simpa [completions, seen] using hstep

structure Sane (t : Ledger) : Prop where
  keys : (ids t).Nodup
  once : (completions t.history).Nodup
  known : ∀ k ∈ completions t.history, k ∈ ids t
  completed : Completed t (completions t.history)
  sets : OneEach t.history

structure Settled (t : Ledger) (s : Session Write Point) : Prop where
  subs : UniqueKeys Subscription.id t.tables.subscriptions
  committed : Sane t
  paired : forwarded t.history = deadLettered t.history
  view : Sane (seen t s.log)
  ordered : Ordered s.log
  owed : forwarded s.log = deadLettered s.log ++ s.point.owed

def NoClash (s s' : Session Write Point) : Prop :=
  ∀ w ∈ s.log, ∀ w' ∈ s'.log, Write.clash w w' = false

section
variable {t : Ledger} {s s' : Session Write Point} {w : Write} {ws ws' : List Write}

theorem completions_append : completions (ws ++ ws') = completions ws ++ completions ws' :=
  List.flatMap_append

theorem forwarded_append : forwarded (ws ++ ws') = forwarded ws ++ forwarded ws' :=
  List.filterMap_append

theorem deadLettered_append : deadLettered (ws ++ ws') = deadLettered ws ++ deadLettered ws' :=
  List.filterMap_append

theorem OneEach.append (h : OneEach ws) (h' : OneEach ws') : OneEach (ws ++ ws') := by
  intro id rows hmem
  rcases List.mem_append.mp hmem with hmem | hmem
  · exact h id rows hmem
  · exact h' id rows hmem

theorem Sane.apply (h : Sane t) (hinserts : w.inserts.Nodup) (hfresh : ∀ k ∈ w.inserts, k ∉ ids t)
    (hcompletes : w.completes.Nodup) (hopen : ∀ k ∈ w.completes, k ∉ completions t.history)
    (hknown : ∀ k ∈ w.completes, k ∈ ids t) (hset : OneEach [w]) : Sane (t.apply w) := by
  have hcompletions : completions (t.apply w).history = completions t.history ++ w.completes := by
    simp [Ledger.apply, completions]
  refine ⟨?_, ?_, ?_, ?_, h.sets.append hset⟩
  · rw [ids_apply]
    exact List.nodup_append.mpr ⟨h.keys, hinserts, fun a ha b hb hab => hfresh b hb (hab ▸ ha)⟩
  · rw [hcompletions]
    exact List.nodup_append.mpr ⟨h.once, hcompletes, fun a ha b hb hab => hopen b hb (hab ▸ ha)⟩
  · intro k hk
    rw [ids_apply]
    refine List.mem_append_left _ ?_
    rw [hcompletions] at hk
    rcases List.mem_append.mp hk with hk | hk
    · exact h.known k hk
    · exact hknown k hk
  · rw [hcompletions]
    exact completed_apply h.completed fun k hk hmem => hfresh k hk (h.known k hmem)

theorem Sane.open (h : Sane t) {d : Delivery} (hd : d ∈ t.tables.deliveries)
    (hc : d.completedAt = none) : d.id ∉ completions t.history :=
  fun hmem => h.completed d hd hmem hc

theorem nodup_three {α : Type} {a b c : List α} (hab : (a ++ b).Nodup) (hac : (a ++ c).Nodup)
    (hbc : ∀ x ∈ b, x ∉ c) : (a ++ b ++ c).Nodup := by
  rw [List.nodup_append] at hac ⊢
  refine ⟨hab, hac.2.1, fun x hx y hy hxy => ?_⟩
  subst hxy
  rcases List.mem_append.mp hx with hx | hx
  · exact hac.2.2 x hx x hy rfl
  · exact hbc x hx hy

theorem flatMap_apart {α β : Type} {f : α → List β} {xs ys : List α}
    (h : ∀ x ∈ xs, ∀ y ∈ ys, ∀ k ∈ f x, k ∉ f y) : ∀ k ∈ xs.flatMap f, k ∉ ys.flatMap f := by
  intro k hk hk'
  obtain ⟨x, hx, hkx⟩ := List.mem_flatMap.mp hk
  obtain ⟨y, hy, hky⟩ := List.mem_flatMap.mp hk'
  exact h x hx y hy k hkx hky

theorem NoClash.insertions (h : NoClash s s') :
    ∀ k ∈ insertions s.log, k ∉ SettledOnce.insertions s'.log := by
  refine flatMap_apart fun w hw w' hw' k hk hk' => ?_
  have hfree := h w hw w' hw'
  simp only [Write.clash, Bool.or_eq_false_iff, List.any_eq_false, decide_eq_true_eq] at hfree
  exact hfree.1 k hk hk'

theorem completes_updates {k : UUID} (h : k ∈ w.completes) : k ∈ w.updates := by
  cases w with
  | forward id rows => cases h
  | deadLetter id now => exact h
  | ack ms now => exact h
  | reschedule id attemptAt => cases h

theorem NoClash.completions (h : NoClash s s') :
    ∀ k ∈ completions s.log, k ∉ SettledOnce.completions s'.log := by
  refine flatMap_apart fun w hw w' hw' k hk hk' => ?_
  have hfree := h w hw w' hw'
  simp only [Write.clash, Bool.or_eq_false_iff, List.any_eq_false, decide_eq_true_eq] at hfree
  exact hfree.2 k (completes_updates hk) (completes_updates hk')

/-- What two transactions have each done alone, they may do one after the
other. -/
theorem Sane.commit (h : Sane (seen t s.log)) (h' : Sane (seen t s'.log)) (hordered : Ordered s'.log)
    (hfree : NoClash s s') : Sane (seen (seen t s.log) s'.log) := by
  have hkeys : (ids t ++ insertions s.log ++ insertions s'.log).Nodup := by
    have hk := h.keys
    have hk' := h'.keys
    rw [ids_seen] at hk hk'
    exact nodup_three hk hk' hfree.insertions
  have hknown : ∀ k ∈ completions t.history ++ completions s.log, k ∈ ids t ++ insertions s.log := by
    intro k hk
    rw [← ids_seen]
    refine h.known k ?_
    rwa [history_seen, completions_append]
  have hsets := h.sets
  have hsets' := h'.sets
  rw [history_seen] at hsets hsets'
  refine ⟨?_, ?_, ?_, ?_, ?_⟩
  · rw [ids_seen, ids_seen]
    exact hkeys
  · have ho := h.once
    have ho' := h'.once
    rw [history_seen, completions_append] at ho ho'
    rw [history_seen, history_seen, completions_append, completions_append]
    exact nodup_three ho ho' hfree.completions
  · intro k hk
    rw [history_seen, history_seen, completions_append, completions_append] at hk
    rw [ids_seen, ids_seen]
    rcases List.mem_append.mp hk with hk | hk
    · exact List.mem_append_left _ (hknown k hk)
    · have hk' : k ∈ ids t ++ insertions s'.log := by
        rw [← ids_seen]
        refine h'.known k ?_
        rw [history_seen, completions_append]
        exact List.mem_append_right _ hk
      simp only [List.mem_append] at hk' ⊢
      exact hk'.imp_left Or.inl
  · have hc := completed_seen h.completed (fun k hk hmem => ?_) hordered
    · rwa [history_seen (seen t s.log), completions_append]
    · rw [history_seen, completions_append] at hmem
      exact (List.nodup_append.mp hkeys).2.2 k (hknown k hmem) k hk rfl
  · rw [history_seen, history_seen]
    exact hsets.append fun id rows hmem => hsets' id rows (List.mem_append_right _ hmem)

theorem ordered_append (h : Ordered s.log) (hsane : Sane (seen t s.log))
    (hfresh : ∀ k ∈ w.inserts, k ∉ ids (seen t s.log)) : Ordered (s.log ++ [w]) := by
  refine List.pairwise_append.mpr ⟨h, List.pairwise_singleton _ _, fun w' hw' v hv k hk hmem => ?_⟩
  obtain rfl := List.mem_singleton.mp hv
  refine hfresh k hk (hsane.known k ?_)
  rw [history_seen, completions_append]
  exact List.mem_append_right _ (List.mem_flatMap.mpr ⟨w', hw', hmem⟩)

theorem Settled.read (h : Settled t s) {q : Point} (howed : q.owed = s.point.owed) :
    Settled t ⟨s.log ++ [], q⟩ := by
  rw [List.append_nil]
  exact ⟨h.subs, h.committed, h.paired, h.view, h.ordered, howed ▸ h.owed⟩

theorem Settled.write (h : Settled t s) {q : Point} (hinserts : w.inserts.Nodup)
    (hfresh : ∀ k ∈ w.inserts, k ∉ ids (seen t s.log)) (hcompletes : w.completes.Nodup)
    (hopen : ∀ k ∈ w.completes, ∃ d ∈ (seen t s.log).tables.deliveries, d.id = k ∧
      d.completedAt = none)
    (hset : OneEach [w])
    (howed : forwarded (s.log ++ [w]) = deadLettered (s.log ++ [w]) ++ q.owed) :
    Settled t ⟨s.log ++ [w], q⟩ := by
  have hclear : ∀ k ∈ w.completes, k ∉ completions (seen t s.log).history := by
    intro k hk
    obtain ⟨d, hd, rfl, hc⟩ := hopen k hk
    exact h.view.open hd hc
  have hknown : ∀ k ∈ w.completes, k ∈ ids (seen t s.log) := by
    intro k hk
    obtain ⟨d, hd, rfl, -⟩ := hopen k hk
    exact List.mem_map_of_mem hd
  refine ⟨h.subs, h.committed, h.paired, ?_, ordered_append h.ordered h.view hfresh, howed⟩
  rw [seen_append]
  exact h.view.apply hinserts hfresh hcompletes hclear hknown hset

theorem Settled.fresh (h : Settled t s) : Settled t settling.fresh :=
  ⟨h.subs, h.committed, h.paired, h.committed, List.Pairwise.nil, rfl⟩

theorem Settled.commit (h : Settled t s) (h' : Settled t s') (hfree : NoClash s s')
    (hready : s.point.owed = []) : Settled (seen t s.log) s' := by
  refine ⟨?_, h.view, ?_, h.view.commit h'.view h'.ordered hfree, h'.ordered, h'.owed⟩
  · rw [subscriptions_seen]
    exact h.subs
  · have howed := h.owed
    rw [hready, List.append_nil] at howed
    rw [history_seen, forwarded_append, deadLettered_append, h.paired, howed]

theorem forwardRows_once {env : Env} {drawn : ℕ} {data : DeadLetterData} {t : Tables}
    {rows : List Delivery} (hsubs : UniqueKeys Subscription.id t.subscriptions)
    (h : forwardRows env drawn data t = .ok rows) : (rows.map Delivery.subscriptionID).Nodup := by
  unfold forwardRows at h
  split at h
  · cases h
    simp
  · rename_i dlTopic htopic
    dsimp only at h
    split at h
    · cases h
      simp
    · split at h
      · cases h
      · rename_i m hm
        cases h
        have honce : ((liveSubscriptions env t dlTopic.id).map Subscription.id).Nodup :=
          liveSubscriptions_nodup hsubs
        have hkeys := filterMap_keys Subscription.id DeliveryCreate.subscriptionID
          (f := fun s => deliverToSubscription env t s m) (fun s c hc => ?_)
          (liveSubscriptions env t dlTopic.id)
        · rw [deliveryRows_subscriptions]
          exact honce.sublist hkeys
        · rw [← (deliverToSubscription_some.mp hc).2]
          rfl

end

section
variable {n : ℕ}

def completing (st : Sessions n) : Event n Statement → Option (Fin n × UUID)
  | .run i .next =>
    match (st.session i).point with
    | .forwarded _ _ data _ => some (i, data.deliveryID)
    | _ => none
  | _ => none

/-- The update that ends a dead-lettering finds the delivery uncompleted. -/
def StillOpen (st : Sessions n) (e : Event n Statement) (_ : Sessions n) : Prop :=
  ∀ x ∈ completing st e, ∀ d ∈ (settling.view st x.1).tables.deliveries, d.id = x.2 →
    d.completedAt = none

instance (st st' : Sessions n) (e : Event n Statement) : Decidable (StillOpen st e st') :=
  inferInstanceAs (Decidable (∀ x ∈ completing st e, _))

structure Starts (t : Ledger) : Prop where
  subs : UniqueKeys Subscription.id t.tables.subscriptions
  keys : UniqueKeys Delivery.id t.tables.deliveries
  history : t.history = []

theorem settled_start {t : Ledger} (h : Starts t) : Settled t settling.fresh := by
  have hsane : Sane t := by
    refine ⟨h.keys, ?_, ?_, ?_, ?_⟩ <;> simp [h.history, completions, Completed, OneEach]
  refine ⟨h.subs, hsane, ?_, hsane, List.Pairwise.nil, rfl⟩
  simp [h.history, forwarded, deadLettered]

theorem settled_run {st : Sessions n} {i : Fin n} {a : Statement} {ws : List Write} {q : Point}
    (h : Settled st.committed (st.session i))
    (hdoes : Does (seen st.committed (st.session i).log) a (st.session i).point ws q)
    (hopen : StillOpen st (.run i a) (st.set i ⟨(st.session i).log ++ ws, q⟩)) :
    Settled st.committed ⟨(st.session i).log ++ ws, q⟩ := by
  have howed := h.owed
  generalize hp : (st.session i).point = p at hdoes howed
  cases hdoes with
  | sweep => exact h.read (by rw [hp]; rfl)
  | nack => exact h.read (by rw [hp]; rfl)
  | finish => exact h.read (by rw [hp]; rfl)
  | @ack env ms =>
    have hkeys : UniqueKeys Delivery.id (seen st.committed (st.session i).log).tables.deliveries :=
      h.view.keys
    refine h.write List.nodup_nil (fun k hk => by cases hk) (hkeys.filter _) ?_
      (fun id rows hmem => by simp at hmem) ?_
    · intro k hk
      obtain ⟨d, hd, rfl⟩ := List.mem_map.mp hk
      obtain ⟨hd, hmatch⟩ := List.mem_filter.mp hd
      simp only [ackPredicates, Bool.and_eq_true, Option.isNone_iff_eq_none] at hmatch
      exact ⟨d, hd, rfl, hmatch.2⟩
    · rw [forwarded_append, deadLettered_append, howed]
      simp [forwarded, deadLettered, Point.owed]
  | @forward env drawn data tasks rows hrows hnodup hfresh =>
    refine h.write hnodup ?_ List.nodup_nil (fun k hk => by cases hk) ?_ ?_
    · intro k hk hmem
      obtain ⟨r, hr, rfl⟩ := List.mem_map.mp hk
      exact hfresh r hr (List.mem_map.mp hmem)
    · intro id rows' hmem
      obtain ⟨rfl, rfl⟩ := Write.forward.inj (List.mem_singleton.mp hmem)
      refine forwardRows_once ?_ hrows
      rw [subscriptions_seen]
      exact h.subs
    · rw [forwarded_append, deadLettered_append, howed]
      simp [forwarded, deadLettered, Point.owed]
  | @complete env drawn data tasks hhas =>
    refine h.write List.nodup_nil (fun k hk => by cases hk) (List.nodup_singleton _) ?_
      (fun id rows hmem => by simp at hmem) ?_
    · intro k hk
      obtain rfl := List.mem_singleton.mp hk
      obtain ⟨d, hd, hid⟩ := hhas
      have hread : (i, data.deliveryID) ∈ completing st (.run i .next) := by simp [completing, hp]
      exact ⟨d, hd, hid, hopen _ hread d hd hid⟩
    · rw [forwarded_append, deadLettered_append, howed]
      simp [forwarded, deadLettered, Point.owed]
  | @reschedule env drawn id attemptAt tasks hhas =>
    refine h.write List.nodup_nil (fun k hk => by cases hk) List.nodup_nil
      (fun k hk => by cases hk) (fun id rows hmem => by simp at hmem) ?_
    rw [forwarded_append, deadLettered_append, howed]
    simp [forwarded, deadLettered, Point.owed]

theorem settled_rule : Rule n settling StillOpen Settled NoClash where
  symm := fun s s' h w hw w' hw' => by
    have hfree := h w' hw' w hw
    simp only [Write.clash, Bool.or_eq_false_iff, List.any_eq_false, decide_eq_true_eq] at hfree ⊢
    exact ⟨fun k hk hk' => hfree.1 k hk' hk, fun k hk hk' => hfree.2 k hk' hk⟩
  fresh := fun _ _ h => h.fresh
  apart := fun s w hw => by cases hw
  commit := fun t s s' h h' hfree hready => by
    refine h.commit h' hfree ?_
    cases hp : s.point with
    | ready => rfl
    | working env drawn tasks => rfl
    | forwarded env drawn data tasks =>
      rw [hp] at hready
      cases hready
  run := by
    intro st i a ws q hall hapart hst hfree hopen
    have h := hall i
    have hfrees : ∀ j, j ≠ i → NoClash ⟨(st.session i).log ++ ws, q⟩ (st.session j) := by
      intro j hj w hw w' hw'
      rcases List.mem_append.mp hw with hw | hw
      · exact hapart i j hj.symm w hw w' hw'
      · exact not_clash hfree hj hw hw'
    refine ⟨?_, hfrees⟩
    have hdoes : Does (seen st.committed (st.session i).log) a (st.session i).point ws q :=
      statement_does hst
    exact settled_run h hdoes hopen

/-- Over every interleaving in which no dead-lettering completes what has been
completed meanwhile, a delivery is forwarded once at most, with one new
delivery for each subscription of the dead-letter topic, and never
dead-lettered after it has been acknowledged. -/
theorem settled_once {st : Sessions n}
    (h : ((settling.system n Starts).within StillOpen).Reachable st) :
    (forwarded st.committed.history).Nodup ∧ OneEach st.committed.history ∧
      ∀ ms now id now', id ∈ ms →
        ¬ Before (.ack ms now) (.deadLetter id now') st.committed.history := by
  have hsettled := (settled_rule.reachable (fun _ => settled_start) h).committed
  refine ⟨?_, hsettled.committed.sets, fun ms now id now' hid hbefore => ?_⟩
  · rw [hsettled.paired]
    exact hsettled.committed.once.sublist (deadLettered_completions _)
  · have hsub : (completions [.ack ms now, .deadLetter id now']).Sublist
        (completions st.committed.history) := hbefore.flatMap _
    have hnodup := hsettled.committed.once.sublist hsub
    have hdistinct : (ms ++ [id]).Nodup := by simpa [completions, Write.completes] using hnodup
    exact (List.nodup_append.mp hdistinct).2.2 id hid id (by simp) rfl

end

def spentDB : DB := (World.initial.run [
  Sample.ordersTopic 1 10,
  Sample.failedTopic 2 20,
  Sample.failingWorker 3 30,
  ⟨.plain 4 40, .createSubscription ⟨"failed", "graveyard", hour, hour, false, [], "", 0, 0, "", 0,
    ""⟩, by decide⟩,
  Sample.publish "" "" 5 50,
  Sample.getSmallest 6 60]).db

def spent : Sessions 2 := ⟨⟨spentDB.toTables, []⟩, fun _ => settling.fresh⟩

theorem spent_init : (settling.system 2 Starts).init spent :=
  ⟨⟨spentDB.sound.subscription_pk, spentDB.sound.delivery_pk, rfl⟩, fun _ => rfl⟩

def oneByOne : List (Event 2 Statement) := [
  .run 0 (.sweep (.plain minute 70) 10), .run 0 .next, .run 0 .next, .run 0 .next, .commit 0,
  .run 1 (.ack (.plain minute 80) [51]), .commit 1]

theorem oneByOne_runs : (settling.runs StillOpen spent oneByOne).isSome := by decide +kernel

def afterOneByOne : Sessions 2 := (settling.runs StillOpen spent oneByOne).get oneByOne_runs

theorem settled_once_oneByOne : forwarded afterOneByOne.committed.history = [51] ∧
    (forwarded afterOneByOne.committed.history).Nodup ∧
    OneEach afterOneByOne.committed.history ∧ ∀ ms now id now', id ∈ ms →
      ¬ Before (.ack ms now) (.deadLetter id now') afterOneByOne.committed.history :=
  ⟨by decide +kernel,
    settled_once (runs_reachable (.start spent_init) (Option.some_get oneByOne_runs).symm)⟩

abbrev AnyOrder {n : ℕ} (_ : Sessions n) (_ : Event n Statement) (_ : Sessions n) : Prop := True

def twoSweeps : List (Event 2 Statement) := [
  .run 0 (.sweep (.plain minute 70) 10), .run 1 (.sweep (.plain minute 80) 10), .run 0 .next,
  .run 0 .next, .run 0 .next, .commit 0, .run 1 .next, .run 1 .next, .run 1 .next, .commit 1]

def sweepAndAck : List (Event 2 Statement) := [
  .run 0 (.sweep (.plain minute 70) 10), .run 1 (.ack (.plain minute 80) [51]), .commit 1,
  .run 0 .next, .run 0 .next, .run 0 .next, .commit 0]

theorem twoSweeps_runs : (settling.runs AnyOrder spent twoSweeps).isSome := by decide +kernel

theorem sweepAndAck_runs : (settling.runs AnyOrder spent sweepAndAck).isSome := by decide +kernel

/-- Two sweeps may both forward a delivery, and an acknowledged delivery may be
dead-lettered. -/
theorem settled_twice :
    (¬ ∀ st : Sessions 2, ((settling.system 2 Starts).within AnyOrder).Reachable st →
      (forwarded st.committed.history).Nodup) ∧
    ¬ ∀ st : Sessions 2, ((settling.system 2 Starts).within AnyOrder).Reachable st →
      ∀ ms now id now', id ∈ ms →
        ¬ Before (.ack ms now) (.deadLetter id now') st.committed.history := by
  constructor
  · intro h
    have hreach := h _ (runs_reachable (.start spent_init) (Option.some_get twoSweeps_runs).symm)
    exact absurd hreach (by decide +kernel)
  · intro h
    refine h _ (runs_reachable (.start spent_init) (Option.some_get sweepAndAck_runs).symm) [51]
      minute 51 minute (by simp) ?_
    rw [Before, ← List.isSublist_iff_sublist]
    decide +kernel

end Mmmbbb.SettledOnce
