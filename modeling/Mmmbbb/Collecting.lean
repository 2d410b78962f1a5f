import Mmmbbb.Changes
import Mmmbbb.Exhaustion

/-!
# Collecting garbage

The services that prune run in the background, each at its own pace. Whatever
the order in which they take turns, they come to a point at which nothing that
could be pruned is left.
-/

set_option autoImplicit false

namespace Mmmbbb.Collecting
open KeyedRows Programs Exhaustion Mmmbbb.Schema Mmmbbb.Database Mmmbbb.Delivering
open Mmmbbb.Administering Mmmbbb.Pruning Mmmbbb.Runs

inductive Service
  | pruneCompletedDeliveries
  | pruneExpiredDeliveries
  | pruneCompletedMessages
  | pruneDeletedSubscriptionDeliveries
  | pruneDeletedSubscriptions
  | pruneDeletedTopics
  | deleteExpiredSubscriptions
  deriving DecidableEq, Repr

def Service.action (p : PruneCommonParams) : Service → Runs.Action
  | .pruneCompletedDeliveries => .pruneCompletedDeliveries p
  | .pruneExpiredDeliveries => .pruneExpiredDeliveries p
  | .pruneCompletedMessages => .pruneCompletedMessages p
  | .pruneDeletedSubscriptionDeliveries => .pruneDeletedSubscriptionDeliveries p
  | .pruneDeletedSubscriptions => .pruneDeletedSubscriptions p
  | .pruneDeletedTopics => .pruneDeletedTopics p
  | .deleteExpiredSubscriptions => .deleteExpiredSubscriptions p

def Aged (now : Time) (minAge : Duration) (o : Option Time) : Prop :=
  ∃ t, o = some t ∧ t ≤ now - minAge

theorem agedBy_iff {env : Env} {minAge : Duration} {o : Option Time} :
    agedBy env minAge o = true ↔ Aged env.now minAge o := by
  cases o <;> simp [agedBy, Aged]

theorem Aged.mono {now now' : Time} {minAge : Duration} {o : Option Time} (h : Aged now minAge o)
    (hle : now ≤ now') : Aged now' minAge o := by
  obtain ⟨t, ht, hage⟩ := h
  exact ⟨t, ht, by linarith⟩

def Abandoned (now : Time) (minAge : Duration) (t : Tables) (r : Topic) : Prop :=
  Aged now minAge r.deletedAt ∧ ∀ s ∈ t.subscriptions, s.topicID ≠ r.id

def Held (t : Tables) (r : Topic) : Prop :=
  (∃ m ∈ t.messages, m.topicID = r.id) ∨ ∃ s ∈ t.snapshots, s.topicID = r.id

def Service.Done (now : Time) (minAge : Duration) (t : Tables) : Service → Prop
  | .pruneCompletedDeliveries => ∀ d ∈ t.deliveries, ¬ Aged now minAge d.completedAt
  | .pruneExpiredDeliveries => ∀ d ∈ t.deliveries, now ≤ d.expiresAt
  | .pruneCompletedMessages => ∀ m ∈ t.messages, m.publishedAt ≤ now - minAge →
      ∃ d ∈ t.deliveries, d.messageID = m.id
  | .pruneDeletedSubscriptionDeliveries => ∀ d ∈ t.deliveries, ∀ s ∈ t.subscriptions,
      s.id = d.subscriptionID → ¬ Aged now minAge s.deletedAt
  | .pruneDeletedSubscriptions => ∀ s ∈ t.subscriptions, Aged now minAge s.deletedAt →
      ∃ d ∈ t.deliveries, d.subscriptionID = s.id
  | .pruneDeletedTopics => (∃ r ∈ t.topics, Abandoned now minAge t r) →
      ∃ r ∈ t.topics, r.deletedAt ≠ none ∧ Held t r
  | .deleteExpiredSubscriptions => ∀ s ∈ t.subscriptions, s.deletedAt = none → now ≤ s.expiresAt

/-- Nothing is left to collect; only a deleted topic that is still referred to
may keep the deleted topics from being pruned. -/
structure Clean (now : Time) (minAge : Duration) (t : Tables) : Prop where
  completed : ∀ d ∈ t.deliveries, ¬ Aged now minAge d.completedAt
  expired : ∀ d ∈ t.deliveries, now ≤ d.expiresAt
  messages : ∀ m ∈ t.messages, m.publishedAt ≤ now - minAge → ∃ d ∈ t.deliveries, d.messageID = m.id
  subscriptions : ∀ s ∈ t.subscriptions, ¬ Aged now minAge s.deletedAt
  live : ∀ s ∈ t.subscriptions, s.deletedAt = none → now ≤ s.expiresAt
  topics : (∃ r ∈ t.topics, Abandoned now minAge t r) →
    ∃ r ∈ t.topics, r.deletedAt ≠ none ∧ Held t r

theorem Service.Done.earlier {now now' : Time} {minAge : Duration} {t : Tables} {s : Service}
    (h : s.Done now' minAge t) (hle : now ≤ now') : s.Done now minAge t := by
  cases s with
  | pruneCompletedDeliveries => exact fun d hd ha => h d hd (ha.mono hle)
  | pruneExpiredDeliveries => exact fun d hd => hle.trans (h d hd)
  | pruneCompletedMessages => exact fun m hm ha => h m hm (by linarith)
  | pruneDeletedSubscriptionDeliveries =>
    exact fun d hd s hs hid ha => h d hd s hs hid (ha.mono hle)
  | pruneDeletedSubscriptions => exact fun s hs ha => h s hs (ha.mono hle)
  | pruneDeletedTopics => exact fun ⟨r, hr, ha, hs⟩ => h ⟨r, hr, ha.mono hle, hs⟩
  | deleteExpiredSubscriptions => exact fun s hs hl => hle.trans (h s hs hl)

theorem clean_of_done {now : Time} {minAge : Duration} {t : Tables}
    (h : ∀ s : Service, s.Done now minAge t) : Clean now minAge t where
  completed := h .pruneCompletedDeliveries
  expired := h .pruneExpiredDeliveries
  messages := h .pruneCompletedMessages
  subscriptions := by
    intro s hs ha
    obtain ⟨d, hd, hid⟩ := h .pruneDeletedSubscriptions s hs ha
    exact h .pruneDeletedSubscriptionDeliveries d hd s hs hid.symm ha
  live := h .deleteExpiredSubscriptions
  topics := h .pruneDeletedTopics

def committed (db : DB) (e : Event) : DB := ((⟨db, 0, []⟩ : World).after e).db

theorem committed_after (w : World) (e : Event) : committed w.db e = (w.after e).db := by
  unfold committed World.after
  cases exec e.env e.action (Tx.begin w.db) <;> rfl

theorem committed_run (w : World) (es : List Event) : es.foldl committed w.db = (w.run es).db := by
  induction es generalizing w with
  | nil => rfl
  | cons e es ih =>
    rw [List.foldl_cons, committed_after]
    exact ih (w.after e)

/-- All rows, and the subscriptions that are live once more. -/
def size (db : DB) : ℕ :=
  db.deliveries.length + db.messages.length + db.topics.length + db.subscriptions.length +
    db.subscriptions.countP (fun s => s.deletedAt.isNone)

section
variable {α : Type} {key : α → UUID} {scan : ScanOrder α} {p : α → Bool} {n : ℕ} {rows : List α}

theorem selectIDs_nil (hn : 0 < n) (h : selectIDs key scan p n rows = []) :
    ∀ r ∈ rows, p r = false := by
  rw [selectIDs, List.map_eq_nil_iff, List.take_eq_nil_iff] at h
  have hempty : scan.run (rows.filter p) = [] := h.resolve_left (by omega)
  intro r hr
  by_contra hp
  have hmem : r ∈ scan.run (rows.filter p) := by
    rw [ScanOrder.mem_run, List.mem_filter]
    exact ⟨hr, by simpa using hp⟩
  rw [hempty] at hmem
  cases hmem

theorem selectIDs_shorter (h : selectIDs key scan p n rows ≠ []) :
    (rows.filter (fun r => !decide (key r ∈ selectIDs key scan p n rows))).length <
      rows.length := by
  obtain ⟨k, hk⟩ := List.exists_mem_of_ne_nil _ h
  obtain ⟨r, hr, -, hkey⟩ := selectIDs_mem hk
  refine List.length_filter_lt_length_iff_exists.mpr ⟨r, hr, ?_⟩
  simp [hkey, hk]

end

theorem countP_lt {α : Type} {p q : α → Bool} {rows : List α} {r : α}
    (hpq : ∀ x ∈ rows, p x = true → q x = true) (hr : r ∈ rows) (hp : p r = false)
    (hq : q r = true) : rows.countP p < rows.countP q := by
  have hfilter : rows.filter p = (rows.filter q).filter p := by
    rw [List.filter_filter]
    refine List.filter_congr fun x hx => ?_
    cases hpx : p x with
    | false => rfl
    | true => simp [hpq x hx hpx]
  rw [List.countP_eq_length_filter, List.countP_eq_length_filter, hfilter]
  exact List.length_filter_lt_length_iff_exists.mpr
    ⟨r, List.mem_filter.mpr ⟨hr, hq⟩, by simp [hp]⟩

section
variable {db : DB} {e : Event} {p : PruneCommonParams}

theorem committed_ok {given : List Consuming.SubscriptionMessageDelivery} {tx : Tx}
    (h : exec e.env e.action (Tx.begin db) = .ok (given, tx)) : committed db e = tx.db :=
  after_ok (w := ⟨db, 0, []⟩) h

theorem committed_failed {x : Error} (h : exec e.env e.action (Tx.begin db) = .error x) :
    committed db e = db :=
  after_failed (w := ⟨db, 0, []⟩) h

theorem deleteDeliveries_works {scan : ScanOrder Delivery} {q : Delivery → Bool} {n : ℕ}
    (hn : 0 < n) :
    (∀ d ∈ db.deliveries, q d = false) ∧
        db.deleteDeliveries (fun d => decide (d.id ∈
          selectIDs Delivery.id scan q n db.deliveries)) = db ∨
      size (db.deleteDeliveries (fun d => decide (d.id ∈
        selectIDs Delivery.id scan q n db.deliveries))) < size db := by
  by_cases hnil : selectIDs Delivery.id scan q n db.deliveries = []
  · refine Or.inl ⟨selectIDs_nil hn hnil, DB.ext' ?_⟩
    have hfilter : ∀ o : Option UUID, o.filter (fun _ => true) = o := fun o => by cases o <;> rfl
    have hforget : ∀ d : Delivery, Delivery.forget [] d = d := by
      intro d
      simp [Delivery.forget, hfilter]
    have hmap : db.deliveries.map (Delivery.forget []) = db.deliveries := by
      rw [List.map_congr_left fun d _ => hforget d, List.map_id']
    simp [DB.deleteDeliveries, deliveriesWithout, hnil, hmap]
  · refine Or.inr ?_
    have hshort := selectIDs_shorter hnil
    have hlen : (deliveriesWithout (fun d => decide (d.id ∈
        selectIDs Delivery.id scan q n db.deliveries)) db.deliveries).length <
          db.deliveries.length := by
      rwa [deliveriesWithout, List.length_map]
    simp only [size, DB.deleteDeliveries]
    omega

def Idle (p : PruneCommonParams) (db : DB) (e : Event) : Prop :=
  ∃ s : Service, e.action = s.action p ∧ s.Done e.env.now p.minAge db.toTables

theorem works_of {s : Service} (h : e.action = s.action p)
    (hworks : s.Done e.env.now p.minAge db.toTables ∧ committed db e = db ∨
      size (committed db e) < size db) : Works committed size (Idle p) db e :=
  hworks.imp_left fun ⟨hdone, heq⟩ => ⟨⟨s, h, hdone⟩, heq⟩

theorem completedDeliveries_works (hp : p.Valid) (h : e.action = .pruneCompletedDeliveries p) :
    Works committed size (Idle p) db e := by
  have hcommitted : committed db e = db.deleteDeliveries (fun d => decide (d.id ∈
      selectIDs Delivery.id e.env.deliveries (fun d => agedBy e.env p.minAge d.completedAt)
        p.maxDelete db.deliveries)) := by
    have hexec : exec e.env e.action (Tx.begin db) =
        .ok ([], (pruneCompletedDeliveries e.env p (Tx.begin db)).2) := by
      rw [h]
      rfl
    rw [committed_ok hexec]
    rfl
  refine works_of (s := .pruneCompletedDeliveries) h ?_
  rw [hcommitted]
  refine (deleteDeliveries_works hp.2).imp_left fun ⟨hnone, heq⟩ => ⟨fun d hd ha => ?_, heq⟩
  have hnot := hnone d hd
  rw [agedBy_iff.mpr ha] at hnot
  cases hnot

theorem expiredDeliveries_works (hp : p.Valid) (h : e.action = .pruneExpiredDeliveries p) :
    Works committed size (Idle p) db e := by
  have hcommitted : committed db e = db.deleteDeliveries (fun d => decide (d.id ∈
      selectIDs Delivery.id e.env.deliveries (fun d => decide (d.expiresAt < e.env.now))
        p.maxDelete db.deliveries)) := by
    have hexec : exec e.env e.action (Tx.begin db) =
        .ok ([], (pruneExpiredDeliveries e.env p (Tx.begin db)).2) := by
      rw [h]
      rfl
    rw [committed_ok hexec]
    rfl
  refine works_of (s := .pruneExpiredDeliveries) h ?_
  rw [hcommitted]
  refine (deleteDeliveries_works hp.2).imp_left fun ⟨hnone, heq⟩ => ⟨fun d hd => ?_, heq⟩
  have hnot := hnone d hd
  rw [decide_eq_false_iff_not, not_lt] at hnot
  exact hnot

theorem subscriptionDeliveries_works (hp : p.Valid)
    (h : e.action = .pruneDeletedSubscriptionDeliveries p) :
    Works committed size (Idle p) db e := by
  have hcommitted : committed db e = db.deleteDeliveries (fun d => decide (d.id ∈
      selectIDs Delivery.id e.env.deliveries (fun d =>
        db.subscriptions.any (fun s => decide (s.id = d.subscriptionID) &&
          agedBy e.env p.minAge s.deletedAt)) p.maxDelete db.deliveries)) := by
    have hexec : exec e.env e.action (Tx.begin db) =
        .ok ([], (pruneDeletedSubscriptionDeliveries e.env p (Tx.begin db)).2) := by
      rw [h]
      rfl
    rw [committed_ok hexec]
    rfl
  refine works_of (s := .pruneDeletedSubscriptionDeliveries) h ?_
  rw [hcommitted]
  refine (deleteDeliveries_works hp.2).imp_left fun ⟨hnone, heq⟩ =>
    ⟨fun d hd s hs hid ha => ?_, heq⟩
  have hnot := hnone d hd
  rw [List.any_eq_false] at hnot
  exact hnot s hs (by simp [hid, agedBy_iff.mpr ha])

theorem completedMessages_works (hp : p.Valid) (h : e.action = .pruneCompletedMessages p) :
    Works committed size (Idle p) db e := by
  generalize hids : selectIDs Message.id e.env.messages (fun m =>
    decide (m.publishedAt ≤ e.env.now - p.minAge) &&
      db.deliveries.all (fun d => decide (d.messageID ≠ m.id))) p.maxDelete db.messages = ids
  have hfree : ∀ d ∈ db.deliveries, ∀ r ∈ db.messages, r.id = d.messageID →
      decide (r.id ∈ ids) = false := by
    intro d hd r _ hid
    rw [decide_eq_false_iff_not, ← hids]
    intro hmem
    obtain ⟨m, -, hm, hmid⟩ := selectIDs_mem hmem
    simp only [Bool.and_eq_true, List.all_eq_true, decide_eq_true_eq] at hm
    exact hm.2 d hd (by rw [hmid, hid])
  have hdelete : db.deleteMessages (fun m => decide (m.id ∈ ids)) =
      .ok ⟨_, deleteMessages_sound db.sound _ hfree⟩ := dif_pos hfree
  have hcommitted : (committed db e).toTables =
      { db.toTables with messages := db.messages.filter (fun m => !decide (m.id ∈ ids)) } := by
    have hexec : exec e.env e.action (Tx.begin db) =
        .ok ([], ⟨⟨_, deleteMessages_sound db.sound _ hfree⟩, 0, []⟩) := by
      rw [h]
      simp only [exec, pruneCompletedMessages, Tx.begin, hids, hdelete]
      rfl
    rw [committed_ok hexec]
  refine works_of (s := .pruneCompletedMessages) h ?_
  by_cases hnil : ids = []
  · refine Or.inl ⟨fun m hm ha => ?_, DB.ext' ?_⟩
    · have hnot := selectIDs_nil hp.2 (hids.trans hnil) m hm
      simp only [ha, decide_true, Bool.true_and, List.all_eq_false, decide_eq_true_eq,
        not_not] at hnot
      exact hnot
    · rw [hcommitted, hnil]
      simp
  · refine Or.inr ?_
    have hshort : (db.messages.filter (fun m => !decide (m.id ∈ ids))).length <
        db.messages.length := by
      rw [← hids] at hnil ⊢
      exact selectIDs_shorter hnil
    simp only [size, hcommitted]
    omega

theorem deletedSubscriptions_works (hp : p.Valid) (h : e.action = .pruneDeletedSubscriptions p) :
    Works committed size (Idle p) db e := by
  generalize hids : selectIDs Subscription.id e.env.subscriptions (fun s =>
    agedBy e.env p.minAge s.deletedAt &&
      db.deliveries.all (fun d => decide (d.subscriptionID ≠ s.id))) p.maxDelete
    db.subscriptions = ids
  have hfree : ∀ d ∈ db.deliveries, ∀ r ∈ db.subscriptions, r.id = d.subscriptionID →
      decide (r.id ∈ ids) = false := by
    intro d hd r _ hid
    rw [decide_eq_false_iff_not, ← hids]
    intro hmem
    obtain ⟨s, -, hs, hsid⟩ := selectIDs_mem hmem
    simp only [Bool.and_eq_true, List.all_eq_true, decide_eq_true_eq] at hs
    exact hs.2 d hd (by rw [hsid, hid])
  have hdelete : db.deleteSubscriptions (fun s => decide (s.id ∈ ids)) =
      .ok ⟨_, deleteSubscriptions_sound db.sound _ hfree⟩ := dif_pos hfree
  have hcommitted : (committed db e).toTables = { db.toTables with
      subscriptions := db.subscriptions.filter (fun s => !decide (s.id ∈ ids)) } := by
    have hexec : exec e.env e.action (Tx.begin db) =
        .ok ([], ⟨⟨_, deleteSubscriptions_sound db.sound _ hfree⟩, 0, []⟩) := by
      rw [h]
      simp only [exec, pruneDeletedSubscriptions, Tx.begin, hids, hdelete]
      rfl
    rw [committed_ok hexec]
  refine works_of (s := .pruneDeletedSubscriptions) h ?_
  by_cases hnil : ids = []
  · refine Or.inl ⟨fun s hs ha => ?_, DB.ext' ?_⟩
    · have hnot := selectIDs_nil hp.2 (hids.trans hnil) s hs
      simp only [agedBy_iff.mpr ha, Bool.true_and, List.all_eq_false, decide_eq_true_eq,
        not_not] at hnot
      exact hnot
    · rw [hcommitted, hnil]
      simp
  · refine Or.inr ?_
    have hshort : (db.subscriptions.filter (fun s => !decide (s.id ∈ ids))).length <
        db.subscriptions.length := by
      rw [← hids] at hnil ⊢
      exact selectIDs_shorter hnil
    have hlive : (db.subscriptions.filter (fun s => !decide (s.id ∈ ids))).countP
        (fun s => s.deletedAt.isNone) ≤ db.subscriptions.countP (fun s => s.deletedAt.isNone) :=
      List.Sublist.countP_le List.filter_sublist
    simp only [size, hcommitted]
    omega

theorem deletedTopics_works (hp : p.Valid) (h : e.action = .pruneDeletedTopics p) :
    Works committed size (Idle p) db e := by
  generalize hids : selectIDs Topic.id e.env.topics (fun t =>
    agedBy e.env p.minAge t.deletedAt &&
      db.subscriptions.all (fun s => decide (s.topicID ≠ t.id))) p.maxDelete db.topics = ids
  have hselected : ∀ r ∈ db.topics, r.id ∈ ids → Abandoned e.env.now p.minAge db.toTables r := by
    intro r hr hmem
    rw [← hids] at hmem
    obtain ⟨x, hx, hsel, hid⟩ := selectIDs_mem hmem
    simp only [Bool.and_eq_true, List.all_eq_true, decide_eq_true_eq] at hsel
    have hsame : x = r := db.sound.topic_pk.eq hx hr hid
    rw [hsame] at hsel
    exact ⟨agedBy_iff.mp hsel.1, hsel.2⟩
  refine works_of (s := .pruneDeletedTopics) h ?_
  cases hdelete : db.deleteTopics (fun t => decide (t.id ∈ ids)) with
  | error x =>
    have hexec : exec e.env e.action (Tx.begin db) = .error x := by
      rw [h]
      simp only [exec, pruneDeletedTopics, Tx.begin, hids, hdelete]
      rfl
    refine Or.inl ⟨fun _ => ?_, committed_failed hexec⟩
    unfold DB.deleteTopics at hdelete
    split at hdelete
    · cases hdelete
    · rename_i hrefs
      by_contra hnone
      refine hrefs ⟨fun s hs r hr hid => ?_, fun m hm r hr hid => ?_, fun s hs r hr hid => ?_⟩
      · rw [decide_eq_false_iff_not]
        exact fun hmem => (hselected r hr hmem).2 s hs hid.symm
      · rw [decide_eq_false_iff_not]
        intro hmem
        obtain ⟨t, ht, -⟩ := (hselected r hr hmem).1
        exact hnone ⟨r, hr, by simp [ht], Or.inl ⟨m, hm, hid.symm⟩⟩
      · rw [decide_eq_false_iff_not]
        intro hmem
        obtain ⟨t, ht, -⟩ := (hselected r hr hmem).1
        exact hnone ⟨r, hr, by simp [ht], Or.inr ⟨s, hs, hid.symm⟩⟩
  | ok db' =>
    have hexec : exec e.env e.action (Tx.begin db) = .ok ([], ⟨db', 0, []⟩) := by
      rw [h]
      simp only [exec, pruneDeletedTopics, Tx.begin, hids, hdelete]
      rfl
    have htab := DB.deleteTopics_ok hdelete
    rw [committed_ok hexec]
    by_cases hnil : ids = []
    · refine Or.inl ⟨?_, DB.ext' ?_⟩
      · rintro ⟨r, hr, ha, hs⟩
        have hnot := selectIDs_nil hp.2 (hids.trans hnil) r hr
        simp only [agedBy_iff.mpr ha, Bool.true_and, List.all_eq_false, decide_eq_true_eq,
          not_not] at hnot
        obtain ⟨s, hs', htopic⟩ := hnot
        exact absurd htopic (hs s hs')
      · have hfilter : ∀ o : Option UUID, o.filter (fun _ => true) = o := fun o => by
          cases o <;> rfl
        have hforget : ∀ s : Subscription, Subscription.forgetTopics [] s = s := by
          intro s
          simp [Subscription.forgetTopics, hfilter]
        have hmap : db.subscriptions.map (Subscription.forgetTopics []) = db.subscriptions := by
          rw [List.map_congr_left fun s _ => hforget s, List.map_id']
        rw [htab, hnil]
        simp [hmap]
    · refine Or.inr ?_
      have hshort : (db.topics.filter (fun t => !decide (t.id ∈ ids))).length <
          db.topics.length := by
        rw [← hids] at hnil ⊢
        exact selectIDs_shorter hnil
      simp only [size, htab, List.length_map, List.countP_map, Function.comp_def,
        Subscription.forgetTopics]
      omega

theorem expiredSubscriptions_works (hp : p.Valid) (h : e.action = .deleteExpiredSubscriptions p) :
    Works committed size (Idle p) db e := by
  have hids : ∀ k, k ∈ ((e.env.subscriptions.run (db.subscriptions.filter (fun s =>
      decide (s.expiresAt < e.env.now) && s.deletedAt.isNone))).take p.maxDelete).map
        Subscription.id → ∃ s ∈ db.subscriptions, s.deletedAt = none ∧ s.id = k := by
    intro k hk
    obtain ⟨s, hs, hid⟩ := List.mem_map.mp hk
    have hs := List.mem_of_mem_take hs
    rw [ScanOrder.mem_run, List.mem_filter, Bool.and_eq_true, Option.isNone_iff_eq_none] at hs
    exact ⟨s, hs.1, hs.2.2, hid⟩
  generalize hsubs : (e.env.subscriptions.run (db.subscriptions.filter (fun s =>
    decide (s.expiresAt < e.env.now) && s.deletedAt.isNone))).take p.maxDelete = subs at hids
  obtain ⟨db', hdb⟩ : ∃ db', db.updateSubscriptions
      (fun s => decide (s.id ∈ subs.map Subscription.id)) { deletedAt := some e.env.now } =
        .ok db' := ⟨_, dif_pos (by simp)⟩
  have htab := DB.updateSubscriptions_ok hdb
  have hexec : exec e.env e.action (Tx.begin db) = .ok ([], ⟨db', 0,
      subs.flatMap (fun s => notifyModifySubscription s.id s.name)⟩) := by
    rw [h]
    simp only [exec, deleteExpiredSubscriptions, markDeleted, Tx.begin, hsubs, hdb]
    rfl
  refine works_of (s := .deleteExpiredSubscriptions) h ?_
  rw [committed_ok hexec]
  by_cases hnil : subs = []
  · refine Or.inl ⟨fun s hs hlive => ?_, DB.ext' ?_⟩
    · rw [hnil, List.take_eq_nil_iff] at hsubs
      have hempty := hsubs.resolve_left (ne_of_gt hp.2)
      by_contra hexp
      have hmem : s ∈ e.env.subscriptions.run (db.subscriptions.filter (fun s =>
          decide (s.expiresAt < e.env.now) && s.deletedAt.isNone)) := by
        rw [ScanOrder.mem_run, List.mem_filter]
        exact ⟨hs, by simp [hlive, not_le.mp hexp]⟩
      rw [hempty] at hmem
      cases hmem
    · have hmap : db.subscriptions.map (setWhere (fun _ => false)
          (SubscriptionUpdate.apply { deletedAt := some e.env.now })) = db.subscriptions :=
        List.map_id' _
      rw [htab, hnil]
      simp [hmap]
  · refine Or.inr ?_
    obtain ⟨x, hx⟩ := List.exists_mem_of_ne_nil _ hnil
    obtain ⟨s, hs, hlive, hid⟩ := hids x.id (List.mem_map_of_mem hx)
    have hmem : s.id ∈ subs.map Subscription.id := hid ▸ List.mem_map_of_mem hx
    have hfewer : (db.subscriptions.map (setWhere
        (fun s => decide (s.id ∈ subs.map Subscription.id))
        (SubscriptionUpdate.apply { deletedAt := some e.env.now }))).countP
          (fun s => s.deletedAt.isNone) <
        db.subscriptions.countP (fun s => s.deletedAt.isNone) := by
      rw [List.countP_map]
      refine countP_lt (fun y _ hy => ?_) hs ?_ (by simp [hlive])
      · rw [Function.comp_apply, Option.isNone_iff_eq_none] at hy
        rw [Option.isNone_iff_eq_none]
        exact setWhere_live (fun s : Subscription => s.deletedAt = none)
          (SubscriptionUpdate.apply_live _) y hy
      · simp only [Function.comp_apply, setWhere, hmem, decide_true, if_true]
        rfl
    simp only [size, htab, List.length_map]
    omega

end

theorem service_works {p : PruneCommonParams} (hp : p.Valid) {e : Event} {s : Service}
    (h : e.action = s.action p) (db : DB) : Works committed size (Idle p) db e := by
  cases s with
  | pruneCompletedDeliveries => exact completedDeliveries_works hp h
  | pruneExpiredDeliveries => exact expiredDeliveries_works hp h
  | pruneCompletedMessages => exact completedMessages_works hp h
  | pruneDeletedSubscriptionDeliveries => exact subscriptionDeliveries_works hp h
  | pruneDeletedSubscriptions => exact deletedSubscriptions_works hp h
  | pruneDeletedTopics => exact deletedTopics_works hp h
  | deleteExpiredSubscriptions => exact expiredSubscriptions_works hp h

theorem action_injective (p : PruneCommonParams) : Function.Injective (Service.action p) := by
  intro s s' h
  cases s <;> cases s' <;> first | rfl | cases h

def litteredBus : World := World.initial.run [
  Sample.ordersTopic 1 10,
  Sample.worker 2 20,
  Sample.publish "" "" 3 30,
  ⟨.plain 4 40, .ack [31], trivial⟩,
  ⟨.plain 5 50, .deleteSubscription "worker", trivial⟩,
  ⟨.plain 6 60, .deleteTopic "orders", trivial⟩]

def hourly : PruneCommonParams := ⟨hour, 100⟩

theorem hourly_valid : hourly.Valid := by decide

theorem action_valid {p : PruneCommonParams} (hp : p.Valid) (s : Service) : (s.action p).Valid := by
  cases s <;> exact hp

def turns : List Event :=
  [.pruneDeletedTopics, .pruneDeletedSubscriptions, .deleteExpiredSubscriptions,
    .pruneCompletedMessages, .pruneExpiredDeliveries, .pruneCompletedDeliveries,
    .pruneDeletedSubscriptionDeliveries].map
      (fun s => ⟨.plain (2 * hour) 70, Service.action hourly s, action_valid hourly_valid s⟩)

end Mmmbbb.Collecting
