import Mmmbbb.Letters
import Mmmbbb.NoLoss

/-!
# The bus as a broker

Each transaction does to the letters what the broker does about its request,
and a run of the bus is a course of a broker.
-/

set_option autoImplicit false

namespace Mmmbbb.Brokering
open KeyedRows Programs Mailboxes Mmmbbb.Schema Mmmbbb.Database Mmmbbb.Delivering
open Mmmbbb.Consuming Mmmbbb.Pruning Mmmbbb.Seeking Mmmbbb.Runs Mmmbbb.Writes Mmmbbb.Changes
open Mmmbbb.Portions Mmmbbb.Letters

def request (env : Env) (t : Tables) : Runs.Action → Request UUID UUID Message UUID
  | .publish p =>
    match publishTopic p t with
    | .ok topic => .post topic.id (newMessage env (env.uuid 0) topic.id p)
    | .error _ => .tidy
  | .get p =>
    match verifySub p t with
    | .ok sub => .fetch sub.id (!p.maxBytesStrict)
    | .error _ => .tidy
  | .ack ids => .settle {k | k ∈ ids}
  | .nack ids => .retire {k | k ∈ ids}
  | .deadLetter maxDeliveries => .sweep maxDeliveries
  | .seekToTime p =>
    match only (subMatch p.name p.id) t.subscriptions with
    | .ok sub => .reset sub.id {k | ∃ d ∈ t.deliveries, d.id = k ∧ d.publishedAt ≤ p.time}
      {k | ∃ d ∈ t.deliveries, d.id = k ∧ p.time < d.publishedAt ∧ d.completedAt ≠ none ∧
        env.now ≤ d.expiresAt}
    | .error _ => .tidy
  | .seekToSnapshot p =>
    match only (subMatch p.subscriptionName p.subscriptionID) t.subscriptions,
      only (snapMatch p.snapshotName p.snapshotID) t.snapshots with
    | .ok sub, .ok snap => .reset sub.id
      {k | ∃ d ∈ t.deliveries, d.id = k ∧
        (d.publishedAt < snap.ackedMessagesBefore ∨ d.messageID ∈ snap.ackedMessageIDs)}
      {k | ∃ d ∈ t.deliveries, d.id = k ∧ snap.ackedMessagesBefore ≤ d.publishedAt ∧
        d.messageID ∉ snap.ackedMessageIDs ∧ d.completedAt ≠ none}
    | _, _ => .tidy
  | _ => .tidy

section
variable {env : Env} {tx tx' : Tx}

theorem publish_serves {p : PublishMessageParams} {r : PublishMessageResults}
    (hdrawn : tx.drawn = 0) (h : publishMessage env p tx = .ok (r, tx')) :
    Serves (office env tx.db.toTables) (mail env.now tx.db)
      (request env tx.db.toTables (.publish p)) ∅ (mail env.now tx'.db) := by
  obtain ⟨t, ht, h⟩ := bind_ok.mp h
  obtain ⟨-, -, h⟩ := bind_ok.mp h
  obtain ⟨db, hdb, h⟩ := bind_ok.mp h
  obtain ⟨last, hlast, h⟩ := bind_ok.mp h
  obtain ⟨-, rfl⟩ := Prod.mk.inj (pure_ok.mp h)
  obtain ⟨-, htab⟩ := DB.insertMessage_ok hdb
  obtain ⟨-, hfresh, hrows, -⟩ := createBulk_rows hlast
  obtain ⟨hmem, hmatch⟩ := only_ok ht
  have hlive : liveTopic tx.db.toTables t.id ≠ none := by
    simp only [Bool.and_eq_true, Option.isNone_iff_eq_none] at hmatch
    rw [liveTopic, Ne, List.find?_eq_none, not_forall]
    exact ⟨t, by simp [hmem, hmatch.1.1]⟩
  have hdeliveries : last.db.deliveries = tx.db.deliveries.map id ++ deliveryRows env (tx.drawn + 1)
      ((liveSubscriptions env tx.db.toTables t.id).filterMap (fun s =>
        deliverToSubscription env db.toTables s (newMessage env (env.uuid tx.drawn) t.id p))) := by
    rw [hrows, List.map_id]
    simp [htab]
  have hmessages : last.db.messages =
      tx.db.messages ++ [newMessage env (env.uuid tx.drawn) t.id p] := by
    rw [hrows]
    simp [htab]
  have hrequest : request env tx.db.toTables (.publish p) =
      .post t.id (newMessage env (env.uuid tx.drawn) t.id p) := by
    simp only [request, ht, hdrawn]
  rw [hrequest]
  refine .post (sends_of_delivery (.refl _) tx.db.sound.subscription_pk hlive hdeliveries
    (fun _ => rfl) (fun _ => rfl) (fun _ => rfl) ?_ ?_ ?_ ?_)
  · intro m hm
    rw [hmessages]
    exact List.mem_append_left _ hm
  · intro d _ l _
    simp
  · rw [hmessages]
    simp
  · simpa [deliverAll, htab] using hfresh

theorem ack_serves (env : Env) (ids : List UUID) (tx : Tx) :
    Serves (office env tx.db.toTables) (mail env.now tx.db) (request env tx.db.toTables (.ack ids))
      ∅ (mail env.now (ackDeliveries env ids tx).2.db) := by
  have hb : (ackDeliveries env ids tx).2.db.deliveries = tx.db.deliveries.map
      (setWhere (ackPredicates ids) (completion env).apply) ++ [] := (List.append_nil _).symm
  have hkeep : ∀ m ∈ tx.db.messages, m ∈ (ackDeliveries env ids tx).2.db.messages := fun _ hm => hm
  refine .settle ?_ ?_
  · ext l
    rw [mem_known_map hb (setWhere_id _) (setWhere_subscriptionID _) (setWhere_messageID _) hkeep]
    simp
  · ext l
    rw [mem_waiting_map hb (setWhere_id _) (setWhere_subscriptionID _) (setWhere_messageID _) hkeep]
    have ho : ∀ d : Delivery, (setWhere (ackPredicates ids) (completion env).apply d).Outstanding
        env.now ↔ d.Outstanding env.now ∧ d.id ∉ ids := by
      intro d
      by_cases hd : ackPredicates ids d = true
      · have hmem : d.id ∈ ids := by
          simp only [ackPredicates, Bool.and_eq_true, decide_eq_true_eq] at hd
          exact hd.1
        simp [setWhere, hd, hmem, completion, DeliveryUpdate.apply, Delivery.Outstanding]
      · rw [setWhere, if_neg hd]
        refine ⟨fun ho => ⟨ho, fun hmem => hd ?_⟩, And.left⟩
        simp [ackPredicates, hmem, ho.1]
    simp only [ho, List.not_mem_nil, false_and, exists_false, or_false]
    constructor
    · rintro ⟨d, hd, ⟨ho, hid⟩, hl⟩
      exact ⟨⟨d, hd, ho, hl⟩, fun hmem => hid (hl.id ▸ hmem)⟩
    · rintro ⟨⟨d, hd, ho, hl⟩, hid⟩
      exact ⟨d, hd, ⟨ho, fun hmem => hid (show l.id ∈ ids from hl.id ▸ hmem)⟩, hl⟩

theorem spent_iff {db : DB} {d : Delivery} {sub : Subscription} {l : Letter UUID UUID Message}
    {k : UUID} (hd : d ∈ db.deliveries) (hl : Shows db d l) (hs : sub ∈ db.subscriptions)
    (hid : sub.id = d.subscriptionID) :
    (office env db.toTables).spent l k ↔ sub.deadLetterTopicFor d = some k := by
  constructor
  · rintro ⟨x, hx, hxl, s, hs', hsx, hspent⟩
    have hsame : x = d := db.sound.delivery_pk.eq hx hd (by rw [hxl, hl.id])
    rw [hsame] at hsx hspent
    have hsub : s = sub := db.sound.subscription_pk.eq hs' hs (by rw [hsx, hid])
    exact hsub ▸ hspent
  · intro hspent
    exact ⟨d, hd, hl.id, sub, hs, hid, hspent⟩

theorem nack_serves {ids : List UUID} {r : NackDeliveriesResults}
    (h : nackDeliveries env ids tx = .ok (r, tx')) :
    Serves (office env tx.db.toTables) (mail env.now tx.db) (request env tx.db.toTables (.nack ids))
      ∅ (mail env.now tx'.db) := by
  obtain ⟨⟨last, n⟩, hloop, h⟩ := bind_ok.mp h
  obtain ⟨-, rfl⟩ := Prod.mk.inj (pure_ok.mp h)
  have hmem : ∀ d, d ∈ orderBy (fun d => (d.id : ℤ)) (env.deliveries.run
      (tx.db.deliveries.filter (nackPredicates env.now ids))) ↔
      d ∈ tx.db.deliveries ∧ d.id ∈ ids ∧ d.Outstanding env.now := by
    intro d
    simp [nackPredicates, Delivery.Outstanding, and_assoc]
  have hdistinct : ((orderBy (fun d => (d.id : ℤ)) (env.deliveries.run
      (tx.db.deliveries.filter (nackPredicates env.now ids)))).map Delivery.id).Nodup :=
    ((((orderBy_perm _ _).trans (env.deliveries.perm _)).map Delivery.id).nodup_iff).mpr
      (tx.db.sound.delivery_pk.filter _)
  generalize orderBy (fun d => (d.id : ℤ)) (env.deliveries.run
    (tx.db.deliveries.filter (nackPredicates env.now ids))) = rows at hloop hmem hdistinct
  have hrun := loop_forwards env
    {l ∈ (mail env.now tx.db).waiting | l.id ∈ {k | k ∈ ids}}
    (fun d => ∃ l t, Shows tx.db d l ∧ (office env tx.db.toTables).spent l t)
    (fun st : Tx × ℕ => st.1.db) id hloop ?_ (by simpa using hdistinct)
    (fun d hd => ((hmem d).mp hd).1) ⟨.refl _, rfl⟩
  · obtain ⟨-, hchain, htaken⟩ := hrun
    refine .retire hchain ?_
    rintro l ⟨d, hd, ho, hl⟩ hid t hspent
    have hin : d ∈ rows := (hmem d).mpr ⟨hd, hl.id ▸ hid, ho⟩
    exact htaken d hin ⟨l, t, hl, hspent⟩ l hl
  · intro d hd st st' hbody hway hrow
    obtain ⟨hstart, hid, ho⟩ := (hmem d).mp hd
    unfold nackOne at hbody
    split at hbody
    · cases hbody
    · rename_i sub hsub
      obtain ⟨hsub, hsubID⟩ := fetch_mem hsub
      have hspent : ∀ l k, Shows tx.db d l →
          ((office env tx.db.toTables).spent l k ↔ sub.deadLetterTopicFor d = some k) :=
        fun l k hl => spent_iff hstart hl hsub hsubID
      split at hbody
      · rename_i k hk
        obtain ⟨mid, hmid, rfl⟩ := map_ok.mp hbody
        obtain ⟨hframe, hrun, htaken⟩ := deadLetter_forwards
          {l ∈ (mail env.now tx.db).waiting | l.id ∈ {k | k ∈ ids}} hway hrow ho
          (fun l hl => ⟨⟨d, hstart, ho, hl⟩, hl.id ▸ hid⟩) (fun l hl => (hspent l k hl).mpr hk) hmid
        exact ⟨hframe, hrun, fun _ => htaken⟩
      · rename_i hnone
        obtain ⟨mid, hmid, rfl⟩ := map_ok.mp hbody
        have hdb := Tx.updateDelivery_ok hmid
        dsimp only [id] at hdb ⊢
        rw [hdb, mail_update _ rfl rfl]
        refine ⟨frame_edit ⟨rfl, by simp⟩, .refl, ?_⟩
        rintro ⟨l, k, hl, hk⟩
        rw [hspent l k hl, hnone] at hk
        cases hk

structure Hands (x : SubscriptionMessageDelivery) (l : Letter UUID UUID Message) : Prop where
  id : x.id = l.id
  messageID : x.messageID = l.content.id
  publishedAt : x.publishedAt = l.content.publishedAt
  orderKey : x.orderKey = l.content.orderKey
  payload : x.payload = l.content.payload
  attributes : x.attributes = l.content.attributes

def Handed (given : List SubscriptionMessageDelivery) (out : Set (Letter UUID UUID Message)) :
    Prop := (∀ x ∈ given, ∃ l ∈ out, Hands x l) ∧ ∀ l ∈ out, ∃ x ∈ given, Hands x l

theorem handed_nil : Handed [] ∅ := ⟨by simp, by simp⟩

theorem markAttempted_mail {results : List SubscriptionMessageDelivery}
    (h : markAttempted env results tx = .ok tx') : mail env.now tx'.db = mail env.now tx.db := by
  refine loop_invariant (I := fun t : Tx => mail env.now t.db = mail env.now tx.db) results
    (fun x _ t t' ht hstep => ?_) rfl h
  have hdb := Tx.updateDelivery_ok hstep
  rw [hdb, mail_update _ rfl rfl, ht]

theorem refresh_underway {sub : Subscription} (h : refreshExpiration env sub tx = .ok tx') :
    Underway tx.db tx'.db ∧ tx'.db.deliveries = tx.db.deliveries := by
  have htab := DB.updateSubscriptions_ok (refreshExpiration_ok h)
  refine ⟨⟨⟨by rw [htab], ?_⟩, by rw [htab]⟩, by rw [htab]⟩
  rw [htab]
  simp only [List.map_map]
  exact List.map_congr_left fun s _ => settled_refresh _ _ s

theorem ripe_iff {db : DB} {d : Delivery} {sub : Subscription} {l : Letter UUID UUID Message}
    (hd : d ∈ db.deliveries) (hl : Shows db d l) (hs : sub ∈ db.subscriptions) :
    l ∈ (office env db.toTables).ripe (mail env.now db) sub.id ↔
      buildDeliveryQuery env.now db.toTables sub (fun d => decide (d.attemptAt ≤ env.now)) d =
        true := by
  have hrow : ∀ x ∈ db.deliveries, x.id = l.id → x = d := fun x hx hid =>
    db.sound.delivery_pk.eq hx hd (hid.trans hl.id.symm)
  have hdue : l ∈ (office env db.toTables).due ↔ d.attemptAt ≤ env.now := by
    constructor
    · rintro ⟨x, hx, hid, hle⟩
      exact hrow x hx hid ▸ hle
    · intro hle
      exact ⟨d, hd, hl.id, hle⟩
  have hheld : d.subscriptionID = sub.id → (l ∈ (office env db.toTables).held ↔
      sub.orderedDelivery = true ∧ orderingCondition env.now db.toTables d = false) := by
    intro hbox
    constructor
    · rintro ⟨x, hx, hid, s, hs', hsx, hordered, hcond⟩
      obtain rfl := hrow x hx hid
      obtain rfl : s = sub := db.sound.subscription_pk.eq hs' hs (hsx.trans hbox)
      exact ⟨hordered, hcond⟩
    · intro h
      exact ⟨d, hd, hl.id, sub, hs, hbox.symm, h⟩
  have hquery : buildDeliveryQuery env.now db.toTables sub
      (fun d => decide (d.attemptAt ≤ env.now)) d = true ↔
      d.Outstanding env.now ∧ d.subscriptionID = sub.id ∧ d.attemptAt ≤ env.now ∧
        ¬ (sub.orderedDelivery = true ∧ orderingCondition env.now db.toTables d = false) := by
    simp only [buildDeliveryQuery, Bool.and_eq_true, Bool.or_eq_true, Bool.not_eq_true',
      decide_eq_true_eq, Option.isNone_iff_eq_none, Delivery.Outstanding, not_and,
      Bool.not_eq_false]
    grind
  rw [hquery]
  constructor
  · rintro ⟨hw, hbox, hle, hnot⟩
    have hbox := hl.box.trans hbox
    exact ⟨(waiting_iff hd hl).mp hw, hbox, hdue.mp hle, fun h => hnot ((hheld hbox).mpr h)⟩
  · rintro ⟨ho, hbox, hle, hnot⟩
    exact ⟨(waiting_iff hd hl).mpr ho, hl.box.symm.trans hbox, hdue.mpr hle,
      fun h => hnot ((hheld hbox).mp h)⟩

theorem handed_taken {db : DB} {fetched taken : List Fetched} (env : Env) (sub : Subscription)
    (hloaded : Loaded db fetched) (htaken : taken.Sublist fetched) :
    Handed (taken.map (fun x => handOut env sub x.1 x.2)) {l | ∃ x ∈ taken, Shows db x.1 l} := by
  have hshows : ∀ x ∈ taken, ∀ l, Shows db x.1 l → Hands (handOut env sub x.1 x.2) l := by
    intro x hx l hl
    obtain ⟨hm, hid⟩ := hloaded.messages x (htaken.subset hx)
    have hsame : x.2 = l.content :=
      db.sound.message_pk.eq hm hl.message (by rw [hid, hl.content])
    exact ⟨hl.id, by rw [← hsame]; rfl, by rw [← hsame]; rfl, by rw [← hsame]; rfl,
      by rw [← hsame]; rfl, by rw [← hsame]; rfl⟩
  constructor
  · intro y hy
    obtain ⟨x, hx, rfl⟩ := List.mem_map.mp hy
    obtain ⟨l, hl⟩ := shows_of_mem (hloaded.rows x (htaken.subset hx))
    exact ⟨l, ⟨x, hx, hl⟩, hshows x hx l hl⟩
  · rintro l ⟨x, hx, hl⟩
    exact ⟨_, List.mem_map_of_mem hx, hshows x hx l hl⟩

theorem get_serves {p : GetSubscriptionMessagesParams} {r : GetSubscriptionMessagesResults}
    (hmost : 1 ≤ p.maxMessages) (h : getSubscriptionMessages env p tx = .ok (r, tx')) :
    ∃ out, Serves (office env tx.db.toTables) (mail env.now tx.db)
        (request env tx.db.toTables (.get p)) out (mail env.now tx'.db) ∧
      Handed r.deliveries out := by
  obtain ⟨sub, hsub, h⟩ := bind_ok.mp h
  have hrequest : request env tx.db.toTables (.get p) = .fetch sub.id (!p.maxBytesStrict) := by
    simp only [request, hsub]
  have hsubMem := (only_ok hsub).1
  have hresults := applyResults_deliveries h
  obtain ⟨start, hstart, h⟩ := bind_ok.mp h
  obtain ⟨st, hst, h⟩ := bind_ok.mp h
  obtain ⟨last, hlast, h⟩ := bind_ok.mp h
  obtain ⟨-, rfl⟩ := Prod.mk.inj (pure_ok.mp h)
  rw [applyLoop_eq] at hst
  obtain ⟨mid, hmid, rfl⟩ := map_ok.mp hst
  have hloaded := queryAndLockDeliveriesOnce_loaded env tx.db sub p
  have hripe : ∀ x ∈ queryAndLockDeliveriesOnce env tx.db.toTables sub p, ∀ l,
      Shows tx.db x.1 l → l ∈ (office env tx.db.toTables).ripe (mail env.now tx.db) sub.id :=
    fun x hx l hl => (ripe_iff (hloaded.rows x hx) hl hsubMem).mpr
      (queryAndLockDeliveriesOnce_mem hx).2.1
  have hfound : ((office env tx.db.toTables).ripe (mail env.now tx.db) sub.id).Nonempty →
      queryAndLockDeliveriesOnce env tx.db.toTables sub p ≠ [] := by
    rintro ⟨l, hl⟩
    obtain ⟨d, hd, -, hshows⟩ := hl.1
    exact fetched_ne_nil hmost hd ((ripe_iff hd hshows hsubMem).mp hl)
  generalize queryAndLockDeliveriesOnce env tx.db.toTables sub p = fetched at *
  have htaken := Budgets.portion_taken_sublist (pullPass p sub) 0 0 fetched
  have haside := Budgets.portion_aside_sublist (pullPass p sub) 0 0 fetched
  have hunspent := fun x => Budgets.portion_taken (pullPass p sub) 0 0 fetched (x := x)
  have hspent := fun x => Budgets.portion_aside (pullPass p sub) 0 0 fetched (x := x)
  have hdealt : ∀ x rest, fetched = x :: rest → p.maxBytesStrict = false →
      x ∈ ((pullPass p sub).portion 0 0 fetched).taken ∨
        ∃ t, (x, t) ∈ ((pullPass p sub).portion 0 0 fetched).aside := by
    rintro x rest rfl hstrict
    exact Budgets.portion_first 0 x rest hstrict
  generalize (pullPass p sub).portion 0 0 fetched = q at *
  obtain ⟨hway, hrows⟩ := refresh_underway hstart
  have hspentIff : ∀ x ∈ fetched, ∀ l k, Shows tx.db x.1 l →
      ((office env tx.db.toTables).spent l k ↔ sub.deadLetterTopicFor x.1 = some k) :=
    fun x hx l k hl => spent_iff (hloaded.rows x hx) hl hsubMem
      ((hripe x hx l hl).2.1 ▸ hl.box).symm
  have hfetched : ∀ x ∈ q.aside, x.1 ∈ fetched := fun x hx =>
    haside.subset (List.mem_map_of_mem hx)
  obtain ⟨-, hrun, hgone⟩ := loop_forwards env
    ((office env tx.db.toTables).ripe (mail env.now tx.db) sub.id)
    (fun _ => True) Tx.db (fun x : Fetched × UUID => x.1.1) hmid
    (fun x hx t t' hbody hway hrow => by
      have hx' := hfetched x hx
      have hrow' := hloaded.rows x.1 hx'
      obtain ⟨l, hl⟩ := shows_of_mem hrow'
      have ho := (waiting_iff hrow' hl).mp (hripe x.1 hx' l hl).1
      obtain ⟨hframe, hrun, hleft⟩ := deadLetter_forwards
        ((office env tx.db.toTables).ripe (mail env.now tx.db) sub.id) hway hrow ho
        (hripe x.1 hx') (fun l hl => (hspentIff x.1 hx' l x.2 hl).mpr (hspent x hx)) hbody
      exact ⟨hframe, hrun, fun _ => hleft⟩)
    (by
      have hn := hloaded.once.sublist (haside.map (fun x => x.1.id))
      rwa [List.map_map] at hn)
    (fun x hx => hrows ▸ hloaded.rows x.1 (hfetched x hx)) hway
  rw [mail_congr hrows hway.messages] at hrun
  refine ⟨{l | ∃ x ∈ q.taken, Shows tx.db x.1 l}, ?_, ?_⟩
  · rw [hrequest, markAttempted_mail hlast]
    refine .fetch hrun ?_ ?_
    · rintro l ⟨x, hx, hl⟩
      have hx' := htaken.subset hx
      have hin := hripe x hx' l hl
      have hnot : ∀ t, ¬ (office env tx.db.toTables).spent l t := by
        intro t ht
        have hnone : sub.deadLetterTopicFor x.1 = none := hunspent x hx
        rw [hspentIff x hx' l t hl, hnone] at ht
        cases ht
      refine ⟨hin, ?_, hnot⟩
      rcases (forwards_waiting hrun ((mail env.now tx.db).waiting_known hin.1)).2 hin.1 with
        hw | ⟨-, t, ht⟩
      · exact hw
      · exact absurd ht (hnot t)
    · intro hlenient hany
      obtain ⟨x, rest, hlist⟩ := List.exists_cons_of_ne_nil (hfound hany)
      have hx : x ∈ fetched := hlist ▸ List.mem_cons_self
      obtain ⟨l, hl⟩ := shows_of_mem (hloaded.rows x hx)
      refine ⟨l, hripe x hx l hl, ?_⟩
      rcases hdealt x rest hlist (by simpa using hlenient) with hmem | ⟨t, hmem⟩
      · exact Or.inl ⟨x, hmem, hl⟩
      · exact Or.inr (hgone (x, t) hmem trivial l hl)
  · rw [hresults]
    exact handed_taken env sub hloaded htaken

theorem letters_of_rows {db : DB} {rows : List Delivery} (h : ∀ d ∈ rows, d ∈ db.deliveries) :
    ∃ ls : List (Letter UUID UUID Message), ls.map Letter.id = rows.map Delivery.id ∧
      ∀ l ∈ ls, ∃ d ∈ rows, Shows db d l := by
  induction rows with
  | nil => exact ⟨[], rfl, by simp⟩
  | cons d rows ih =>
    obtain ⟨ls, hids, hls⟩ := ih fun x hx => h x (List.mem_cons_of_mem d hx)
    obtain ⟨l, hl⟩ := shows_of_mem (h d List.mem_cons_self)
    refine ⟨l :: ls, ?_, ?_⟩
    · rw [List.map_cons, List.map_cons, hids, hl.id]
    · intro l' hl'
      rcases List.mem_cons.mp hl' with rfl | hl'
      · exact ⟨d, List.mem_cons_self, hl⟩
      · obtain ⟨x, hx, hshows⟩ := hls l' hl'
        exact ⟨x, List.mem_cons_of_mem d hx, hshows⟩

theorem stuck_iff {db : DB} {d : Delivery} {l : Letter UUID UUID Message}
    (hd : d ∈ db.deliveries) (hl : Shows db d l) :
    l ∈ (office env db.toTables).stuck (mail env.now db) ↔
      (deadLetterTarget env.now db.toTables d).isSome = true := by
  obtain ⟨s, hs, hid⟩ := db.sound.delivery_subscription d hd
  have hfetch : fetch Subscription.id d.subscriptionID db.subscriptions = some s :=
    hid ▸ fetch_of_mem db.sound.subscription_pk hs
  have hdue : l ∈ (office env db.toTables).due ↔ d.attemptAt ≤ env.now := by
    constructor
    · rintro ⟨x, hx, hxl, hle⟩
      exact db.sound.delivery_pk.eq hx hd (hxl.trans hl.id.symm) ▸ hle
    · intro hle
      exact ⟨d, hd, hl.id, hle⟩
  have hopen : l.box ∉ (office env db.toTables).closed ↔ s.deletedAt = none := by
    constructor
    · intro hnot
      by_contra hdeleted
      exact hnot ⟨s, hs, hid.trans hl.box, hdeleted⟩
    · rintro hlive ⟨s', hs', hbox, hdeleted⟩
      obtain rfl : s' = s := db.sound.subscription_pk.eq hs' hs (by rw [hbox, hid, hl.box])
      exact hdeleted hlive
  rw [Option.isSome_iff_exists]
  constructor
  · rintro ⟨hw, hd', hbox, t, ht⟩
    exact ⟨t, deadLetterTarget_some.mpr ⟨s, hfetch, hopen.mp hbox, (waiting_iff hd hl).mp hw,
      hdue.mp hd', (spent_iff hd hl hs hid).mp ht⟩⟩
  · rintro ⟨t, ht⟩
    obtain ⟨s', hs', hlive, ho, hle, hspent⟩ := deadLetterTarget_some.mp ht
    obtain rfl : s = s' := Option.some.inj (hfetch.symm.trans hs')
    exact ⟨(waiting_iff hd hl).mpr ho, hdue.mpr hle, hopen.mpr hlive, t,
      (spent_iff hd hl hs hid).mpr hspent⟩

theorem sweep_serves {n : ℕ} {r : DeadLetterDeliveriesResults}
    (h : deadLetterDeliveries env n tx = .ok (r, tx')) :
    Serves (office env tx.db.toTables) (mail env.now tx.db)
      (request env tx.db.toTables (.deadLetter n)) ∅ (mail env.now tx'.db) := by
  obtain ⟨last, hloop, h⟩ := bind_ok.mp h
  obtain ⟨-, rfl⟩ := Prod.mk.inj (pure_ok.mp h)
  rw [selected_data, List.foldlM_map] at hloop
  have honce : (fetchedIDs (selected env tx.db.toTables n)).Nodup :=
    selected_ids env tx.db.toTables n ▸ selectIDs_nodup tx.db.sound.delivery_pk
  have hfull := selected_full env tx.db.toTables n
  have htarget : ∀ x ∈ selected env tx.db.toTables n, x.1.1 ∈ tx.db.deliveries ∧
      deadLetterTarget env.now tx.db.toTables x.1.1 = some x.2 := fun _ => selected_mem
  generalize selected env tx.db.toTables n = swept at *
  have hstuck : ∀ x ∈ swept, ∀ l, Shows tx.db x.1.1 l →
      l ∈ (office env tx.db.toTables).stuck (mail env.now tx.db) := by
    intro x hx l hl
    obtain ⟨hd, hk⟩ := htarget x hx
    exact (stuck_iff hd hl).mpr (Option.isSome_iff_exists.mpr ⟨_, hk⟩)
  obtain ⟨-, hrun, hgone⟩ := loop_forwards env
    ((office env tx.db.toTables).stuck (mail env.now tx.db)) (fun _ => True) Tx.db
    (fun x : Fetched × UUID => x.1.1) hloop
    (fun x hx t t' hbody hway hrow => by
      obtain ⟨hd, hk⟩ := htarget x hx
      obtain ⟨s, hs, -, ho, -, hspent⟩ := deadLetterTarget_some.mp hk
      obtain ⟨hs, hid⟩ := fetch_mem hs
      obtain ⟨hframe, hrun, hleft⟩ := deadLetter_forwards
        ((office env tx.db.toTables).stuck (mail env.now tx.db)) hway hrow ho (hstuck x hx)
        (fun l hl => (spent_iff hd hl hs hid).mpr hspent) hbody
      exact ⟨hframe, hrun, fun _ => hleft⟩)
    honce (fun x hx => (htarget x hx).1) ⟨.refl _, rfl⟩
  refine .sweep hrun ?_
  rcases hfull with hlen | hall
  · right
    have hrows : ∀ d ∈ swept.map (fun x => x.1.1), d ∈ tx.db.deliveries := by
      intro d hd
      obtain ⟨x, hx, rfl⟩ := List.mem_map.mp hd
      exact (htarget x hx).1
    obtain ⟨ls, hids, hls⟩ := letters_of_rows hrows
    have hsame : ls.map Letter.id = fetchedIDs swept := by
      rw [hids, List.map_map]
      rfl
    refine ⟨ls, .of_map Letter.id (hsame ▸ honce), ?_, ?_⟩
    · rw [← hlen, ← hsame, List.length_map]
    · intro l hl
      obtain ⟨d, hd, hshows⟩ := hls l hl
      obtain ⟨x, hx, rfl⟩ := List.mem_map.mp hd
      exact ⟨hstuck x hx l hshows, hgone x hx trivial l hshows⟩
  · left
    intro l hl
    obtain ⟨d, hd, -, hshows⟩ := hl.1
    obtain ⟨x, hx, hid⟩ := List.mem_map.mp (hall d hd ((stuck_iff hd hshows).mp hl))
    have hrow : x.1.1 = d := tx.db.sound.delivery_pk.eq (htarget x hx).1 hd hid
    exact hgone x hx trivial l (hrow ▸ hshows)

theorem ackAll_outstanding {now : Time} {q : Delivery → Bool} {d : Delivery} :
    (setWhere q (ackAll env).apply d).Outstanding now ↔ d.Outstanding now ∧ q d = false := by
  cases hq : q d <;> simp [setWhere, hq, ackAll, DeliveryUpdate.apply, Delivery.Outstanding]

theorem deAckAll_outstanding {sub : Subscription} {q : Delivery → Bool} {d : Delivery} :
    (setWhere q (deAckAll env sub).apply d).Outstanding env.now ↔
      if q d = true then 0 < sub.messageTTL else d.Outstanding env.now := by
  cases hq : q d <;> simp [setWhere, hq, deAckAll, DeliveryUpdate.apply, Delivery.Outstanding]

theorem seekTime_row {sub : Subscription} {time : Time} {d : Delivery} :
    (setWhere (seekTimeDeAcks env sub time) (deAckAll env sub).apply
      (setWhere (seekTimeAcks env sub time) (ackAll env).apply d)).Outstanding env.now ↔
      d.Outstanding env.now ∧ (d.subscriptionID = sub.id → ¬ d.publishedAt ≤ time) ∨
        d.subscriptionID = sub.id ∧ (time < d.publishedAt ∧ d.completedAt ≠ none ∧
          env.now ≤ d.expiresAt) ∧ 0 < sub.messageTTL := by
  have hacks : seekTimeAcks env sub time d = true ↔ d.subscriptionID = sub.id ∧
      env.now ≤ d.expiresAt ∧ d.publishedAt ≤ time ∧ d.completedAt = none := by
    simp [seekTimeAcks, and_assoc]
  have hdeAcks : ∀ x, seekTimeDeAcks env sub time x = true ↔ x.subscriptionID = sub.id ∧
      env.now ≤ x.expiresAt ∧ time < x.publishedAt ∧ x.completedAt ≠ none := by
    simp [seekTimeDeAcks, and_assoc, Option.isSome_iff_ne_none]
  rw [deAckAll_outstanding]
  simp only [ackAll_outstanding, ← Bool.not_eq_true, hacks, hdeAcks, setWhere_subscriptionID,
    setWhere_publishedAt]
  by_cases ha : seekTimeAcks env sub time d = true
  · obtain ⟨hbox, -, hpast, -⟩ := hacks.mp ha
    simp [hbox, hpast, not_lt.mpr hpast, hacks.mp ha]
  · rw [setWhere, if_neg ha]
    rw [hacks] at ha
    simp only [Delivery.Outstanding]
    grind

theorem seekSnapshot_row {sub : Subscription} {snap : Snapshot} {d : Delivery} :
    (setWhere (seekSnapshotDeAcks sub snap) (deAckAll env sub).apply
      (setWhere (seekSnapshotAcksListed env sub snap) (ackAll env).apply
        (setWhere (seekSnapshotAcksBefore env sub snap) (ackAll env).apply d))).Outstanding
          env.now ↔
      d.Outstanding env.now ∧ (d.subscriptionID = sub.id →
        ¬ (d.publishedAt < snap.ackedMessagesBefore ∨ d.messageID ∈ snap.ackedMessageIDs)) ∨
        d.subscriptionID = sub.id ∧ (snap.ackedMessagesBefore ≤ d.publishedAt ∧
          d.messageID ∉ snap.ackedMessageIDs ∧ d.completedAt ≠ none) ∧ 0 < sub.messageTTL := by
  have hbefore : seekSnapshotAcksBefore env sub snap d = true ↔ d.subscriptionID = sub.id ∧
      env.now ≤ d.expiresAt ∧ d.publishedAt < snap.ackedMessagesBefore ∧ d.completedAt = none := by
    simp [seekSnapshotAcksBefore, and_assoc]
  have hlisted : ∀ x, seekSnapshotAcksListed env sub snap x = true ↔ x.subscriptionID = sub.id ∧
      env.now ≤ x.expiresAt ∧ x.messageID ∈ snap.ackedMessageIDs ∧ x.completedAt = none := by
    simp [seekSnapshotAcksListed, and_assoc]
  have hdeAcks : ∀ x, seekSnapshotDeAcks sub snap x = true ↔ x.subscriptionID = sub.id ∧
      snap.ackedMessagesBefore ≤ x.publishedAt ∧ x.messageID ∉ snap.ackedMessageIDs ∧
        x.completedAt ≠ none := by
    simp [seekSnapshotDeAcks, and_assoc, Option.isSome_iff_ne_none]
  rw [deAckAll_outstanding]
  simp only [ackAll_outstanding, ← Bool.not_eq_true, hbefore, hdeAcks, setWhere_subscriptionID,
    setWhere_publishedAt, setWhere_messageID]
  by_cases hb : seekSnapshotAcksBefore env sub snap d = true
  · obtain ⟨hbox, -, hpast, -⟩ := hbefore.mp hb
    simp [hbox, hpast, not_le.mpr hpast, hbefore.mp hb]
  · rw [setWhere, setWhere, if_neg hb]
    by_cases hl : seekSnapshotAcksListed env sub snap d = true
    · obtain ⟨hbox, -, hpast, -⟩ := (hlisted d).mp hl
      simp [hbox, hpast, hl]
    · rw [if_neg hl]
      rw [hbefore] at hb
      rw [hlisted] at hl ⊢
      simp only [Delivery.Outstanding]
      grind

theorem reset_serves {db db' : DB} {sub : Subscription} {f : Delivery → Delivery}
    {past back : Delivery → Prop} (hsub : sub ∈ db.subscriptions)
    (hb : db'.deliveries = db.deliveries.map f ++ [])
    (hid : ∀ d, (f d).id = d.id) (hbox : ∀ d, (f d).subscriptionID = d.subscriptionID)
    (hcontent : ∀ d, (f d).messageID = d.messageID) (hm : ∀ m ∈ db.messages, m ∈ db'.messages)
    (hf : ∀ d, (f d).Outstanding env.now ↔
      d.Outstanding env.now ∧ (d.subscriptionID = sub.id → ¬ past d) ∨
        d.subscriptionID = sub.id ∧ back d ∧ 0 < sub.messageTTL) :
    Serves (office env db.toTables) (mail env.now db)
      (.reset sub.id {k | ∃ d ∈ db.deliveries, d.id = k ∧ past d}
        {k | ∃ d ∈ db.deliveries, d.id = k ∧ back d}) ∅ (mail env.now db') := by
  have hkeeps : sub.id ∈ (office env db.toTables).keeps ↔ 0 < sub.messageTTL := by
    constructor
    · rintro ⟨s, hs, heq, hpos⟩
      exact db.sound.subscription_pk.eq hs hsub heq ▸ hpos
    · intro hpos
      exact ⟨sub, hsub, rfl, hpos⟩
  have hrow : ∀ {P : Delivery → Prop} {d l}, d ∈ db.deliveries → Shows db d l →
      (l.id ∈ {k | ∃ d ∈ db.deliveries, d.id = k ∧ P d} ↔ P d) := by
    intro P d l hd hl
    constructor
    · rintro ⟨x, hx, hxl, hP⟩
      exact db.sound.delivery_pk.eq hx hd (hxl.trans hl.id.symm) ▸ hP
    · intro hP
      exact ⟨d, hd, hl.id, hP⟩
  refine .reset ?_ ?_
  · ext l
    rw [mem_known_map hb hid hbox hcontent hm]
    simp
  · ext l
    rw [mem_waiting_map hb hid hbox hcontent hm]
    constructor
    · rintro (⟨d, hd, ho, hl⟩ | ⟨r, hr, -⟩)
      · rcases (hf d).mp ho with ⟨ho, hnot⟩ | ⟨hk, hback, hpos⟩
        · refine Or.inl ⟨⟨d, hd, ho, hl⟩, fun hk hpast => ?_⟩
          exact hnot (hl.box.trans hk) ((hrow hd hl).mp hpast)
        · exact Or.inr ⟨⟨d, hd, hl⟩, hl.box.symm.trans hk, (hrow hd hl).mpr hback,
            hkeeps.mpr hpos⟩
      · cases hr
    · rintro (⟨⟨d, hd, ho, hl⟩, hnot⟩ | ⟨⟨d, hd, hl⟩, hk, hback, hpos⟩)
      · refine Or.inl ⟨d, hd, (hf d).mpr (Or.inl ⟨ho, fun hk hpast => ?_⟩), hl⟩
        exact hnot (hl.box.symm.trans hk) ((hrow hd hl).mpr hpast)
      · exact Or.inl ⟨d, hd, (hf d).mpr (Or.inr ⟨hl.box.trans hk, (hrow hd hl).mp hback,
          hkeeps.mp hpos⟩), hl⟩

theorem seekToTime_serves {p : SeekSubscriptionToTimeParams} {r : SeekResults}
    (h : seekSubscriptionToTime env p tx = .ok (r, tx')) :
    Serves (office env tx.db.toTables) (mail env.now tx.db)
      (request env tx.db.toTables (.seekToTime p)) ∅ (mail env.now tx'.db) := by
  obtain ⟨sub, hsub, h⟩ := bind_ok.mp h
  obtain ⟨-, rfl⟩ := Prod.mk.inj (pure_ok.mp h)
  simp only [request, hsub]
  rw [wakeIfSeeked_db]
  have hrows : ((tx.db.updateDeliveries (seekTimeAcks env sub p.time)
      (ackAll env)).updateDeliveries (seekTimeDeAcks env sub p.time) (deAckAll env sub)).deliveries =
      tx.db.deliveries.map (setWhere (seekTimeDeAcks env sub p.time) (deAckAll env sub).apply ∘
        setWhere (seekTimeAcks env sub p.time) (ackAll env).apply) ++ [] := by
    rw [List.append_nil, ← List.map_map]
    rfl
  refine reset_serves (only_ok hsub).1 hrows (by simp) (by simp) (by simp) (fun _ hm => hm) ?_
  exact fun d => seekTime_row

theorem seekToSnapshot_serves {p : SeekSubscriptionToSnapshotParams} {r : SeekResults}
    (h : seekSubscriptionToSnapshot env p tx = .ok (r, tx')) :
    Serves (office env tx.db.toTables) (mail env.now tx.db)
      (request env tx.db.toTables (.seekToSnapshot p)) ∅ (mail env.now tx'.db) := by
  obtain ⟨sub, hsub, h⟩ := bind_ok.mp h
  obtain ⟨snap, hsnap, h⟩ := bind_ok.mp h
  obtain ⟨-, rfl⟩ := Prod.mk.inj (pure_ok.mp h)
  simp only [request, hsub, hsnap]
  rw [wakeIfSeeked_db]
  have hrows : (((tx.db.updateDeliveries (seekSnapshotAcksBefore env sub snap)
      (ackAll env)).updateDeliveries (seekSnapshotAcksListed env sub snap)
        (ackAll env)).updateDeliveries (seekSnapshotDeAcks sub snap)
          (deAckAll env sub)).deliveries = tx.db.deliveries.map
      (setWhere (seekSnapshotDeAcks sub snap) (deAckAll env sub).apply ∘
        setWhere (seekSnapshotAcksListed env sub snap) (ackAll env).apply ∘
          setWhere (seekSnapshotAcksBefore env sub snap) (ackAll env).apply) ++ [] := by
    rw [List.append_nil, ← List.map_map, ← List.map_map]
    rfl
  refine reset_serves (only_ok hsub).1 hrows (by simp) (by simp) (by simp) (fun _ hm => hm) ?_
  exact fun d => seekSnapshot_row

end

theorem mail_quiet {now : Time} {a b : DB} (h : Quiet a b) : mail now b = mail now a := by
  have hshows : ∀ d ∈ a.deliveries, ∀ l, Shows b d l ↔ Shows a d l := by
    intro d hd l
    constructor
    · intro hl
      exact ⟨hl.id, hl.box, hl.content, h.messages _ hl.message⟩
    · intro hl
      exact ⟨hl.id, hl.box, hl.content, h.loaded _ hl.message ⟨d, hd, hl.content⟩⟩
  ext l
  · constructor
    · rintro ⟨d, hd, hl⟩
      rw [h.deliveries] at hd
      exact ⟨d, hd, (hshows d hd l).mp hl⟩
    · rintro ⟨d, hd, hl⟩
      exact ⟨d, h.deliveries ▸ hd, (hshows d hd l).mpr hl⟩
  · constructor
    · rintro ⟨d, hd, ho, hl⟩
      rw [h.deliveries] at hd
      exact ⟨d, hd, ho, (hshows d hd l).mp hl⟩
    · rintro ⟨d, hd, ho, hl⟩
      exact ⟨d, h.deliveries ▸ hd, ho, (hshows d hd l).mpr hl⟩

theorem prune_serves {env : Env} {db : DB} {q : Delivery → Bool}
    (hq : ∀ d ∈ db.deliveries, q d = true → Alterations.Prunable env.now db.toTables d) :
    Serves (office env db.toTables) (mail env.now db) .tidy ∅
      (mail env.now (db.deleteDeliveries q)) := by
  have hgone : ∀ d ∈ db.deliveries, ∀ l, Shows db d l →
      ((∃ x ∈ db.deliveries, q x = true ∧ Shows db x l) ↔ q d = true) := by
    intro d hd l hl
    constructor
    · rintro ⟨x, hx, hqx, hlx⟩
      have hsame : x = d := db.sound.delivery_pk.eq hx hd (by rw [hlx.id, hl.id])
      exact hsame ▸ hqx
    · intro hqd
      exact ⟨d, hd, hqd, hl⟩
  refine .tidy {l | ∃ d ∈ db.deliveries, q d = true ∧ Shows db d l} ?_ ?_ ?_
  · rintro l ⟨d, hd, hqd, hl⟩ ⟨x, hx, ho, hlx⟩
    have hsame : x = d := db.sound.delivery_pk.eq hx hd (by rw [hlx.id, hl.id])
    rw [hsame] at ho
    rcases hq d hd hqd with hcompleted | hexpired | ⟨s, hs, hid, hdeleted⟩
    · exact absurd ho.1 hcompleted
    · exact absurd ho.2 (not_lt.mpr hexpired.le)
    · exact ⟨s, hs, hid.trans hl.box, hdeleted⟩
  · ext l
    constructor
    · rintro ⟨x, hx, hl⟩
      obtain ⟨d, hd, hqd, rfl⟩ := mem_deliveriesWithout.mp hx
      have hl : Shows db d l := ⟨hl.id, hl.box, hl.content, hl.message⟩
      refine ⟨⟨d, hd, hl⟩, fun hmem => ?_⟩
      rw [(hgone d hd l hl).mp hmem] at hqd
      cases hqd
    · rintro ⟨⟨d, hd, hl⟩, hnot⟩
      have hqd : q d = false := by
        rw [← Bool.not_eq_true]
        exact fun hqd => hnot ⟨d, hd, hqd, hl⟩
      exact ⟨_, mem_deliveriesWithout.mpr ⟨d, hd, hqd, rfl⟩, hl.id, hl.box, hl.content, hl.message⟩
  · ext l
    constructor
    · rintro ⟨x, hx, ho, hl⟩
      obtain ⟨d, hd, hqd, rfl⟩ := mem_deliveriesWithout.mp hx
      have hl : Shows db d l := ⟨hl.id, hl.box, hl.content, hl.message⟩
      refine ⟨⟨d, hd, ho, hl⟩, fun hmem => ?_⟩
      rw [(hgone d hd l hl).mp hmem] at hqd
      cases hqd
    · rintro ⟨⟨d, hd, ho, hl⟩, hnot⟩
      have hqd : q d = false := by
        rw [← Bool.not_eq_true]
        exact fun hqd => hnot ⟨d, hd, hqd, hl⟩
      exact ⟨_, mem_deliveriesWithout.mpr ⟨d, hd, hqd, rfl⟩, ho,
        hl.id, hl.box, hl.content, hl.message⟩

/-- A transaction that commits does what the broker does about the request. -/
theorem exec_serves (w : World) (e : Event) {given : List SubscriptionMessageDelivery} {tx : Tx}
    (h : exec e.env e.action (Tx.begin w.db) = .ok (given, tx)) :
    ∃ out, Serves (office e.env w.db.toTables) (mail e.env.now w.db)
        (request e.env w.db.toTables e.action) out (mail e.env.now (w.after e).db) ∧
      Handed given out := by
  have hafter := after_ok h
  by_cases ha : OnDeliveries e.action
  · rw [hafter]
    obtain ⟨env, action, hv⟩ := e
    cases action <;> try exact absurd ha id
    case touch p =>
      obtain ⟨rfl, hb⟩ := quiet_tx h
      obtain ⟨sub, -, hb⟩ := bind_ok.mp hb
      obtain ⟨hway, hrows⟩ := refresh_underway hb
      exact ⟨∅, serves_still (mail_congr hrows hway.messages), handed_nil⟩
    case publish p =>
      obtain ⟨rfl, r, hb⟩ := quiet_ok h
      exact ⟨∅, publish_serves rfl hb, handed_nil⟩
    case get p =>
      obtain ⟨⟨r, last⟩, hr, heq⟩ := map_ok.mp h
      obtain ⟨rfl, rfl⟩ := Prod.mk.inj heq
      exact get_serves hv.1 hr
    case ack ids =>
      cases h
      exact ⟨∅, ack_serves env ids (Tx.begin w.db), handed_nil⟩
    case nack ids =>
      obtain ⟨rfl, r, hb⟩ := quiet_ok h
      exact ⟨∅, nack_serves hb, handed_nil⟩
    case delay p =>
      cases h
      exact ⟨∅, serves_still (mail_update (delayPredicates env p) rfl rfl), handed_nil⟩
    case deadLetter n =>
      obtain ⟨rfl, r, hb⟩ := quiet_ok h
      exact ⟨∅, sweep_serves hb, handed_nil⟩
    case seekToTime p =>
      obtain ⟨rfl, r, hb⟩ := quiet_ok h
      exact ⟨∅, seekToTime_serves hb, handed_nil⟩
    case seekToSnapshot p =>
      obtain ⟨rfl, r, hb⟩ := quiet_ok h
      exact ⟨∅, seekToSnapshot_serves hb, handed_nil⟩
  · have hrequest : request e.env w.db.toTables e.action = .tidy := by
      generalize e.action = a at ha
      cases a <;> first | rfl | exact absurd trivial ha
    have hgiven : given = [] := by
      rcases exec_given h with hnil | ⟨p, r, hp, -⟩
      · exact hnil
      · exact absurd (by rw [hp]; trivial) ha
    rw [hrequest, hgiven]
    refine ⟨∅, ?_, handed_nil⟩
    rcases alteration_quiet (Alterations.alteration_after w e ha) rfl with hquiet | ⟨q, hq, hdb⟩
    · exact serves_still (mail_quiet hquiet)
    · rw [hdb]
      exact prune_serves hq

def expired (now now' : Time) (db : DB) : Set (Letter UUID UUID Message) :=
  {l | ∃ d ∈ db.deliveries, now < d.expiresAt ∧ d.expiresAt ≤ now' ∧ Shows db d l}

/-- What a run is to the broker: with every transaction time goes on, and the
request of one that commits is served under the office of its tables. -/
def log (w : World) : List Event →
    List (Occasion UUID UUID Message UUID (List SubscriptionMessageDelivery))
  | [] => []
  | e :: es => .lapse (expired w.clock e.env.now w.db) ::
    match exec e.env e.action (Tx.begin w.db) with
    | .ok (given, _) =>
      .serve (office e.env w.db.toTables) (request e.env w.db.toTables e.action) given ::
        log (w.after e) es
    | .error _ => log (w.after e) es

theorem waiting_later {now now' : Time} (h : now ≤ now') (db : DB) :
    (mail now' db).waiting = (mail now db).waiting \ expired now now' db := by
  ext l
  constructor
  · rintro ⟨d, hd, ho, hl⟩
    refine ⟨⟨d, hd, ⟨ho.1, h.trans_lt ho.2⟩, hl⟩, ?_⟩
    rintro ⟨x, hx, -, hle, hlx⟩
    obtain rfl : x = d := db.sound.delivery_pk.eq hx hd (hlx.id.trans hl.id.symm)
    exact absurd ho.2 (not_lt.mpr hle)
  · rintro ⟨⟨d, hd, ho, hl⟩, hnot⟩
    refine ⟨d, hd, ⟨ho.1, ?_⟩, hl⟩
    by_contra hlate
    exact hnot ⟨d, hd, ho.2, not_lt.mp hlate, hl⟩

/-- The bus is a broker: a run of it is a course of the requests it serves,
each under the office of its tables, and hands out what the broker does. -/
theorem bus_refines_broker {w : World} {es : List Event} (h : Allowed Later w es) :
    Course Handed (mail w.clock w.db) (log w es) (mail (w.run es).clock (w.run es).db) := by
  induction es generalizing w with
  | nil => exact .done _
  | cons e es ih =>
    have hrest := ih h.2
    rw [after_clock] at hrest
    have hknown : (mail e.env.now w.db).known = (mail w.clock w.db).known := rfl
    refine .lapse hknown (waiting_later h.1 w.db) ?_
    cases hexec : exec e.env e.action (Tx.begin w.db) with
    | ok r =>
      obtain ⟨given, tx⟩ := r
      obtain ⟨out, hserves, hhanded⟩ := exec_serves w e hexec
      exact .serve hserves hhanded hrest
    | error x =>
      rw [after_failed hexec] at hrest
      exact hrest

def forwardingRun : List Event := NoLoss.spentRun ++ [
  NoLoss.nackSpent,
  ⟨.plain 8 80, .get ⟨"watcher", none, 1, 1, false⟩, by decide⟩]

theorem bus_refines_broker_forwarding :
    Course Handed (mail World.initial.clock World.initial.db) (log World.initial forwardingRun)
      (mail (World.initial.run forwardingRun).clock (World.initial.run forwardingRun).db) :=
  bus_refines_broker (by decide +kernel)

structure Stores (w : World) (e : Event) (p : PublishMessageParams) (m : Message) : Prop where
  action : e.action = .publish p
  commits : ∃ tx, exec e.env e.action (Tx.begin w.db) = .ok ([], tx)
  topic : ∃ topic, publishTopic p w.db.toTables = .ok topic ∧ m.topicID = topic.id
  id : m.id = e.env.uuid 0
  publishedAt : m.publishedAt = e.env.now
  orderKey : m.orderKey = if p.orderKey = "" then none else some p.orderKey
  payload : storedPayload e.env p.payload = some m.payload
  attributes : m.attributes = p.attributes

def Posted (w : World) (es : List Event) (m : Message) : Prop :=
  ∃ pre e post p, es = pre ++ e :: post ∧ Stores (w.run pre) e p m

theorem Posted.later {w : World} {e : Event} {es : List Event} {m : Message}
    (h : Posted (w.after e) es m) : Posted w (e :: es) m := by
  obtain ⟨pre, e', post, p, rfl, hstores⟩ := h
  exact ⟨e :: pre, e', post, p, rfl, hstores⟩

theorem post_stores {w : World} {e : Event} {t : UUID} {m : Message}
    {given : List SubscriptionMessageDelivery} {tx : Tx}
    (hexec : exec e.env e.action (Tx.begin w.db) = .ok (given, tx))
    (h : request e.env w.db.toTables e.action = .post t m) : ∃ p, Stores w e p m := by
  obtain ⟨env, action, hv⟩ := e
  cases action
  case publish p =>
    obtain ⟨rfl, r, hb⟩ := quiet_ok hexec
    have hcommits : ∃ tx, exec env (.publish p) (Tx.begin w.db) = .ok ([], tx) := ⟨tx, hexec⟩
    obtain ⟨topic, htopic, hb⟩ := bind_ok.mp hb
    obtain ⟨_, hstored, -⟩ := bind_ok.mp hb
    have htopic : publishTopic p w.db.toTables = .ok topic := htopic
    simp only [request, htopic] at h
    obtain ⟨rfl, rfl⟩ := Request.post.inj h
    obtain ⟨stored, hs⟩ := Option.ne_none_iff_exists'.mp (failWhen_ok.mp hstored)
    exact ⟨p, rfl, hcommits, ⟨topic, htopic, rfl⟩, rfl, rfl, rfl, by simp [newMessage, hs], rfl⟩
  all_goals
    simp only [request] at h
    first
      | cases h
      | split at h <;> cases h

theorem known_posted {w : World} {es : List Event} {now now' : Time}
    {l : Letter UUID UUID Message} (hl : l ∈ (mail now (w.run es).db).known) :
    (∃ k ∈ (mail now' w.db).known, k.content = l.content) ∨ Posted w es l.content := by
  induction es generalizing w with
  | nil => exact Or.inl ⟨l, hl, rfl⟩
  | cons e es ih =>
    rcases ih (w := w.after e) hl with ⟨k, hk, hcontent⟩ | hposted
    · cases hexec : exec e.env e.action (Tx.begin w.db) with
      | error x =>
        rw [after_failed hexec] at hk
        exact Or.inl ⟨k, hk, hcontent⟩
      | ok r =>
        obtain ⟨given, tx⟩ := r
        obtain ⟨out, hserves, -⟩ := exec_serves w e hexec
        rcases hserves.origin hk with hk | ⟨t, hpost, -⟩ | ⟨k', hk', t, -, hcopy, -⟩
        · exact Or.inl ⟨k, hk, hcontent⟩
        · obtain ⟨p, hstores⟩ := post_stores hexec hpost
          exact Or.inr ⟨[], e, es, p, rfl, hcontent ▸ hstores⟩
        · exact Or.inl ⟨k', hk', hcopy.symm.trans hcontent⟩
    · exact Or.inr hposted.later

/-- What any get hands out is a message that was published earlier in the run:
as it was published, with its payload as the database gives it back. -/
theorem handed_out_posted {es : List Event} {e : Event}
    {given : List SubscriptionMessageDelivery} {tx : Tx}
    (h : exec e.env e.action (Tx.begin (World.initial.run es).db) = .ok (given, tx))
    {x : SubscriptionMessageDelivery} (hx : x ∈ given) :
    ∃ m, Posted World.initial es m ∧ x.messageID = m.id ∧ x.publishedAt = m.publishedAt ∧
      x.orderKey = m.orderKey ∧ x.payload = m.payload ∧ x.attributes = m.attributes := by
  obtain ⟨out, hserves, hhanded⟩ := exec_serves (World.initial.run es) e h
  obtain ⟨l, hl, hands⟩ := hhanded.1 x hx
  have hposted : Posted World.initial es l.content := by
    have horigin : (∃ k ∈ (mail 0 World.initial.db).known, k.content = l.content) ∨
        Posted World.initial es l.content := known_posted (hserves.out_known hl)
    rcases horigin with ⟨k, ⟨d, hd, -⟩, -⟩ | hposted
    · cases hd
    · exact hposted
  exact ⟨l.content, hposted, hands.messageID, hands.publishedAt, hands.orderKey, hands.payload,
    hands.attributes⟩

def forwarded : SubscriptionMessageDelivery :=
  ⟨70, 50, 5, 1, 11000000008, 188599853, none, JsonText.escape "1", []⟩

theorem handed_out_posted_forwarding :
    ∃ m, Posted World.initial (NoLoss.spentRun ++ [NoLoss.nackSpent]) m ∧
      forwarded.messageID = m.id ∧ forwarded.publishedAt = m.publishedAt ∧
      forwarded.orderKey = m.orderKey ∧ forwarded.payload = m.payload ∧
      forwarded.attributes = m.attributes := by
  have hgiven : ((exec (.plain 8 80) (.get ⟨"watcher", none, 1, 1, false⟩) (Tx.begin
      (World.initial.run (NoLoss.spentRun ++ [NoLoss.nackSpent])).db)).map Prod.fst) =
      .ok [forwarded] := by
    decide +kernel
  obtain ⟨⟨given, tx⟩, hexec, rfl⟩ := map_ok.mp hgiven
  exact handed_out_posted (e := ⟨.plain 8 80, .get ⟨"watcher", none, 1, 1, false⟩, by decide⟩)
    hexec (List.mem_singleton_self _)

end Mmmbbb.Brokering
