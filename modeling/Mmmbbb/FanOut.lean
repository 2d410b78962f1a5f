import Mmmbbb.Handlers
import Mmmbbb.Waking

/-!
# A publish request reaches every subscription that wants it

One transaction carries all the messages of a request and all their
deliveries. A filter that does not parse drops the deliveries of its own
subscription only, and whatever statement fails takes the whole request back.
-/

set_option autoImplicit false

namespace Mmmbbb.FanOut
open KeyedRows Programs Mmmbbb.Schema Mmmbbb.Database Mmmbbb.Delivering Mmmbbb.Consuming
open Mmmbbb.Administering Mmmbbb.Runs Mmmbbb.Listing Mmmbbb.Messages Mmmbbb.Handlers
open Mmmbbb.Waking

/-- What a transaction leaves when it is over: the listeners are woken by its
commit. -/
structure Outcome (α : Type) where
  result : Except Error α
  db : DB
  woken : List Hook

/-- `DoTx`, with the error that its commit meets if it does. -/
def doTx {α : Type} (commit : Option Error) (db : DB) (body : Tx → Except Error (α × Tx)) :
    Outcome α :=
  match body (Tx.begin db) with
  | .error e => ⟨.error e, db, []⟩
  | .ok (a, tx) =>
    match commit with
    | some e => ⟨.error e, db, []⟩
    | none => ⟨.ok a, tx.db, tx.onCommit⟩

structure Faults where
  message : Option Error
  deliveries : Option Error

def Faults.none : Faults := ⟨.none, .none⟩

def statement : Option Error → Except Error Unit
  | .none => .ok ()
  | .some e => .error e

def publishMessage (env : Env) (p : PublishMessageParams) (faults : Faults) (tx : Tx) :
    Except Error (PublishMessageResults × Tx) := do
  let t ← publishTopic p tx.db.toTables
  let subs := liveSubscriptions env tx.db.toTables t.id
  let m := newMessage env (env.uuid tx.drawn) t.id p
  failWhen (storedPayload env p.payload = none) .invalidPayload
  statement faults.message
  let db ← tx.db.insertMessage m
  let (dc, tx) := deliverAll env subs m { tx with db := db, drawn := tx.drawn + 1 }
  statement faults.deliveries
  let tx ← createBulk env dc tx
  pure (⟨m.id, dc.length⟩, tx)

structure Element where
  message : PbPubsubMessage
  now : Time
  faults : Faults

def publishOne (text : UUIDText) (env : Env) (t : Topic) (st : List String × Tx) (el : Element) :
    Except Error (List String × Tx) := do
  let p : PublishMessageParams :=
    ⟨t.name, some t.id, el.message.data, el.message.attributes, el.message.orderingKey⟩
  construct (.publish p)
  let (results, tx) ← publishMessage { env with now := el.now } p el.faults st.2
  pure (st.1 ++ [text.string results.id], tx)

def publish (text : UUIDText) (env : Env) (topic : String) (elements : List Element)
    (commit : Option Error) (db : DB) : Outcome (List String) :=
  match checkTopicName topic with
  | .error e => ⟨.error e, db, []⟩
  | .ok () =>
    doTx commit db (fun tx => do
      let t ← only (liveTopicNamed topic) tx.db.topics
      elements.foldlM (publishOne text env t) ([], tx))

theorem doTx_ok {α : Type} {commit : Option Error} {db : DB} {body : Tx → Except Error (α × Tx)}
    {x : α} (h : (doTx commit db body).result = .ok x) :
    ∃ tx, body (Tx.begin db) = .ok (x, tx) ∧ commit = none ∧ (doTx commit db body).db = tx.db ∧
      (doTx commit db body).woken = tx.onCommit := by
  unfold doTx at h ⊢
  cases hbody : body (Tx.begin db) with
  | error e =>
    rw [hbody] at h
    cases h
  | ok r =>
    rw [hbody] at h
    cases commit with
    | some e => cases h
    | none =>
      cases h
      exact ⟨r.2, rfl, rfl, rfl, rfl⟩

theorem doTx_error {α : Type} {commit : Option Error} {db : DB}
    {body : Tx → Except Error (α × Tx)} {e : Error} (h : (doTx commit db body).result = .error e) :
    (doTx commit db body).db = db ∧ (doTx commit db body).woken = [] := by
  unfold doTx at h ⊢
  split at h
  · exact ⟨rfl, rfl⟩
  · split at h
    · exact ⟨rfl, rfl⟩
    · cases h

/-- Without a failing commit this is the transaction of a handler. -/
theorem doTx_transact {α : Type} (db : DB) (body : Tx → Except Error (α × Tx)) :
    (doTx none db body).result.map (fun x => (x, (doTx none db body).db)) = transact db body := by
  unfold doTx transact
  cases body (Tx.begin db) <;> rfl

/-- Without faults, and at one instant, this is the handler. -/
theorem publish_faultless (text : UUIDText) (env : Env) (req : PbPublishRequest) (db : DB) :
    let out := publish text env req.topic (req.messages.map (fun m => ⟨m, env.now, .none⟩)) none db
    out.result.map (fun ids => (ids, out.db)) = Handlers.publish text env req db := by
  have hone : ∀ t st m, publishOne text env t st ⟨m, env.now, .none⟩ =
      Handlers.publishOne text env t st m := fun _ _ _ => rfl
  unfold publish Handlers.publish
  cases checkTopicName req.topic with
  | error e => rfl
  | ok u =>
    dsimp only
    rw [doTx_transact]
    simp only [List.foldlM_map, hone]
    rfl

def Wanted (env : Env) (s : Subscription) (m : Message) : Prop :=
  s.messageFilter = none ∨ s.messageFilter = some "" ∨
    ∃ text f, s.messageFilter = some text ∧ env.parseFilter text = .ok f ∧
      f.evaluate (attributeBytes m) = .ok true

theorem filterAccepts_iff {env : Env} {s : Subscription} {m : Message} :
    filterAccepts env s m = true ↔ Wanted env s m := by
  unfold filterAccepts Wanted
  cases hf : s.messageFilter with
  | none => simp
  | some text =>
    by_cases hempty : text = ""
    · simp [hempty]
    · simp only [hempty, if_false]
      cases hparse : env.parseFilter text with
      | error e => simp [hempty, hparse]
      | ok f =>
        cases heval : f.evaluate (attributeBytes m) with
        | error e => simp [hempty, hparse, heval]
        | ok accepted => simp [hempty, hparse, heval]

structure Post where
  message : Message
  deliveries : List Delivery

structure Posted (env : Env) (t : Topic) (subscriptions : List Subscription) (el : Element)
    (post : Post) : Prop where
  topic : post.message.topicID = t.id
  payload : storedPayload env el.message.data = some post.message.payload
  attributes : post.message.attributes = el.message.attributes
  publishedAt : post.message.publishedAt = el.now
  delivered : ∀ d ∈ post.deliveries, d.messageID = post.message.id
  once : (post.deliveries.map Delivery.subscriptionID).Nodup
  subscribers : ∀ k, k ∈ post.deliveries.map Delivery.subscriptionID ↔
    ∃ s ∈ subscriptions, s.id = k ∧ s.topicID = t.id ∧ s.deletedAt = none ∧
      Wanted env s post.message

section
variable {env : Env} {p : PublishMessageParams} {faults : Faults} {tx tx' : Tx}

theorem statement_ok {f : Option Error} : statement f = .ok () ↔ f = none := by
  cases f <;> simp [statement]

def Post.hooks (post : Post) : List Hook :=
  post.deliveries.map (fun d => .wakePublishListeners false [d.subscriptionID])

structure Added (tx tx' : Tx) (posts : List Post) : Prop where
  rows : tx'.db.toTables = { tx.db.toTables with
    messages := tx.db.messages ++ posts.map Post.message
    deliveries := tx.db.deliveries ++ posts.flatMap Post.deliveries }
  hooks : tx'.onCommit = tx.onCommit ++ posts.flatMap Post.hooks

theorem Added.trans {mid : Tx} {first rest : List Post} (h : Added tx mid first)
    (h' : Added mid tx' rest) : Added tx tx' (first ++ rest) where
  rows := by
    rw [h'.rows, h.rows]
    simp
  hooks := by
    rw [h'.hooks, h.hooks]
    simp

theorem accepted_subscriptions (env : Env) (t : Tables) (subs : List Subscription) (m : Message) :
    (subs.filterMap (fun s => deliverToSubscription env t s m)).map
        DeliveryCreate.subscriptionID =
      (subs.filter (fun s => filterAccepts env s m)).map Subscription.id := by
  induction subs with
  | nil => rfl
  | cons s subs ih =>
    rw [List.filterMap_cons, List.filter_cons, deliverToSubscription]
    by_cases hacc : filterAccepts env s m = true
    · rw [if_pos hacc, if_pos hacc, List.map_cons, List.map_cons, ih]
      rfl
    · rw [if_neg hacc, if_neg hacc]
      exact ih

theorem publishMessage_ok {r : PublishMessageResults}
    (h : publishMessage env p faults tx = .ok (r, tx')) :
    ∃ t post, publishTopic p tx.db.toTables = .ok t ∧ faults = .none ∧
      storedPayload env p.payload = some post.message.payload ∧
      post.message = newMessage env r.id t.id p ∧ Added tx tx' [post] ∧
      (∀ d ∈ post.deliveries, d.messageID = post.message.id) ∧
      post.deliveries.map Delivery.subscriptionID =
        ((liveSubscriptions env tx.db.toTables t.id).filter
          (fun s => filterAccepts env s post.message)).map Subscription.id := by
  obtain ⟨t, ht, h⟩ := bind_ok.mp h
  obtain ⟨_, hstored, h⟩ := bind_ok.mp h
  obtain ⟨u, hmessage, h⟩ := bind_ok.mp h
  obtain ⟨db, hdb, h⟩ := bind_ok.mp h
  obtain ⟨v, hdeliveries, h⟩ := bind_ok.mp h
  obtain ⟨last, hbulk, h⟩ := bind_ok.mp h
  cases pure_ok.mp h
  obtain ⟨-, hmsg⟩ := DB.insertMessage_ok hdb
  have hcommit := createBulk_onCommit hbulk
  obtain ⟨-, -, hrows, -⟩ := createBulk_rows hbulk
  simp only at hcommit hrows
  have hpayload : storedPayload env p.payload =
      some (newMessage env (env.uuid tx.drawn) t.id p).payload := by
    obtain ⟨stored, hs⟩ := Option.ne_none_iff_exists'.mp (failWhen_ok.mp hstored)
    rw [newMessage, hs, Option.getD_some]
  generalize hm : newMessage env (env.uuid tx.drawn) t.id p = m at *
  generalize hdc : (liveSubscriptions env tx.db.toTables t.id).filterMap
    (fun s => deliverToSubscription env db.toTables s m) = dc at *
  have hsubs : (deliveryRows env (tx.drawn + 1) dc).map Delivery.subscriptionID =
      dc.map DeliveryCreate.subscriptionID := deliveryRows_subscriptions _ _ _
  refine ⟨t, ⟨m, deliveryRows env (tx.drawn + 1) dc⟩, ht, ?_, hpayload, ?_, ?_, ?_, ?_⟩
  · obtain ⟨fm, fd⟩ := faults
    have hfm : fm = none := statement_ok.mp hmessage
    have hfd : fd = none := statement_ok.mp hdeliveries
    rw [hfm, hfd]
    rfl
  · rw [← hm]
    rfl
  · constructor
    · rw [hrows, hmsg]
      simp
    · have hhooks : (deliveryRows env (tx.drawn + 1) dc).map
          (fun d => Hook.wakePublishListeners false [d.subscriptionID]) =
          dc.map (fun c => .wakePublishListeners false [c.subscriptionID]) := by
        have hids := congrArg (List.map (fun k => Hook.wakePublishListeners false [k])) hsubs
        simpa only [List.map_map, Function.comp_def] using hids
      rw [hcommit]
      simp [Post.hooks, hhooks]
  · intro d hd
    obtain ⟨k, hk, rfl⟩ := mem_deliveryRows.mp hd
    have hc : dc[k] ∈ (liveSubscriptions env tx.db.toTables t.id).filterMap
        (fun s => deliverToSubscription env db.toTables s m) := by
      rw [hdc]
      exact List.getElem_mem hk
    obtain ⟨s, -, hs⟩ := List.mem_filterMap.mp hc
    obtain ⟨-, hset⟩ := deliverToSubscription_some.mp hs
    have hid : dc[k].messageID = m.id := by rw [← hset]; rfl
    exact hid
  · rw [hsubs, ← hdc, accepted_subscriptions]

theorem publishOne_ok {text : UUIDText} {t : Topic} {el : Element} {names names' : List String}
    (h : publishOne text env t (names, tx) el = .ok (names', tx')) :
    ∃ post, Posted env t tx.db.subscriptions el post ∧ Added tx tx' [post] ∧
      el.faults = .none ∧ names' = names ++ [text.string post.message.id] := by
  obtain ⟨u, -, h⟩ := bind_ok.mp h
  obtain ⟨⟨r, last⟩, hpublish, h⟩ := bind_ok.mp h
  cases pure_ok.mp h
  obtain ⟨t', post, ht', hfaults, hstored, hmessage, hadded, hdelivered, hsubs⟩ := publishMessage_ok hpublish
  have hid : t'.id = t.id := by
    have hmatch := (only_ok ht').2
    simp only [idMatches, Bool.and_eq_true, decide_eq_true_eq] at hmatch
    exact hmatch.1.2
  rw [hid] at hmessage hsubs
  have hrid : post.message.id = r.id := by rw [hmessage]; rfl
  refine ⟨post, ?_, hadded, hfaults, by rw [hrid]⟩
  constructor
  · rw [hmessage]
    rfl
  · exact hstored
  · rw [hmessage]
    rfl
  · rw [hmessage]
    rfl
  · exact hdelivered
  · rw [hsubs]
    exact (liveSubscriptions_nodup tx.db.sound.subscription_pk).sublist (List.filter_sublist.map _)
  · intro k
    rw [hsubs]
    have hwanted : ∀ s, filterAccepts { env with now := el.now } s post.message = true ↔
        Wanted env s post.message := fun s => filterAccepts_iff
    simp only [List.mem_map, List.mem_filter, mem_liveSubscriptions, hwanted]
    constructor
    · rintro ⟨s, ⟨⟨hs, htopic, hlive⟩, hw⟩, hk⟩
      exact ⟨s, hs, hk, htopic, hlive, hw⟩
    · rintro ⟨s, hs, hk, htopic, hlive, hw⟩
      exact ⟨s, ⟨⟨hs, htopic, hlive⟩, hw⟩, hk⟩

theorem publishAll_ok {text : UUIDText} {t : Topic} {els : List Element} {names ids : List String}
    (h : els.foldlM (publishOne text env t) (names, tx) = .ok (ids, tx')) :
    ∃ posts, List.Forall₂ (Posted env t tx.db.subscriptions) els posts ∧ Added tx tx' posts ∧
      (∀ el ∈ els, el.faults = .none) ∧
      ids = names ++ posts.map (fun post => text.string post.message.id) := by
  induction els generalizing names tx with
  | nil =>
    cases pure_ok.mp h
    exact ⟨[], .nil, ⟨by simp, by simp⟩, by simp, by simp⟩
  | cons el els ih =>
    rw [List.foldlM_cons] at h
    obtain ⟨⟨names', mid⟩, hone, hrest⟩ := bind_ok.mp h
    obtain ⟨post, hposted, hadded, hfault, hnames⟩ := publishOne_ok hone
    obtain ⟨posts, hall, hmore, hfaults, hids⟩ := ih hrest
    have hsubs : mid.db.subscriptions = tx.db.subscriptions := by rw [hadded.rows]
    rw [hsubs] at hall
    refine ⟨post :: posts, .cons hposted hall, hadded.trans hmore, ?_, ?_⟩
    · intro x hx
      rcases List.mem_cons.mp hx with rfl | hx
      · exact hfault
      · exact hfaults x hx
    · rw [hids, hnames]
      simp

end

structure FannedOut (text : UUIDText) (env : Env) (topic : String) (elements : List Element)
    (db : DB) (ids : List String) (out : Outcome (List String)) (t : Topic) (posts : List Post) :
    Prop where
  live : t ∈ db.topics ∧ t.name = topic ∧ t.deletedAt = none
  posted : List.Forall₂ (Posted env t db.subscriptions) elements posts
  ids : ids = posts.map (fun post => text.string post.message.id)
  rows : out.db.toTables = { db.toTables with
    messages := db.messages ++ posts.map Post.message
    deliveries := db.deliveries ++ posts.flatMap Post.deliveries }
  distinct : (posts.map (fun post => post.message.id)).Nodup
  woken : out.woken = posts.flatMap Post.hooks

theorem publish_ok {text : UUIDText} {env : Env} {topic : String} {elements : List Element}
    {commit : Option Error} {db : DB} {ids : List String}
    (h : (publish text env topic elements commit db).result = .ok ids) :
    commit = none ∧ (∀ el ∈ elements, el.faults = .none) ∧
      ∃ t posts, FannedOut text env topic elements db ids
        (publish text env topic elements commit db) t posts := by
  unfold publish at h ⊢
  split at h
  · cases h
  · obtain ⟨tx, hbody, hcommit, hdb, hwoken⟩ := doTx_ok h
    obtain ⟨t, ht, hall⟩ := bind_ok.mp hbody
    obtain ⟨hmem, hmatch⟩ := only_ok ht
    obtain ⟨posts, hposted, hadded, hfaults, hids⟩ := publishAll_ok hall
    simp only [liveTopicNamed, Bool.and_eq_true, decide_eq_true_eq, Option.isNone_iff_eq_none]
      at hmatch
    refine ⟨hcommit, hfaults, t, posts, ?_⟩
    have hrows : tx.db.toTables = { db.toTables with
        messages := db.messages ++ posts.map Post.message
        deliveries := db.deliveries ++ posts.flatMap Post.deliveries } := hadded.rows
    have hunique := tx.db.sound.message_pk
    rw [hrows, UniqueKeys, List.map_append] at hunique
    exact {
      live := ⟨hmem, hmatch⟩
      posted := hposted
      ids := hids
      rows := by rw [hdb, hrows]
      distinct := by simpa [Function.comp_def] using (List.nodup_append.mp hunique).2.1
      woken := by rw [hwoken, hadded.hooks]; rfl }

/-- On success every message is stored once and delivered to those that want
it; a request that meets any error leaves nothing and wakes nobody. With no
error and no time between its messages it is the handler. -/
theorem publish_fans_out (text : UUIDText) (env : Env) (topic : String) (elements : List Element)
    (commit : Option Error) (db : DB) :
    (∀ ids, (publish text env topic elements commit db).result = .ok ids →
      ∃ t posts, FannedOut text env topic elements db ids
        (publish text env topic elements commit db) t posts) ∧
    (∀ e, (publish text env topic elements commit db).result = .error e →
      (publish text env topic elements commit db).db = db ∧
        (publish text env topic elements commit db).woken = []) ∧
    (commit ≠ none ∨ (∃ el ∈ elements, el.faults ≠ .none ∨
        storedPayload env el.message.data = none) →
      ∃ e, (publish text env topic elements commit db).result = .error e) ∧
    (commit = none → ∀ messages, elements = messages.map (fun m => ⟨m, env.now, .none⟩) →
      (publish text env topic elements commit db).result.map
          (fun ids => (ids, (publish text env topic elements commit db).db)) =
        Handlers.publish text env ⟨topic, messages⟩ db) := by
  refine ⟨fun ids h => ?_, fun e h => ?_, fun hfails => ?_, ?_⟩
  · exact (publish_ok h).2.2
  · unfold publish at h ⊢
    split at h
    · exact ⟨rfl, rfl⟩
    · exact doTx_error h
  · cases h : (publish text env topic elements commit db).result with
    | error e => exact ⟨e, rfl⟩
    | ok ids =>
      obtain ⟨hcommit, hfaults, t, posts, hfanned⟩ := publish_ok h
      rcases hfails with hne | ⟨el, hel, hne | hne⟩
      · exact absurd hcommit hne
      · exact absurd (hfaults el hel) hne
      · obtain ⟨i, hi, rfl⟩ := List.mem_iff_getElem.mp hel
        have hposted := (List.forall₂_iff_get.mp hfanned.posted).2 i hi
          (hfanned.posted.length_eq ▸ hi)
        rw [List.get_eq_getElem] at hposted
        exact absurd hposted.payload (by simp [hne])
  · rintro rfl messages rfl
    exact publish_faultless text env ⟨topic, messages⟩ db

/-- A parser for which every filter asks for an attribute of an empty name. -/
def lenient (now : Time) (firstID : ℕ) : Env where
  __ := Env.plain now firstID
  parseFilter _ := .ok (.mk (.mk false (some ⟨some ⟨[]⟩, none, none⟩) none) none none)

def filteredBus : World := World.initial.run [
  Sample.projectOrdersTopic 1 10,
  ⟨.plain 2 20, .createSubscription ⟨"projects/p/topics/orders", "all", hour, hour, false, [], "",
    0, 0, "", 0, ""⟩, by decide⟩,
  ⟨lenient 3 30, .createSubscription ⟨"projects/p/topics/orders", "some", hour, hour, false, [], "",
    0, 0, "broken", 0, ""⟩, by decide⟩]

def element (data : List UInt8) (deliveries : Option Error) : Element :=
  ⟨⟨data, [], "", none, ""⟩, 4, ⟨none, deliveries⟩⟩

def one : List UInt8 := JsonText.escape "1"

def two : List UInt8 := JsonText.escape "2"

def publishTwo (second : Element) : Outcome (List String) :=
  publish hexText (.plain 4 40) "projects/p/topics/orders" [element one none, second] none
    filteredBus.db

theorem publish_fans_out_filtered :
    (∃ ids t posts, (publishTwo (element two none)).result = .ok ids ∧
      FannedOut hexText (.plain 4 40) "projects/p/topics/orders" [element one none, element two none]
        filteredBus.db ids (publishTwo (element two none)) t posts) ∧
    ∀ second ∈ [element two (some .constraint), element [1] none],
      ∃ e, (publishTwo second).result = .error e ∧ (publishTwo second).db = filteredBus.db := by
  have hall := fun second => publish_fans_out hexText (.plain 4 40) "projects/p/topics/orders"
    [element one none, second] none filteredBus.db
  constructor
  · have hok : (publishTwo (element two none)).result.toBool = true := by decide +kernel
    cases h : (publishTwo (element two none)).result with
    | error e =>
      rw [h] at hok
      cases hok
    | ok ids =>
      obtain ⟨t, posts, hfanned⟩ := (hall _).1 ids h
      exact ⟨ids, t, posts, rfl, hfanned⟩
  · intro second hsecond
    have hfails : second.faults ≠ .none ∨
        storedPayload (.plain 4 40) second.message.data = none := by
      rcases List.mem_pair.mp hsecond with rfl | rfl
      · exact Or.inl (by simp [element, Faults.none])
      · exact Or.inr (by decide +kernel)
    obtain ⟨e, he⟩ := (hall second).2.2.1 (Or.inr ⟨second, by simp, hfails⟩)
    exact ⟨e, he, ((hall second).2.1 e he).1⟩

end Mmmbbb.FanOut
