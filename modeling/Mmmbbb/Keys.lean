import Mmmbbb.Fifo

/-!
# Order within a key

A keyed delivery is linked to the most recent delivery of the subscription,
whatever the key of that one. Deliveries of one key stay in order as long as
each of them can be traced, over the links, back to those before it; a message
without a key, which is linked to nothing, breaks the trace.
-/

set_option autoImplicit false

namespace Mmmbbb.Keys
open KeyedRows LinkedRows Programs Relation Mmmbbb.Schema Mmmbbb.Database Mmmbbb.Delivering
open Mmmbbb.Consuming Mmmbbb.Runs Mmmbbb.Writes Mmmbbb.Changes Mmmbbb.Links Mmmbbb.Ordering
open Mmmbbb.Chains Mmmbbb.Attempts

def SameKey (m m' : Message) : Prop := m.Keyed ∧ m.orderKey = m'.orderKey

instance (m m' : Message) : Decidable (SameKey m m') := inferInstanceAs (Decidable (_ ∧ _))

def Recent (now : Time) (db : DB) (id topicID : UUID) (d : Delivery) : Prop :=
  Candidate now db id topicID d ∧
    ∀ x ∈ db.deliveries, Candidate now db id topicID x → x.publishedAt ≤ d.publishedAt

def Traced (now : Time) (db : DB) (id topicID : UUID) (d : Delivery) : Prop :=
  (∃ p ∈ db.deliveries, Recent now db id topicID p) ∧
    ∀ p ∈ db.deliveries, Recent now db id topicID p → p = d ∨ Leads id db.deliveries p d

def NewFor (id topicID : UUID) (a b : DB) (y : Delivery) : Prop :=
  y ∈ b.deliveries ∧ y.subscriptionID = id ∧ ¬ Has Delivery.id y.id a.deliveries ∧
    ∃ m ∈ b.messages, m.id = y.messageID ∧ m.topicID = topicID

def OfKeyed (db : DB) (y : Delivery) : Prop := ∃ m ∈ db.messages, m.id = y.messageID ∧ m.Keyed

/-- Whenever a keyed message is delivered while a delivery of its key is
outstanding, it can be traced back to that one, and no message of its topic
without a key comes with it. -/
def Traceable (now : Time) (id : UUID) (a b : DB) : Prop :=
  ∀ x ∈ b.deliveries, x.subscriptionID = id → ¬ Has Delivery.id x.id a.deliveries →
    ∀ m ∈ b.messages, m.id = x.messageID → m.Keyed →
      ∀ d ∈ a.deliveries, d.subscriptionID = id → d.Outstanding now →
        (∃ m' ∈ a.messages, m'.id = d.messageID ∧ m.orderKey = m'.orderKey) →
          Traced now a id m.topicID d ∧ ∀ y, NewFor id m.topicID a b y → OfKeyed b y

structure KeyedTraceably (id : UUID) (ttl : Duration) (w : World) (e : Event) (w' : World) :
    Prop where
  regular : Regular id ttl w e w'
  traceable : Traceable e.env.now id w.db w'.db

structure Version (a b : Delivery) : Prop where
  same : SameRow a b
  expiresAt : b.expiresAt = a.expiresAt
  notBeforeID : b.notBeforeID = a.notBeforeID
  done : a.completedAt ≠ none → b.completedAt ≠ none

theorem Version.refl (a : Delivery) : Version a a := ⟨.refl a, rfl, rfl, fun h => h⟩

theorem Version.trans {a b c : Delivery} (h : Version a b) (h' : Version b c) : Version a c :=
  ⟨h.same.trans h'.same, h'.expiresAt.trans h.expiresAt, h'.notBeforeID.trans h.notBeforeID,
    fun hc => h'.done (h.done hc)⟩

theorem Version.of_done {a b : Delivery} (h : Version a b) {t : Time} (hd : Done t a) : Done t b :=
  hd.imp h.done fun he => h.expiresAt.le.trans he

theorem version_edit {p : Delivery → Bool} {u : DeliveryUpdate} (hu : Harmless u) (d : Delivery) :
    Version d (setWhere p u.apply d) :=
  ⟨setWhere_sameRow p u d, setWhere_expiresAt p d hu.1, setWhere_notBeforeID p d,
    completed_edit hu⟩

section
variable {id topicID : UUID} {ttl : Duration} {e : Event} {o w w' : World}

def Versions (o w : World) : Prop := ∀ x ∈ o.db.deliveries, ∃ y ∈ w.db.deliveries, Version x y

theorem versions_write {v : World} (hw : Write e o w w') (horderly : Orderly o e.action)
    (h : Versions v w) : Versions v w' := by
  intro x hx
  obtain ⟨y, hy, hxy⟩ := h x hx
  rcases orderly_write hw horderly with hrows | ⟨r, -, hrows⟩ | ⟨p, u, hu, hrows⟩
  · exact ⟨y, hrows ▸ hy, hxy⟩
  · exact ⟨y, hrows ▸ List.mem_append_left _ hy, hxy⟩
  · exact ⟨_, hrows ▸ List.mem_map_of_mem hy, hxy.trans (version_edit hu y)⟩

theorem Versions.eq (h : Versions o w) {x y : Delivery} (hx : x ∈ o.db.deliveries)
    (hy : y ∈ w.db.deliveries) (hid : y.id = x.id) : Version x y := by
  obtain ⟨y', hy', hxy⟩ := h x hx
  obtain rfl := w.db.sound.delivery_pk.eq hy' hy (hxy.same.id.trans hid.symm)
  exact hxy

theorem Versions.leads (h : Versions o w) {a b a' b' : Delivery}
    (hl : Leads id o.db.deliveries a b) (ha : a' ∈ w.db.deliveries) (hb : b' ∈ w.db.deliveries)
    (haid : a'.id = a.id) (hbid : b'.id = b.id) : Leads id w.db.deliveries a' b' := by
  induction hl using TransGen.head_induction_on generalizing a' with
  | single hw =>
    have hv := h.eq hw.1.1 ha haid
    have hlink : a'.notBeforeID = some b'.id := by rw [hv.notBeforeID, hw.1.2.2, hbid]
    exact .single ⟨⟨ha, hb, hlink⟩, hv.same.subscriptionID.trans hw.2⟩
  | head hw _ ih =>
    have hv := h.eq hw.1.1 ha haid
    obtain ⟨c, hc, hvc⟩ := h _ hw.1.2.1
    have hlink : a'.notBeforeID = some c.id := by rw [hv.notBeforeID, hw.1.2.2, hvc.same.id]
    exact .head ⟨⟨ha, hc, hlink⟩, hv.same.subscriptionID.trans hw.2⟩ (ih hc hvc.same.id)

theorem Versions.candidate (h : Versions o w) (hkept : ∀ m ∈ o.db.messages, m ∈ w.db.messages)
    {now : Time} {x y : Delivery} (hx : x ∈ o.db.deliveries) (hy : y ∈ w.db.deliveries)
    (hid : y.id = x.id) :
    Candidate now w.db id topicID y ↔ Candidate now o.db id topicID x := by
  have hv := h.eq hx hy hid
  rw [Candidate, Candidate, hv.same.subscriptionID, hv.expiresAt, hv.same.messageID]
  constructor
  · rintro ⟨hsub, hlt, m, hm, hmid, ht⟩
    exact ⟨hsub, hlt, m, message_back hkept hx hm hmid, hmid, ht⟩
  · rintro ⟨hsub, hlt, m, hm, hmid, ht⟩
    exact ⟨hsub, hlt, m, hkept m hm, hmid, ht⟩

theorem versions_refl : Versions w w := fun x hx => ⟨x, hx, .refl x⟩

theorem version_origin (hw : Write e o w w') (horderly : Orderly o e.action) {y : Delivery}
    (hy : y ∈ w'.db.deliveries) : (∃ x ∈ w.db.deliveries, Version x y) ∨
      Added e w y ∧ w'.db.deliveries = w.db.deliveries ++ [y] := by
  rcases orderly_write hw horderly with hrows | ⟨r, hr, hrows⟩ | ⟨p, u, hu, hrows⟩
  · exact Or.inl ⟨y, hrows ▸ hy, .refl y⟩
  · have hy : y ∈ w.db.deliveries ∨ y = r := by simpa [hrows] using hy
    rcases hy with hy | rfl
    · exact Or.inl ⟨y, hy, .refl y⟩
    · exact Or.inr ⟨hr, hrows⟩
  · rw [hrows] at hy
    obtain ⟨d, hd, rfl⟩ := List.mem_map.mp hy
    exact Or.inl ⟨d, hd, version_edit hu d⟩

theorem newFor_version (hkept : ∀ m ∈ w.db.messages, m ∈ w'.db.messages) {x y : Delivery}
    (hx : x ∈ w.db.deliveries) (hy : y ∈ w'.db.deliveries) (hv : Version x y) {a : DB} :
    NewFor id topicID a w'.db y ↔ NewFor id topicID a w.db x := by
  rw [NewFor, NewFor, hv.same.subscriptionID, hv.same.id, hv.same.messageID]
  constructor
  · rintro ⟨-, hsub, hnew, m, hm, hmid, ht⟩
    exact ⟨hx, hsub, hnew, m, message_back hkept hx hm hmid, hmid, ht⟩
  · rintro ⟨-, hsub, hnew, m, hm, hmid, ht⟩
    exact ⟨hy, hsub, hnew, m, hkept m hm, hmid, ht⟩

theorem keyed_back (hver : Versions w w') (hkept : ∀ m ∈ w.db.messages, m ∈ w'.db.messages)
    {a : DB} (h : ∀ y, NewFor id topicID a w'.db y → OfKeyed w'.db y) :
    ∀ y, NewFor id topicID a w.db y → OfKeyed w.db y := by
  intro y hy
  obtain ⟨y', hy', hv⟩ := hver y hy.1
  obtain ⟨m, hm, hmid, hkeyed⟩ := h y' ((newFor_version hkept hy.1 hy' hv).mpr hy)
  have hmid : m.id = y.messageID := hmid.trans hv.same.messageID
  exact ⟨m, message_back hkept hy.1 hm hmid, hmid, hkeyed⟩

def Tracked (now : Time) (id : UUID) (o w : World) : Prop :=
  ∀ topicID, (∀ y, NewFor id topicID o.db w.db y → OfKeyed w.db y) →
    ∀ d ∈ o.db.deliveries, Traced now o.db id topicID d →
      ∀ y, NewFor id topicID o.db w.db y → ∀ d' ∈ w.db.deliveries, d'.id = d.id →
        Done now d' ∨ Leads id w.db.deliveries y d'

theorem tracked_added {r d d' : Delivery} (hver : Versions o w) (hver' : Versions w w')
    (hmsg : ∀ m ∈ o.db.messages, m ∈ w.db.messages)
    (hmsg' : ∀ m ∈ w.db.messages, m ∈ w'.db.messages) (hin : InOrder id ttl w.db)
    (h : Tracked e.env.now id o w) (hr : Added e w r)
    (hrows : w'.db.deliveries = w.db.deliveries ++ [r])
    (hkeyed : ∀ y, NewFor id topicID o.db w'.db y → OfKeyed w'.db y)
    (hd : d ∈ o.db.deliveries) (htraced : Traced e.env.now o.db id topicID d)
    (hnew : NewFor id topicID o.db w'.db r) (hd' : d' ∈ w'.db.deliveries) (hid : d'.id = d.id) :
    Done e.env.now d' ∨ Leads id w'.db.deliveries r d' := by
  obtain ⟨m, hm, hmid, hlink⟩ := added_linked hr hnew.2.1 hin
  have hsame : ∀ m' ∈ w'.db.messages, m'.id = r.messageID → m' = m := fun m' hm' hid' =>
    w'.db.sound.message_pk.eq hm' (hmsg' m hm) (hid'.trans hmid.symm)
  obtain ⟨m₁, hm₁, hmid₁, htopic⟩ := hnew.2.2.2
  obtain ⟨m₂, hm₂, hmid₂, hmkeyed⟩ := hkeyed r hnew
  rw [hsame m₁ hm₁ hmid₁] at htopic
  rw [hsame m₂ hm₂ hmid₂] at hmkeyed
  obtain ⟨q, hq, hrecent⟩ := htraced.1
  obtain ⟨q', hq', hqq⟩ := hver q hq
  have hcand := (hver.candidate hmsg hq hq' hqq.same.id).mpr hrecent.1
  rw [← htopic] at hcand
  obtain ⟨z, hz, hzcand, hzlink, hmax⟩ := hlink hmkeyed q' hq' hcand
  rw [htopic] at hzcand hmax
  have hz' : z ∈ w'.db.deliveries := hrows ▸ List.mem_append_left _ hz
  have hfirst : Waits id w'.db.deliveries r z := ⟨⟨hnew.1, hz', hzlink⟩, hnew.2.1⟩
  obtain ⟨d₁, hd₁, hdd⟩ := hver d hd
  have hlater := hver'.eq hd₁ hd' (hid.trans hdd.same.id.symm)
  by_cases hold : Has Delivery.id z.id o.db.deliveries
  · obtain ⟨x, hx, hxid⟩ := hold
    have hxz := hver.eq hx hz hxid.symm
    have hxrecent : Recent e.env.now o.db id topicID x := by
      refine ⟨(hver.candidate hmsg hx hz hxid.symm).mp hzcand, fun b hb hbc => ?_⟩
      obtain ⟨b', hb', hbb⟩ := hver b hb
      have hle := hmax b' hb' ((hver.candidate hmsg hb hb' hbb.same.id).mpr hbc)
      rwa [hbb.same.publishedAt, hxz.same.publishedAt] at hle
    right
    rcases htraced.2 x hx hxrecent with rfl | hleads
    · obtain rfl := w'.db.sound.delivery_pk.eq hz' hd' (hxid.symm.trans hid.symm)
      exact .single hfirst
    · obtain ⟨z₁, hz₁, hzz⟩ := hver' z hz
      obtain rfl := w'.db.sound.delivery_pk.eq hz₁ hz' hzz.same.id
      have hleads := hver.leads hleads hz hd₁ hxid.symm hdd.same.id
      exact .head hfirst (hver'.leads hleads hz' hd' rfl hlater.same.id)
  · have hznew : NewFor id topicID o.db w.db z := ⟨hz, hzcand.1, hold, hzcand.2.2⟩
    rcases h topicID (keyed_back hver' hmsg' hkeyed) d hd htraced z hznew d₁ hd₁ hdd.same.id with
      hdone | hleads
    · exact Or.inl (hlater.of_done hdone)
    · exact Or.inr (.head hfirst (hver'.leads hleads hz' hd' rfl hlater.same.id))

theorem tracked_write (hw : Write e o w w') (horderly : Orderly o e.action) (hver : Versions o w)
    (hst : Static o w) (hin : InOrder id ttl w.db) (h : Tracked e.env.now id o w) :
    Tracked e.env.now id o w' := by
  have hver' : Versions w w' := versions_write hw horderly versions_refl
  have hmsg' := hw.static.messages
  intro topicID hkeyed d hd htraced y hy d' hd' hid
  rcases version_origin hw horderly hy.1 with ⟨x, hx, hxy⟩ | ⟨hr, hrows⟩
  · have hxnew := (newFor_version hmsg' hx hy.1 hxy).mp hy
    obtain ⟨d₁, hd₁, hdd⟩ := hver d hd
    have hlater := hver'.eq hd₁ hd' (hid.trans hdd.same.id.symm)
    rcases h topicID (keyed_back hver' hmsg' hkeyed) d hd htraced x hxnew d₁ hd₁ hdd.same.id with
      hdone | hleads
    · exact Or.inl (hlater.of_done hdone)
    · exact Or.inr (hver'.leads hleads hy.1 hd' hxy.same.id hlater.same.id)
  · exact tracked_added hver hver' hst.messages hmsg' hin h hr hrows hkeyed hd htraced hy hd' hid

theorem traceable_back {now : Time} (hw : Write e o w w') (horderly : Orderly o e.action) {a : DB}
    (h : Traceable now id a w'.db) : Traceable now id a w.db := by
  have hver : Versions w w' := versions_write hw horderly versions_refl
  have hmsg := hw.static.messages
  intro x hx hid hnew m hm hmid hkeyed d hd hdid ho hkey
  obtain ⟨x', hx', hxx⟩ := hver x hx
  obtain ⟨htraced, hall⟩ := h x' hx' (hxx.same.subscriptionID.trans hid) (hxx.same.id ▸ hnew) m
    (hmsg m hm) (hmid.trans hxx.same.messageID.symm) hkeyed d hd hdid ho hkey
  exact ⟨htraced, keyed_back hver hmsg hall⟩

def NewNow (now : Time) (o w : World) : Prop :=
  ∀ y ∈ w.db.deliveries, Has Delivery.id y.id o.db.deliveries ∨ y.publishedAt = now

theorem newNow_write (hw : Write e o w w') (horderly : Orderly o e.action)
    (h : NewNow e.env.now o w) : NewNow e.env.now o w' := by
  intro y hy
  rcases version_origin hw horderly hy with ⟨x, hx, hxy⟩ | ⟨hr, -⟩
  · rw [hxy.same.id, hxy.same.publishedAt]
    exact h x hx
  · exact Or.inr (Fifo.added_now hr)

theorem sameKey_write (hw : Write e o w w') (horderly : Orderly o e.action) (hu : Underway e o w)
    (hver : Versions o w) (hst : Static o w) (hnew : NewNow e.env.now o w) (hg : Gated id ttl w)
    (htr : Traceable e.env.now id o.db w'.db) (htracked : Tracked e.env.now id o w')
    (h : Chained SameKey id w) : Chained SameKey id w' := by
  refine chained_write hw horderly hg hu.clock h fun r hr hrows hid b hb hbid hlt hrel => ?_
  by_cases hdone : Done w.clock b
  · exact Or.inl hdone
  -- what was published before is not new
  have hold : Has Delivery.id b.id o.db.deliveries := by
    refine (hnew b hb).resolve_right fun hnow => ?_
    rw [hnow, Fifo.added_now hr] at hlt
    exact absurd hlt (lt_irrefl _)
  obtain ⟨d, hd, hdid⟩ := hold
  have hdb := hver.eq hd hb hdid.symm
  have hopen : d.Outstanding e.env.now :=
    not_done.mp fun hc => hdone (hu.clock ▸ hdb.of_done hc)
  have hr' : r ∈ w'.db.deliveries := by simp [hrows]
  have hb' : b ∈ w'.db.deliveries := hrows ▸ List.mem_append_left _ hb
  have hfresh : ¬ Has Delivery.id r.id o.db.deliveries := by
    rintro ⟨x, hx, hxid⟩
    obtain ⟨y, hy, hxy⟩ := hver x hx
    obtain ⟨s, -, m, -, n, -, -, hnot, -⟩ := hr
    exact hnot ⟨y, hy, hxy.same.id.trans hxid⟩
  obtain ⟨m, hm, m', hm', hmid, hmid', hkeyed, hkey⟩ := hrel
  have hkey' : ∃ m' ∈ o.db.messages, m'.id = d.messageID ∧ m.orderKey = m'.orderKey := by
    have hmid' : m'.id = d.messageID := hmid'.trans hdb.same.messageID
    have hkept := (hst.trans hw.static).messages
    exact ⟨m', message_back hkept hd hm' hmid', hmid', hkey⟩
  obtain ⟨htraced, hall⟩ := htr r hr' hid hfresh m hm hmid hkeyed d hd
    (hdb.same.subscriptionID.symm.trans hbid) hopen hkey'
  have hfor : NewFor id m.topicID o.db w'.db r := ⟨hr', hid, hfresh, m, hm, hmid, rfl⟩
  rw [hu.clock]
  exact htracked m.topicID hall d hd htraced r hfor b hb' hdid.symm

theorem sameKey_step (hok : KeyedTraceably id ttl w e (w.after e)) (hg : Gated id ttl w)
    (h : Live id w.db → Chained SameKey id w) :
    Live id (w.after e).db → Chained SameKey id (w.after e) := by
  have hchange := change_after (e := e) w
  have hlt : w.clock < e.env.now := hok.regular.ticking
  have horderly : Orderly (w.at e.env.now) e.action := hok.regular.orderly
  have hfresh : Fresh (w.at e.env.now) e := hok.regular.fresh
  have hgate : Gated id ttl (w.at e.env.now) := gated_same hg rfl hlt.le rfl
  have hstart : Live id w.db → Chained SameKey id (w.at e.env.now) :=
    fun hlive => chained_same (h hlive) rfl (fun _ _ _ _ hr => hr) hlt.le
  have hend : InOrder id ttl (w.after e).db ∧ Traceable e.env.now id w.db (w.after e).db :=
    ⟨hok.regular.inOrder, hok.traceable⟩
  generalize w.after e = w' at hchange hend ⊢
  cases hchange
  case write hw =>
    refine (guarded_invariant (G := fun v : World => InOrder id ttl v.db ∧
        Traceable e.env.now id (w.at e.env.now).db v.db)
      (I := fun v => (Underway e (w.at e.env.now) v ∧ Versions (w.at e.env.now) v ∧
        Static (w.at e.env.now) v ∧ NewNow e.env.now (w.at e.env.now) v) ∧ Gated id ttl v ∧
        Tracked e.env.now id (w.at e.env.now) v ∧ (Live id v.db → Chained SameKey id v))
      (fun v v' hv hgd => ⟨inOrder_back hv hgd.1, traceable_back hv horderly hgd.2⟩) ?_ hw hend
      ⟨⟨underway_start, versions_refl, .refl _, fun y hy => Or.inl (Has.of_mem hy)⟩, hgate, ?_,
        hstart⟩).2.2.2
    · rintro v v' hv ⟨hin, htr⟩ ⟨⟨hu, hver, hst, hnew⟩, hgv, htracked, hchained⟩
      have hin := inOrder_back hv hin
      have htracked' := tracked_write hv horderly hver hst hin htracked
      refine ⟨⟨underway_write hv hu, versions_write hv horderly hver, hst.trans hv.static,
        newNow_write hv horderly hnew⟩, gated_write hv hgv horderly hfresh hin hu.clock hu.given,
        htracked', fun hlive => ?_⟩
      exact sameKey_write hv horderly hu hver hst hnew hgv htr htracked'
        (hchained (static_live hv.static hlive))
    · intro topicID _ d _ _ y hy
      exact absurd (Has.of_mem hy.1) hy.2.2.1
  case prune p hp =>
    exact fun hlive => chained_delete hgate (hstart hlive) fun d hd hid hpd =>
      prunable_done hlive hid (hp d hd hpd)
  case quiet db hq => exact fun hlive => chained_quiet hq hlive hstart

theorem reachable_sameKey (h : (bus.within (KeyedTraceably id ttl)).Reachable w) :
    InOrder id ttl w.db ∧ Gated id ttl w ∧ (Live id w.db → Chained SameKey id w) := by
  refine h.invariant (I := fun v => InOrder id ttl v.db ∧ Gated id ttl v ∧
    (Live id v.db → Chained SameKey id v)) (fun v hv => ?_) (fun v e v' hv hs => ?_)
  · have hempty : v.db = DB.empty := hv.1
    have hrows : v.db.deliveries = [] := by rw [hempty]; rfl
    have hsubs : v.db.subscriptions = [] := by rw [hempty]; rfl
    exact ⟨by simp [InOrder, hsubs], gated_initial hempty, fun _ => by simp [Chained, hrows]⟩
  · have hstep : v' = v.after e := hs.1
    have hok : KeyedTraceably id ttl v e v' := hs.2
    rw [hstep] at hok ⊢
    exact ⟨hok.regular.inOrder, gated_step hok.regular hv.2.1, sameKey_step hok hv.2.1 hv.2.2⟩

/-- As long as what is keyed can be traced back, no delivery is handed out
while an earlier one of its key is outstanding. -/
theorem per_key (h : (bus.within (KeyedTraceably id ttl)).Reachable w) (hlt : w.clock < e.env.now)
    {d₁ d₂ : Delivery} (h₂ : HandsOut w e d₂) (hid₂ : d₂.subscriptionID = id)
    (h₁ : d₁ ∈ w.db.deliveries) (hid₁ : d₁.subscriptionID = id)
    (hearlier : d₁.publishedAt < d₂.publishedAt) (hkey : Related SameKey w.db d₂ d₁) :
    ¬ d₁.Outstanding e.env.now := by
  obtain ⟨hin, hg, hchained⟩ := reachable_sameKey h
  obtain ⟨-, s, hs, hsid, -, hpass⟩ := handsOut_passes h₂
  have hpass := hpass (hin s hs (hsid.trans hid₂)).1
  rw [not_outstanding]
  rcases hchained (Fifo.handsOut_live h₂ hid₂) d₂ h₂.1 d₁ h₁ hid₂ hid₁ hearlier hkey with
    hdone | hleads
  · exact hdone.mono hlt.le
  · exact leads_done hg hlt.le hleads fun c hc => link_done hpass hc.1

end

instance (now : Time) (db : DB) (id topicID : UUID) (d : Delivery) :
    Decidable (Recent now db id topicID d) := inferInstanceAs (Decidable (_ ∧ _))

def Next (now : Time) (db : DB) (id topicID : UUID) (d : Delivery) : Prop :=
  (∃ p ∈ db.deliveries, Recent now db id topicID p) ∧
    ∀ p ∈ db.deliveries, Recent now db id topicID p → p = d

instance (now : Time) (db : DB) (id topicID : UUID) (d : Delivery) :
    Decidable (Next now db id topicID d) := inferInstanceAs (Decidable (_ ∧ _))

instance (db : DB) (y : Delivery) : Decidable (OfKeyed db y) :=
  inferInstanceAs (Decidable (∃ m ∈ db.messages, _))

def NextInLine (now : Time) (id : UUID) (a b : DB) : Prop :=
  ∀ x ∈ b.deliveries, x.subscriptionID = id → ¬ Has Delivery.id x.id a.deliveries →
    OfKeyed b x ∧ ∀ m ∈ b.messages, m.id = x.messageID →
      ∀ d ∈ a.deliveries, d.subscriptionID = id → d.Outstanding now →
        Next now a id m.topicID d

instance (now : Time) (id : UUID) (a b : DB) : Decidable (NextInLine now id a b) :=
  inferInstanceAs (Decidable (∀ x ∈ b.deliveries, _))

theorem NextInLine.traceable {now : Time} {id : UUID} {a b : DB} (h : NextInLine now id a b) :
    Traceable now id a b := by
  intro x hx hid hnew m hm hmid hkeyed d hd hdid ho hkey
  obtain ⟨hsome, hnext⟩ := (h x hx hid hnew).2 m hm hmid d hd hdid ho
  exact ⟨⟨hsome, fun p hp hr => Or.inl (hnext p hp hr)⟩,
    fun y hy => (h y hy.1 hy.2.1 hy.2.2.1).1⟩

theorem line_traceable :
    (bus.within (KeyedTraceably 20 hour)).Reachable (World.initial.run Fifo.lineRun) := by
  refine initial_within ⟨⟨⟨?_, ?_, ?_, ?_⟩, NextInLine.traceable ?_⟩,
    ⟨⟨?_, ?_, ?_, ?_⟩, NextInLine.traceable ?_⟩, ⟨⟨?_, ?_, ?_, ?_⟩, NextInLine.traceable ?_⟩,
    ⟨⟨?_, ?_, ?_, ?_⟩, NextInLine.traceable ?_⟩, ⟨⟨?_, ?_, ?_, ?_⟩, NextInLine.traceable ?_⟩,
    ⟨⟨?_, ?_, ?_, ?_⟩, NextInLine.traceable ?_⟩, trivial⟩
  all_goals first
    | exact plain_fresh (by decide +kernel)
    | decide +kernel

def lineFirst : Delivery := ⟨31, 30, 20, 3, 11571067823, some 5, 1, some 6, 3 + hour, none⟩
def lineSecond : Delivery := ⟨41, 40, 20, 4, 4, none, 0, none, 4 + hour, some 31⟩

theorem per_key_line : ¬ lineFirst.Outstanding 8 := by
  have hnow : (World.initial.run Fifo.lineRun).clock < (Fifo.getOrdered 8 80).env.now := by
    decide +kernel
  have hout : HandsOut (World.initial.run Fifo.lineRun) (Fifo.getOrdered 8 80) lineSecond :=
    have hgiven : (exec (Fifo.getOrdered 8 80).env (Fifo.getOrdered 8 80).action
        (Tx.begin (World.initial.run Fifo.lineRun).db)).map (fun r => r.1.map (·.id)) =
          .ok [41] := by decide +kernel
    handsOut_of hgiven (by decide +kernel) (by decide)
  have hrow : lineFirst ∈ (World.initial.run Fifo.lineRun).db.deliveries := by decide +kernel
  exact per_key line_traceable hnow hout rfl hrow rfl (by decide) (by decide +kernel)

def overtakenRun : List Event := [
  Fifo.topicOrders, Fifo.subscribeOrdered 2 20, Fifo.publishKeyed 3 30,
  Sample.publish "2" "" 4 40,
  Fifo.publishKeyed 5 50, Fifo.getOrdered 6 60, ⟨.plain 7 70, .ack [41], trivial⟩]

def overtakenBus : World := World.initial.run overtakenRun

def overtaken : Delivery := ⟨31, 30, 20, 3, 11571067824, some 6, 1, none, 3 + hour, none⟩
def overtaking : Delivery := ⟨51, 50, 20, 5, 5, none, 0, none, 5 + hour, some 41⟩

/-- The second is handed out while the first is outstanding. -/
theorem per_key_overtaken :
    (bus.within (Regular 20 hour)).Reachable overtakenBus ∧
    overtakenBus.clock < (Fifo.getOrdered 8 80).env.now ∧
    HandsOut overtakenBus (Fifo.getOrdered 8 80) overtaking ∧
    overtaken ∈ overtakenBus.db.deliveries ∧ overtaken.publishedAt < overtaking.publishedAt ∧
    Related SameKey overtakenBus.db overtaking overtaken ∧ overtaken.Outstanding 8 := by
  have hgiven : (exec (Fifo.getOrdered 8 80).env (Fifo.getOrdered 8 80).action
      (Tx.begin overtakenBus.db)).map (fun r => r.1.map (·.id)) = .ok [51] := by decide +kernel
  refine ⟨initial_within ⟨⟨?_, ?_, ?_, ?_⟩, ⟨?_, ?_, ?_, ?_⟩, ⟨?_, ?_, ?_, ?_⟩,
    ⟨?_, ?_, ?_, ?_⟩, ⟨?_, ?_, ?_, ?_⟩, ⟨?_, ?_, ?_, ?_⟩, ⟨?_, ?_, ?_, ?_⟩, trivial⟩, ?_,
    handsOut_of hgiven ?_ (by decide), ?_, ?_, ?_, ?_⟩
  all_goals first
    | exact plain_fresh (by decide +kernel)
    | decide +kernel

end Mmmbbb.Keys
