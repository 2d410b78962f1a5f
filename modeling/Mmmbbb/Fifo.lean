import Mmmbbb.Chains

/-!
# One delivery at a time

When everything that an ordered subscription receives is keyed and of its own
topic, one delivery in a transaction, its outstanding deliveries form one
chain, and a get finds the oldest of them and no other.
-/

set_option autoImplicit false

namespace Mmmbbb.Fifo
open KeyedRows LinkedRows Programs Relation Mmmbbb.Schema Mmmbbb.Database Mmmbbb.Delivering
open Mmmbbb.Consuming Mmmbbb.Runs Mmmbbb.Writes Mmmbbb.Changes Mmmbbb.Links Mmmbbb.Ordering
open Mmmbbb.Chains

def OwnKeyed (id : UUID) (db : DB) : Prop :=
  ∀ d ∈ db.deliveries, d.subscriptionID = id → ∀ m ∈ db.messages, m.id = d.messageID →
    m.Keyed ∧ ∀ s ∈ db.subscriptions, s.id = id → m.topicID = s.topicID

instance (id : UUID) (db : DB) : Decidable (OwnKeyed id db) :=
  inferInstanceAs (Decidable (∀ d ∈ db.deliveries, _))

def AddsOne (id : UUID) (a b : DB) : Prop :=
  ∀ x ∈ b.deliveries, ∀ y ∈ b.deliveries, x.subscriptionID = id → y.subscriptionID = id →
    ¬ Has Delivery.id x.id a.deliveries → ¬ Has Delivery.id y.id a.deliveries → x = y

instance (id : UUID) (a b : DB) : Decidable (AddsOne id a b) :=
  inferInstanceAs (Decidable (∀ x ∈ b.deliveries, _))

structure Keyed (id : UUID) (ttl : Duration) (w : World) (e : Event) (w' : World) : Prop where
  regular : Regular id ttl w e w'
  own : OwnKeyed id w'.db

structure OneByOne (id : UUID) (ttl : Duration) (w : World) (e : Event) (w' : World) : Prop where
  keyed : Keyed id ttl w e w'
  one : AddsOne id w.db w'.db

def Distinct (id : UUID) (w : World) : Prop :=
  ∀ a ∈ w.db.deliveries, ∀ b ∈ w.db.deliveries, a.subscriptionID = id → b.subscriptionID = id →
    a.publishedAt = b.publishedAt → a = b

abbrev InLine (id : UUID) (w : World) : Prop := Chained (fun _ _ => True) id w

theorem related_all {db : DB} {a b : Delivery} (ha : a ∈ db.deliveries) (hb : b ∈ db.deliveries) :
    Related (fun _ _ => True) db a b := by
  obtain ⟨m, hm, hid⟩ := db.sound.delivery_message a ha
  obtain ⟨m', hm', hid'⟩ := db.sound.delivery_message b hb
  exact ⟨m, hm, m', hm', hid, hid', trivial⟩

section
variable {id : UUID} {ttl : Duration} {e : Event} {o w w' : World}

theorem ownKeyed_back (hw : Write e o w w') (h : OwnKeyed id w'.db) : OwnKeyed id w.db := by
  intro d hd hid m hm hmid
  obtain ⟨x, hx, hsame⟩ := write_persists hw d hd
  have hst := hw.static
  obtain ⟨hkeyed, htopic⟩ := h x hx (hsame.subscriptionID.trans hid) m (hst.messages m hm)
    (hmid.trans hsame.messageID.symm)
  refine ⟨hkeyed, fun s hs hsid => ?_⟩
  obtain ⟨r, hr, heq⟩ := hst.subscription hs
  have hrid : r.id = s.id := Subscription.settled_eq heq Subscription.id (fun _ => rfl)
  have hrt := Subscription.settled_eq heq Subscription.topicID (fun _ => rfl)
  exact (htopic r hr (hrid.trans hsid)).trans hrt

theorem addsOne_back {a : DB} (hw : Write e o w w') (h : AddsOne id a w'.db) :
    AddsOne id a w.db := by
  intro x hx y hy hxid hyid hxnew hynew
  obtain ⟨x', hx', hxx⟩ := write_persists hw x hx
  obtain ⟨y', hy', hyy⟩ := write_persists hw y hy
  have heq := h x' hx' y' hy' (hxx.subscriptionID.trans hxid) (hyy.subscriptionID.trans hyid)
    (hxx.id ▸ hxnew) (hyy.id ▸ hynew)
  have hid : x.id = y.id := by rw [← hxx.id, ← hyy.id, heq]
  exact w.db.sound.delivery_pk.eq hx hy hid

theorem added_alone {r : Delivery} (hu : Underway e o w) (hpast : ∀ d ∈ o.db.deliveries,
      d.subscriptionID = id → d.publishedAt < e.env.now)
    (hr : Added e w r) (hrows : w'.db.deliveries = w.db.deliveries ++ [r])
    (hone : AddsOne id o.db w'.db) (hid : r.subscriptionID = id) :
    ∀ d ∈ w.db.deliveries, d.subscriptionID = id → d.publishedAt < e.env.now := by
  have hfresh : ¬ Has Delivery.id r.id w.db.deliveries := by
    obtain ⟨s, -, m, -, n, -, -, hfresh, -⟩ := hr
    exact hfresh
  have hnew : ¬ Has Delivery.id r.id o.db.deliveries := by
    rintro ⟨x, hx, hxid⟩
    obtain ⟨y, hy, hxy⟩ := hu.persists x hx
    exact hfresh ⟨y, hy, hxy.id.trans hxid⟩
  intro d hd hdid
  by_cases hold : Has Delivery.id d.id o.db.deliveries
  · obtain ⟨x, hx, hxid⟩ := hold
    obtain ⟨y, hy, hxy⟩ := hu.persists x hx
    obtain rfl : y = d := w.db.sound.delivery_pk.eq hy hd (hxy.id.trans hxid)
    rw [hxy.publishedAt]
    exact hpast x hx (hxy.subscriptionID.symm.trans hdid)
  · have hd' : d ∈ w'.db.deliveries := hrows ▸ List.mem_append_left _ hd
    have hr' : r ∈ w'.db.deliveries := by simp [hrows]
    have heq := hone d hd' r hr' hdid hid hold hnew
    exact absurd ⟨d, hd, congrArg Delivery.id heq⟩ hfresh

theorem added_now {r : Delivery} (hr : Added e w r) : r.publishedAt = e.env.now := by
  obtain ⟨s, -, m, -, n, -, -, -, rfl⟩ := hr
  rfl

theorem distinct_write (hu : Underway e o w)
    (hpast : ∀ d ∈ o.db.deliveries, d.subscriptionID = id → d.publishedAt < e.env.now)
    (hw : Write e o w w') (horderly : Orderly o e.action) (hone : AddsOne id o.db w'.db)
    (h : Distinct id w) : Distinct id w' := by
  rcases orderly_write hw horderly with hrows | ⟨r, hr, hrows⟩ | ⟨p, u, -, hrows⟩
  · rw [Distinct, hrows]
    exact h
  · have hnow := added_now hr
    have halone := added_alone hu hpast hr hrows hone
    intro a ha b hb haid hbid heq
    have ha : a ∈ w.db.deliveries ∨ a = r := by simpa [hrows] using ha
    have hb : b ∈ w.db.deliveries ∨ b = r := by simpa [hrows] using hb
    rcases ha with ha | rfl <;> rcases hb with hb | rfl
    · exact h a ha b hb haid hbid heq
    · exact absurd (heq.trans hnow) (halone hbid a ha haid).ne
    · exact absurd (heq.symm.trans hnow) (halone haid b hb hbid).ne
    · rfl
  · intro x hx y hy hxid hyid heq
    rw [hrows] at hx hy
    obtain ⟨a, ha, rfl⟩ := List.mem_map.mp hx
    obtain ⟨b, hb, rfl⟩ := List.mem_map.mp hy
    rw [setWhere_subscriptionID] at hxid hyid
    rw [setWhere_publishedAt, setWhere_publishedAt] at heq
    exact congrArg _ (h a ha b hb hxid hyid heq)

/-- A delivery that is added is linked to the latest one, and so leads to all
that are outstanding. -/
theorem inLine_new {r b : Delivery} (hclock : w.clock = e.env.now)
    (hd : Distinct id w) (hc : InLine id w) (hin : InOrder id ttl w.db) (hst : Static w w')
    (hown : OwnKeyed id w'.db) (hr : Added e w r)
    (hrows : w'.db.deliveries = w.db.deliveries ++ [r]) (hid : r.subscriptionID = id)
    (hb : b ∈ w.db.deliveries) (hbid : b.subscriptionID = id) :
    Done w.clock b ∨ Leads id w'.db.deliveries r b := by
  by_cases hdone : Done w.clock b
  · exact Or.inl hdone
  have hlt : e.env.now < b.expiresAt := hclock ▸ (not_done.mp hdone).2
  obtain ⟨m, hm, hmid, hlink⟩ := added_linked hr hid hin
  have hr' : r ∈ w'.db.deliveries := by simp [hrows]
  have hb' : b ∈ w'.db.deliveries := hrows ▸ List.mem_append_left _ hb
  obtain ⟨hkeyed, htopic⟩ := hown r hr' hid m (hst.messages m hm) hmid
  have hcand : Candidate e.env.now w.db id m.topicID b := by
    obtain ⟨mb, hmb, hmbid⟩ := w.db.sound.delivery_message b hb
    obtain ⟨s, hs, hsid⟩ := w'.db.sound.delivery_subscription r hr'
    have htopic' := (hown b hb' hbid mb (hst.messages mb hmb) hmbid).2
    have hsid : s.id = id := hsid.trans hid
    exact ⟨hbid, hlt, mb, hmb, hmbid, (htopic' s hs hsid).trans (htopic s hs hsid).symm⟩
  obtain ⟨z, hz, hzcand, hzlink, hmax⟩ := hlink hkeyed b hb hcand
  have hfirst : Waits id w'.db.deliveries r z := by
    refine ⟨⟨hr', ?_, hzlink⟩, hid⟩
    rw [hrows]
    exact List.mem_append_left _ hz
  have hle := hmax b hb hcand
  right
  rcases hle.eq_or_lt with heq | hlt
  · obtain rfl := hd b hb z hz hbid hzcand.1 heq
    exact .single hfirst
  · have hleads := (hc z hz b hb hzcand.1 hbid hlt (related_all hz hb)).resolve_left hdone
    have hleads : Leads id w'.db.deliveries z b := hrows ▸ hleads.append [r]
    exact .head hfirst hleads

def Lined (id : UUID) (w : World) : Prop := Distinct id w ∧ (Live id w.db → InLine id w)

theorem lined_write (hu : Underway e o w)
    (hpast : ∀ d ∈ o.db.deliveries, d.subscriptionID = id → d.publishedAt < e.env.now)
    (hw : Write e o w w') (horderly : Orderly o e.action) (hone : AddsOne id o.db w'.db)
    (hg : Gated id ttl w) (hin : InOrder id ttl w.db) (hown : OwnKeyed id w'.db)
    (h : Lined id w) : Lined id w' := by
  refine ⟨distinct_write hu hpast hw horderly hone h.1, fun hlive => ?_⟩
  have hline := h.2 (static_live hw.static hlive)
  refine chained_write hw horderly hg hu.clock hline ?_
  intro r hr hrows hid b hb hbid _ _
  exact inLine_new hu.clock h.1 hline hin hw.static hown hr hrows hid hb hbid

theorem lined_step (hok : OneByOne id ttl w e (w.after e)) (hg : Gated id ttl w)
    (h : Lined id w) : Lined id (w.after e) := by
  have hchange := change_after (e := e) w
  have hlt : w.clock < e.env.now := hok.keyed.regular.ticking
  have horderly := hok.keyed.regular.orderly
  have hfresh := hok.keyed.regular.fresh
  have hpast : ∀ d ∈ w.db.deliveries, d.subscriptionID = id → d.publishedAt < e.env.now :=
    fun d hd hid => lt_of_le_of_lt (hg.past d hd hid) hlt
  have hgate : Gated id ttl (w.at e.env.now) := gated_same hg rfl hlt.le rfl
  have hstart : Lined id (w.at e.env.now) :=
    ⟨h.1, fun hlive => chained_same (h.2 hlive) rfl (fun _ _ _ _ hr => hr) hlt.le⟩
  have hend : InOrder id ttl (w.after e).db ∧ OwnKeyed id (w.after e).db ∧
      AddsOne id w.db (w.after e).db := ⟨hok.keyed.regular.inOrder, hok.keyed.own, hok.one⟩
  generalize w.after e = w' at hchange hend ⊢
  cases hchange
  case write hw =>
    refine (guarded_invariant (G := fun v : World => InOrder id ttl v.db ∧ OwnKeyed id v.db ∧
        AddsOne id w.db v.db)
      (I := fun v => Underway e (w.at e.env.now) v ∧ Gated id ttl v ∧ Lined id v)
      (fun v v' hv hgd => ⟨inOrder_back hv hgd.1, ownKeyed_back hv hgd.2.1,
        addsOne_back hv hgd.2.2⟩) ?_ hw hend ⟨underway_start, hgate, hstart⟩).2.2
    rintro v v' hv ⟨hin, hown, hone⟩ ⟨hu, hgv, hl⟩
    have hin := inOrder_back hv hin
    exact ⟨underway_write hv hu, gated_write hv hgv horderly hfresh hin hu.clock hu.given,
      lined_write (o := w.at e.env.now) hu hpast hv horderly hone hgv hin hown hl⟩
  case prune p hp =>
    refine ⟨?_, fun hlive => ?_⟩
    · intro x hx y hy hxid hyid heq
      obtain ⟨a, ha, -, rfl⟩ := mem_deliveriesWithout.mp hx
      obtain ⟨b, hb, -, rfl⟩ := mem_deliveriesWithout.mp hy
      exact congrArg _ (h.1 a ha b hb hxid hyid heq)
    · exact chained_delete hgate (hstart.2 hlive) fun d hd hid hpd =>
        prunable_done hlive hid (hp d hd hpd)
  case quiet db hq =>
    refine ⟨?_, fun hlive => chained_quiet hq hlive hstart.2⟩
    have hrows : ((w.at e.env.now).set db).db.deliveries = w.db.deliveries := hq.deliveries
    rw [Distinct, hrows]
    exact h.1

theorem reachable_lined (h : (bus.within (OneByOne id ttl)).Reachable w) :
    InOrder id ttl w.db ∧ Gated id ttl w ∧ Lined id w := by
  refine h.invariant (I := fun v => InOrder id ttl v.db ∧ Gated id ttl v ∧ Lined id v)
    (fun v hv => ?_) (fun v e v' hv hs => ?_)
  · have hempty : v.db = DB.empty := hv.1
    have hrows : v.db.deliveries = [] := by rw [hempty]; rfl
    have hsubs : v.db.subscriptions = [] := by rw [hempty]; rfl
    exact ⟨by simp [InOrder, hsubs], gated_initial hempty, by simp [Distinct, hrows],
      fun _ => by simp [Chained, hrows]⟩
  · have hstep : v' = v.after e := hs.1
    have hok : OneByOne id ttl v e v' := hs.2
    rw [hstep] at hok ⊢
    exact ⟨hok.keyed.regular.inOrder, gated_step hok.keyed.regular hv.2.1,
      lined_step hok hv.2.1 hv.2.2⟩

end

/-- Of the outstanding deliveries of the subscription just the oldest passes
the in-order check; there is one if anything is outstanding. -/
structure HeadOfLine (now : Time) (id : UUID) (db : DB) : Prop where
  passing : ∀ d ∈ db.deliveries, (d.subscriptionID = id ∧ d.Outstanding now ∧
    orderingCondition now db.toTables d = true) ↔ OldestOutstanding now id db d
  one : ∀ a ∈ db.deliveries, ∀ b ∈ db.deliveries, OldestOutstanding now id db a →
    OldestOutstanding now id db b → a = b
  some : (∃ x ∈ db.deliveries, x.subscriptionID = id ∧ x.Outstanding now) →
    ∃ d ∈ db.deliveries, OldestOutstanding now id db d

section
variable {id : UUID} {ttl : Duration} {w : World} {now : Time}

theorem line_done (hg : Gated id ttl w) (hline : InLine id w) (hle : w.clock ≤ now)
    {a b : Delivery} (ha : a ∈ w.db.deliveries) (hb : b ∈ w.db.deliveries)
    (haid : a.subscriptionID = id) (hbid : b.subscriptionID = id)
    (hlt : b.publishedAt < a.publishedAt)
    (hfirst : ∀ c, Waits id w.db.deliveries a c → Done now c) : Done now b := by
  rcases hline a ha b hb haid hbid hlt (related_all ha hb) with hdone | hleads
  · exact hdone.mono hle
  · exact leads_done hg hle hleads hfirst

theorem passing_oldest (hg : Gated id ttl w) (hline : InLine id w) (hle : w.clock ≤ now)
    {d : Delivery} (hd : d ∈ w.db.deliveries) (hid : d.subscriptionID = id)
    (ho : d.Outstanding now) (hpass : orderingCondition now w.db.toTables d = true) :
    OldestOutstanding now id w.db d := by
  refine ⟨hid, ho, fun x hx hxid hxo => ?_⟩
  by_contra hlt
  have hdone := line_done hg hline hle hd hx hid hxid (not_le.mp hlt)
    (fun c hc => link_done hpass hc.1)
  exact not_outstanding.mpr hdone hxo

theorem oldest_passing (hg : Gated id ttl w) (hdis : Distinct id w)
    (hback : LinksBack w.db.deliveries) {d : Delivery} (hd : d ∈ w.db.deliveries)
    (ho : OldestOutstanding now id w.db d) : orderingCondition now w.db.toTables d = true := by
  refine orderingCondition_of_link fun k hk => ?_
  obtain ⟨p, hbefore, hpk, hpsub⟩ := hback d hd k hk
  have hp := hbefore.mem.1
  have hpid : p.subscriptionID = id := hpsub.trans ho.1
  refine ⟨p, hp, hpk, fun hpo => ?_⟩
  have hle := (hg.back d p ⟨⟨hd, hp, hk.trans (congrArg some hpk.symm)⟩, ho.1⟩).2
  have hge := ho.2.2 p hp hpid hpo
  obtain rfl := hdis p hp d hd hpid ho.1 (le_antisymm hle hge)
  exact Before.irrefl w.db.sound.delivery_pk.nodup hbefore

theorem headOfLine (h : (bus.within (OneByOne id ttl)).Reachable w) (hlive : Live id w.db)
    (hle : w.clock ≤ now) : HeadOfLine now id w.db := by
  obtain ⟨-, hg, hdis, hlined⟩ := reachable_lined h
  have hline := hlined hlive
  have hback := reachable_linksBack h.of_within
  constructor
  · intro d hd
    constructor
    · rintro ⟨hid, ho, hpass⟩
      exact passing_oldest hg hline hle hd hid ho hpass
    · intro ho
      exact ⟨ho.1, ho.2.1, oldest_passing hg hdis hback hd ho⟩
  · intro a ha b hb hao hbo
    exact hdis a ha b hb hao.1 hbo.1 (hao.publishedAt_eq hbo ha hb)
  · intro hopen
    obtain ⟨d, hd, hid, ho, hlink⟩ := exists_unblocked hback w.db.sound.delivery_pk hopen
    exact ⟨d, hd, passing_oldest hg hline hle hd hid ho (orderingCondition_of_link hlink)⟩

theorem handed_done (hg : Gated id ttl w) (hline : InLine id w) (hle : w.clock ≤ now)
    {a b : Delivery} (ha : a ∈ w.db.deliveries) (hb : b ∈ w.db.deliveries)
    (haid : a.subscriptionID = id) (hbid : b.subscriptionID = id) (hgiven : a.id ∈ w.handedOut)
    (hlt : b.publishedAt < a.publishedAt) : Done now b := by
  refine line_done hg hline hle ha hb haid hbid hlt fun c hc => ?_
  exact (hg.started a c hc (Or.inl (hg.handed a ha haid hgiven))).mono hle

def DoneBefore (id : UUID) (t : Time) (w : World) : Prop :=
  t ≤ w.clock ∧ ∀ x ∈ w.db.deliveries, x.subscriptionID = id → x.publishedAt < t → Done w.clock x

theorem doneBefore_step {t : Time} {e : Event} (horderly : Orderly w e.action)
    (ht : t ≤ w.clock) (hlt : w.clock < e.env.now)
    (h : ∀ x ∈ w.db.deliveries, x.subscriptionID = id → x.publishedAt < t → Done e.env.now x) :
    DoneBefore id t (w.after e) := by
  have hclock : (w.after e).clock = e.env.now := after_clock w
  rw [DoneBefore, hclock]
  refine ⟨ht.trans hlt.le, fun x hx hid hpub => ?_⟩
  rcases origin_step horderly x hx with hnow | ⟨y, hy, hsame, hdone⟩
  · rw [hnow] at hpub
    exact absurd (ht.trans_lt hlt) hpub.not_gt
  · have hy' := h y hy (hsame.subscriptionID.symm.trans hid) (hsame.publishedAt ▸ hpub)
    exact hdone _ hy'

theorem doneBefore_path {t : Time} {w' : World} (h : DoneBefore id t w)
    (hrun : (bus.within (OneByOne id ttl)).Path w w') : DoneBefore id t w' := by
  refine hrun.invariant (I := DoneBefore id t) (fun v e v' hv hs => ?_) h
  have hstep : v' = v.after e := hs.1
  have hok : OneByOne id ttl v e v' := hs.2
  have hlt : v.clock < e.env.now := hok.keyed.regular.ticking
  rw [hstep]
  exact doneBefore_step hok.keyed.regular.orderly hv.1 hlt
    (fun x hx hid hpub => (hv.2 x hx hid hpub).mono hlt.le)

theorem handsOut_live {e : Event} {d : Delivery} (h : HandsOut w e d)
    (hid : d.subscriptionID = id) : Live id w.db := by
  obtain ⟨-, s, hs, hsid, hlive, -⟩ := handsOut_passes h
  intro r hr hrid
  obtain rfl := w.db.sound.subscription_pk.eq hr hs (hrid.trans (hid.symm.trans hsid.symm))
  exact hlive

theorem handsOut_oldest (h : (bus.within (OneByOne id ttl)).Reachable w) {e : Event}
    (hlt : w.clock < e.env.now) {d : Delivery} (hd : HandsOut w e d)
    (hid : d.subscriptionID = id) : OldestOutstanding e.env.now id w.db d := by
  obtain ⟨ho, s, hs, hsid, -, hpass⟩ := handsOut_passes hd
  obtain ⟨hin, hg, -, hlined⟩ := reachable_lined h
  have hordered := (hin s hs (hsid.trans hid)).1
  exact passing_oldest hg (hlined (handsOut_live hd hid)) hlt.le hd.1 hid ho (hpass hordered)

theorem handed_one (h : (bus.within (OneByOne id ttl)).Reachable w) (hlive : Live id w.db)
    (hle : w.clock ≤ now) {a b : Delivery} (ha : a ∈ w.db.deliveries) (hb : b ∈ w.db.deliveries)
    (haid : a.subscriptionID = id) (hbid : b.subscriptionID = id) (hag : a.id ∈ w.handedOut)
    (hbg : b.id ∈ w.handedOut) (hao : a.Outstanding now) (hbo : b.Outstanding now) : a = b := by
  obtain ⟨-, hg, hdis, hlined⟩ := reachable_lined h
  have hline := hlined hlive
  rcases lt_trichotomy a.publishedAt b.publishedAt with hlt | heq | hlt
  · exact absurd hao (not_outstanding.mpr (handed_done hg hline hle hb ha hbid haid hbg hlt))
  · exact hdis a ha b hb haid hbid heq
  · exact absurd hbo (not_outstanding.mpr (handed_done hg hline hle ha hb haid hbid hag hlt))

/-- Over a run, deliveries are handed out in the order they were published. -/
theorem handsOut_ordered (h : (bus.within (OneByOne id ttl)).Reachable w) {e e' : Event}
    {w' : World} {a b : Delivery} (hok : OneByOne id ttl w e (w.after e)) (ha : HandsOut w e a)
    (haid : a.subscriptionID = id) (hrun : (bus.within (OneByOne id ttl)).Path (w.after e) w')
    (hlt : w'.clock < e'.env.now) (hb : HandsOut w' e' b) (hbid : b.subscriptionID = id) :
    a.publishedAt ≤ b.publishedAt := by
  have hnow : w.clock < e.env.now := hok.keyed.regular.ticking
  obtain ⟨-, hg, -⟩ := reachable_lined h
  have hoff := handsOut_oldest h hnow ha haid
  have hbefore : DoneBefore id a.publishedAt (w.after e) := by
    refine doneBefore_step hok.keyed.regular.orderly (hg.past a ha.1 haid) hnow
      fun x hx hid hpub => ?_
    by_contra hopen
    exact absurd (hoff.2.2 x hx hid (not_done.mp hopen)) hpub.not_ge
  by_contra hpub
  have hdone := (doneBefore_path hbefore hrun).2 b hb.1 hbid (not_le.mp hpub)
  exact not_outstanding.mpr (hdone.mono hlt.le) (handsOut_passes hb).1

/-- An ordered subscription that receives keyed messages of its own topic, one
in a transaction, hands its deliveries out one at a time and in the order they
were published. -/
theorem fifo (h : (bus.within (OneByOne id ttl)).Reachable w) :
    (∀ now, w.clock ≤ now → Live id w.db → HeadOfLine now id w.db ∧
      ∀ a ∈ w.db.deliveries, ∀ b ∈ w.db.deliveries, a.subscriptionID = id →
        b.subscriptionID = id → a.id ∈ w.handedOut → b.id ∈ w.handedOut →
        a.Outstanding now → b.Outstanding now → a = b) ∧
    ∀ e a, OneByOne id ttl w e (w.after e) → HandsOut w e a → a.subscriptionID = id →
      OldestOutstanding e.env.now id w.db a ∧
      ∀ w' e' b, (bus.within (OneByOne id ttl)).Path (w.after e) w' → w'.clock < e'.env.now →
        HandsOut w' e' b → b.subscriptionID = id → a.publishedAt ≤ b.publishedAt := by
  constructor
  · intro now hle hlive
    refine ⟨headOfLine h hlive hle, fun a ha b hb haid hbid hag hbg hao hbo => ?_⟩
    exact handed_one h hlive hle ha hb haid hbid hag hbg hao hbo
  · intro e a hok ha haid
    refine ⟨handsOut_oldest h hok.keyed.regular.ticking ha haid, fun w' e' b hrun hlt hb hbid => ?_⟩
    exact handsOut_ordered h hok ha haid hrun hlt hb hbid

end

def topicOrders : Event := Sample.ordersTopic 1 10

def subscribeOrdered (now : Time) (id : UUID) : Event :=
  ⟨.plain now id, .createSubscription ⟨"orders", "auditor", hour, hour, true, [], "", 0, 0, "", 0,
    ""⟩, by decide⟩

def publishKeyed (now : Time) (id : UUID) : Event :=
  Sample.publish "1" "k" now id

def getOrdered (now : Time) (id : UUID) : Event :=
  ⟨.plain now id, .get ⟨"auditor", none, 10, 100, false⟩, by decide⟩

def lineRun : List Event :=
  [topicOrders, subscribeOrdered 2 20, publishKeyed 3 30, publishKeyed 4 40, getOrdered 5 50,
    ⟨.plain 6 60, .ack [31], trivial⟩]

theorem line_within : (bus.within (OneByOne 20 hour)).Reachable (World.initial.run lineRun) := by
  refine initial_within ⟨⟨⟨⟨?_, ?_, ?_, ?_⟩, ?_⟩, ?_⟩, ⟨⟨⟨?_, ?_, ?_, ?_⟩, ?_⟩, ?_⟩,
    ⟨⟨⟨?_, ?_, ?_, ?_⟩, ?_⟩, ?_⟩, ⟨⟨⟨?_, ?_, ?_, ?_⟩, ?_⟩, ?_⟩,
    ⟨⟨⟨?_, ?_, ?_, ?_⟩, ?_⟩, ?_⟩, ⟨⟨⟨?_, ?_, ?_, ?_⟩, ?_⟩, ?_⟩, trivial⟩
  all_goals first
    | exact Attempts.plain_fresh (by decide +kernel)
    | decide +kernel

theorem fifo_line : HeadOfLine 7 20 (World.initial.run lineRun).db :=
  ((fifo line_within).1 7 (by decide +kernel) (by decide +kernel)).1

def forkRun : List Event := [
  topicOrders,
  ⟨.plain 2 20, .createSubscription ⟨"orders", "worker", hour, hour, false, [], "", 0, 0, "", 1,
    "orders"⟩, by decide⟩,
  publishKeyed 3 30, publishKeyed 4 40, publishKeyed 5 50,
  Sample.getTen 6 60,
  subscribeOrdered 7 70,
  ⟨.plain minute 80, .deadLetter 10, by decide⟩,
  getOrdered (minute + 1) 90,
  ⟨.plain (minute + 2) 100, .ack [81], trivial⟩]

def deletedRun : List Event := [
  topicOrders, subscribeOrdered 2 20, publishKeyed 3 30, publishKeyed 4 40, publishKeyed 5 50,
  ⟨.plain 6 60, .deleteSubscription "auditor", by decide⟩,
  ⟨{ Env.plain 7 70 with deliveries := ⟨orderBy (fun d => (d.publishedAt - 4) ^ 2),
      orderBy_perm _⟩ }, .pruneDeletedSubscriptionDeliveries ⟨0, 1⟩, by decide⟩]

def expiredRun : List Event :=
  [topicOrders, subscribeOrdered 2 20, publishKeyed 3 30, publishKeyed (3 + hour) 40]

def TwoPass (now : Time) (id : UUID) (db : DB) : Prop :=
  ∃ a ∈ db.deliveries, ∃ b ∈ db.deliveries, a ≠ b ∧
    (a.subscriptionID = id ∧ a.Outstanding now ∧ orderingCondition now db.toTables a = true) ∧
    b.subscriptionID = id ∧ b.Outstanding now ∧ orderingCondition now db.toTables b = true

instance (now : Time) (id : UUID) (db : DB) : Decidable (TwoPass now id db) :=
  inferInstanceAs (Decidable (∃ a ∈ db.deliveries, _))

/-- Two deliveries pass when a transaction has added three, when the
subscription was deleted, and at an instant that has gone by. -/
theorem fifo_twoPass :
    ((bus.within (Keyed 70 hour)).Reachable (World.initial.run forkRun) ∧
      TwoPass (minute + 3) 70 (World.initial.run forkRun).db) ∧
    ((bus.within (Keyed 20 hour)).Reachable (World.initial.run deletedRun) ∧
      TwoPass 8 20 (World.initial.run deletedRun).db) ∧
    (bus.within (Keyed 20 hour)).Reachable (World.initial.run expiredRun) ∧
      TwoPass 4 20 (World.initial.run expiredRun).db := by
  refine ⟨⟨initial_within ⟨⟨⟨?_, ?_, ?_, ?_⟩, ?_⟩, ⟨⟨?_, ?_, ?_, ?_⟩, ?_⟩, ⟨⟨?_, ?_, ?_, ?_⟩, ?_⟩,
      ⟨⟨?_, ?_, ?_, ?_⟩, ?_⟩, ⟨⟨?_, ?_, ?_, ?_⟩, ?_⟩, ⟨⟨?_, ?_, ?_, ?_⟩, ?_⟩,
      ⟨⟨?_, ?_, ?_, ?_⟩, ?_⟩, ⟨⟨?_, ?_, ?_, ?_⟩, ?_⟩, ⟨⟨?_, ?_, ?_, ?_⟩, ?_⟩,
      ⟨⟨?_, ?_, ?_, ?_⟩, ?_⟩, trivial⟩, ?_⟩,
    ⟨initial_within ⟨⟨⟨?_, ?_, ?_, ?_⟩, ?_⟩, ⟨⟨?_, ?_, ?_, ?_⟩, ?_⟩, ⟨⟨?_, ?_, ?_, ?_⟩, ?_⟩,
      ⟨⟨?_, ?_, ?_, ?_⟩, ?_⟩, ⟨⟨?_, ?_, ?_, ?_⟩, ?_⟩, ⟨⟨?_, ?_, ?_, ?_⟩, ?_⟩,
      ⟨⟨?_, ?_, ?_, ?_⟩, ?_⟩, trivial⟩, ?_⟩,
    initial_within ⟨⟨⟨?_, ?_, ?_, ?_⟩, ?_⟩, ⟨⟨?_, ?_, ?_, ?_⟩, ?_⟩, ⟨⟨?_, ?_, ?_, ?_⟩, ?_⟩,
      ⟨⟨?_, ?_, ?_, ?_⟩, ?_⟩, trivial⟩, ?_⟩
  all_goals first
    | exact Attempts.plain_fresh (by decide +kernel)
    | exact Attempts.nothing_fresh (by decide +kernel)
    | decide +kernel

end Mmmbbb.Fifo
