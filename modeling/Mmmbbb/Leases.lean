import Mmmbbb.Onwards
import Mmmbbb.Tickers
import Mmmbbb.Slots

/-!
# Leases of what is pending

A stream in time: its ticker ticks exactly at every check interval, and
transactions take no time. What has come due for a delay by the next tick is
delayed at this one, so that nothing that is pending and open becomes due
between two ticks. The window never knows of a later attempt than the
database.
-/

set_option autoImplicit false

namespace Mmmbbb.Leases
open KeyedRows WaitSets Windows Programs Mmmbbb.Schema Mmmbbb.Database Mmmbbb.Delivering Mmmbbb.Consuming
open Mmmbbb.Runs Mmmbbb.Streaming Mmmbbb.Onwards

abbrev Backoffs := Option Duration × Option Duration

/-- Both unset, or long enough to be halved twice and in order. -/
def Proper (b : Backoffs) : Prop :=
  b = (none, none) ∨ ∃ minBackoff maxBackoff, b = (some minBackoff, some maxBackoff) ∧
    4 ≤ minBackoff ∧ minBackoff ≤ maxBackoff

def Fixed (ms : MessageStreamer) (b : Backoffs) (db : DB) : Prop :=
  ∀ s ∈ db.subscriptions, s.id = ms.subscriptionID → (s.minBackoff, s.maxBackoff) = b

instance (ms : MessageStreamer) (b : Backoffs) (db : DB) : Decidable (Fixed ms b db) :=
  inferInstanceAs (Decidable (∀ s ∈ db.subscriptions, _ → _))

structure Timed where
  stream : State
  clock : Time
  /-- The last tick and the next one. -/
  ticked : Option Time
  next : Option Time

inductive Happening
  | pass (now : Time)
  | take (s : Step)

def At (now : Time) : Step → Prop
  | .settle env env' => env.now = now ∧ env'.now = now
  | .delay env | .touch env | .query env | .giveUp env | .autoDelay env => env.now = now
  | .readIDs t | .tick t => t = now
  | .commit e => e.env.now = now
  | _ => True

instance (now : Time) (s : Step) : Decidable (At now s) := by
  induction s using Step.casesOn <;> unfold At <;> infer_instance

def Clean (msg : MessageStreamRequest) : Prop :=
  msg.nack = [] ∧ (msg.delay ≠ [] → 0 < msg.delayFor)

instance (msg : MessageStreamRequest) : Decidable (Clean msg) :=
  inferInstanceAs (Decidable (_ ∧ _))

def Permitted : Step → Prop
  | .receive msg => Clean msg
  | .commit e => Gentle e.action
  | _ => True

instance (s : Step) : Decidable (Permitted s) := by
  induction s using Step.casesOn <;> unfold Permitted <;> infer_instance

def AutoDelay.interval : AutoDelay → Option Duration
  | .starting => none
  | .ticking _ i | .delaying _ i _ _ | .delayed _ i _ _ _ => some i

def AutoDelay.ids : AutoDelay → List UUID
  | .delaying _ _ ids _ | .delayed _ _ ids _ _ => ids
  | _ => []

def Refresher.rows : Refresher → List Delivery
  | .dropping _ _ rows => rows
  | _ => []

/-- Identifiers do not come twice: no new delivery has one that the refresher
has read, or the automatic delay. -/
def Fresh (st st' : State) : Prop :=
  ∀ d ∈ st'.db.deliveries, Has Delivery.id d.id st.db.deliveries ∨
    ¬Has Delivery.id d.id (Refresher.rows st.refresher) ∧ d.id ∉ AutoDelay.ids st.autoDelay

instance (st st' : State) : Decidable (Fresh st st') :=
  inferInstanceAs (Decidable (∀ d ∈ st'.db.deliveries, _ ∨ _ ∧ _))

def Idle (st : State) : Prop :=
  (match st.sender with
    | .fetched _ _ => False
    | _ => True) ∧
  match st.autoDelay with
  | .starting | .ticking _ _ => True
  | _ => False

instance (st : State) : Decidable (Idle st) := by
  unfold Idle
  cases st.sender <;> cases st.autoDelay <;> infer_instance

def OnTime (c : Timed) : Step → Prop
  | .tick _ => c.next = some c.clock
  | _ => True

instance (c : Timed) (s : Step) : Decidable (OnTime c s) := by
  induction s using Step.casesOn <;> unfold OnTime <;> infer_instance

def Timed.took (c : Timed) (s : Step) (st : State) : Timed where
  stream := st
  clock := c.clock
  ticked := match s with
    | .tick now => some now
    | _ => c.ticked
  next := match s with
    | .loadDelay | .tick _ => (AutoDelay.interval st.autoDelay).map (c.clock + ·)
    | _ => c.next

/-- What happens next; time does not pass a tick that is due. -/
def Timed.step (ms : MessageStreamer) (b : Backoffs) (c : Timed) : Happening → Option Timed
  | .pass now =>
    if c.clock ≤ now ∧ Idle c.stream ∧ ∀ n ∈ c.next, now ≤ n then some { c with clock := now }
    else none
  | .take s =>
    match Streaming.step ms c.stream s with
    | none => none
    | some st =>
      if At c.clock s ∧ Permitted s ∧ OnTime c s ∧ Fresh c.stream st ∧ Fixed ms b st.db then
        some (c.took s st)
      else none

def timed (ms : MessageStreamer) (b : Backoffs) : System Timed Happening where
  init c := Init c.stream ∧ Fixed ms b c.stream.db ∧ c.ticked = none ∧ c.next = none
  step c h c' := c.step ms b h = some c'

def Lead (db : DB) (id : UUID) (t : Time) : Prop :=
  ∀ d ∈ db.deliveries, d.id = id → d.completedAt = none → t ≤ d.attemptAt

theorem Lead.mono {db : DB} {id : UUID} {t t' : Time} (h : Lead db id t) (hle : t' ≤ t) :
    Lead db id t' := fun d hd hid hopen => hle.trans (h d hd hid hopen)

theorem Lead.onward {a b : DB} {id : UUID} {t : Time} (h : Lead a id t) (ho : Onward a b)
    (hnew : ∀ d ∈ b.deliveries, d.id = id → Has Delivery.id d.id a.deliveries) : Lead b id t := by
  intro d hd hid hopen
  cases ho d hd hopen with
  | inl hfresh => exact absurd (hnew d hd hid) hfresh
  | inr hold =>
    obtain ⟨x, hx, hxid, hxopen, hle⟩ := hold
    exact (h x hx (hxid.trans hid) hxopen).trans hle

def shortest (b : Backoffs) : Duration := positiveOr defaultMinDelay b.1

/-- Up to when a delivery must not be due: as long as the window or somebody on
the way to it thinks, and while it is pending until the next tick. -/
inductive Owed (b : Backoffs) (c : Timed) : UUID → Time → Prop
  | pending {id : UUID} {pm : PendingMessage} : c.stream.pending.lookup id = some pm →
      Owed b c id pm.nextAttemptAt
  | given {x : SubscriptionMessageDelivery} : x ∈ c.stream.sender.results →
      Owed b c x.id x.nextAttemptAt
  | fetched {x : SubscriptionMessageDelivery} : x ∈ c.stream.sender.results →
      Owed b c x.id (c.clock + shortest b)
  | read {r : Delivery} : r ∈ Refresher.rows c.stream.refresher → Owed b c r.id r.attemptAt
  | held {id : UUID} {d i : Duration} {t : Time} : c.stream.autoDelay = .ticking d i →
      c.ticked = some t → id ∈ c.stream.pending → Owed b c id (t + i)
  | spared {id : UUID} {d i : Duration} {ids : List UUID} {now : Time} :
      c.stream.autoDelay = .delaying d i ids now → id ∈ c.stream.pending → id ∉ ids →
      Owed b c id (now + i)
  | kept {id : UUID} {d i : Duration} {ids : List UUID} {now : Time} {k : ℕ} :
      c.stream.autoDelay = .delayed d i ids now k → id ∈ c.stream.pending → Owed b c id (now + i)
  | renewed {id : UUID} {d i : Duration} {ids : List UUID} {now : Time} {k : ℕ} :
      c.stream.autoDelay = .delayed d i ids now k → id ∈ ids → Owed b c id (now + d)

def Covered (b : Backoffs) (c : Timed) : Prop := ∀ id t, Owed b c id t → Lead c.stream.db id t

theorem Owed.known {b : Backoffs} {c : Timed} {id : UUID} {t : Time} (h : Owed b c id t) :
    id ∈ c.stream.pending ∨ id ∈ c.stream.sender.results.map (·.id) ∨
      Has Delivery.id id (Refresher.rows c.stream.refresher) ∨
        id ∈ AutoDelay.ids c.stream.autoDelay := by
  cases h with
  | pending hl => exact Or.inl (AList.lookup_isSome.mp (by simp [hl]))
  | given hx => exact Or.inr (Or.inl (List.mem_map_of_mem hx))
  | fetched hx => exact Or.inr (Or.inl (List.mem_map_of_mem hx))
  | read hr => exact Or.inr (Or.inr (Or.inl (Has.of_mem hr)))
  | held _ _ hmem => exact Or.inl hmem
  | spared _ hmem _ => exact Or.inl hmem
  | kept _ hmem => exact Or.inl hmem
  | renewed ha hmem => exact Or.inr (Or.inr (Or.inr (by rw [ha]; exact hmem)))

theorem Covered.onward {b : Backoffs} {c : Timed} {tx : Tx} (h : Covered b c)
    (ho : Onward c.stream.db tx.db) (hu : Unused c.stream tx) {st : State}
    (hst : st.db = tx.db) (hf : Fresh c.stream st) :
    ∀ id t, Owed b c id t → Lead tx.db id t := by
  intro id t howed
  refine (h id t howed).onward ho (fun d hd hid => ?_)
  cases hu d hd with
  | inl hhas => exact hhas
  | inr hunused =>
    cases hf d (hst ▸ hd) with
    | inl hhas => exact hhas
    | inr hfresh =>
      rw [hid] at hunused hfresh
      rcases howed.known with hmem | hmem | hmem | hmem
      · exact absurd hmem hunused.1
      · exact absurd hmem hunused.2
      · exact absurd hmem hfresh.1
      · exact absurd hmem hfresh.2

structure Less (c c' : Timed) : Prop where
  pending : ∀ id pm, c'.stream.pending.lookup id = some pm → c.stream.pending.lookup id = some pm
  results : ∀ x ∈ c'.stream.sender.results, x ∈ c.stream.sender.results
  rows : ∀ r ∈ Refresher.rows c'.stream.refresher, r ∈ Refresher.rows c.stream.refresher
  autoDelay : c'.stream.autoDelay = c.stream.autoDelay
  clock : c'.clock = c.clock
  ticked : c'.ticked = c.ticked

theorem Less.mem {c c' : Timed} (h : Less c c') {id : UUID} (hid : id ∈ c'.stream.pending) :
    id ∈ c.stream.pending := by
  obtain ⟨pm, hpm⟩ := Option.isSome_iff_exists.mp (AList.lookup_isSome.mpr hid)
  exact AList.lookup_isSome.mp (by simp [h.pending id pm hpm])

theorem Owed.less {b : Backoffs} {c c' : Timed} {id : UUID} {t : Time} (hless : Less c c')
    (h : Owed b c' id t) : Owed b c id t := by
  cases h with
  | pending hl => exact .pending (hless.pending _ _ hl)
  | given hx => exact .given (hless.results _ hx)
  | fetched hx => exact hless.clock ▸ .fetched (hless.results _ hx)
  | read hr => exact .read (hless.rows _ hr)
  | held ha ht hmem => exact .held (hless.autoDelay ▸ ha) (hless.ticked ▸ ht) (hless.mem hmem)
  | spared ha hmem hids => exact .spared (hless.autoDelay ▸ ha) (hless.mem hmem) hids
  | kept ha hmem => exact .kept (hless.autoDelay ▸ ha) (hless.mem hmem)
  | renewed ha hmem => exact .renewed (hless.autoDelay ▸ ha) hmem

theorem lookup_later {t : Time} {id k : UUID} {pending : Pending} {pm : PendingMessage}
    (h : (later t id pending).lookup k = some pm) :
    pending.lookup k = some pm ∨ k = id ∧ pm.nextAttemptAt = t := by
  unfold later at h
  split at h
  · exact Or.inl h
  · split at h
    · by_cases hk : k = id
      · rw [hk, AList.lookup_insert] at h
        have hpm := Option.some.inj h
        exact Or.inr ⟨hk, by rw [← hpm]⟩
      · rw [AList.lookup_insert_ne hk] at h
        exact Or.inl h
    · exact Or.inl h

theorem lookup_renew {t : Time} {ids : List UUID} {k : UUID} {pending : Pending}
    {pm : PendingMessage} (h : (renew t ids pending).lookup k = some pm) :
    pending.lookup k = some pm ∨ k ∈ ids ∧ pm.nextAttemptAt = t := by
  unfold renew at h
  induction ids generalizing pending with
  | nil => exact Or.inl h
  | cons id ids ih =>
    cases ih h with
    | inl hone =>
      cases lookup_later hone with
      | inl hold => exact Or.inl hold
      | inr hnew => exact Or.inr ⟨by simp [hnew.1], hnew.2⟩
    | inr hrest => exact Or.inr ⟨List.mem_cons_of_mem _ hrest.1, hrest.2⟩

theorem lookup_refresh {rows : List Delivery} {ids : List UUID} {k : UUID} {pending : Pending}
    {pm : PendingMessage} (h : (refresh rows ids pending).lookup k = some pm) :
    pending.lookup k = some pm ∨ ∃ r ∈ rows, r.id = k ∧ pm.nextAttemptAt = r.attemptAt := by
  unfold refresh at h
  induction ids generalizing pending with
  | nil => exact Or.inl h
  | cons id ids ih =>
    cases ih h with
    | inr hrest => exact Or.inr hrest
    | inl hone =>
      unfold refreshOne at hone
      split at hone
      · by_cases hk : k = id
        · rw [hk, AList.lookup_erase] at hone
          cases hone
        · rw [AList.lookup_erase_ne hk] at hone
          exact Or.inl hone
      · rename_i r hr
        obtain ⟨hmem, hid⟩ := fetch_mem hr
        cases lookup_later hone with
        | inl hold => exact Or.inl hold
        | inr hnew => exact Or.inr ⟨r, hmem, hid.trans hnew.1.symm, hnew.2⟩

def Reader.request : Reader → Option MessageStreamRequest
  | .received msg | .settled msg _ | .removed msg => some msg
  | _ => none

def Sender.params : Sender → Option GetSubscriptionMessagesParams
  | .entering p | .fetching p => some p
  | _ => none

structure Bounded (b : Backoffs) (d i : Duration) : Prop where
  pos : 0 < d
  delay : i ≤ d
  short : i ≤ shortest b

/-- The ticks are an interval apart; between a tick and the delays that follow
it no time passes. -/
def Ticking (b : Backoffs) (c : Timed) : Prop :=
  match c.stream.autoDelay with
  | .starting => c.ticked = none
  | .ticking d i => Bounded b d i ∧ ∀ t, c.ticked = some t → t ≤ c.clock ∧ c.next = some (t + i)
  | .delaying d i _ now | .delayed d i _ now _ =>
    Bounded b d i ∧ now = c.clock ∧ c.ticked = some now ∧ c.next = some (now + i)

structure Shape (ms : MessageStreamer) (b : Backoffs) (c : Timed) : Prop where
  fixed : Fixed ms b c.stream.db
  request : ∀ msg, Reader.request c.stream.reader = some msg → Clean msg
  params : ∀ p, Sender.params c.stream.sender = some p → p.id = some ms.subscriptionID
  ticking : Ticking b c

theorem touch_onward {env : Env} {p : GetSubscriptionMessagesParams} {tx tx' : Tx}
    (h : touchSubscription env p tx = .ok tx') : Onward tx.db tx'.db := by
  obtain ⟨sub, -, h⟩ := bind_ok.mp h
  have hdb := DB.updateSubscriptions_ok (refreshExpiration_ok h)
  exact onward_same (by rw [hdb])

theorem nack_none {env : Env} {tx tx' : Tx} {res : NackDeliveriesResults}
    (h : nackDeliveries env [] tx = .ok (res, tx')) : tx' = tx := by
  have hnone : tx.db.deliveries.filter (nackPredicates env.now []) = [] := by
    rw [List.filter_eq_nil_iff]
    intro d _
    simp [nackPredicates]
  have hrun : env.deliveries.run [] = [] := List.perm_nil.mp (env.deliveries.perm [])
  rw [nackDeliveries, hnone, hrun] at h
  obtain ⟨r, hr, h⟩ := bind_ok.mp h
  cases pure_ok.mp hr
  exact (Prod.mk.inj (pure_ok.mp h)).2.symm

theorem settle_onward {env env' : Env} {msg : MessageStreamRequest} {tx tx' : Tx}
    {res : NackDeliveriesResults} (hnack : msg.nack = [])
    (h : doAcksNacks env env' msg tx = .ok (res, tx')) : Onward tx.db tx'.db := by
  rw [doAcksNacks, hnack] at h
  rw [nack_none h]
  exact onward_complete rfl

theorem delays_onward {env : Env} {p : DelayDeliveriesParams} {tx : Tx}
    (h : p.ids ≠ [] → 0 < p.delay) : Onward tx.db (delayDeliveries env p tx).2.db := by
  by_cases hids : p.ids = []
  · refine onward_update rfl (fun d _ hp _ => ?_)
    simp [delayPredicates, hids] at hp
  · exact onward_delay (h hids)

theorem verifySub_backoffs {ms : MessageStreamer} {b : Backoffs} {db : DB}
    {p : GetSubscriptionMessagesParams} {sub : Subscription} (hf : Fixed ms b db)
    (hp : p.id = some ms.subscriptionID) (h : verifySub p db.toTables = .ok sub) :
    (sub.minBackoff, sub.maxBackoff) = b := by
  obtain ⟨hmem, hmatch⟩ := only_ok h
  simp only [subMatch, hp, idMatches, Bool.and_eq_true, decide_eq_true_eq] at hmatch
  exact hf sub hmem hmatch.1.2

theorem giveUp_onward {env : Env} {p : GetSubscriptionMessagesParams} {sub : Subscription}
    {tx tx' : Tx} {res : GetSubscriptionMessagesResults}
    (h : applyResults env p sub [] tx = .ok (res, tx')) :
    Onward tx.db tx'.db ∧ res.deliveries = [] := by
  constructor
  · refine (applyResults_onward ⟨?_, ?_, ?_⟩ ?_ h).1
    · exact fun x hx => absurd hx List.not_mem_nil
    · exact fun x hx => absurd hx List.not_mem_nil
    · exact List.nodup_nil
    · exact fun x hx => absurd hx List.not_mem_nil
  · exact applyResults_nil h

section
variable {b : Backoffs} {s : Subscription}

theorem shortest_le_nominal (hb : Proper b) (hs : (s.minBackoff, s.maxBackoff) = b) (n : ℕ) :
    shortest b ≤ (nextDelayFor s n).1 := by
  subst hs
  apply le_nominal n (le_refl _)
  rcases hb with hnone | ⟨lo, hi, hsome, hlong, hle⟩
  · obtain ⟨hmin, hmax⟩ := Prod.mk.inj hnone
    rw [hmin, hmax]
    decide
  · obtain ⟨hmin, hmax⟩ := Prod.mk.inj hsome
    have hlo : 0 < lo := lt_of_lt_of_le (by decide) hlong
    rw [hmin, hmax, positiveOr, positiveOr, if_pos hlo, if_pos (hlo.trans_le hle)]
    exact hle

theorem bmod_le {x : ℤ} (hx : 0 ≤ x) : x.bmod (2 ^ 64) ≤ x := by
  obtain ⟨k, hk, hlow, hhigh⟩ := Messages.bmod_wrap x
  rw [hk] at hlow hhigh ⊢
  omega

theorem interval_le_half {x : ℤ} (hx : 0 ≤ x) : ((x * 9).bmod (2 ^ 64)).tdiv 10 ≤ x := by
  have hle := bmod_le (x := x * 9) (by omega)
  generalize (x * 9).bmod (2 ^ 64) = y at hle ⊢
  by_cases hy : 0 ≤ y
  · rw [Int.tdiv_eq_ediv_of_nonneg hy]
    omega
  · have htenth := Tickers.tenth_pos_iff (x := y)
    omega

theorem bounded_half {x : ℤ} (hx : 0 ≤ x) (hshort : x ≤ shortest b) :
    Bounded b (if x < second then second else x) (((x * 9).bmod (2 ^ 64)).tdiv 10) := by
  have hinterval := interval_le_half hx
  have hsecond : 0 < second := by decide
  refine ⟨?_, ?_, hinterval.trans hshort⟩
  · split
    · exact hsecond
    · rename_i hlong
      exact hsecond.trans_le (not_lt.mp hlong)
  · split
    · rename_i hbelow
      exact hinterval.trans hbelow.le
    · exact hinterval

theorem delayAmounts_bounded (hb : Proper b) (hs : (s.minBackoff, s.maxBackoff) = b) :
    Bounded b (delayAmounts s).1 (delayAmounts s).2 := by
  rcases hb with rfl | ⟨lo, hi, rfl, hlong, -⟩
  · obtain ⟨hmin, -⟩ := Prod.mk.inj hs
    rw [delayAmounts, hmin]
    exact bounded_half (x := defaultMinDelay.tdiv 2) (by decide) (by decide)
  · obtain ⟨hmin, -⟩ := Prod.mk.inj hs
    have hlo : (0 : ℤ) < lo := lt_of_lt_of_le (by decide) hlong
    have hshort : shortest (some lo, some hi) = lo := if_pos hlo
    have hhalf : lo.tdiv 2 = lo / 2 := Int.tdiv_eq_ediv_of_nonneg hlo.le
    rw [delayAmounts, hmin]
    apply bounded_half (x := lo.tdiv 2)
    · rw [hhalf]
      omega
    · rw [hshort, hhalf]
      omega

end

section
variable {ms : MessageStreamer} {b : Backoffs} {c c' : Timed}

theorem Covered.less (h : Covered b c) (hless : Less c c') (hdb : c'.stream.db = c.stream.db) :
    Covered b c' := by
  intro id t howed
  rw [hdb]
  exact h id t (howed.less hless)

theorem Covered.commit {tx : Tx} (h : Covered b c) (hless : Less c c')
    (ho : Onward c.stream.db tx.db) (hu : Unused c.stream tx) (hdb : c'.stream.db = tx.db)
    (hf : Fresh c.stream c'.stream) : Covered b c' := by
  intro id t howed
  rw [hdb]
  exact h.onward ho hu hdb hf id t (howed.less hless)

def Kept (c : Timed) : Prop :=
  match c.stream.autoDelay with
  | .starting => True
  | .ticking _ i => ∀ t, c.ticked = some t → ∀ id ∈ c.stream.pending, Lead c.stream.db id (t + i)
  | .delaying _ i ids now => ∀ id ∈ c.stream.pending, id ∉ ids → Lead c.stream.db id (now + i)
  | .delayed d i ids now _ => (∀ id ∈ c.stream.pending, Lead c.stream.db id (now + i)) ∧
    ∀ id ∈ ids, Lead c.stream.db id (now + d)

theorem Covered.kept (h : Covered b c) : Kept c := by
  unfold Kept
  split
  · trivial
  · rename_i d i ha
    exact fun t ht id hid => h _ _ (.held ha ht hid)
  · rename_i d i ids now ha
    exact fun id hid hnot => h _ _ (.spared ha hid hnot)
  · rename_i d i ids now k ha
    exact ⟨fun id hid => h _ _ (.kept ha hid), fun id hid => h _ _ (.renewed ha hid)⟩

theorem covered_of
    (hp : ∀ id pm, c.stream.pending.lookup id = some pm → Lead c.stream.db id pm.nextAttemptAt)
    (hr : ∀ x ∈ c.stream.sender.results, Lead c.stream.db x.id x.nextAttemptAt ∧
      Lead c.stream.db x.id (c.clock + shortest b))
    (hrows : ∀ r ∈ Refresher.rows c.stream.refresher, Lead c.stream.db r.id r.attemptAt)
    (hk : Kept c) : Covered b c := by
  intro id t howed
  unfold Kept at hk
  cases howed with
  | pending hl => exact hp _ _ hl
  | given hx => exact (hr _ hx).1
  | fetched hx => exact (hr _ hx).2
  | read hrow => exact hrows _ hrow
  | held ha ht hmem =>
    rw [ha] at hk
    exact hk _ ht _ hmem
  | spared ha hmem hids =>
    rw [ha] at hk
    exact hk _ hmem hids
  | kept ha hmem =>
    rw [ha] at hk
    exact hk.1 _ hmem
  | renewed ha hmem =>
    rw [ha] at hk
    exact hk.2 _ hmem

theorem Covered.window (h : Covered b c) : ∀ id pm, c.stream.pending.lookup id = some pm →
    Lead c.stream.db id pm.nextAttemptAt := fun _ _ hl => h _ _ (.pending hl)

theorem Covered.results (h : Covered b c) : ∀ x ∈ c.stream.sender.results,
    Lead c.stream.db x.id x.nextAttemptAt ∧ Lead c.stream.db x.id (c.clock + shortest b) :=
  fun _ hx => ⟨h _ _ (.given hx), h _ _ (.fetched hx)⟩

theorem Covered.rows (h : Covered b c) : ∀ r ∈ Refresher.rows c.stream.refresher,
    Lead c.stream.db r.id r.attemptAt := fun _ hr => h _ _ (.read hr)

theorem covered_fetched (h : Covered b c) {results : List SubscriptionMessageDelivery} {k : ℕ}
    (hr : ∀ x ∈ results, Lead c.stream.db x.id x.nextAttemptAt ∧
      Lead c.stream.db x.id (c.clock + shortest b)) :
    Covered b { c with stream := { c.stream with sender := .fetched results k } } :=
  covered_of h.window hr h.rows h.kept

theorem handedOut_lead {now : Time} {sub : Subscription} {db : DB}
    {x : SubscriptionMessageDelivery} (hb : Proper b) (hs : (sub.minBackoff, sub.maxBackoff) = b)
    (h : HandedOut now sub db x) :
    Lead db x.id x.nextAttemptAt ∧ Lead db x.id (now + shortest b) := by
  obtain ⟨n, hnext, hrows⟩ := h
  have hlead : Lead db x.id x.nextAttemptAt := fun d hd hid _ => hrows d hd hid
  refine ⟨hlead, hlead.mono ?_⟩
  rw [hnext]
  exact add_le_add_right (shortest_le_nominal hb hs n) now

theorem covered_insert (h : Covered b c) (ht : Ticking b c)
    {results : List SubscriptionMessageDelivery} {k : ℕ}
    (hs : c.stream.sender = .fetched results k) :
    Covered b { c with stream := c.stream.inserted results } := by
  have hresults : ∀ x ∈ results, Lead c.stream.db x.id x.nextAttemptAt ∧
      Lead c.stream.db x.id (c.clock + shortest b) := by
    have hr := h.results
    rwa [hs] at hr
  have hmem : ∀ id ∈ insertPending results c.stream.pending, ∀ t, t ≤ c.clock + shortest b →
      (id ∈ c.stream.pending → Lead c.stream.db id t) → Lead c.stream.db id t := by
    intro id hid t hle hold
    cases mem_insertAll.mp hid with
    | inl hnew =>
      obtain ⟨x, hx, rfl⟩ := List.mem_map.mp hnew
      exact (hresults x hx).2.mono hle
    | inr hmem => exact hold hmem
  have hkept := h.kept
  refine covered_of (fun id pm hl => ?_) (fun x hx => ?_) h.rows ?_
  · cases lookup_insertAll hl with
    | inl hold => exact h.window id pm hold
    | inr hnew =>
      obtain ⟨x, hx, rfl, rfl⟩ := hnew
      exact (hresults x hx).1
  · dsimp only [State.inserted] at hx
    split at hx
    · cases hx
    · cases hx
  · unfold Kept at hkept ⊢
    unfold Ticking at ht
    dsimp only [State.inserted]
    cases ha : c.stream.autoDelay with
    | starting => trivial
    | ticking d i =>
      rw [ha] at hkept ht
      intro t htick id hid
      exact hmem id hid _ (add_le_add (ht.2 t htick).1 ht.1.short) (hkept t htick id)
    | delaying d i ids now =>
      rw [ha] at hkept ht
      intro id hid hnot
      have hle := add_le_add ht.2.1.le ht.1.short
      exact hmem id hid _ hle (fun hold => hkept id hold hnot)
    | delayed d i ids now k' =>
      rw [ha] at hkept ht
      have hle := add_le_add ht.2.1.le ht.1.short
      exact ⟨fun id hid => hmem id hid _ hle (hkept.1 id), hkept.2⟩

theorem lead_row {db : DB} {r : Delivery} (hr : r ∈ db.deliveries) : Lead db r.id r.attemptAt := by
  intro d hd hid _
  rw [db.sound.delivery_pk.eq hd hr hid]

theorem covered_read (h : Covered b c) (channel : Channel) (ids : List UUID) (now : Time) :
    Covered b { c with stream := { c.stream with
      refresher := .dropping channel ids
        (c.stream.db.deliveries.filter (stillPending ids now)) } } :=
  covered_of h.window h.results (fun _ hr => lead_row (List.mem_of_mem_filter hr)) h.kept

theorem Kept.smaller {st : State} (hk : Kept c) (hdb : st.db = c.stream.db)
    (ha : st.autoDelay = c.stream.autoDelay) (hp : ∀ id ∈ st.pending, id ∈ c.stream.pending) :
    Kept { c with stream := st } := by
  unfold Kept at hk ⊢
  dsimp only
  rw [ha, hdb]
  cases hc : c.stream.autoDelay with
  | starting => trivial
  | ticking d i =>
    rw [hc] at hk
    exact fun t ht id hid => hk t ht id (hp id hid)
  | delaying d i ids now =>
    rw [hc] at hk
    exact fun id hid hnot => hk id (hp id hid) hnot
  | delayed d i ids now k =>
    rw [hc] at hk
    exact ⟨fun id hid => hk.1 id (hp id hid), hk.2⟩

theorem covered_drop (h : Covered b c) {channel : Channel} {ids : List UUID}
    {rows : List Delivery} (hr : c.stream.refresher = .dropping channel ids rows) :
    Covered b { c with stream := c.stream.dropped channel ids rows } := by
  have hrows := h.rows
  rw [hr] at hrows
  refine covered_of (fun id pm hl => ?_) h.results (fun r hr => ?_) (h.kept.smaller rfl rfl ?_)
  · cases lookup_refresh hl with
    | inl hold => exact h.window id pm hold
    | inr hnew =>
      obtain ⟨r, hmem, rfl, hnext⟩ := hnew
      rw [hnext]
      exact hrows r hmem
  · cases hr
  · exact fun id hid => (Slots.mem_refresh.mp hid).1

theorem covered_load (h : Covered b c) (hnone : c.ticked = none) (d i : Duration)
    (next : Option Time) : Covered b ⟨{ c.stream with autoDelay := .ticking d i }, c.clock,
      c.ticked, next⟩ := by
  refine covered_of h.window h.results h.rows (fun t ht => ?_)
  rw [hnone] at ht
  cases ht

theorem spared_lead (h : Covered b c) {nextCheck : Time} {id : UUID}
    (hid : id ∈ c.stream.pending) (hnot : id ∉ dueIDs nextCheck c.stream.pending) :
    Lead c.stream.db id nextCheck := by
  obtain ⟨pm, hpm⟩ := Option.isSome_iff_exists.mp (AList.lookup_isSome.mpr hid)
  apply (h.window id pm hpm).mono
  by_contra hlt
  apply hnot
  have hentry : (⟨id, pm⟩ : Sigma fun _ : UUID => PendingMessage) ∈ c.stream.pending.entries :=
    AList.mem_lookup_iff.mp hpm
  exact List.mem_map.mpr ⟨_, List.mem_filter.mpr ⟨hentry, decide_eq_true (not_le.mp hlt)⟩, rfl⟩

theorem covered_tickNone (h : Covered b c) {d i : Duration} {next : Option Time}
    (ha : c.stream.autoDelay = .ticking d i) (hnone : dueIDs (c.clock + i) c.stream.pending = []) :
    Covered b ⟨c.stream, c.clock, some c.clock, next⟩ := by
  refine covered_of h.window h.results h.rows ?_
  unfold Kept
  dsimp only
  rw [ha]
  intro t ht id hid
  obtain rfl := Option.some.inj ht
  exact spared_lead h hid (by simp [hnone])

theorem covered_tick (h : Covered b c) (d i : Duration) (ticked next : Option Time) :
    Covered b ⟨{ c.stream with
      autoDelay := .delaying d i (dueIDs (c.clock + i) c.stream.pending) c.clock },
      c.clock, ticked, next⟩ :=
  covered_of h.window h.results h.rows (fun _ hid hnot => spared_lead h hid hnot)

theorem delay_lead (env : Env) {p : DelayDeliveriesParams} (tx : Tx) {id : UUID}
    (hid : id ∈ p.ids) : Lead (delayDeliveries env p tx).2.db id (env.now + p.delay) := by
  intro r hr hrid hopen
  change r ∈ tx.db.deliveries.map (setWhere (delayPredicates env p) _) at hr
  obtain ⟨d, hd, rfl⟩ := List.mem_map.mp hr
  rw [setWhere] at hopen hrid ⊢
  by_cases hp : delayPredicates env p d = true
  · rw [if_pos hp]
    exact le_refl _
  · rw [if_neg hp] at hopen hrid ⊢
    by_contra hlt
    apply hp
    simp [delayPredicates, hrid, hid, hopen, not_le.mp hlt]

theorem covered_autoDelay (h : Covered b c) {d i : Duration} {ids : List UUID} {k : ℕ}
    (ha : c.stream.autoDelay = .delaying d i ids c.clock) (hle : i ≤ d)
    (hids : ∀ id ∈ ids, Lead c.stream.db id (c.clock + d)) :
    Covered b { c with stream := { c.stream with autoDelay := .delayed d i ids c.clock k } } := by
  have hkept := h.kept
  unfold Kept at hkept
  rw [ha] at hkept
  refine covered_of h.window h.results h.rows ⟨fun id hid => ?_, hids⟩
  by_cases hmem : id ∈ ids
  · exact (hids id hmem).mono (add_le_add_right hle c.clock)
  · exact hkept id hid hmem

theorem covered_renew (h : Covered b c) {d i : Duration} {ids : List UUID} {now : Time} {k : ℕ}
    (ha : c.stream.autoDelay = .delayed d i ids now k) (hticked : c.ticked = some now) :
    Covered b { c with stream := { c.stream with
      pending := renew (now + d) ids c.stream.pending
      autoDelay := .ticking d i } } := by
  have hkept := h.kept
  unfold Kept at hkept
  rw [ha] at hkept
  refine covered_of (fun id pm hl => ?_) h.results h.rows (fun t ht id hid => ?_)
  · cases lookup_renew hl with
    | inl hold => exact h.window id pm hold
    | inr hnew =>
      rw [hnew.2]
      exact hkept.2 id hnew.1
  · rw [hticked] at ht
    obtain rfl := Option.some.inj ht
    exact hkept.1 id (Slots.mem_renew.mp hid)

/-- Time passes only while nothing is on its way. -/
theorem covered_pass (h : Covered b c) (hidle : Idle c.stream) (now : Time) :
    Covered b { c with clock := now } := by
  refine covered_of h.window (fun x hx => ?_) h.rows h.kept
  obtain ⟨hsender, -⟩ := hidle
  unfold Sender.results at hx
  dsimp only at hx
  split at hx
  · rename_i hs
    rw [hs] at hsender
    exact hsender.elim
  · cases hx

end

end Mmmbbb.Leases
