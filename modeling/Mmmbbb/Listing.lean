import Mmmbbb.Paging
import Mmmbbb.Runs
import Mathlib.Data.Nat.Digits.Defs

/-!
# Lists that come in pages

Topics, subscriptions and the subscriptions of a topic are listed by
identifier, a page at a time. The token of the next page is the last
identifier of a full one.
-/

set_option autoImplicit false

namespace Mmmbbb.Listing
open KeyedRows Programs Paging Mmmbbb.Schema Mmmbbb.Database Mmmbbb.Delivering Mmmbbb.Consuming
open Mmmbbb.Administering

structure UUIDText where
  string : UUID → String
  parse : String → Except String UUID
  parse_string : ∀ id, parse (string id) = .ok id
  string_ne : ∀ id, string id ≠ ""

structure Visit where
  env : Env
  db : DB
  pageSize : ℤ

structure Page (α : Type) where
  rows : List α
  nextPageToken : String

def hasPrefix (s start : String) : Bool := start.toList.isPrefixOf s.toList

def projectTopicPrefix (project : String) : String := project ++ "/topics/"

def projectSubscriptionPrefix (project : String) : String := project ++ "/subscriptions/"

def isValidName (kind name : String) : Bool :=
  match name.toList.splitOn '/' with
  | [projects, project, k, rest] => projects == "projects".toList && project != [] &&
      k == kind.toList && rest != []
  | _ => false

def isValidTopicName : String → Bool := isValidName "topics"
def isValidSubscriptionName : String → Bool := isValidName "subscriptions"
def isValidSnapshotName : String → Bool := isValidName "snapshots"

def effectivePageSize (pageSize : ℤ) : ℕ :=
  if 0 < pageSize ∧ pageSize < 100 then pageSize.toNat else 100

theorem effectivePageSize_pos (pageSize : ℤ) : 0 < effectivePageSize pageSize := by
  unfold effectivePageSize
  split
  · omega
  · norm_num

def pageID (text : UUIDText) (pageToken : String) : Except Error (Option UUID) :=
  if pageToken = "" then .ok none
  else
    match text.parse pageToken with
    | .error e => .error (.invalidArgument e)
    | .ok id => .ok (some id)

def idGT (cursor : Option UUID) (id : UUID) : Bool :=
  match cursor with
  | none => true
  | some c => decide (c < id)

def listRows {α : Type} (text : UUIDText) (key : α → UUID) (scan : ScanOrder α) (p : α → Bool)
    (pageSize : ℕ) (cursor : Option UUID) (rows : List α) : Page α :=
  let rows := (orderBy (fun r => (key r : ℤ))
    (scan.run (rows.filter (fun r => p r && idGT cursor (key r))))).take pageSize
  ⟨rows, if pageSize ≤ rows.length then (rows.getLast?.map (fun r => text.string (key r))).getD ""
    else ""⟩

def topicListed (project : String) (t : Topic) : Bool :=
  hasPrefix t.name (projectTopicPrefix project) && t.deletedAt.isNone

def subscriptionListed (project : String) (s : Subscription) : Bool :=
  hasPrefix s.name (projectSubscriptionPrefix project) && s.deletedAt.isNone

def listTopics (text : UUIDText) (v : Visit) (project pageToken : String) :
    Except Error (Page Topic) := do
  failWhen (hasPrefix project "projects/" = false)
    (.invalidArgument "Invalid project ID, must start with 'projects/'")
  let cursor ← pageID text pageToken
  pure (listRows text Topic.id v.env.topics (topicListed project) (effectivePageSize v.pageSize)
    cursor v.db.topics)

def listSubscriptions (text : UUIDText) (v : Visit) (project pageToken : String) :
    Except Error (Page Subscription) := do
  failWhen (hasPrefix project "projects/" = false)
    (.invalidArgument "Invalid project ID, must start with 'projects/'")
  let cursor ← pageID text pageToken
  pure (listRows text Subscription.id v.env.subscriptions (subscriptionListed project)
    (effectivePageSize v.pageSize) cursor v.db.subscriptions)

def listTopicSubscriptions (text : UUIDText) (v : Visit) (topic pageToken : String) :
    Except Error (Page Subscription) := do
  failWhen (isValidTopicName topic = false)
    (.invalidArgument ("Unsupported project / topic path " ++ topic))
  let t ← only (liveTopicNamed topic) v.db.topics
  let cursor ← pageID text pageToken
  pure (listRows text Subscription.id v.env.subscriptions
    (fun s => decide (s.topicID = t.id) && s.deletedAt.isNone)
    (effectivePageSize v.pageSize) cursor v.db.subscriptions)

inductive Method
  | topics (project : String)
  | subscriptions (project : String)
  | topicSubscriptions (topic : String)

def Method.list (text : UUIDText) (m : Method) (v : Visit) (pageToken : String) :
    Except Error (List UUID × String) :=
  match m with
  | .topics project => (listTopics text v project pageToken).map
      (fun p => (p.rows.map Topic.id, p.nextPageToken))
  | .subscriptions project => (listSubscriptions text v project pageToken).map
      (fun p => (p.rows.map Subscription.id, p.nextPageToken))
  | .topicSubscriptions topic => (listTopicSubscriptions text v topic pageToken).map
      (fun p => (p.rows.map Subscription.id, p.nextPageToken))

def Method.matching (m : Method) (db : DB) : List UUID :=
  match m with
  | .topics project => (db.topics.filter (topicListed project)).map Topic.id
  | .subscriptions project =>
    (db.subscriptions.filter (subscriptionListed project)).map Subscription.id
  | .topicSubscriptions topic =>
    match only (liveTopicNamed topic) db.topics with
    | .error _ => []
    | .ok t => (db.subscriptions.filter
        (fun s => decide (s.topicID = t.id) && s.deletedAt.isNone)).map Subscription.id

def Method.Accepted (m : Method) (db : DB) : Prop :=
  match m with
  | .topics project | .subscriptions project => hasPrefix project "projects/" = true
  | .topicSubscriptions topic => isValidTopicName topic = true ∧
      (only (liveTopicNamed topic) db.topics).isOk = true

instance (m : Method) (db : DB) : Decidable (m.Accepted db) := by
  unfold Method.Accepted
  split <;> infer_instance

/-- A client that asks again while it is given a token; what it was given in
the end, and the token that is left. -/
def follow (list : Visit → String → Except Error (List UUID × String)) :
    List Visit → String → Except Error (List UUID × Option String)
  | [], token => .ok ([], some token)
  | v :: visits, token => do
    let (page, next) ← list v token
    if next = "" then pure (page, none)
    else
      let (rest, last) ← follow list visits next
      pure (page ++ rest, last)

section
variable {list : Visit → String → Except Error (List UUID × String)} {v : Visit}
  {visits : List Visit} {token next : String} {page rest : List UUID} {last : Option String}

theorem follow_last (h : list v token = .ok (page, "")) :
    follow list (v :: visits) token = .ok (page, none) := by
  rw [follow, h]
  rfl

theorem follow_more (h : list v token = .ok (page, next)) (hnext : next ≠ "")
    (hrest : follow list visits next = .ok (rest, last)) :
    follow list (v :: visits) token = .ok (page ++ rest, last) := by
  rw [follow, h]
  change (if next = "" then _ else _) = _
  rw [if_neg hnext, hrest]
  rfl

end

section
variable {text : UUIDText}

def tokenOf (text : UUIDText) : Option UUID → String
  | none => ""
  | some id => text.string id

theorem pageID_tokenOf (cursor : Option UUID) : pageID text (tokenOf text cursor) = .ok cursor := by
  cases cursor with
  | none => rfl
  | some id => simp [pageID, tokenOf, text.string_ne, text.parse_string]

theorem tokenOf_empty {cursor : Option UUID} (h : tokenOf text cursor = "") : cursor = none := by
  cases cursor with
  | none => rfl
  | some id => exact absurd h (text.string_ne id)

theorem idGT_iff {cursor : Option UUID} {id : UUID} : idGT cursor id = true ↔ Beyond cursor id := by
  cases cursor with
  | none => simp [idGT, Beyond]
  | some c => simp [idGT, Beyond]

theorem strictly_sorted {α : Type} {key : α → UUID} {rows : List α} (hu : UniqueKeys key rows)
    (scan : ScanOrder α) :
    ((orderBy (fun r => (key r : ℤ)) (scan.run rows)).map key).Pairwise (· < ·) := by
  have hle := orderBy_pairwise (fun r => (key r : ℤ)) (scan.run rows)
  have hperm := (orderBy_perm (fun r => (key r : ℤ)) (scan.run rows)).trans (scan.perm rows)
  have hne : ((orderBy (fun r => (key r : ℤ)) (scan.run rows)).map key).Nodup :=
    (hperm.map key).nodup_iff.mpr hu
  rw [List.pairwise_map]
  have hne' := List.pairwise_map.mp hne
  exact hle.imp₂ (fun a b hab hk => lt_of_le_of_ne (by exact_mod_cast hab) hk) hne'

theorem listRows_page {α : Type} {key : α → UUID} {scan : ScanOrder α} {p : α → Bool} {n : ℕ}
    {cursor : Option UUID} {rows : List α} (hu : UniqueKeys key rows) :
    IsPage id ((rows.filter p).map key) cursor n
        ((listRows text key scan p n cursor rows).rows.map key) ∧
      (listRows text key scan p n cursor rows).nextPageToken =
        tokenOf text (nextCursor id n ((listRows text key scan p n cursor rows).rows.map key)) := by
  constructor
  · unfold listRows
    dsimp only
    rw [List.map_take]
    refine isPage_take n ?_ fun k => ?_
    · rw [List.map_id]
      exact strictly_sorted (hu.filter _) scan
    · simp only [List.mem_map, mem_orderBy, ScanOrder.mem_run, List.mem_filter, Bool.and_eq_true,
        idGT_iff, id]
      constructor
      · rintro ⟨r, ⟨hr, hp, hbeyond⟩, rfl⟩
        exact ⟨⟨r, ⟨hr, hp⟩, rfl⟩, hbeyond⟩
      · rintro ⟨⟨r, ⟨hr, hp⟩, rfl⟩, hbeyond⟩
        exact ⟨r, ⟨hr, hp, hbeyond⟩, rfl⟩
  · unfold listRows nextCursor
    simp only [List.length_map, List.getLast?_map]
    split
    · cases List.getLast? _ with
      | none => rfl
      | some r => rfl
    · rfl

/-- A call that is not refused returns a page of what matches. -/
theorem list_page {m : Method} {v : Visit} (h : m.Accepted v.db) (cursor : Option UUID) :
    ∃ page, m.list text v (tokenOf text cursor) =
        .ok (page, tokenOf text (nextCursor id (effectivePageSize v.pageSize) page)) ∧
      IsPage id (m.matching v.db) cursor (effectivePageSize v.pageSize) page := by
  cases m with
  | topics project =>
    have hp : hasPrefix project "projects/" = true := h
    obtain ⟨hpage, htoken⟩ := @listRows_page text _ _ v.env.topics (topicListed project)
      (effectivePageSize v.pageSize) cursor _ v.db.sound.topic_pk
    refine ⟨_, ?_, hpage⟩
    rw [← htoken]
    simp [Method.list, listTopics, failWhen, hp, pageID_tokenOf, bind, Except.bind, pure,
      Except.pure, Except.map]
  | subscriptions project =>
    have hp : hasPrefix project "projects/" = true := h
    obtain ⟨hpage, htoken⟩ := @listRows_page text _ _ v.env.subscriptions
      (subscriptionListed project) (effectivePageSize v.pageSize) cursor _
      v.db.sound.subscription_pk
    refine ⟨_, ?_, hpage⟩
    rw [← htoken]
    simp [Method.list, listSubscriptions, failWhen, hp, pageID_tokenOf, bind, Except.bind, pure,
      Except.pure, Except.map]
  | topicSubscriptions topic =>
    obtain ⟨hvalid, hlive⟩ : isValidTopicName topic = true ∧
      (only (liveTopicNamed topic) v.db.topics).isOk = true := h
    cases ht : only (liveTopicNamed topic) v.db.topics with
    | error e => rw [ht] at hlive; cases hlive
    | ok t =>
      obtain ⟨hpage, htoken⟩ := @listRows_page text _ _ v.env.subscriptions
        (fun s => decide (s.topicID = t.id) && s.deletedAt.isNone)
        (effectivePageSize v.pageSize) cursor _ v.db.sound.subscription_pk
      have hmatching : (Method.topicSubscriptions topic).matching v.db =
          (v.db.subscriptions.filter
            (fun s => decide (s.topicID = t.id) && s.deletedAt.isNone)).map Subscription.id := by
        simp only [Method.matching, ht]
      rw [hmatching]
      refine ⟨_, ?_, hpage⟩
      rw [← htoken]
      simp [Method.list, listTopicSubscriptions, failWhen, hvalid, ht, pageID_tokenOf, bind,
        Except.bind, pure, Except.pure, Except.map]

theorem list_accepted {m : Method} {v : Visit} {token : String} {r : List UUID × String}
    (h : m.list text v token = .ok r) : m.Accepted v.db := by
  cases m with
  | topics project =>
    obtain ⟨page, hpage, -⟩ := map_ok.mp h
    obtain ⟨_, hp, -⟩ := bind_ok.mp hpage
    show hasPrefix project "projects/" = true
    simpa using failWhen_ok.mp hp
  | subscriptions project =>
    obtain ⟨page, hpage, -⟩ := map_ok.mp h
    obtain ⟨_, hp, -⟩ := bind_ok.mp hpage
    show hasPrefix project "projects/" = true
    simpa using failWhen_ok.mp hp
  | topicSubscriptions topic =>
    obtain ⟨page, hpage, -⟩ := map_ok.mp h
    obtain ⟨_, hp, hrest⟩ := bind_ok.mp hpage
    obtain ⟨t, ht, -⟩ := bind_ok.mp hrest
    refine ⟨by simpa using failWhen_ok.mp hp, ?_⟩
    rw [ht]
    rfl

theorem follow_listed {m : Method} (visits : List Visit) {cursor : Option UUID}
    {rows : List UUID} {last : Option String}
    (h : follow (m.list text) visits (tokenOf text cursor) = .ok (rows, last)) :
    rows = [] ∧ last.isSome ∨ ∃ used steps final, used <+: visits ∧
      steps = used.map (fun v => (m.matching v.db, effectivePageSize v.pageSize)) ∧
      Listed id cursor steps rows final ∧ (last = none → final = none) := by
  induction visits generalizing cursor rows last with
  | nil =>
    left
    have hr := Except.ok.inj h
    rw [Prod.mk.injEq] at hr
    exact ⟨hr.1.symm, by rw [← hr.2]; rfl⟩
  | cons v visits ih =>
    right
    obtain ⟨⟨page, next⟩, hlist, hrest⟩ := bind_ok.mp h
    obtain ⟨page', hlist', hpage⟩ := list_page (list_accepted hlist) cursor
    obtain ⟨rfl, rfl⟩ := Prod.mk.injEq _ _ _ _ ▸ Except.ok.inj (hlist.symm.trans hlist')
    have hone : [v] <+: v :: visits := by simp
    dsimp only at hrest
    split at hrest
    · rename_i hempty
      have hr := pure_ok.mp hrest
      rw [Prod.mk.injEq] at hr
      obtain ⟨rfl, rfl⟩ := hr
      exact ⟨[v], _, _, hone, rfl, .last hpage, fun _ => tokenOf_empty hempty⟩
    · rename_i hmore
      obtain ⟨⟨rest, last'⟩, hfollow, hr⟩ := bind_ok.mp hrest
      have hr := pure_ok.mp hr
      rw [Prod.mk.injEq] at hr
      obtain ⟨rfl, rfl⟩ := hr
      cases hnext : nextCursor id (effectivePageSize v.pageSize) page with
      | none => rw [hnext] at hmore; exact absurd rfl hmore
      | some c =>
        rw [hnext] at hfollow
        rcases ih hfollow with ⟨rfl, hsome⟩ | ⟨used, steps, final, hused, hsteps, hlisted, hlast⟩
        · refine ⟨[v], _, some c, hone, rfl, ?_, fun hn => by subst hn; cases hsome⟩
          rw [List.append_nil, ← hnext]
          exact .last hpage
        · refine ⟨v :: used, _, final, List.cons_prefix_cons.mpr ⟨rfl, hused⟩, rfl, ?_, hlast⟩
          rw [List.map_cons, ← hsteps]
          exact .more hpage hnext hlisted

theorem follow_ends {m : Method} {db : DB} (h : m.Accepted db) (env : ℕ → Env) (size : ℕ → ℤ)
    (cursor : Option UUID) :
    ∃ n rows, follow (m.list text) ((List.range n).map (fun i => ⟨env i, db, size i⟩))
      (tokenOf text cursor) = .ok (rows, none) := by
  induction hk : remaining id (m.matching db) cursor using Nat.strong_induction_on
    generalizing cursor env size with
  | _ k ih =>
    obtain ⟨page, hlist, hpage⟩ := list_page (v := ⟨env 0, db, size 0⟩) h cursor
    cases hnext : nextCursor id (effectivePageSize (size 0)) page with
    | none =>
      rw [hnext] at hlist
      exact ⟨1, page, follow_last hlist⟩
    | some c =>
      have hless := hpage.progress hnext
      rw [hk] at hless
      obtain ⟨n, rows, hrows⟩ := ih _ hless (fun i => env (i + 1)) (fun i => size (i + 1)) (some c)
        rfl
      refine ⟨n + 1, page ++ rows, ?_⟩
      rw [hnext] at hlist
      rw [List.range_succ_eq_map, List.map_cons, List.map_map]
      exact follow_more hlist (text.string_ne c) hrows

/-- Following the tokens gives no identifier twice and, when no token is left,
every one that has matched throughout; rows that do not change come to an end,
and then exactly what matches has been given. -/
theorem paging (text : UUIDText) (m : Method) :
    (∀ visits rows last, follow (m.list text) visits "" = .ok (rows, last) →
      rows.Nodup ∧ (∀ id ∈ rows, ∃ v ∈ visits, id ∈ m.matching v.db) ∧
        (last = none → ∀ id, (∀ v ∈ visits, id ∈ m.matching v.db) → id ∈ rows)) ∧
    ∀ db, m.Accepted db → ∀ (env : ℕ → Env) (size : ℕ → ℤ), ∃ n rows,
      follow (m.list text) ((List.range n).map (fun i => ⟨env i, db, size i⟩)) "" =
          .ok (rows, none) ∧
        rows.Nodup ∧ ∀ id, id ∈ rows ↔ id ∈ m.matching db := by
  have hall : ∀ visits rows last, follow (m.list text) visits "" = .ok (rows, last) →
      rows.Nodup ∧ (∀ id ∈ rows, ∃ v ∈ visits, id ∈ m.matching v.db) ∧
        (last = none → ∀ id, (∀ v ∈ visits, id ∈ m.matching v.db) → id ∈ rows) := by
    intro visits rows last h
    have hfirst : follow (m.list text) visits (tokenOf text none) = .ok (rows, last) := h
    rcases follow_listed visits hfirst with
      ⟨rfl, hsome⟩ | ⟨used, steps, final, ⟨unused, rfl⟩, rfl, hlisted, hlast⟩
    · exact ⟨List.nodup_nil, by simp, fun hn => by rw [hn] at hsome; cases hsome⟩
    · refine ⟨?_, fun k hk => ?_, fun hn k hk => ?_⟩
      · have hsorted := hlisted.sorted
        rw [List.map_id] at hsorted
        exact hsorted.imp fun hlt => ne_of_lt hlt
      · obtain ⟨step, hstep, hmem⟩ := hlisted.rows k hk
        obtain ⟨v, hv, rfl⟩ := List.mem_map.mp hstep
        exact ⟨v, List.mem_append_left _ hv, hmem⟩
      · obtain ⟨r, hr, rfl⟩ := hlisted.complete (hlast hn)
          (fun step hstep => by
            obtain ⟨v, -, rfl⟩ := List.mem_map.mp hstep
            exact effectivePageSize_pos _)
          (k := k) (fun _ hc => by cases hc)
          (fun step hstep => by
            obtain ⟨v, hv, rfl⟩ := List.mem_map.mp hstep
            exact ⟨k, hk v (List.mem_append_left _ hv), rfl⟩)
        exact hr
  refine ⟨hall, fun db hm env size => ?_⟩
  obtain ⟨n, rows, hrows⟩ := follow_ends hm env size none
  obtain ⟨hnodup, hsource, hcomplete⟩ := hall _ rows none hrows
  refine ⟨n, rows, hrows, hnodup, fun k => ⟨fun hk => ?_, fun hk => ?_⟩⟩
  · obtain ⟨v, hv, hmem⟩ := hsource k hk
    obtain ⟨i, -, rfl⟩ := List.mem_map.mp hv
    exact hmem
  · refine hcomplete rfl k fun v hv => ?_
    obtain ⟨i, -, rfl⟩ := List.mem_map.mp hv
    exact hk

end

def hexDigit (d : ℕ) : Char := "0123456789abcdef".toList.getD d '0'

def hexValue (c : Char) : ℕ := "0123456789abcdef".toList.idxOf c

theorem hexValue_hexDigit {d : ℕ} (h : d < 16) : hexValue (hexDigit d) = d := by
  have hall : ∀ d < 16, hexValue (hexDigit d) = d := by decide
  exact hall d h

def hexDigits (id : UUID) : List Char :=
  ((Nat.digits 16 id).map hexDigit ++ List.replicate (12 - (Nat.digits 16 id).length) '0').reverse

def readHex (digits : List Char) : UUID := Nat.ofDigits 16 (digits.reverse.map hexValue)

theorem hexDigits_length (id : UUID) : 12 ≤ (hexDigits id).length := by
  simp [hexDigits]
  omega

theorem readHex_hexDigits (id : UUID) : readHex (hexDigits id) = id := by
  have hvalues : (Nat.digits 16 id).map (hexValue ∘ hexDigit) = Nat.digits 16 id := by
    rw [List.map_congr_left (g := fun d => d), List.map_id']
    exact fun d hd => hexValue_hexDigit (Nat.digits_lt_base (by decide) hd)
  have hzero : hexValue '0' = 0 := by decide
  simp only [readHex, hexDigits, List.reverse_reverse, List.map_append, List.map_map, hvalues,
    List.map_replicate, hzero]
  rw [Nat.ofDigits_append_replicate_zero, Nat.ofDigits_digits]

def hexText : UUIDText where
  string id := String.ofList ("00000000-0000-0000-0000-".toList ++ hexDigits id)
  parse s :=
    if s.length < 36 then .error "invalid UUID length" else .ok (readHex (s.toList.drop 24))
  parse_string id := by
    have hlen := hexDigits_length id
    rw [if_neg]
    · rw [String.toList_ofList, List.drop_left' (by decide), readHex_hexDigits]
    · rw [String.length_ofList, List.length_append]
      have hstart : "00000000-0000-0000-0000-".toList.length = 24 := by decide
      omega
  string_ne id := by
    intro h
    have hlist := congrArg String.toList h
    rw [String.toList_ofList] at hlist
    have hempty := (List.append_eq_nil_iff.mp hlist).1
    exact absurd hempty (by decide)

def threeTopics : DB := (Runs.World.initial.run [
  Runs.Sample.projectTopic 1 10,
  ⟨.plain 2 20, .createTopic ⟨"projects/p/topics/b", []⟩, by decide⟩,
  ⟨.plain 3 30, .createTopic ⟨"projects/p/topics/c", []⟩, by decide⟩]).db

theorem paging_threeTopics :
    follow ((Method.topics "projects/p").list hexText)
        [⟨.plain 4 40, threeTopics, 2⟩, ⟨.plain 5 50, threeTopics, 0⟩] "" =
      .ok ([10, 20, 30], none) ∧ [10, 20, 30].Nodup := by
  have hrun : follow ((Method.topics "projects/p").list hexText)
      [⟨.plain 4 40, threeTopics, 2⟩, ⟨.plain 5 50, threeTopics, 0⟩] "" =
      .ok ([10, 20, 30], none) := by decide +kernel
  exact ⟨hrun, ((paging hexText (.topics "projects/p")).1 _ _ _ hrun).1⟩

end Mmmbbb.Listing
