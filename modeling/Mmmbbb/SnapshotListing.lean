import Mmmbbb.Handlers
import Mmmbbb.Alterations

/-!
# Listing the snapshots of a project

A snapshot is created under a name of its own kind, and the snapshots of a
project are listed by the prefix of its subscriptions. No name has both.
-/

set_option autoImplicit false

namespace Mmmbbb.SnapshotListing
open KeyedRows Programs Paging Mmmbbb.Schema Mmmbbb.Database Mmmbbb.Delivering Mmmbbb.Consuming
open Mmmbbb.Seeking Mmmbbb.Administering Mmmbbb.Runs Mmmbbb.Writes Mmmbbb.Listing
open Mmmbbb.Messages Mmmbbb.Handlers Mmmbbb.Alterations

section
variable {kind kind' name project : String}

theorem splitOn_prefix {s : List Char} (h : (project ++ "/" ++ kind ++ "/").toList <+: s) :
    ∃ rest, s.splitOn '/' =
      project.toList.splitOn '/' ++ kind.toList.splitOn '/' ++ List.splitOn '/' rest := by
  obtain ⟨rest, rfl⟩ := h
  refine ⟨rest, ?_⟩
  have hslash : "/".toList = ['/'] := rfl
  have happend : ∀ xs ys : List Char, (xs ++ '/' :: ys).splitOn '/' =
      xs.splitOn '/' ++ ys.splitOn '/' := fun xs ys => by
    unfold List.splitOn
    exact List.splitOnP_append_cons xs ys (by simp)
  simp only [String.toList_append, hslash, List.append_assoc, List.cons_append, List.nil_append,
    happend]

theorem splitOn_length_pos (s : List Char) : 0 < (s.splitOn '/').length :=
  List.length_pos_of_ne_nil (List.splitOnP_ne_nil _ s)

theorem splitOn_kind (h : ∀ c ∈ kind.toList, c ≠ '/') : kind.toList.splitOn '/' = [kind.toList] :=
  List.splitOnP_eq_singleton fun c hc => by simpa using h c hc

theorem valid_segments (h : isValidName kind name = true) : ∃ id rest : List Char,
    name.toList.splitOn '/' = ["projects".toList, id, kind.toList, rest] := by
  unfold isValidName at h
  split at h
  · rename_i projects id k rest heq
    simp only [Bool.and_eq_true, beq_iff_eq] at h
    exact ⟨id, rest, by rw [heq, h.1.1.1, h.1.2]⟩
  · cases h

theorem other_kind (h : isValidName kind name = true) (hk : ∀ c ∈ kind'.toList, c ≠ '/')
    (hne : kind ≠ kind') :
    hasPrefix name ("projects/" ++ project ++ "/" ++ kind' ++ "/") = false := by
  by_contra hpre
  rw [Bool.not_eq_false] at hpre
  obtain ⟨id, last, hsegments⟩ := valid_segments h
  obtain ⟨rest, hsplit⟩ := splitOn_prefix (List.isPrefixOf_iff_prefix.mp hpre)
  rw [hsegments, splitOn_kind hk] at hsplit
  have hproject : ∃ segments, ("projects/" ++ project).toList.splitOn '/' =
      "projects".toList :: segments ∧ 0 < segments.length := by
    refine ⟨project.toList.splitOn '/', ?_, splitOn_length_pos _⟩
    have hstart : ("projects/" ++ project).toList = "projects".toList ++ '/' :: project.toList := by
      simp [String.toList_append]
    rw [hstart]
    unfold List.splitOn
    rw [List.splitOnP_append_cons _ _ (by simp)]
    rfl
  obtain ⟨segments, hstart, hpos⟩ := hproject
  rw [hstart] at hsplit
  have hrest := splitOn_length_pos rest
  have hlen := congrArg List.length hsplit
  simp only [List.length_cons, List.length_append, List.length_nil] at hlen
  have hone : segments.length = 1 := by omega
  have hlast : (rest.splitOn '/').length = 1 := by omega
  obtain ⟨s, rfl⟩ := List.length_eq_one_iff.mp hone
  obtain ⟨l, hl⟩ := List.length_eq_one_iff.mp hlast
  rw [hl] at hsplit
  simp only [List.cons_append, List.nil_append, List.cons.injEq] at hsplit
  exact hne (String.toList_inj.mp hsplit.2.2.1)

end

inductive Call
  | createSnapshot (env : Env) (req : PbCreateSnapshotRequest)
  | deleteSnapshot (name : String)
  | other (e : Event) (h : ∀ p, e.action ≠ .createSnapshot p)

def kept (db : DB) {α : Type} (r : Except Error (α × DB)) : DB :=
  match r with
  | .ok (_, db') => db'
  | .error _ => db

def Call.after (db : DB) : Call → DB
  | .createSnapshot env req => kept db (Handlers.createSnapshot env req db)
  | .deleteSnapshot name => kept db (Handlers.deleteSnapshot name db)
  | .other e _ => ((⟨db, 0, []⟩ : World).after e).db

def service : System DB Call where
  init db := db = DB.empty
  step db c db' := db' = c.after db

def Named (db : DB) : Prop := ∀ s ∈ db.snapshots, isValidSnapshotName s.name = true

section
variable {db db' : DB}

theorem Named.mono (h : Named db) (hs : ∀ s ∈ db'.snapshots, s ∈ db.snapshots) : Named db' :=
  fun s hmem => h s (hs s hmem)

theorem alteration_snapshots {env : Env} {t t' : Tables} {a : Action}
    (h : Alteration env t a t') :
    ∀ s ∈ t'.snapshots, s ∈ t.snapshots ∨ ∃ p, a = .createSnapshot p ∧ s.name = p.name := by
  intro s hs
  cases h with
  | deleteTopic => exact Or.inl (List.mem_of_mem_filter hs)
  | deleteSnapshot => exact Or.inl (List.mem_of_mem_filter hs)
  | @createSnapshot p sub r _ _ _ hname =>
    rcases List.mem_append.mp hs with hs | hs
    · exact Or.inl hs
    · exact Or.inr ⟨p, rfl, by rw [List.mem_singleton.mp hs, hname]⟩
  | _ => exact Or.inl hs

theorem createSnapshot_named {env : Env} {req : PbCreateSnapshotRequest} {pb : PbSnapshot}
    (hn : Named db) (h : Handlers.createSnapshot env req db = .ok (pb, db')) : Named db' := by
  obtain ⟨_, hname, h⟩ := bind_ok.mp h
  obtain ⟨_, -, h⟩ := bind_ok.mp h
  obtain ⟨_, -, h⟩ := bind_ok.mp h
  obtain ⟨⟨results, saved⟩, hsaved, h⟩ := bind_ok.mp h
  obtain ⟨-, rfl⟩ := Prod.mk.inj (pure_ok.mp h)
  obtain ⟨⟨r, tx⟩, hrun, heq⟩ := map_ok.mp hsaved
  obtain ⟨-, rfl⟩ := Prod.mk.inj heq
  intro s hs
  rcases alteration_snapshots (createSnapshot_alteration hrun) s hs with hold | ⟨p, hp, hs⟩
  · exact hn s hold
  · cases hp
    rw [hs]
    simpa using failWhen_ok.mp hname

theorem deleteSnapshot_named {name : String} {u : Unit} (hn : Named db)
    (h : Handlers.deleteSnapshot name db = .ok (u, db')) : Named db' := by
  obtain ⟨_, -, h⟩ := bind_ok.mp h
  obtain ⟨⟨r, tx⟩, hrun, heq⟩ := map_ok.mp h
  obtain ⟨-, rfl⟩ := Prod.mk.inj heq
  obtain ⟨tx', hdelete, heq⟩ := map_ok.mp hrun
  obtain ⟨-, rfl⟩ := Prod.mk.inj heq
  have halter : Alteration (.plain 0 0) db.toTables (.deleteSnapshot name) tx'.db.toTables :=
    deleteSnapshot_alteration hdelete
  intro s hs
  rcases alteration_snapshots halter s hs with hold | ⟨p, hp, -⟩
  · exact hn s hold
  · cases hp

theorem other_named {w : World} {e : Event} (he : ∀ p, e.action ≠ .createSnapshot p)
    (hn : Named w.db) : Named (w.after e).db := by
  by_cases ha : OnDeliveries e.action
  · have hsame := (transaction_of_action w ha).static.snapshots
    exact hn.mono fun s hs => hsame ▸ hs
  · intro s hs
    rcases alteration_snapshots (alteration_after w e ha) s hs with hold | ⟨p, hp, -⟩
    · exact hn s hold
    · exact absurd hp (he p)

theorem service_named (h : service.Reachable db) : Named db := by
  refine h.invariant (fun d hd => ?_) fun d c d' hn hs => ?_
  · rw [show d = DB.empty from hd]
    exact fun s hs => by cases hs
  · rw [show d' = c.after d from hs]
    cases c with
    | createSnapshot env req =>
      show Named (kept d (Handlers.createSnapshot env req d))
      cases hr : Handlers.createSnapshot env req d with
      | ok r => exact createSnapshot_named hn hr
      | error e => exact hn
    | deleteSnapshot name =>
      show Named (kept d (Handlers.deleteSnapshot name d))
      cases hr : Handlers.deleteSnapshot name d with
      | ok r => exact deleteSnapshot_named hn hr
      | error e => exact hn
    | other e he => exact other_named he hn

end

def pages (text : UUIDText) (project : String) (db : DB) :
    List Int32 → String → Except Error (List PbSnapshot × Option String)
  | [], token => .ok ([], some token)
  | size :: sizes, token => do
    let (page, next) ← listSnapshots text ⟨project, size, token⟩ db
    if next = "" then pure (page, none)
    else
      let (rest, last) ← pages text project db sizes next
      pure (page ++ rest, last)

def InProject (id name : String) : Prop := ∃ s, name = "projects/" ++ id ++ "/snapshots/" ++ s

structure Complete (db : DB) (id : String) (rows : List PbSnapshot) : Prop where
  once : (rows.map (·.name)).Nodup
  exactly : ∀ name, name ∈ rows.map (·.name) ↔
    InProject id name ∧ ∃ s ∈ db.snapshots, s.name = name
  visible : ∀ name pb, InProject id name → getSnapshot name db = .ok pb → pb ∈ rows

/-- Whatever the page sizes, paging comes to an end and then has given all the
snapshots of the project. -/
def Listable (text : UUIDText) (db : DB) (id : String) : Prop := ∀ size : ℕ → Int32,
  (∃ n rows, pages text ("projects/" ++ id) db ((List.range n).map size) "" = .ok (rows, none)) ∧
    ∀ n rows, pages text ("projects/" ++ id) db ((List.range n).map size) "" = .ok (rows, none) →
      Complete db id rows

section
variable {db : DB} {text : UUIDText}

theorem listSnapshots_empty (hn : Named db) (id : String) (size : Int32) :
    listSnapshots text ⟨"projects/" ++ id, size, ""⟩ db = .ok ([], "") := by
  have hnone : db.snapshots.filter (fun s => hasPrefix s.name
      (projectSubscriptionPrefix ("projects/" ++ id)) && idGT none s.id) = [] := by
    refine List.filter_eq_nil_iff.mpr fun s hs => ?_
    have hslash : '/' ∉ "subscriptions".toList := by decide +kernel
    have hother := @other_kind "snapshots" "subscriptions" s.name id (hn s hs)
      (fun c hc he => hslash (he ▸ hc)) (by decide +kernel)
    have hpre : projectSubscriptionPrefix ("projects/" ++ id) =
        "projects/" ++ id ++ "/" ++ "subscriptions" ++ "/" := by
      simp [projectSubscriptionPrefix, String.append_assoc]
    rw [hpre, hother]
    simp
  have hpage : listRows text Snapshot.id (.insertion Snapshot)
      (fun s => hasPrefix s.name (projectSubscriptionPrefix ("projects/" ++ id)))
      (effectivePageSize size.toInt) none db.snapshots = ⟨[], ""⟩ := by
    have hpos := effectivePageSize_pos size.toInt
    unfold listRows
    rw [hnone]
    simp [ScanOrder.insertion, orderBy]
  have hfull := effectivePageSize_pos size.toInt
  simp [listSnapshots, pageID, hpage, lastOfPage, failWhen, bind, Except.bind, pure, Except.pure]
  rw [if_neg hfull.ne']

theorem pages_empty (hn : Named db) (id : String) {sizes : List Int32} {rows : List PbSnapshot}
    (h : pages text ("projects/" ++ id) db sizes "" = .ok (rows, none)) : rows = [] := by
  cases sizes with
  | nil => cases h
  | cons size sizes =>
    unfold pages at h
    rw [listSnapshots_empty hn] at h
    cases h
    rfl

theorem pages_ends (hn : Named db) (id : String) (size : ℕ → Int32) :
    ∃ n rows, pages text ("projects/" ++ id) db ((List.range n).map size) "" =
      .ok (rows, none) := by
  refine ⟨1, [], ?_⟩
  show pages text ("projects/" ++ id) db [size 0] "" = .ok ([], none)
  rw [pages, listSnapshots_empty hn]
  rfl

/-- The snapshots of a project can be listed if and only if it has none. -/
theorem listable_iff (h : service.Reachable db) (id : String) :
    Listable text db id ↔ ∀ s ∈ db.snapshots, ¬ InProject id s.name := by
  have hn := service_named h
  constructor
  · intro hl s hs hin
    obtain ⟨⟨n, rows, hrows⟩, hall⟩ := hl (fun _ => 0)
    have hcomplete := hall n rows hrows
    have hmem := (hcomplete.exactly s.name).mpr ⟨hin, s, hs, rfl⟩
    rw [pages_empty hn id hrows] at hmem
    cases hmem
  · intro hnone size
    refine ⟨pages_ends hn id size, fun n rows hrows => ?_⟩
    obtain rfl := pages_empty hn id hrows
    refine ⟨List.nodup_nil, fun name => ⟨fun hmem => (by cases hmem), ?_⟩, ?_⟩
    · rintro ⟨hin, s, hs, rfl⟩
      exact absurd hin (hnone s hs)
    · intro name pb hin hget
      obtain ⟨_, -, hfound⟩ := bind_ok.mp hget
      obtain ⟨s, hs, -⟩ := bind_ok.mp hfound
      obtain ⟨hmem, hname⟩ := only_ok hs
      exact absurd (of_decide_eq_true hname ▸ hin) (hnone s hmem)

end

theorem service_run (calls : List Call) {db : DB} (h : service.Reachable db) :
    service.Reachable (calls.foldl Call.after db) := by
  induction calls generalizing db with
  | nil => exact h
  | cons c calls ih => exact ih (.next c h rfl)

def oneSnapshot : List Call := [
  .other (Sample.projectOrdersTopic 1 10)
    (by intro _ h; cases h),
  .other ⟨.plain 2 20, .createSubscription ⟨"projects/p/topics/orders",
    "projects/p/subscriptions/worker", hour, hour, false, [], "", 0, 0, "", 0, ""⟩, by decide⟩
    (by intro _ h; cases h),
  .createSnapshot (.plain 3 30) ⟨"projects/p/snapshots/before", "projects/p/subscriptions/worker",
    []⟩]

def withSnapshot : DB := oneSnapshot.foldl Call.after DB.empty

theorem withSnapshot_reachable : service.Reachable withSnapshot := service_run _ (.start rfl)

theorem withSnapshot_snapshots :
    withSnapshot.snapshots.map Snapshot.name = ["projects/p/snapshots/before"] := by
  decide +kernel

theorem listable_iff_projects :
    ¬ Listable hexText withSnapshot "p" ∧ Listable hexText withSnapshot "q" := by
  have hnames : ∀ s ∈ withSnapshot.snapshots, s.name = "projects/p/snapshots/before" := by
    intro s hs
    have hmem := List.mem_map_of_mem (f := Snapshot.name) hs
    rw [withSnapshot_snapshots] at hmem
    exact List.mem_singleton.mp hmem
  constructor
  · rw [listable_iff withSnapshot_reachable]
    intro hnone
    have hne : withSnapshot.snapshots ≠ [] := by
      intro hempty
      have hmap := withSnapshot_snapshots
      rw [hempty] at hmap
      cases hmap
    obtain ⟨s, hs⟩ := List.exists_mem_of_ne_nil _ hne
    exact hnone s hs ⟨"before", hnames s hs⟩
  · rw [listable_iff withSnapshot_reachable]
    rintro s hs ⟨last, hlast⟩
    rw [hnames s hs] at hlast
    have hlist := congrArg String.toList hlast
    simp [String.toList_append] at hlist

/-- A snapshot that has been created, and that is found by its name, is not in
the list of its project. -/
theorem created_unlisted :
    ¬ ∀ (text : UUIDText) (db : DB), service.Reachable db → ∀ id, Listable text db id := by
  intro h
  have hp := h hexText withSnapshot withSnapshot_reachable "p"
  obtain ⟨⟨n, rows, hrows⟩, hall⟩ := hp (fun _ => 0)
  have hget : ∃ pb, getSnapshot "projects/p/snapshots/before" withSnapshot = .ok pb := by
    cases hg : getSnapshot "projects/p/snapshots/before" withSnapshot with
    | ok pb => exact ⟨pb, rfl⟩
    | error e =>
      have hok : (getSnapshot "projects/p/snapshots/before" withSnapshot).isOk = true := by
        decide +kernel
      rw [hg] at hok
      cases hok
  obtain ⟨pb, hpb⟩ := hget
  have hmem := (hall n rows hrows).visible _ pb ⟨"before", rfl⟩ hpb
  rw [pages_empty (service_named withSnapshot_reachable) "p" hrows] at hmem
  cases hmem

end Mmmbbb.SnapshotListing
