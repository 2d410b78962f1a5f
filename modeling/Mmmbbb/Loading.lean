import Mathlib.Data.String.Basic
import Mathlib.Data.List.Sort
import Mmmbbb.KeyedRows
import Mmmbbb.Migrating

/-!
# Migrations from files

The scripts of a migration are found by the names of their files. They are
collected in a map, which is read out in no particular order, and sorted.
-/

set_option autoImplicit false

namespace Mmmbbb.Loading
open KeyedRows Programs Mmmbbb.Migrating

def stripped (fn : List Char) (direction : Direction) : Option (List Char) :=
  let word := direction.toString.toList
  let name := fn.take (fn.length - (word.length + 5))
  match fn.drop (fn.length - (word.length + 5)) with
  | [] => none
  | separator :: rest =>
    match rest.drop word.length with
    | [] => none
    | dot :: extension =>
      if (separator = '.' ∨ separator = '-') ∧ rest.take word.length = word ∧ dot ≠ '\n' ∧
          extension = "sql".toList ∧ '\n' ∉ name then some name
      else none

/-- `^(.*)[.-](up|down).sql$`, in which the last dot stands for any character. -/
def findStringSubmatch (fn : List Char) : Option (List Char × Direction) :=
  match stripped fn .up, stripped fn .down with
  | some name, _ => some (name, .up)
  | none, some name => some (name, .down)
  | none, none => none

/-- Names are `scope/name`, where the scope may be empty. -/
def withScope (name : List Char) : String :=
  if '/' ∈ name then String.ofList name else String.ofList ('/' :: name)

def key (fn : String) : Option (String × Direction) :=
  (findStringSubmatch fn.toList).map (fun m => (withScope m.1, m.2))

structure DirEntry where
  path : String
  regular : Bool
  content : ContentGetter

def getter (e : SQLMigration) : Direction → Option ContentGetter
  | .up => e.up
  | .down => e.down

def withGetter (e : SQLMigration) (direction : Direction) (content : ContentGetter) :
    SQLMigration :=
  match direction with
  | .up => { e with up := some content }
  | .down => { e with down := some content }

def lookup (entries : List SQLMigration) (name : String) : SQLMigration :=
  (fetch SQLMigration.name name entries).getD ⟨name, none, none⟩

def put (entries : List SQLMigration) (e : SQLMigration) : List SQLMigration :=
  entries.filter (fun x => x.name ≠ e.name) ++ [e]

def notMigration (fn : String) : String := "entry '" ++ fn ++ "' does not look like a migration"

def multiple (name : String) (direction : Direction) : String :=
  "multiple " ++ direction.toString ++ " entries for '" ++ name ++ "'"

def visit (entries : List SQLMigration) (d : DirEntry) : Except String (List SQLMigration) :=
  if d.regular = false then .ok entries
  else
    match key d.path with
    | none => .error (notMigration d.path)
    | some (name, direction) =>
      let e := lookup entries name
      if (getter e direction).isSome then .error (multiple name direction)
      else .ok (put entries (withGetter e direction d.content))

/-- The map is read out in some order. -/
def loadFS (order : ScanOrder SQLMigration) (filter : Option (SQLMigration → Bool))
    (files : List DirEntry) : Except String (List SQLMigration) := do
  let entries ← files.foldlM visit []
  pure ((order.run entries).filter (filter.getD (fun _ => true)))

def withPrefix (pre : String) (ms : List Migration) : List Migration :=
  ms.map (fun m => { m with name := pre ++ m.name })

def sortMigrations {α : Type} (name : α → String) (ms : List α) : List α :=
  ms.insertionSort (fun a b => name a ≤ name b)

def addAndSort (m : Migrator) (pre : String) (ms : List Migration) : Migrator :=
  { m with migrations := sortMigrations Migration.name (m.migrations ++ withPrefix pre ms) }

def sortAndAppend (m : Migrator) (pre : String) (ms : List Migration) : Migrator :=
  { m with migrations := m.migrations ++ withPrefix pre (sortMigrations Migration.name ms) }

def newFromFS (config : Option Config) (order : ScanOrder SQLMigration) (files : List DirEntry)
    (filter : Option (SQLMigration → Bool)) : Except String Migrator := do
  let migrations ← loadFS order filter files
  pure (addAndSort ⟨effectiveConfig config, []⟩ "" (migrations.map SQLMigration.migration))

def startMigrator (order : ScanOrder SQLMigration) (files : List DirEntry) :
    Except String Migrator := do
  let ownMigrations ← loadFS order none files
  pure (sortAndAppend ⟨effectiveConfig none, []⟩ "" (ownMigrations.map SQLMigration.migration))

def ownMigrations (order : ScanOrder SQLMigration) (files : List DirEntry) :
    Except String (List SQLMigration) :=
  (loadFS order none files).map (sortMigrations SQLMigration.name)

def keys (files : List DirEntry) : List (String × Direction) :=
  (files.filter (fun d => d.regular)).filterMap (fun d => key d.path)

structure Accepted (files : List DirEntry) : Prop where
  named : ∀ d ∈ files, d.regular = true → key d.path ≠ none
  once : (keys files).Nodup

def DirEntry.Is (d : DirEntry) (name : String) (direction : Direction) : Prop :=
  d.regular = true ∧ key d.path = some (name, direction)

structure MadeOf (files : List DirEntry) (ms : List SQLMigration) : Prop where
  ascending : ms.Pairwise (fun a b => a.name < b.name)
  scripts : ∀ name direction content,
    (∃ m ∈ ms, m.name = name ∧ getter m direction = some content) ↔
      ∃ d ∈ files, d.Is name direction ∧ d.content = content
  nonempty : ∀ m ∈ ms, ∃ direction, getter m direction ≠ none

def complaint (before : List DirEntry) (d : DirEntry) : Option String :=
  if d.regular = false then none
  else
    match key d.path with
    | none => some (notMigration d.path)
    | some (name, direction) =>
      if (name, direction) ∈ keys before then some (multiple name direction) else none

section
variable {fn name : List Char} {direction : Direction}

def Groups (fn name : List Char) (direction : Direction) : Prop :=
  ∃ separator dot, (separator = '.' ∨ separator = '-') ∧ dot ≠ '\n' ∧ '\n' ∉ name ∧
    fn = name ++ separator :: (direction.toString.toList ++ dot :: "sql".toList)

theorem stripped_iff : stripped fn direction = some name ↔ Groups fn name direction := by
  constructor
  · intro h
    unfold stripped at h
    dsimp only at h
    split at h
    · cases h
    · rename_i separator rest hrest
      split at h
      · cases h
      · rename_i dot extension hdot
        split at h
        · rename_i hall
          obtain ⟨hseparator, hword, hnewline, hsql, hname⟩ := hall
          cases h
          refine ⟨separator, dot, hseparator, hnewline, hname, ?_⟩
          have hwhole : rest = direction.toString.toList ++ dot :: "sql".toList := by
            rw [← List.take_append_drop direction.toString.toList.length rest, hword, hdot, hsql]
          rw [← hwhole, ← hrest, List.take_append_drop]
        · cases h
  · rintro ⟨separator, dot, hseparator, hnewline, hname, rfl⟩
    have hlength : (name ++ separator :: (direction.toString.toList ++
        dot :: "sql".toList)).length - (direction.toString.toList.length + 5) = name.length := by
      simp
    unfold stripped
    simp only [hlength, List.drop_left, List.take_left]
    exact if_pos ⟨hseparator, trivial, hnewline, trivial, hname⟩

theorem groups_unique {name' : List Char} {direction' : Direction} (h : Groups fn name direction)
    (h' : Groups fn name' direction') : name = name' ∧ direction = direction' := by
  obtain ⟨separator, dot, -, -, -, rfl⟩ := h
  obtain ⟨separator', dot', -, -, -, h'⟩ := h'
  have hreverse := congrArg List.reverse h'
  cases direction <;> cases direction' <;> simp [Direction.toString] at hreverse
  · exact ⟨hreverse.2.2, rfl⟩
  · exact ⟨hreverse.2.2, rfl⟩

theorem findStringSubmatch_iff :
    findStringSubmatch fn = some (name, direction) ↔ Groups fn name direction := by
  constructor
  · intro h
    unfold findStringSubmatch at h
    split at h
    · rename_i hup
      cases h
      exact stripped_iff.mp hup
    · rename_i hdown
      cases h
      exact stripped_iff.mp hdown
    · cases h
  · intro h
    have hstripped := stripped_iff.mpr h
    unfold findStringSubmatch
    cases direction with
    | up => rw [hstripped]
    | down =>
      have hup : stripped fn .up = none := by
        rw [Option.eq_none_iff_forall_ne_some]
        intro name' hname'
        exact nomatch (groups_unique (stripped_iff.mp hname') h).2
      rw [hup, hstripped]

end

section
variable {entries : List SQLMigration} {files : List DirEntry} {name : String}
  {direction : Direction}

theorem getter_withGetter (e : SQLMigration) (d d' : Direction) (content : ContentGetter) :
    getter (withGetter e d content) d' = if d' = d then some content else getter e d' := by
  cases d <;> cases d' <;> rfl

theorem withGetter_name (e : SQLMigration) (d : Direction) (content : ContentGetter) :
    (withGetter e d content).name = e.name := by
  cases d <;> rfl

theorem lookup_name (entries : List SQLMigration) (name : String) :
    (lookup entries name).name = name := by
  unfold lookup
  cases h : fetch SQLMigration.name name entries with
  | none => rfl
  | some e => exact (fetch_mem h).2

theorem lookup_of_mem (h : UniqueKeys SQLMigration.name entries) {e : SQLMigration}
    (he : e ∈ entries) : lookup entries e.name = e := by
  rw [lookup, fetch_of_mem h he]
  rfl

theorem lookup_mem {content : ContentGetter}
    (h : getter (lookup entries name) direction = some content) :
    lookup entries name ∈ entries := by
  unfold lookup at h ⊢
  cases hfetch : fetch SQLMigration.name name entries with
  | none =>
    rw [hfetch] at h
    cases direction <;> cases h
  | some e => exact (fetch_mem hfetch).1

theorem lookup_put (entries : List SQLMigration) (e : SQLMigration) (name : String) :
    lookup (put entries e) name = if name = e.name then e else lookup entries name := by
  unfold lookup put fetch
  rw [List.find?_append, List.find?_filter]
  by_cases hname : name = e.name
  · have hnone : entries.find? (fun _ => false) = none := by simp
    simp [hname, hnone]
  · have hlast : [e].find? (fun x => decide (x.name = name)) = none := by
      simp [Ne.symm hname]
    have hsame : (fun x : SQLMigration => decide (decide (x.name ≠ e.name) = true ∧
        decide (x.name = name) = true)) = fun x => decide (x.name = name) := by
      funext x
      by_cases hx : x.name = name <;> simp [hx, hname]
    rw [if_neg hname, hlast, Option.or_none]
    exact congrArg (fun p => (entries.find? p).getD ⟨name, none, none⟩) hsame

theorem put_unique (h : UniqueKeys SQLMigration.name entries) (e : SQLMigration) :
    UniqueKeys SQLMigration.name (put entries e) := by
  refine (h.filter _).append_one ?_
  rintro ⟨x, hx, hname⟩
  simpa [hname] using (List.mem_filter.mp hx).2

structure Collected (files : List DirEntry) (entries : List SQLMigration) : Prop where
  unique : UniqueKeys SQLMigration.name entries
  scripts : ∀ name direction content,
    getter (lookup entries name) direction = some content ↔
      ∃ d ∈ files, d.Is name direction ∧ d.content = content
  nonempty : ∀ e ∈ entries, ∃ direction, getter e direction ≠ none

theorem mem_keys : (name, direction) ∈ keys files ↔ ∃ d ∈ files, d.Is name direction := by
  simp [keys, DirEntry.Is, and_assoc]

theorem Collected.isSome_iff (h : Collected files entries) :
    (getter (lookup entries name) direction).isSome ↔ (name, direction) ∈ keys files := by
  rw [Option.isSome_iff_exists, mem_keys]
  constructor
  · rintro ⟨content, hcontent⟩
    obtain ⟨d, hd, his, -⟩ := (h.scripts name direction content).mp hcontent
    exact ⟨d, hd, his⟩
  · rintro ⟨d, hd, his⟩
    exact ⟨d.content, (h.scripts name direction d.content).mpr ⟨d, hd, his, rfl⟩⟩

theorem collected_nil : Collected [] [] := by
  refine ⟨List.nodup_nil, fun name direction content => ?_, fun e he => nomatch he⟩
  cases direction <;> simp [lookup, fetch, getter]

theorem Collected.skip (h : Collected files entries) {d : DirEntry} (hd : d.regular = false) :
    Collected (files ++ [d]) entries := by
  refine ⟨h.unique, fun name direction content => ?_, h.nonempty⟩
  rw [h.scripts]
  simp [DirEntry.Is, hd, or_and_right, exists_or]

theorem Collected.put (h : Collected files entries) {d : DirEntry} (hd : d.Is name direction)
    (hnew : (name, direction) ∉ keys files) :
    Collected (files ++ [d])
      (put entries (withGetter (lookup entries name) direction d.content)) := by
  have hname : (withGetter (lookup entries name) direction d.content).name = name := by
    rw [withGetter_name, lookup_name]
  have hother : ∀ {name' direction'}, (name', direction') ≠ (name, direction) →
      ¬ d.Is name' direction' := by
    intro name' direction' hne his
    exact hne (Option.some.inj (his.2.symm.trans hd.2))
  refine ⟨put_unique h.unique _, fun name' direction' content => ?_, ?_⟩
  · rw [lookup_put, hname]
    by_cases hkey : (name', direction') = (name, direction)
    · cases hkey
      have hnone : ¬ ∃ x ∈ files, x.Is name direction ∧ x.content = content := by
        rintro ⟨x, hx, his, -⟩
        exact hnew (mem_keys.mpr ⟨x, hx, his⟩)
      simp only [↓reduceIte, getter_withGetter, Option.some.injEq, List.mem_append,
        List.mem_singleton, or_and_right, exists_or, hnone, false_or, exists_eq_left, hd,
        true_and]
    · have hold : getter (if name' = name then withGetter (lookup entries name) direction d.content
          else lookup entries name') direction' = getter (lookup entries name') direction' := by
        split
        · rename_i hsame
          have hdirection : direction' ≠ direction := fun heq => hkey (by rw [hsame, heq])
          rw [getter_withGetter, if_neg hdirection, hsame]
        · rfl
      rw [hold, h.scripts]
      simp [or_and_right, exists_or, hother hkey]
  · intro e he
    rcases List.mem_append.mp he with he | he
    · exact h.nonempty e (List.mem_of_mem_filter he)
    · refine ⟨direction, ?_⟩
      rw [List.mem_singleton.mp he, getter_withGetter, if_pos rfl]
      simp

theorem keys_append (files files' : List DirEntry) :
    keys (files ++ files') = keys files ++ keys files' := by
  simp [keys]

theorem keys_one (d : DirEntry) :
    keys [d] = if d.regular then (key d.path).toList else [] := by
  cases hregular : d.regular <;> cases hkey : key d.path <;> simp [keys, hregular, hkey]

theorem complaint_none {d : DirEntry} :
    complaint files d = none ↔ (d.regular = true → key d.path ≠ none) ∧
      ∀ k ∈ keys [d], k ∉ keys files := by
  rw [keys_one]
  unfold complaint
  cases hregular : d.regular with
  | false => simp
  | true =>
    cases hkey : key d.path with
    | none => simp
    | some found => simp

theorem accepted_append {files' : List DirEntry} :
    Accepted (files ++ files') ↔ Accepted files ∧
      (∀ d ∈ files', d.regular = true → key d.path ≠ none) ∧ (keys files').Nodup ∧
        ∀ k ∈ keys files', k ∉ keys files := by
  constructor
  · rintro ⟨hnamed, honce⟩
    rw [keys_append, List.nodup_append] at honce
    refine ⟨⟨fun x hx => hnamed x (by simp [hx]), honce.1⟩, fun x hx => hnamed x (by simp [hx]),
      honce.2.1, fun k hk hin => honce.2.2 k hin k hk rfl⟩
  · rintro ⟨⟨hnamed, honce⟩, hnamed', honce', hapart⟩
    refine ⟨fun d hd => ?_, ?_⟩
    · rcases List.mem_append.mp hd with hd | hd
      · exact hnamed d hd
      · exact hnamed' d hd
    · rw [keys_append, List.nodup_append]
      exact ⟨honce, honce', fun k hin k' hk heq => hapart k' hk (heq ▸ hin)⟩

theorem accepted_one {d : DirEntry} :
    Accepted (files ++ [d]) ↔ Accepted files ∧ complaint files d = none := by
  have hsingle : (keys [d]).Nodup := by
    rw [keys_one]
    cases d.regular <;> cases key d.path <;> simp
  rw [accepted_append, complaint_none]
  simp only [List.mem_singleton, forall_eq, hsingle, true_and]

theorem Collected.visit (h : Collected files entries) (d : DirEntry) :
    (complaint files d = none ∧
      ∃ entries', visit entries d = .ok entries' ∧ Collected (files ++ [d]) entries') ∨
    ∃ text, complaint files d = some text ∧ visit entries d = .error text := by
  unfold complaint Loading.visit
  by_cases hregular : d.regular = false
  · simp only [if_pos hregular]
    exact Or.inl ⟨trivial, entries, rfl, h.skip hregular⟩
  · simp only [if_neg hregular]
    cases hkey : key d.path with
    | none => exact Or.inr ⟨_, rfl, rfl⟩
    | some found =>
      obtain ⟨name, direction⟩ := found
      have his : d.Is name direction := ⟨by simpa using hregular, hkey⟩
      by_cases hin : (name, direction) ∈ keys files
      · simp only [if_pos hin, if_pos (h.isSome_iff.mpr hin)]
        exact Or.inr ⟨_, rfl, rfl⟩
      · simp only [if_neg hin, if_neg (fun hsome => hin (h.isSome_iff.mp hsome))]
        exact Or.inl ⟨trivial, _, rfl, h.put his hin⟩

theorem walked (files : List DirEntry) :
    (Accepted files ∧ ∃ entries, files.foldlM visit [] = .ok entries ∧
      Collected files entries) ∨
    ∃ pre d post text, files = pre ++ d :: post ∧ Accepted pre ∧ complaint pre d = some text ∧
      files.foldlM visit [] = .error text := by
  induction files using List.reverseRecOn with
  | nil => exact Or.inl ⟨⟨by simp, List.nodup_nil⟩, [], rfl, collected_nil⟩
  | append_singleton files d ih =>
    rw [List.foldlM_append]
    rcases ih with ⟨haccepted, entries, hwalk, hcollected⟩ |
        ⟨pre, x, post, text, rfl, hpre, htext, hwalk⟩
    · rcases hcollected.visit d with ⟨hnone, entries', hvisit, hmore⟩ | ⟨text, htext, hvisit⟩
      · refine Or.inl ⟨accepted_one.mpr ⟨haccepted, hnone⟩, entries', ?_, hmore⟩
        simp [hwalk, hvisit, bind, Except.bind, pure, Except.pure]
      · refine Or.inr ⟨files, d, [], text, rfl, haccepted, htext, ?_⟩
        simp [hwalk, hvisit, bind, Except.bind]
    · refine Or.inr ⟨pre, x, post ++ [d], text, by simp, hpre, htext, ?_⟩
      rw [hwalk]
      rfl

end

section
variable {files : List DirEntry} {ms ms' : List SQLMigration}

theorem getter_ext {m m' : SQLMigration} (hname : m.name = m'.name)
    (h : ∀ direction content, getter m direction = some content ↔
      getter m' direction = some content) : m = m' := by
  obtain ⟨name, up, down⟩ := m
  obtain ⟨name', up', down'⟩ := m'
  cases hname
  have hup : up = up' := Option.ext (h .up)
  have hdown : down = down' := Option.ext (h .down)
  rw [hup, hdown]

theorem MadeOf.unique (h : MadeOf files ms) : UniqueKeys SQLMigration.name ms := by
  have hne : (ms.map SQLMigration.name).Pairwise (· ≠ ·) :=
    List.pairwise_map.mpr (h.ascending.imp ne_of_lt)
  exact hne

theorem MadeOf.mem (h : MadeOf files ms) (h' : MadeOf files ms') {m : SQLMigration}
    (hm : m ∈ ms) : m ∈ ms' := by
  obtain ⟨direction, hsome⟩ := h.nonempty m hm
  obtain ⟨content, hcontent⟩ := Option.ne_none_iff_exists'.mp hsome
  obtain ⟨m', hm', hname, -⟩ :=
    (h'.scripts _ _ _).mpr ((h.scripts m.name direction content).mp ⟨m, hm, rfl, hcontent⟩)
  have hsame : m = m' := by
    refine getter_ext hname.symm fun direction content => ?_
    constructor
    · intro hgetter
      obtain ⟨x, hx, hxname, hxgetter⟩ :=
        (h'.scripts _ _ _).mpr ((h.scripts m.name direction content).mp ⟨m, hm, rfl, hgetter⟩)
      rwa [← h'.unique.eq hx hm' (hxname.trans hname.symm)]
    · intro hgetter
      obtain ⟨x, hx, hxname, hxgetter⟩ :=
        (h.scripts _ _ _).mpr ((h'.scripts m.name direction content).mp ⟨m', hm', hname, hgetter⟩)
      rwa [← h.unique.eq hx hm hxname]
  exact hsame ▸ hm'

theorem MadeOf.eq (h : MadeOf files ms) (h' : MadeOf files ms') : ms = ms' := by
  have hperm : ms.Perm ms' := (List.perm_ext_iff_of_nodup h.unique.nodup h'.unique.nodup).mpr
    fun m => ⟨h.mem h', h'.mem h⟩
  exact hperm.eq_of_pairwise (fun a b _ _ hab hba => absurd hab (lt_asymm hba)) h.ascending
    h'.ascending

theorem Collected.madeOf {entries : List SQLMigration} (h : Collected files entries)
    (order : ScanOrder SQLMigration) :
    MadeOf files (sortMigrations SQLMigration.name
      ((order.run entries).filter (none.getD (fun _ => true)))) := by
  have hall : (order.run entries).filter (none.getD (fun _ => true)) = order.run entries :=
    List.filter_eq_self.mpr fun _ _ => rfl
  have hperm : (sortMigrations SQLMigration.name (order.run entries)).Perm entries :=
    (List.perm_insertionSort _ _).trans (order.perm entries)
  have hunique : UniqueKeys SQLMigration.name (sortMigrations SQLMigration.name
      (order.run entries)) := (hperm.map SQLMigration.name).nodup_iff.mpr h.unique
  have hsorted : (sortMigrations SQLMigration.name (order.run entries)).Pairwise
      (fun a b => a.name ≤ b.name) := by
    have : Std.Total (fun a b : SQLMigration => a.name ≤ b.name) :=
      ⟨fun a b => le_total a.name b.name⟩
    have : IsTrans SQLMigration (fun a b => a.name ≤ b.name) := ⟨fun _ _ _ => le_trans⟩
    exact List.pairwise_insertionSort _ _
  rw [hall]
  constructor
  · have hne : (sortMigrations SQLMigration.name (order.run entries)).Pairwise
        (fun a b => a.name ≠ b.name) := List.pairwise_map.mp hunique
    exact (hsorted.and hne).imp fun hboth => lt_of_le_of_ne hboth.1 hboth.2
  · intro name direction content
    rw [← h.scripts]
    constructor
    · rintro ⟨m, hm, rfl, hcontent⟩
      rwa [lookup_of_mem h.unique (hperm.mem_iff.mp hm)]
    · intro hcontent
      exact ⟨_, hperm.mem_iff.mpr (lookup_mem hcontent), lookup_name _ _, hcontent⟩
  · exact fun m hm => h.nonempty m (hperm.mem_iff.mp hm)

/-- What is loaded does not depend on the order of the walk, nor on the order
in which the map is read out. -/
theorem loaded_iff (order : ScanOrder SQLMigration) (files : List DirEntry)
    (ms : List SQLMigration) :
    ownMigrations order files = .ok ms ↔ Accepted files ∧ MadeOf files ms := by
  rcases walked files with ⟨haccepted, entries, hwalk, hcollected⟩ |
      ⟨pre, d, post, text, rfl, hpre, htext, hwalk⟩
  · have hown : ownMigrations order files = .ok (sortMigrations SQLMigration.name
        ((order.run entries).filter (none.getD (fun _ => true)))) := by
      rw [ownMigrations, loadFS, hwalk]
      rfl
    rw [hown]
    constructor
    · intro h
      exact ⟨haccepted, Except.ok.inj h ▸ hcollected.madeOf order⟩
    · rintro ⟨-, hmade⟩
      rw [(hcollected.madeOf order).eq hmade]
  · have hown : ownMigrations order (pre ++ d :: post) = .error text := by
      rw [ownMigrations, loadFS, hwalk]
      rfl
    rw [hown]
    refine iff_of_false (fun h => nomatch h) ?_
    rintro ⟨haccepted, -⟩
    rw [List.append_cons] at haccepted
    have hone : complaint pre d = none := (accepted_one.mp (accepted_append.mp haccepted).1).2
    rw [hone] at htext
    cases htext

theorem refused {pre post : List DirEntry} {d : DirEntry} {text : String}
    (order : ScanOrder SQLMigration) (hpre : Accepted pre) (htext : complaint pre d = some text) :
    ownMigrations order (pre ++ d :: post) = .error text := by
  have hwalk : (pre ++ d :: post).foldlM visit [] = .error text := by
    rcases walked pre with ⟨-, entries, hwalk, hcollected⟩ | ⟨pre', x, post', text', rfl, -, hx, -⟩
    · rcases hcollected.visit d with ⟨hnone, -⟩ | ⟨text', htext', hvisit⟩
      · rw [hnone] at htext
        cases htext
      · cases htext.symm.trans htext'
        simp [List.foldlM_append, List.foldlM_cons, hwalk, hvisit, bind, Except.bind]
    · rw [List.append_cons] at hpre
      rw [(accepted_one.mp (accepted_append.mp hpre).1).2] at hx
      cases hx
  rw [ownMigrations, loadFS, hwalk]
  rfl

/-- Files are loaded, or the first that does not fit is complained of. -/
theorem loads (order : ScanOrder SQLMigration) (files : List DirEntry) :
    (∀ ms, ownMigrations order files = .ok ms ↔ Accepted files ∧ MadeOf files ms) ∧
      ∀ text, ownMigrations order files = .error text ↔
        ∃ pre d post, files = pre ++ d :: post ∧ Accepted pre ∧ complaint pre d = some text := by
  refine ⟨loaded_iff order files, fun text => ?_⟩
  constructor
  · intro h
    rcases walked files with ⟨haccepted, entries, hwalk, -⟩ |
        ⟨pre, d, post, text', rfl, hpre, htext, -⟩
    · rw [ownMigrations, loadFS, hwalk] at h
      cases h
    · cases (refused order hpre htext).symm.trans h
      exact ⟨pre, d, post, rfl, hpre, htext⟩
  · rintro ⟨pre, d, post, rfl, hpre, htext⟩
    exact refused order hpre htext

end

theorem withPrefix_empty (ms : List Migration) : withPrefix "" ms = ms := by
  simp [withPrefix]

theorem sortMigrations_map (ms : List SQLMigration) :
    sortMigrations Migration.name (ms.map SQLMigration.migration) =
      (sortMigrations SQLMigration.name ms).map SQLMigration.migration :=
  (List.map_insertionSort (fun a b : SQLMigration => a.name ≤ b.name)
    (fun a b : Migration => a.name ≤ b.name) SQLMigration.migration ms
    fun _ _ _ _ => Iff.rfl).symm

theorem startMigrator_own (order : ScanOrder SQLMigration) (files : List DirEntry) :
    startMigrator order files = (ownMigrations order files).map
      (fun ms => ⟨effectiveConfig none, ms.map SQLMigration.migration⟩) := by
  unfold startMigrator ownMigrations
  cases loadFS order none files with
  | error text => rfl
  | ok ms =>
    have hsorted : sortAndAppend ⟨effectiveConfig none, []⟩ "" (ms.map SQLMigration.migration) =
        ⟨effectiveConfig none, (sortMigrations SQLMigration.name ms).map
          SQLMigration.migration⟩ := by
      simp [sortAndAppend, withPrefix_empty, sortMigrations_map]
    exact congrArg Except.ok hsorted

/-- On an empty migrator it is the same whether the migrations are sorted
before they are added or after. -/
theorem newFromFS_start (order : ScanOrder SQLMigration) (files : List DirEntry) :
    newFromFS none order files none = startMigrator order files := by
  simp [newFromFS, startMigrator, addAndSort, sortAndAppend, withPrefix_empty]

def fileName (name : String) (direction : Direction) : String :=
  let path := match name.toList with
    | '/' :: base => base
    | path => path
  String.ofList (path ++ '.' :: (direction.toString.toList ++ ".sql".toList))

structure Named (name : String) : Prop where
  slash : '/' ∈ name.toList
  line : '\n' ∉ name.toList
  top : ∀ base, name.toList = '/' :: base → '/' ∉ base

def written (ms : List SQLMigration) : List DirEntry :=
  ms.flatMap (fun m => [.up, .down].filterMap (fun direction =>
    (getter m direction).map (fun content => ⟨fileName m.name direction, true, content⟩)))

section
variable {name : String} {direction : Direction} {ms : List SQLMigration}

theorem key_path {path : List Char} (hline : '\n' ∉ path) :
    key (String.ofList (path ++ '.' :: (direction.toString.toList ++ ".sql".toList))) =
      some (withScope path, direction) := by
  have hgroups : Groups (path ++ '.' :: (direction.toString.toList ++ ".sql".toList)) path
      direction := ⟨'.', '.', Or.inl rfl, by decide, hline, rfl⟩
  rw [key, String.toList_ofList, findStringSubmatch_iff.mpr hgroups]
  rfl

theorem key_fileName (h : Named name) : key (fileName name direction) = some (name, direction) := by
  unfold fileName
  split
  · rename_i base hbase
    have hline : '\n' ∉ base := fun hin => h.line (hbase ▸ List.mem_cons_of_mem _ hin)
    rw [key_path hline, withScope, if_neg (h.top base hbase), ← hbase, String.ofList_toList]
  · rw [key_path h.line, withScope, if_pos h.slash, String.ofList_toList]

theorem mem_written {d : DirEntry} : d ∈ written ms ↔ ∃ m ∈ ms, ∃ direction content,
    getter m direction = some content ∧ d = ⟨fileName m.name direction, true, content⟩ := by
  simp only [written, List.mem_flatMap, List.mem_filterMap, Option.map_eq_some_iff]
  constructor
  · rintro ⟨m, hm, direction, -, content, hcontent, rfl⟩
    exact ⟨m, hm, direction, content, hcontent, rfl⟩
  · rintro ⟨m, hm, direction, content, hcontent, rfl⟩
    exact ⟨m, hm, direction, by cases direction <;> simp, content, hcontent, rfl⟩

def scriptKeys (m : SQLMigration) : List (String × Direction) :=
  ([.up, .down].filter (fun direction => (getter m direction).isSome)).map
    (fun direction => (m.name, direction))

theorem written_keys (hnamed : ∀ m ∈ ms, Named m.name) :
    keys (written ms) = ms.flatMap scriptKeys := by
  induction ms with
  | nil => rfl
  | cons m ms ih =>
    have hfirst : keys (([Direction.up, .down].filterMap (fun direction =>
        (getter m direction).map (fun content =>
          (⟨fileName m.name direction, true, content⟩ : DirEntry))))) = scriptKeys m := by
      have hkey := fun direction => @key_fileName m.name direction (hnamed m (by simp))
      cases hup : getter m .up <;> cases hdown : getter m .down <;>
        simp [scriptKeys, keys, hup, hdown, hkey]
    rw [written, List.flatMap_cons, keys_append, hfirst, List.flatMap_cons]
    exact congrArg _ (ih fun x hx => hnamed x (by simp [hx]))

theorem scriptKeys_nodup (m : SQLMigration) : (scriptKeys m).Nodup := by
  have hboth : ([.up, .down] : List Direction).Nodup := by decide
  exact (hboth.filter _).map fun a b h => (Prod.mk.inj h).2

/-- Migrations are loaded as they were before they were written to files. -/
theorem written_loaded {files : List DirEntry} (order : ScanOrder SQLMigration)
    (hascending : ms.Pairwise (fun a b => a.name < b.name)) (hnamed : ∀ m ∈ ms, Named m.name)
    (hnonempty : ∀ m ∈ ms, ∃ direction, getter m direction ≠ none)
    (hfiles : files.Perm (written ms)) : ownMigrations order files = .ok ms := by
  have hkey : ∀ {m direction}, m ∈ ms → key (fileName m.name direction) =
      some (m.name, direction) := fun hm => key_fileName (hnamed _ hm)
  refine (loaded_iff order files ms).mpr ⟨⟨?_, ?_⟩, hascending, ?_, hnonempty⟩
  · intro d hd _
    obtain ⟨m, hm, direction, content, -, rfl⟩ := mem_written.mp (hfiles.mem_iff.mp hd)
    rw [hkey hm]
    simp
  · have hperm : (keys files).Perm (ms.flatMap scriptKeys) := by
      rw [← written_keys hnamed]
      exact (hfiles.filter _).filterMap _
    rw [hperm.nodup_iff, List.nodup_flatMap]
    refine ⟨fun m _ => scriptKeys_nodup m, hascending.imp fun {a b} hlt => ?_⟩
    intro k ha hb
    obtain ⟨direction, _, hfirst⟩ := List.mem_map.mp ha
    obtain ⟨direction', _, hsecond⟩ := List.mem_map.mp hb
    exact hlt.ne (Prod.mk.inj (hfirst.trans hsecond.symm)).1
  · intro name direction content
    constructor
    · rintro ⟨m, hm, rfl, hcontent⟩
      exact ⟨_, hfiles.mem_iff.mpr (mem_written.mpr ⟨m, hm, direction, content, hcontent, rfl⟩),
        ⟨rfl, hkey hm⟩, rfl⟩
    · rintro ⟨d, hd, ⟨-, his⟩, rfl⟩
      obtain ⟨m, hm, direction', content, hcontent, rfl⟩ := mem_written.mp (hfiles.mem_iff.mp hd)
      cases (hkey hm).symm.trans his
      exact ⟨m, hm, rfl, hcontent⟩

end

def base : SQLMigration := ⟨"bus/0001", some (.ok "CREATE TABLE a ()"), some (.ok "DROP TABLE a")⟩

def attributes : SQLMigration := ⟨"bus/0002", some (.ok "ALTER TABLE a ADD b text"), none⟩

theorem written_loaded_backwards :
    ownMigrations (.newestFirst _) (written [base, attributes]).reverse =
      .ok [base, attributes] := by
  refine written_loaded (.newestFirst _) ?_ ?_ ?_ (List.reverse_perm _)
  · exact List.pairwise_pair.mpr (by decide +kernel)
  · intro m hm
    rcases List.mem_pair.mp hm with rfl | rfl
    · exact ⟨by decide +kernel, by decide +kernel, by simp [base]⟩
    · exact ⟨by decide +kernel, by decide +kernel, by simp [attributes]⟩
  · intro m hm
    refine ⟨.up, ?_⟩
    rcases List.mem_pair.mp hm with rfl | rfl <;> simp [getter, base, attributes]

end Mmmbbb.Loading
