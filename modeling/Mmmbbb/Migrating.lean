import Mmmbbb.Schema
import Mmmbbb.Programs

/-!
# Schema migrations

Scripts that take a database up to the current schema, or back down. Each runs
in a transaction of its own, together with the statement that records it in
the migrations table, or strikes it out. A statement whose arguments are not
as many as its placeholders is rejected.
-/

set_option autoImplicit false

namespace Mmmbbb.Migrating
open Programs Mmmbbb.Schema

def quoteIdentifier (s : String) : String := "\"" ++ s.replace "\"" "\"\"" ++ "\""

def quoteString (s : String) : String := "'" ++ s.replace "'" "''" ++ "'"

inductive Piece
  | text (s : String)
  | identifier (s : String)
  | quoted (s : String)
  | placeholder (n : ℕ)
  deriving DecidableEq

def Piece.render : Piece → String
  | .text s => s
  | .identifier s => quoteIdentifier s
  | .quoted s => quoteString s
  | .placeholder n => "$" ++ toString n

def Piece.number : Piece → ℕ
  | .placeholder n => n
  | _ => 0

inductive Effect
  | nothing
  | script (contents : String)
  | insertState
  | deleteState
  deriving DecidableEq

structure Statement where
  query : List Piece
  effect : Effect

def Statement.text (s : Statement) : String := String.join (s.query.map Piece.render)

def Statement.placeholders (s : Statement) : ℕ := (s.query.map Piece.number).foldl max 0

inductive Value
  | text (s : String)
  | timestamp (t : Time)
  deriving DecidableEq

inductive Error
  | content (text : String)
  | noScript (text : String)
  | arguments (query : String) (placeholders given : ℕ)
  | uniqueViolation (name : String)
  | failed (name : String) (cause : Error)
  deriving DecidableEq

structure State where
  id : ℕ
  name : String
  runOn : Time
  deriving DecidableEq

structure Database where
  nextID : ℕ
  states : List State
  executed : List String
  deriving DecidableEq

def Database.Recorded (db : Database) (name : String) : Prop := ∃ s ∈ db.states, s.name = name

instance (db : Database) (name : String) : Decidable (db.Recorded name) :=
  inferInstanceAs (Decidable (∃ s ∈ db.states, _))

def Effect.apply (db : Database) : Effect → List Value → Except Error Database
  | .script contents, _ => .ok { db with executed := db.executed ++ [contents] }
  | .insertState, [.text name, .timestamp runOn] =>
    if db.Recorded name then .error (.uniqueViolation name)
    else .ok { db with
      nextID := db.nextID + 1
      states := db.states ++ [⟨db.nextID, name, runOn⟩] }
  | .deleteState, .text name :: _ =>
    .ok { db with states := db.states.filter (fun s => s.name ≠ name) }
  | _, _ => .ok db

def execContext (s : Statement) (args : List Value) (db : Database) : Except Error Database :=
  if args.length = s.placeholders then s.effect.apply db args
  else .error (.arguments s.text s.placeholders args.length)

inductive Direction
  | up
  | down
  deriving DecidableEq

def Direction.toString : Direction → String
  | .up => "up"
  | .down => "down"

/-- A getter is modelled by what a call of it returns. -/
abbrev ContentGetter := Except Error String

structure Migration where
  name : String
  up : Database → Except Error Database
  down : Database → Except Error Database

structure SQLMigration where
  name : String
  up : Option ContentGetter
  down : Option ContentGetter

/-- Without a getter the contents are empty. -/
def SQLMigration.contents (m : SQLMigration) (direction : Direction) : Except Error String :=
  let getter := match direction with
    | .up => m.up
    | .down => m.down
  getter.getD (.ok "")

def SQLMigration.run (m : SQLMigration) (direction : Direction) (tx : Database) :
    Except Error Database := do
  let contents ← m.contents direction
  failWhen (contents = "")
    (.noScript ("no script to " ++ direction.toString ++ " migration " ++ m.name))
  execContext ⟨[.text contents], .script contents⟩ [] tx

def SQLMigration.migration (m : SQLMigration) : Migration := ⟨m.name, m.run .up, m.run .down⟩

/-- Both scripts go to the getter of the way up, so that the second one
replaces the first. -/
def fromSQL (name up down : String) : SQLMigration :=
  let ret : SQLMigration := ⟨name, none, none⟩
  let ret := if up ≠ "" then { ret with up := some (.ok up) } else ret
  if down ≠ "" then { ret with up := some (.ok down) } else ret

structure Config where
  schemaName : String
  tableName : String

def defaultConfig : Config := ⟨"public", "migrations"⟩

def effectiveConfig (c : Option Config) : Config :=
  match c with
  | none => defaultConfig
  | some c => {
      schemaName := if c.schemaName ≠ "" then c.schemaName else defaultConfig.schemaName
      tableName := if c.tableName ≠ "" then c.tableName else defaultConfig.tableName }

def Config.table (cfg : Config) : List Piece :=
  [.identifier cfg.schemaName, .text ".", .identifier cfg.tableName]

def ensureMigrationsTable (cfg : Config) : Statement where
  query := .text "CREATE TABLE IF NOT EXISTS " :: cfg.table ++ [.text (" (\n" ++
    "\t\t\tid bigserial primary key,\n\t\t\tname text not null unique,\n" ++
    "\t\t\trun_on timestamptz not null\n\t\t)")]
  effect := .nothing

def insertMigration (cfg : Config) : Statement where
  query := .text "INSERT INTO " :: cfg.table ++
    [.text " (name, run_on) VALUES (", .placeholder 1, .text ", ", .placeholder 2, .text ")"]
  effect := .insertState

def deleteMigration (cfg : Config) : Statement where
  query := .text "DELETE FROM " :: cfg.table ++ [.text " WHERE name = ", .placeholder 1]
  effect := .deleteState

def beforeMigration (name : String) (direction : Direction) : Statement where
  query := [.text "DO $$ BEGIN RAISE NOTICE 'About to % migration %', ",
    .quoted direction.toString, .text ", ", .quoted name, .text "; END; $$"]
  effect := .nothing

/-- One transaction: what it returns is committed, and an error rolls it back. -/
def runOne (cfg : Config) (now : Time) (direction : Direction) (mm : Migration) (db : Database) :
    Except Error Database := do
  let tx ← execContext (beforeMigration mm.name direction) [] db
  let tx ← match direction with
    | .up => mm.up tx
    | .down => mm.down tx
  let query := match direction with
    | .up => insertMigration cfg
    | .down => deleteMigration cfg
  execContext query [.text mm.name, .timestamp now] tx

/-- Up, what is not recorded, in order; down, what is, in the reverse order. -/
def toRun (migrations : List Migration) (direction : Direction) (states : List State) :
    List Migration :=
  match direction with
  | .up => migrations.filter (fun mm => states.all (fun s => s.name ≠ mm.name))
  | .down => migrations.reverse.filter (fun mm => states.any (fun s => s.name = mm.name))

/-- The transactions before the first failure stay committed. -/
def runAll (cfg : Config) (direction : Direction) :
    (ℕ → Time) → List Migration → Database → Database × Except Error Unit
  | _, [], db => (db, .ok ())
  | now, mm :: rest, db =>
    match runOne cfg (now 0) direction mm db with
    | .error e => (db, .error (.failed mm.name e))
    | .ok db => runAll cfg direction (fun i => now (i + 1)) rest db

structure Migrator where
  config : Config
  migrations : List Migration

def Migrator.run (m : Migrator) (now : ℕ → Time) (direction : Direction) (db : Database) :
    Database × Except Error Unit :=
  match execContext (ensureMigrationsTable m.config) [] db with
  | .error e => (db, .error e)
  | .ok db => runAll m.config direction now (toRun m.migrations direction db.states) db

def Migrator.up (m : Migrator) (now : ℕ → Time) (db : Database) : Database × Except Error Unit :=
  m.run now .up db

def Migrator.down (m : Migrator) (now : ℕ → Time) (db : Database) : Database × Except Error Unit :=
  m.run now .down db

section
variable {cfg : Config} {mm : Migration} {db db' : Database} {direction : Direction}

theorem insertMigration_placeholders (cfg : Config) : (insertMigration cfg).placeholders = 2 := rfl

theorem deleteMigration_placeholders (cfg : Config) : (deleteMigration cfg).placeholders = 1 := rfl

theorem runOne_up {script : String} (t : Time)
    (hup : mm.up db = .ok { db with executed := db.executed ++ [script] })
    (hnew : ¬ db.Recorded mm.name) :
    runOne cfg t .up mm db = .ok {
      nextID := db.nextID + 1
      states := db.states ++ [⟨db.nextID, mm.name, t⟩]
      executed := db.executed ++ [script] } := by
  have hbefore : execContext (beforeMigration mm.name .up) [] db = .ok db := rfl
  have hinsert : execContext (insertMigration cfg) [.text mm.name, .timestamp t]
      { db with executed := db.executed ++ [script] } = .ok {
        nextID := db.nextID + 1
        states := db.states ++ [⟨db.nextID, mm.name, t⟩]
        executed := db.executed ++ [script] } := by
    rw [execContext, if_pos (by rw [insertMigration_placeholders]; rfl)]
    exact if_neg hnew
  rw [runOne, hbefore]
  simp only [bind, Except.bind, hup]
  exact hinsert

/-- The statement that strikes a migration out is given one argument more than
it has placeholders. -/
theorem runOne_down (t : Time) : runOne cfg t .down mm db ≠ .ok db' := by
  intro h
  obtain ⟨tx, -, h⟩ := bind_ok.mp h
  obtain ⟨tx', -, h⟩ := bind_ok.mp h
  have hcount : ([.text mm.name, .timestamp t] : List Value).length ≠
      (deleteMigration cfg).placeholders := by
    rw [deleteMigration_placeholders]
    simp
  simp only [execContext, if_neg hcount, reduceCtorEq] at h

theorem runAll_up {todo : List Migration} {scripts : List String} {now : ℕ → Time}
    (hscripts : List.Forall₂ (fun mm script => ∀ db : Database,
      mm.up db = .ok { db with executed := db.executed ++ [script] }) todo scripts)
    (hnames : (todo.map Migration.name).Nodup) (hnew : ∀ mm ∈ todo, ¬ db.Recorded mm.name) :
    ∃ db', runAll cfg .up now todo db = (db', .ok ()) ∧
      db'.executed = db.executed ++ scripts ∧
      db'.states.map State.name = db.states.map State.name ++ todo.map Migration.name := by
  induction hscripts generalizing db now with
  | nil => exact ⟨db, rfl, by simp, by simp⟩
  | @cons mm script rest scripts hup _ ih =>
    obtain ⟨hfirst, hnames⟩ := List.nodup_cons.mp hnames
    have hone : runOne cfg (now 0) .up mm db = _ := runOne_up (now 0) (hup db) (hnew mm (by simp))
    have hlater : ∀ x ∈ rest, ¬ Database.Recorded
        ⟨db.nextID + 1, db.states ++ [⟨db.nextID, mm.name, now 0⟩], db.executed ++ [script]⟩
          x.name := by
      intro x hx hrec
      obtain ⟨s, hs, hname⟩ := hrec
      rcases List.mem_append.mp hs with hs | hs
      · exact hnew x (by simp [hx]) ⟨s, hs, hname⟩
      · rw [List.mem_singleton.mp hs] at hname
        have hsame : x.name = mm.name := hname.symm
        exact hfirst (hsame ▸ List.mem_map_of_mem hx)
    obtain ⟨db', hrun, hexecuted, hstates⟩ := @ih _ (fun i => now (i + 1)) hnames hlater
    refine ⟨db', ?_, ?_, ?_⟩
    · rw [runAll, hone]
      exact hrun
    · rw [hexecuted, List.append_assoc, List.singleton_append]
    · rw [hstates]
      simp

theorem down_ok {m : Migrator} {now : ℕ → Time} (h : m.down now db = (db', .ok ())) :
    ∀ mm ∈ m.migrations, ¬ db.Recorded mm.name := by
  have hensure : execContext (ensureMigrationsTable m.config) [] db = .ok db := rfl
  rw [Migrator.down, Migrator.run, hensure] at h
  dsimp only at h
  intro mm hmm ⟨s, hs, hname⟩
  have hmem : mm ∈ toRun m.migrations .down db.states :=
    List.mem_filter.mpr ⟨by simpa using hmm, List.any_eq_true.mpr ⟨s, hs, by simp [hname]⟩⟩
  cases htodo : toRun m.migrations .down db.states with
  | nil => simp [htodo] at hmem
  | cons first rest =>
    rw [htodo, runAll] at h
    split at h
    · simp at h
    · rename_i db₁ hone
      exact runOne_down (now 0) hone

end

structure Script where
  name : String
  up : String
  down : String

def Script.migration (x : Script) : Migration := (fromSQL x.name x.up x.down).migration

theorem fromSQL_up {x : Script} (hdown : x.down ≠ "") (db : Database) :
    x.migration.up db = .ok { db with executed := db.executed ++ [x.down] } := by
  have hcontents : (fromSQL x.name x.up x.down).contents .up = .ok x.down := by
    simp [fromSQL, hdown, SQLMigration.contents]
  change (fromSQL x.name x.up x.down).run .up db = _
  rw [SQLMigration.run, hcontents]
  simp only [bind, Except.bind, failWhen, if_neg hdown]
  rfl

theorem fromSQL_name (x : Script) : x.migration.name = x.name := by
  simp only [Script.migration, SQLMigration.migration, fromSQL]
  split <;> split <;> rfl

/-- The way up executes the scripts that were meant for the way down. -/
theorem up_executes {xs : List Script} {cfg : Config} {now : ℕ → Time} {db : Database}
    (hnames : (xs.map Script.name).Nodup) (hdown : ∀ x ∈ xs, x.down ≠ "") (hempty : db.states = []) :
    ∃ db', (Migrator.mk cfg (xs.map Script.migration)).up now db = (db', .ok ()) ∧
      db'.executed = db.executed ++ xs.map Script.down ∧
      db'.states.map State.name = xs.map Script.name := by
  have hmap : (xs.map Script.migration).map Migration.name = xs.map Script.name := by
    rw [List.map_map]
    exact List.map_congr_left fun x _ => fromSQL_name x
  have htodo : toRun (xs.map Script.migration) .up db.states = xs.map Script.migration := by
    rw [toRun, hempty]
    simp
  have hscripts : List.Forall₂ (fun mm script => ∀ db : Database,
      Migration.up mm db = .ok { db with executed := db.executed ++ [script] })
        (xs.map Script.migration) (xs.map Script.down) := by
    rw [List.forall₂_map_left_iff, List.forall₂_map_right_iff, List.forall₂_same]
    exact fun x hx => fromSQL_up (hdown x hx)
  have hnew : ∀ mm ∈ xs.map Script.migration, ¬ db.Recorded mm.name := by
    intro mm _ ⟨s, hs, _⟩
    rw [hempty] at hs
    cases hs
  obtain ⟨db', hrun, hexecuted, hstates⟩ :=
    @runAll_up cfg db _ _ now hscripts (hmap ▸ hnames) hnew
  refine ⟨db', ?_, hexecuted, by rw [hstates, hmap, hempty]; rfl⟩
  have hensure : execContext (ensureMigrationsTable cfg) [] db = .ok db := rfl
  rw [Migrator.up, Migrator.run, hensure]
  dsimp only
  rw [htodo]
  exact hrun

/-- Up executes every up script and records every name; down then executes
every down script, the last one first, and leaves nothing recorded. -/
def RoundTrip (cfg : Config) (now now' : ℕ → Time) (xs : List Script) (db : Database) : Prop :=
  ∃ db₁ db₂, (Migrator.mk cfg (xs.map Script.migration)).up now db = (db₁, .ok ()) ∧
    db₁.executed = db.executed ++ xs.map Script.up ∧
    db₁.states.map State.name = xs.map Script.name ∧
    (Migrator.mk cfg (xs.map Script.migration)).down now' db₁ = (db₂, .ok ()) ∧
    db₂.executed = db₁.executed ++ (xs.map Script.down).reverse ∧ db₂.states = []

/-- The way up executes the wrong scripts, and the way back fails unless there
is nothing to undo. -/
theorem roundTrip_iff {cfg : Config} {now now' : ℕ → Time} {xs : List Script} {db : Database}
    (hnames : (xs.map Script.name).Nodup) (hscripts : ∀ x ∈ xs, x.up ≠ "" ∧ x.down ≠ "")
    (hempty : db.states = []) :
    (∃ db', (Migrator.mk cfg (xs.map Script.migration)).up now db = (db', .ok ()) ∧
      db'.executed = db.executed ++ xs.map Script.down ∧
      db'.states.map State.name = xs.map Script.name) ∧
    (RoundTrip cfg now now' xs db ↔ xs = []) := by
  refine ⟨up_executes hnames (fun x hx => (hscripts x hx).2) hempty, ?_⟩
  constructor
  · rintro ⟨db₁, db₂, -, -, hstates, hdown, -, -⟩
    have hleft := down_ok hdown
    cases xs with
    | nil => rfl
    | cons x rest =>
      have hmem : x.name ∈ db₁.states.map State.name := by
        rw [hstates]
        simp
      obtain ⟨s, hs, hname⟩ := List.mem_map.mp hmem
      exact absurd ⟨s, hs, hname.trans (fromSQL_name x).symm⟩ (hleft x.migration (by simp))
  · rintro rfl
    exact ⟨db, db, rfl, by simp, by simp [hempty], rfl, by simp, hempty⟩

def created : Script := ⟨"base", "CREATE TABLE a ()", "DROP TABLE a"⟩

def fresh : Database := ⟨1, [], []⟩

theorem roundTrip_iff_created :
    ¬ RoundTrip defaultConfig (fun _ => 1) (fun _ => 2) [created] fresh := by
  have hall := @roundTrip_iff defaultConfig (fun _ => 1) (fun _ => 2) [created] fresh (by decide)
    (by decide) rfl
  intro h
  exact absurd (hall.2.mp h) (by simp)

theorem created_stuck :
    (Migrator.mk defaultConfig [created.migration]).up (fun _ => 1) fresh =
        (⟨2, [⟨1, "base", 1⟩], ["DROP TABLE a"]⟩, .ok ()) ∧
      (Migrator.mk defaultConfig [created.migration]).down (fun _ => 2)
          ⟨2, [⟨1, "base", 1⟩], ["DROP TABLE a"]⟩ =
        (⟨2, [⟨1, "base", 1⟩], ["DROP TABLE a"]⟩,
          .error (.failed "base" (.noScript "no script to down migration base"))) ∧
      ¬ RoundTrip defaultConfig (fun _ => 1) (fun _ => 2) [created] fresh := by
  have hup : (Migrator.mk defaultConfig [created.migration]).up (fun _ => 1) fresh =
      (⟨2, [⟨1, "base", 1⟩], ["DROP TABLE a"]⟩, .ok ()) := by rfl
  refine ⟨hup, by rfl, ?_⟩
  rintro ⟨db₁, db₂, hdb₁, hexecuted, -⟩
  have hsame : db₁ = ⟨2, [⟨1, "base", 1⟩], ["DROP TABLE a"]⟩ :=
    (Prod.mk.inj (hdb₁.symm.trans hup)).1
  rw [hsame] at hexecuted
  exact absurd hexecuted (by decide)

end Mmmbbb.Migrating
