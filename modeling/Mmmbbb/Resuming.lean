import Mmmbbb.Migrating

/-!
# Migration runs that fail

The database may fail a migration at any of its steps. The transaction is then
rolled back on the way out, and a rollback that fails is a panic. A commit that
has failed leaves nothing to roll back.
-/

set_option autoImplicit false

namespace Mmmbbb.Resuming
open Mmmbbb.Schema Mmmbbb.Migrating

inductive Point
  | begin
  | beforeMigration
  | script
  | record
  | commit
  deriving DecidableEq

inductive Error
  | database (point : Point)
  | statement (e : Migrating.Error)
  | txDone
  | failed (name : String) (cause : Error)
  deriving DecidableEq

inductive Outcome
  | returned (err : Option Error)
  | panicked (err : Error)
  deriving DecidableEq

structure Tx where
  view : Database
  finished : Bool

def Tx.run (tx : Tx) (fault : Option Point) (point : Point)
    (body : Database → Except Migrating.Error Database) : Except Error Tx :=
  if fault = some point then .error (.database point)
  else
    match body tx.view with
    | .error e => .error (.statement e)
    | .ok view => .ok { tx with view := view }

def Tx.rollback (tx : Tx) : Except Error Tx :=
  if tx.finished then .error .txDone else .ok { tx with finished := true }

structure Frame where
  db : Database
  tx : Option Tx
  success : Bool
  err : Option Error

def Frame.deferred (f : Frame) : Outcome :=
  match f.tx with
  | none => .returned f.err
  | some tx =>
    if f.success then .returned f.err
    else
      match tx.rollback with
      | .error e => .panicked e
      | .ok _ => .returned f.err

def body (cfg : Config) (now : Time) (fault : Option Point) (direction : Direction)
    (mm : Migration) (db : Database) : Frame :=
  if fault = some .begin then ⟨db, none, false, some (.database .begin)⟩
  else
    let tx : Tx := ⟨db, false⟩
    match tx.run fault .beforeMigration (execContext (beforeMigration mm.name direction) []) with
    | .error e => ⟨db, some tx, false, some e⟩
    | .ok tx =>
      let migrate := match direction with
        | .up => mm.up
        | .down => mm.down
      match tx.run fault .script migrate with
      | .error e => ⟨db, some tx, false, some e⟩
      | .ok tx =>
        let query := match direction with
          | .up => insertMigration cfg
          | .down => deleteMigration cfg
        match tx.run fault .record (execContext query [.text mm.name, .timestamp now]) with
        | .error e => ⟨db, some tx, false, some e⟩
        | .ok tx =>
          if fault = some .commit then
            ⟨db, some { tx with finished := true }, false, some (.database .commit)⟩
          else ⟨tx.view, some { tx with finished := true }, true, none⟩

/-- The database afterwards, whether the migration is committed, and how the
call ends. -/
def runOne (cfg : Config) (now : Time) (fault : Option Point) (direction : Direction)
    (mm : Migration) (db : Database) : Database × Bool × Outcome :=
  let f := body cfg now fault direction mm db
  (f.db, f.success, f.deferred)

structure Result where
  db : Database
  committed : List Migration
  outcome : Outcome

def runAll (cfg : Config) (direction : Direction) :
    (ℕ → Time) → (ℕ → Option Point) → List Migration → Database → Result
  | _, _, [], db => ⟨db, [], .returned none⟩
  | now, faults, mm :: rest, db =>
    match runOne cfg (now 0) (faults 0) direction mm db with
    | (db, success, outcome) =>
      let committed := if success then [mm] else []
      match outcome with
      | .panicked e => ⟨db, committed, .panicked e⟩
      | .returned (some e) => ⟨db, committed, .returned (some (.failed mm.name e))⟩
      | .returned none =>
        let later := runAll cfg direction (fun i => now (i + 1)) (fun i => faults (i + 1)) rest db
        ⟨later.db, committed ++ later.committed, later.outcome⟩

/-- The faults are numbered by the transactions of the run. -/
def run (m : Migrator) (now : ℕ → Time) (faults : ℕ → Option Point) (direction : Direction)
    (db : Database) : Result :=
  match execContext (ensureMigrationsTable m.config) [] db with
  | .error e => ⟨db, [], .returned (some (.statement e))⟩
  | .ok db => runAll m.config direction now faults (toRun m.migrations direction db.states) db

def up (m : Migrator) (now : ℕ → Time) (faults : ℕ → Option Point) (db : Database) : Result :=
  run m now faults .up db

def noFaults : ℕ → Option Point := fun _ => none

def firstFault : (ℕ → Option Point) → ℕ → Option Point
  | _, 0 => none
  | faults, n + 1 =>
    match faults 0 with
    | some point => some point
    | none => firstFault (fun i => faults (i + 1)) n

/-- A script keeps to the data of the application, and what it does there does
not depend on the migrations table. -/
def Runs (mm : Migration) : Prop :=
  ∃ effect : List String → List String,
    ∀ db : Database, mm.up db = .ok { db with executed := effect db.executed }

structure Plan where
  migrator : Migrator
  distinct : (migrator.migrations.map Migration.name).Nodup
  runs : ∀ mm ∈ migrator.migrations, Runs mm

def names (db : Database) : List String := db.states.map State.name

def Plan.todo (p : Plan) (db : Database) : List Migration :=
  toRun p.migrator.migrations .up db.states

def scripts (mms : List Migration) (db : Database) : Except Migrating.Error Database :=
  mms.foldlM (fun db mm => mm.up db) db

/-- A run that meets a fault returns an error; what it has committed is the
beginning of what was to do, and is recorded; and a run without faults
afterwards does the rest. -/
structure Resumable (p : Plan) (now now' : ℕ → Time) (faults : ℕ → Option Point)
    (db : Database) : Prop where
  returns : ∃ err, (up p.migrator now faults db).outcome = .returned err ∧
    (err ≠ none ↔ firstFault faults (p.todo db).length ≠ none)
  recorded : names (up p.migrator now faults db).db =
    names db ++ (up p.migrator now faults db).committed.map Migration.name
  resumes : ∃ rest, p.todo db = (up p.migrator now faults db).committed ++ rest ∧
    (up p.migrator now' noFaults (up p.migrator now faults db).db).outcome = .returned none ∧
    (up p.migrator now' noFaults (up p.migrator now faults db).db).committed = rest ∧
    names (up p.migrator now' noFaults (up p.migrator now faults db).db).db =
      names db ++ (p.todo db).map Migration.name ∧
    (scripts rest (up p.migrator now faults db).db).map Database.executed =
      .ok (up p.migrator now' noFaults (up p.migrator now faults db).db).db.executed

def withRecord (db : Database) (name : String) (now : Time) (executed : List String) : Database :=
  ⟨db.nextID + 1, db.states ++ [⟨db.nextID, name, now⟩], executed⟩

@[simp] theorem names_withRecord (db : Database) (name : String) (now : Time)
    (executed : List String) : names (withRecord db name now executed) = names db ++ [name] := by
  simp [names, withRecord]

theorem recorded_iff {db : Database} {name : String} : db.Recorded name ↔ name ∈ names db := by
  simp [Database.Recorded, names]

def failure (point : Point) : Outcome :=
  if point = .commit then .panicked .txDone else .returned (some (.database point))

section
variable {mm : Migration} {mms todo : List Migration} {db db' : Database}

theorem beforeMigration_ok (name : String) (db : Database) :
    execContext (beforeMigration name .up) [] db = .ok db := rfl

theorem insertMigration_ok {name : String} (cfg : Config) (now : Time) (executed : List String)
    (hnew : name ∉ names db) :
    execContext (insertMigration cfg) [.text name, .timestamp now]
      { db with executed := executed } = .ok (withRecord db name now executed) := by
  rw [execContext, if_pos (by rw [insertMigration_placeholders]; rfl)]
  exact if_neg (fun hrecorded => hnew (recorded_iff.mp hrecorded))

theorem runOne_none {effect : List String → List String}
    (hup : ∀ db : Database, mm.up db = .ok { db with executed := effect db.executed })
    (cfg : Config) (now : Time) (hnew : mm.name ∉ names db) :
    runOne cfg now none .up mm db =
      (withRecord db mm.name now (effect db.executed), true, .returned none) := by
  have hinsert := insertMigration_ok cfg now (effect db.executed) hnew
  simp [runOne, body, Tx.run, beforeMigration_ok, hup, hinsert, Frame.deferred]

theorem runOne_some (hup : Runs mm) (cfg : Config) (now : Time) (point : Point)
    (hnew : mm.name ∉ names db) :
    runOne cfg now (some point) .up mm db = (db, false, failure point) := by
  obtain ⟨effect, hup⟩ := hup
  have hinsert := insertMigration_ok cfg now (effect db.executed) hnew
  cases point <;>
    simp [runOne, body, Tx.run, beforeMigration_ok, hup, hinsert, Frame.deferred, Tx.rollback,
      failure]

theorem scripts_cons {effect : List String → List String}
    (hup : ∀ db : Database, mm.up db = .ok { db with executed := effect db.executed }) :
    scripts (mm :: mms) db = scripts mms { db with executed := effect db.executed } := by
  simp only [scripts, List.foldlM_cons, hup]
  rfl

theorem scripts_congr (hruns : ∀ mm ∈ mms, Runs mm) (h : db.executed = db'.executed) :
    (scripts mms db).map Database.executed = (scripts mms db').map Database.executed := by
  induction mms generalizing db db' with
  | nil => exact congrArg Except.ok h
  | cons mm mms ih =>
    obtain ⟨effect, hup⟩ := hruns mm (by simp)
    rw [scripts_cons hup, scripts_cons hup]
    exact ih (fun x hx => hruns x (by simp [hx])) (by rw [h])

def Ends : Option Point → Outcome → Prop
  | none, outcome => outcome = .returned none
  | some point, outcome => if point = .commit then outcome = .panicked .txDone
    else ∃ name, outcome = .returned (some (.failed name (.database point)))

structure Stopped (todo : List Migration) (faults : ℕ → Option Point) (db : Database)
    (r : Result) : Prop where
  outcome : Ends (firstFault faults todo.length) r.outcome
  recorded : names r.db = names db ++ r.committed.map Migration.name
  executed : (scripts r.committed db).map Database.executed = .ok r.db.executed
  committed : ∃ rest, todo = r.committed ++ rest ∧
    (firstFault faults todo.length = none → rest = [])

theorem stopped_fault {faults : ℕ → Option Point} {point : Point} (hfault : faults 0 = some point)
    (hruns : Runs mm) (cfg : Config) (now : ℕ → Time) (hnew : mm.name ∉ names db) :
    Stopped (mm :: mms) faults db (runAll cfg .up now faults (mm :: mms) db) := by
  have hone := runOne_some hruns cfg (now 0) point hnew
  have hend : firstFault faults (mm :: mms).length = some point := by
    simp [firstFault, hfault]
  by_cases hcommit : point = .commit
  · simp only [runAll, hfault, hone, failure, if_pos hcommit]
    refine ⟨?_, by simp, rfl, mm :: mms, rfl, fun h => ?_⟩
    · rw [hend]
      exact (if_pos hcommit).mpr rfl
    · rw [hend] at h
      cases h
  · simp only [runAll, hfault, hone, failure, if_neg hcommit]
    refine ⟨?_, by simp, rfl, mm :: mms, rfl, fun h => ?_⟩
    · rw [hend]
      exact (if_neg hcommit).mpr ⟨mm.name, rfl⟩
    · rw [hend] at h
      cases h

theorem Stopped.next {faults : ℕ → Option Point} {effect : List String → List String} {now : Time}
    {r : Result} (hfault : faults 0 = none)
    (hup : ∀ db : Database, mm.up db = .ok { db with executed := effect db.executed })
    (hruns : ∀ mm ∈ mms, Runs mm)
    (h : Stopped mms (fun i => faults (i + 1)) (withRecord db mm.name now (effect db.executed)) r) :
    Stopped (mm :: mms) faults db ⟨r.db, mm :: r.committed, r.outcome⟩ := by
  have hend : firstFault faults (mm :: mms).length =
      firstFault (fun i => faults (i + 1)) mms.length := by
    simp [firstFault, hfault]
  obtain ⟨later, hrest, hall⟩ := h.committed
  have hcommitted : ∀ x ∈ r.committed, Runs x :=
    fun x hx => hruns x (hrest ▸ List.mem_append_left later hx)
  constructor
  · rw [hend]
    exact h.outcome
  · rw [h.recorded, names_withRecord, List.append_assoc]
    rfl
  · rw [← h.executed]
    exact (congrArg _ (scripts_cons hup)).trans (scripts_congr hcommitted rfl)
  · refine ⟨later, congrArg (mm :: ·) hrest, fun hnone => ?_⟩
    exact hall (hend ▸ hnone)

theorem runAll_stopped (cfg : Config) (now : ℕ → Time) (faults : ℕ → Option Point)
    (hruns : ∀ mm ∈ todo, Runs mm) (hnames : (todo.map Migration.name).Nodup)
    (hnew : ∀ mm ∈ todo, mm.name ∉ names db) :
    Stopped todo faults db (runAll cfg .up now faults todo db) := by
  induction todo generalizing now faults db with
  | nil =>
    constructor
    · rfl
    · simp [runAll]
    · rfl
    · exact ⟨[], rfl, fun _ => rfl⟩
  | cons mm rest ih =>
    have hfirst : mm.name ∉ names db := hnew mm (by simp)
    have hrest : ∀ x ∈ rest, Runs x := fun x hx => hruns x (by simp [hx])
    obtain ⟨hother, hnames⟩ := List.nodup_cons.mp hnames
    cases hfault : faults 0 with
    | some point => exact stopped_fault hfault (hruns mm (by simp)) cfg now hfirst
    | none =>
      obtain ⟨effect, hup⟩ := hruns mm (by simp)
      have hone := runOne_none hup cfg (now 0) hfirst
      have hlater : ∀ x ∈ rest, x.name ∉ names
          (withRecord db mm.name (now 0) (effect db.executed)) := by
        intro x hx hmem
        rw [names_withRecord, List.mem_append, List.mem_singleton] at hmem
        rcases hmem with hmem | hsame
        · exact hnew x (by simp [hx]) hmem
        · exact hother (hsame ▸ List.mem_map_of_mem hx)
      have hih := ih (fun i => now (i + 1)) (fun i => faults (i + 1)) hrest hnames hlater
      simp only [runAll, hfault, hone, ↓reduceIte]
      exact hih.next hfault hup hrest

theorem todo_eq (p : Plan) (db : Database) :
    p.todo db = p.migrator.migrations.filter (fun mm => mm.name ∉ names db) := by
  refine List.filter_congr fun mm _ => ?_
  rw [Bool.eq_iff_iff, List.all_eq_true, decide_eq_true_iff, ← recorded_iff]
  simp [Database.Recorded]

theorem todo_nodup (p : Plan) (db : Database) : ((p.todo db).map Migration.name).Nodup :=
  p.distinct.sublist (List.filter_sublist.map _)

theorem todo_recorded {p : Plan} {done rest : List Migration} (htodo : p.todo db = done ++ rest)
    (hnames : names db' = names db ++ done.map Migration.name) : p.todo db' = rest := by
  have hfilter : p.todo db' = (p.todo db).filter (fun mm => mm.name ∉ done.map Migration.name) := by
    rw [todo_eq, todo_eq, List.filter_filter, hnames]
    refine List.filter_congr fun mm _ => ?_
    simp only [List.mem_append, not_or, Bool.decide_and]
    exact Bool.and_comm _ _
  have hnodup := todo_nodup p db
  rw [htodo, List.map_append, List.nodup_append] at hnodup
  rw [hfilter, htodo, List.filter_append, List.filter_eq_nil_iff.mpr, List.nil_append]
  · refine List.filter_eq_self.mpr fun mm hmm => decide_eq_true fun hdone => ?_
    exact hnodup.2.2 _ hdone _ (List.mem_map_of_mem hmm) rfl
  · intro mm hmm
    simpa using ⟨mm, hmm, rfl⟩

theorem up_stopped (p : Plan) (now : ℕ → Time) (faults : ℕ → Option Point) (db : Database) :
    Stopped (p.todo db) faults db (up p.migrator now faults db) := by
  have hmem : ∀ mm ∈ p.todo db, mm ∈ p.migrator.migrations ∧ mm.name ∉ names db := by
    intro mm hmm
    rw [todo_eq] at hmm
    simpa using hmm
  exact runAll_stopped p.migrator.config now faults (fun mm hmm => p.runs mm (hmem mm hmm).1)
    (todo_nodup p db) (fun mm hmm => (hmem mm hmm).2)

theorem firstFault_noFaults (n : ℕ) : firstFault noFaults n = none := by
  induction n with
  | zero => rfl
  | succ n ih => exact ih

/-- A run that fails can be resumed exactly when it does not fail at a commit. -/
theorem resumable_iff (p : Plan) (now now' : ℕ → Time) (faults : ℕ → Option Point)
    (db : Database) :
    Resumable p now now' faults db ↔ firstFault faults (p.todo db).length ≠ some .commit := by
  have hfirst := up_stopped p now faults db
  constructor
  · intro h hcommit
    obtain ⟨err, herr, -⟩ := h.returns
    have hpanic := hfirst.outcome
    rw [hcommit, herr] at hpanic
    cases hpanic
  · intro hcommit
    obtain ⟨rest, hrest, -⟩ := hfirst.committed
    have hleft : p.todo (up p.migrator now faults db).db = rest :=
      todo_recorded hrest hfirst.recorded
    have hsecond := up_stopped p now' noFaults (up p.migrator now faults db).db
    rw [hleft] at hsecond
    have hnone : firstFault noFaults rest.length = none := firstFault_noFaults _
    obtain ⟨rest', hrest', hall⟩ := hsecond.committed
    have hcommitted : (up p.migrator now' noFaults
        (up p.migrator now faults db).db).committed = rest := by
      rw [hrest', hall hnone, List.append_nil]
    refine ⟨?_, hfirst.recorded, rest, hrest, ?_, hcommitted, ?_, ?_⟩
    · have hend := hfirst.outcome
      cases hfault : firstFault faults (p.todo db).length with
      | none =>
        rw [hfault] at hend
        exact ⟨none, hend, by simp⟩
      | some point =>
        have hpoint : point ≠ .commit := fun h => hcommit (by rw [hfault, h])
        rw [hfault] at hend
        obtain ⟨name, hname⟩ := (if_neg hpoint).mp hend
        exact ⟨_, hname, by simp⟩
    · have hend := hsecond.outcome
      rwa [hnone] at hend
    · rw [hsecond.recorded, hcommitted, hfirst.recorded, hrest, List.map_append, List.append_assoc]
    · rw [← hsecond.executed, hcommitted]

/-- However often runs fail, what is recorded is the beginning of what there
was to do. -/
theorem ups_recorded (p : Plan) (runs : List ((ℕ → Time) × (ℕ → Option Point))) (db : Database) :
    ∃ done, p.todo db = done ++
        p.todo (runs.foldl (fun db run => (up p.migrator run.1 run.2 db).db) db) ∧
      names (runs.foldl (fun db run => (up p.migrator run.1 run.2 db).db) db) =
        names db ++ done.map Migration.name := by
  induction runs generalizing db with
  | nil => exact ⟨[], by simp, by simp⟩
  | cons run runs ih =>
    have hfirst := up_stopped p run.1 run.2 db
    obtain ⟨rest, hrest, -⟩ := hfirst.committed
    have hleft := todo_recorded hrest hfirst.recorded
    obtain ⟨done, htodo, hnames⟩ := ih (up p.migrator run.1 run.2 db).db
    refine ⟨(up p.migrator run.1 run.2 db).committed ++ done, ?_, ?_⟩
    · rw [List.foldl_cons, List.append_assoc, ← htodo, hleft, hrest]
    · rw [List.foldl_cons, hnames, hfirst.recorded, List.map_append, List.append_assoc]

theorem runOne_migrating (cfg : Config) (now : Time) (direction : Direction) (mm : Migration)
    (db : Database) :
    runOne cfg now none direction mm db =
      match Migrating.runOne cfg now direction mm db with
      | .ok db => (db, true, .returned none)
      | .error e => (db, false, .returned (some (.statement e))) := by
  simp only [runOne, body, Tx.run, Migrating.runOne, bind, Except.bind, reduceCtorEq, if_false]
  cases execContext (beforeMigration mm.name direction) [] db with
  | error e => rfl
  | ok tx =>
    cases direction with
    | up =>
      dsimp only
      cases mm.up tx with
      | error e => rfl
      | ok tx =>
        dsimp only
        cases execContext (insertMigration cfg) [.text mm.name, .timestamp now] tx <;> rfl
    | down =>
      dsimp only
      cases mm.down tx with
      | error e => rfl
      | ok tx =>
        dsimp only
        cases execContext (deleteMigration cfg) [.text mm.name, .timestamp now] tx <;> rfl

theorem runAll_migrating (cfg : Config) (direction : Direction) (now : ℕ → Time)
    (todo : List Migration) (db : Database) :
    (runAll cfg direction now noFaults todo db).db =
      (Migrating.runAll cfg direction now todo db).1 := by
  induction todo generalizing now db with
  | nil => rfl
  | cons mm rest ih =>
    have hone := runOne_migrating cfg (now 0) direction mm db
    cases hmig : Migrating.runOne cfg (now 0) direction mm db with
    | error e =>
      rw [hmig] at hone
      simp [runAll, noFaults, hone, Migrating.runAll, hmig]
    | ok db' =>
      rw [hmig] at hone
      simp only [runAll, noFaults, hone, Migrating.runAll, hmig]
      exact ih _ _

/-- Without faults a run does to the database what the run of statements does. -/
theorem up_migrating (m : Migrator) (now : ℕ → Time) (db : Database) :
    (up m now noFaults db).db = (m.up now db).1 :=
  runAll_migrating m.config .up now _ db

end

def createScript (db : Database) : Except Migrating.Error Database :=
  .ok { db with executed := db.executed ++ ["CREATE TABLE a ()"] }

def onlyBase : Plan where
  migrator := ⟨defaultConfig, [⟨"base", createScript, .ok⟩]⟩
  distinct := by decide
  runs := by
    intro mm hmm
    rw [List.mem_singleton.mp hmm]
    exact ⟨fun executed => executed ++ ["CREATE TABLE a ()"], fun _ => rfl⟩

theorem commit_panics :
    (up onlyBase.migrator (fun _ => 1) (fun _ => some .commit) fresh).outcome = .panicked .txDone ∧
      ¬Resumable onlyBase (fun _ => 1) (fun _ => 2) (fun _ => some .commit) fresh := by
  have hpanic : (up onlyBase.migrator (fun _ => 1) (fun _ => some .commit) fresh).outcome =
      .panicked .txDone := by rfl
  refine ⟨hpanic, fun h => ?_⟩
  obtain ⟨err, herr, -⟩ := h.returns
  rw [hpanic] at herr
  cases herr

end Mmmbbb.Resuming
