import SubArchive.Primitives
import SubArchive.Library.Follower
import SubArchive.Library.Transition

/-!
# The readonly database

`SecondaryRocksDb` reads a snapshot of the node's database and asks it to catch
up when a key is missing or a read fails.  What the database itself does during
a call, its failures and the node's writes, is given with the call.
-/

namespace SubArchive

abbrev ColumnId := ℕ

abbrev DBValue := Bytes

abbrev SecondaryRocksDb := Follower (ColumnId × Bytes) DBValue

/-- What happens while `get` runs. -/
structure Surroundings where
  firstRead : Option IoError
  /-- the writes of the node up to the catch-up -/
  writes : List ((ColumnId × Bytes) × Option DBValue)
  catchUp : Option IoError
  secondRead : Option IoError
deriving DecidableEq, Repr

namespace SecondaryRocksDb

/-- `Database::get` -/
def rawGet (db : SecondaryRocksDb) (failure : Option IoError) (col : ColumnId) (key : Bytes) :
    Except IoError (Option DBValue) :=
  match failure with
  | some err => .error err
  | none => .ok (db.snapshot (col, key))

def tryCatchUpWithPrimary (db : SecondaryRocksDb) (failure : Option IoError) :
    Except IoError SecondaryRocksDb :=
  match failure with
  | some err => .error err
  | none => .ok db.catchUp

/-- After a read that found nothing the database catches up but is not read
again. -/
def get (db : SecondaryRocksDb) (col : ColumnId) (key : Bytes) (c : Surroundings) :
    Option DBValue × SecondaryRocksDb :=
  let later : SecondaryRocksDb := db.write c.writes
  match rawGet db c.firstRead col key with
  | .ok (some value) => (some value, later)
  | .ok none =>
      match tryCatchUpWithPrimary later c.catchUp with
      | .ok db => (none, db)
      | .error _ => (none, later)
  | .error _ =>
      match tryCatchUpWithPrimary later c.catchUp with
      | .error _ => (none, later)
      | .ok db =>
          match rawGet db c.secondRead col key with
          | .ok value => (value, db)
          | .error _ => (none, db)

inductive Event where
  | write (batch : List ((ColumnId × Bytes) × Option DBValue))
  | get (col : ColumnId) (key : Bytes) (c : Surroundings)

def next (db : SecondaryRocksDb) : Event → Option SecondaryRocksDb
  | .write batch => some (db.write batch)
  | .get col key c => some (get db col key c).2

/-! ## Answers -/

/-- The catch-up failed, or the read after it. -/
def interrupted (db : SecondaryRocksDb) (col : ColumnId) (key : Bytes) (c : Surroundings) : Bool :=
  match rawGet db c.firstRead col key with
  | .ok (some _) => false
  | .ok none => c.catchUp.isSome
  | .error _ => c.catchUp.isSome || c.secondRead.isSome

structure Answer where
  value : Option DBValue
  /-- what the snapshot holds for the key when the call returns -/
  held : Option DBValue
  interrupted : Bool
deriving DecidableEq, Repr

def answers (db : SecondaryRocksDb) : Event → List Answer
  | .write _ => []
  | .get col key c =>
      let (value, after) := get db col key c
      [⟨value, after.snapshot (col, key), interrupted db col key c⟩]

def Answer.Correct (a : Answer) : Prop := a.interrupted = false → a.value = a.held

/-- A key that the first read does not find is not in the node's database
either, or the catch-up fails. -/
def UpToDate (db : SecondaryRocksDb) : Event → Prop
  | .write _ => True
  | .get col key c => c.firstRead = none → db.snapshot (col, key) = none → c.catchUp = none →
      (db.write c.writes).primary (col, key) = none

theorem correct_iff (db : SecondaryRocksDb) (e : Event) :
    (∀ a ∈ answers db e, a.Correct) ↔ UpToDate db e := by
  rcases e with batch | ⟨col, key, c⟩
  · simp [answers, UpToDate]
  · rw [answers, List.forall_mem_singleton]
    rcases hfirst : c.firstRead with _ | err
    · rcases hheld : db.snapshot (col, key) with _ | value
      · rcases hcatch : c.catchUp with _ | err
        · simp [Answer.Correct, UpToDate, get, interrupted, rawGet, tryCatchUpWithPrimary, hfirst,
            hheld, hcatch, eq_comm]
        · simp [Answer.Correct, UpToDate, interrupted, rawGet, hfirst, hheld, hcatch]
      · simp [Answer.Correct, UpToDate, get, rawGet, hfirst, hheld]
    · rcases hcatch : c.catchUp with _ | err'
      · rcases hsecond : c.secondRead with _ | err'
        · simp [Answer.Correct, UpToDate, get, rawGet, tryCatchUpWithPrimary, hfirst, hcatch,
            hsecond]
        · simp [Answer.Correct, UpToDate, interrupted, rawGet, hfirst, hsecond]
      · simp [Answer.Correct, UpToDate, interrupted, rawGet, hfirst, hcatch]

/-- Only a write that the snapshot lags behind can make an answer wrong. -/
theorem upToDate_of_lag {db : SecondaryRocksDb} {col : ColumnId} {key : Bytes} {c : Surroundings}
    (h : (col, key) ∉ (db.write c.writes).lag.map Prod.fst) : UpToDate db (.get col key c) := by
  intro _ hmissing _
  rw [← Follower.snapshot_eq_primary h, Follower.snapshot_write, hmissing]

/-- As long as no key is missing from a snapshot that the node has meanwhile
written, every answer is what the snapshot holds at the end of the call; the
first call to find one so answers that a key it holds is missing. -/
theorem get_correct {start db : SecondaryRocksDb} {log : List Answer}
    (h : Transition.Reaches (Transition.logged next answers) (fun s ↦ UpToDate s.1)
      (start, []) (db, log)) :
    (∀ a ∈ log, a.Correct) ∧ ∀ e, (∀ a ∈ answers db e, a.Correct) ↔ UpToDate db e := by
  refine ⟨?_, correct_iff db⟩
  have hrun := h.logged_invariant (I := fun _ log ↦ ∀ a ∈ log, Answer.Correct a) (by simp)
  refine (hrun ?_).2
  intro a e b log _ hlog hup _
  rw [List.forall_mem_append]
  exact ⟨hlog, (correct_iff a e).mpr hup⟩

/-- The node writes a key, its first read fails, and the call answers after
catching up. -/
theorem get_correct_after_error : ∃ db,
    Transition.Reaches (Transition.logged next answers) (fun s ↦ UpToDate s.1)
      (.atEnd [], []) (db, [⟨some [7], some [7], false⟩]) ∧
    ∀ a ∈ [(⟨some [7], some [7], false⟩ : Answer)], a.Correct := by
  let c : Surroundings := ⟨some "stale file handle", [((3, [1]), some [7])], none, none⟩
  have hup : UpToDate (.atEnd []) (.get 3 [1] c) := by
    simp [UpToDate, c]
  have hrun : Transition.Reaches (Transition.logged next answers) (fun s ↦ UpToDate s.1)
      (.atEnd [], []) ((get (.atEnd []) 3 [1] c).2, [⟨some [7], some [7], false⟩]) :=
    .single ⟨.get 3 [1] c, hup, rfl⟩
  exact ⟨_, hrun, (get_correct hrun).1⟩

/-- The node writes a key; the read does not find it, the database catches up,
and the call answers that the key is missing. -/
theorem get_misses_held_key : ∃ db,
    Transition.Reaches (Transition.logged next answers) (fun _ _ ↦ True)
      (.atEnd [], []) (db, [⟨none, some [7], false⟩]) ∧
    ¬ (⟨none, some [7], false⟩ : Answer).Correct := by
  let c : Surroundings := ⟨none, [], none, none⟩
  have hrun : Transition.Reaches (Transition.logged next answers) (fun _ _ ↦ True)
      (.atEnd [], []) ((get (.write (.atEnd []) [((3, [1]), some [7])]) 3 [1] c).2,
        [⟨none, some [7], false⟩]) :=
    .head ⟨.write [((3, [1]), some [7])], trivial, rfl⟩ (.single ⟨.get 3 [1] c, trivial, rfl⟩)
  exact ⟨_, hrun, by simp [Answer.Correct]⟩

end SecondaryRocksDb

end SubArchive
