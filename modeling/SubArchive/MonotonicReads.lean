import SubArchive.ReadonlyDatabase

/-!
# Reads of the readonly database over time

A read answers from the snapshot or, after an error, from the one it has just
caught up to.  Over a run the answers are those of the node's database at
moments that do not go back.
-/

namespace SubArchive

namespace SecondaryRocksDb

open Follower

variable {db start : SecondaryRocksDb} {col : ColumnId} {key : Bytes} {c : Surroundings}

/-- The call gave up after an error. -/
def failed (db : SecondaryRocksDb) (col : ColumnId) (key : Bytes) (c : Surroundings) : Bool :=
  match rawGet db c.firstRead col key with
  | .ok _ => false
  | .error _ => c.catchUp.isSome || c.secondRead.isSome

structure Reading where
  key : ColumnId × Bytes
  value : Option DBValue
deriving DecidableEq, Repr

/-- What is read by a call that did not give up. -/
def readings (db : SecondaryRocksDb) : Event → List Reading
  | .write _ => []
  | .get col key c => if failed db col key c then [] else [⟨(col, key), (get db col key c).1⟩]

theorem get_extends : db.Extends (get db col key c).2 := by
  have hwrite := db.extends_write c.writes
  have hcatch := hwrite.trans (extends_catchUp (db.write c.writes))
  unfold get
  rcases rawGet db c.firstRead col key with err | _ | value
  · rcases hup : c.catchUp with _ | err'
    · simp only [tryCatchUpWithPrimary]
      cases rawGet (db.write c.writes).catchUp c.secondRead col key <;> exact hcatch
    · exact hwrite
  · rcases hup : c.catchUp with _ | err'
    · exact hcatch
    · exact hwrite
  · exact hwrite

/-- A call that does not give up answers from a moment between the snapshots
before and after it. -/
theorem get_answers (h : failed db col key c = false) :
    ∃ p, db.position ≤ p ∧ p ≤ (get db col key c).2.position ∧
      (get db col key c).1 = history (get db col key c).2.log p (col, key) := by
  have hafter : db.Extends (get db col key c).2 := get_extends
  rcases hfirst : c.firstRead with _ | err
  · -- the snapshot before the call
    refine ⟨db.position, Nat.le_refl _, hafter.position, ?_⟩
    rw [history_of_grown hafter.log db.position_le, ← snapshot_eq_history]
    unfold get rawGet
    rcases hheld : db.snapshot (col, key) with _ | value
    · rcases hup : c.catchUp with _ | err
      · simp [hfirst, tryCatchUpWithPrimary]
      · simp [hfirst, tryCatchUpWithPrimary]
    · simp [hfirst]
  · -- the snapshot after the catch-up
    obtain ⟨hup, hsecond⟩ : c.catchUp = none ∧ c.secondRead = none := by
      simpa [failed, rawGet, hfirst] using h
    refine ⟨_, hafter.position, Nat.le_refl _, ?_⟩
    rw [← snapshot_eq_history]
    simp [get, rawGet, tryCatchUpWithPrimary, hfirst, hup, hsecond]

theorem next_extends {t : SecondaryRocksDb} {e : Event} (h : next db e = some t) :
    db.Extends t := by
  cases e with
  | write batch =>
      obtain rfl := Option.some.inj h
      exact db.extends_write batch
  | get col key c =>
      obtain rfl := Option.some.inj h
      exact get_extends

theorem extends_of_reaches {t : SecondaryRocksDb}
    (h : Transition.Reaches next (fun _ _ ↦ True) db t) : db.Extends t :=
  h.invariant (Extends.refl db) fun _ _ _ ha _ hnext ↦ ha.trans (next_extends hnext)

/-- Readings with moments of the log of writes, in their order, at which the
node's database held what was read. -/
structure Placed (start db : SecondaryRocksDb) (placed : List (Reading × ℕ)) : Prop where
  ordered : placed.Pairwise fun before after ↦ before.2 ≤ after.2
  within : ∀ entry ∈ placed, start.position ≤ entry.2 ∧ entry.2 ≤ db.position
  held : ∀ entry ∈ placed, history db.log entry.2 entry.1.key = entry.1.value

variable {placed : List (Reading × ℕ)} {t : SecondaryRocksDb}

theorem Placed.extends (h : Placed start db placed) (hextends : db.Extends t) :
    Placed start t placed where
  ordered := h.ordered
  within := by
    intro entry hentry
    obtain ⟨hle, hle'⟩ := h.within entry hentry
    exact ⟨hle, Nat.le_trans hle' hextends.position⟩
  held := by
    intro entry hentry
    have hbound := Nat.le_trans (h.within entry hentry).2 db.position_le
    rw [history_of_grown hextends.log hbound]
    exact h.held entry hentry

theorem Placed.read {p : ℕ} {reading : Reading} (h : Placed start db placed)
    (hstart : start.position ≤ db.position) (hextends : db.Extends t) (hp : db.position ≤ p)
    (hp' : p ≤ t.position) (hvalue : reading.value = history t.log p reading.key) :
    Placed start t (placed ++ [(reading, p)]) where
  ordered := by
    refine List.pairwise_append.mpr ⟨h.ordered, List.pairwise_singleton _ _, ?_⟩
    intro before hbefore after hafter
    rw [List.mem_singleton.mp hafter]
    exact Nat.le_trans (h.within before hbefore).2 hp
  within := by
    intro entry hentry
    rcases List.mem_append.mp hentry with hentry | hentry
    · exact (h.extends hextends).within entry hentry
    · rw [List.mem_singleton.mp hentry]
      exact ⟨Nat.le_trans hstart hp, hp'⟩
  held := by
    intro entry hentry
    rcases List.mem_append.mp hentry with hentry | hentry
    · exact (h.extends hextends).held entry hentry
    · rw [List.mem_singleton.mp hentry]
      exact hvalue.symm

/-- The log of a run can be placed. -/
def Consistent (start db : SecondaryRocksDb) (log : List Reading) : Prop :=
  start.Extends db ∧ ∃ placed, placed.map Prod.fst = log ∧ Placed start db placed

theorem Consistent.next {log : List Reading} {e : Event} (h : Consistent start db log)
    (hnext : next db e = some t) : Consistent start t (log ++ readings db e) := by
  obtain ⟨hstart, placed, rfl, hplaced⟩ := h
  have hextends := next_extends hnext
  refine ⟨hstart.trans hextends, ?_⟩
  cases e with
  | write batch => exact ⟨placed, by simp [readings], hplaced.extends hextends⟩
  | get col key c =>
      obtain rfl := Option.some.inj hnext
      rcases hfailed : failed db col key c
      · obtain ⟨p, hp, hp', hvalue⟩ := get_answers hfailed
        refine ⟨placed ++ [(⟨(col, key), (get db col key c).1⟩, p)], ?_, ?_⟩
        · simp [readings, hfailed]
        · exact hplaced.read hstart.position hextends hp hp' hvalue
      · exact ⟨placed, by simp [readings, hfailed], hplaced.extends hextends⟩

/-- Every later call that does not give up answers at least as new as the
snapshot is. -/
theorem later_answers (hrun : Transition.Reaches next (fun _ _ ↦ True) db t)
    (h : failed t col key c = false) :
    ∃ p, db.position ≤ p ∧ (get t col key c).1 = history (get t col key c).2.log p (col, key) := by
  obtain ⟨p, hp, -, hvalue⟩ := get_answers h
  exact ⟨p, Nat.le_trans (extends_of_reaches hrun).position hp, hvalue⟩

end SecondaryRocksDb

end SubArchive
