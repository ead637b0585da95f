import SubArchive.Library.Patch

/-!
# A store and a follower of its log

The primary appends its writes to a log.  A follower reads at a position of
that log and moves to its end when it catches up, so what it holds is what the
primary held at some moment, the writes since then being its lag.
-/

structure Follower (κ ν : Type*) where
  /-- the writes of the primary, oldest first; `none` deletes -/
  log : List (κ × Option ν)
  /-- how many of them the follower has applied -/
  position : ℕ
  position_le : position ≤ log.length

namespace Follower

variable {κ ν : Type*}

def atEnd (log : List (κ × Option ν)) : Follower κ ν := ⟨log, log.length, Nat.le_refl _⟩

def write (f : Follower κ ν) (batch : List (κ × Option ν)) : Follower κ ν where
  log := f.log ++ batch
  position := f.position
  position_le := by
    have hle := f.position_le
    rw [List.length_append]
    omega

def catchUp (f : Follower κ ν) : Follower κ ν := atEnd f.log

/-- The writes the follower has not seen. -/
def lag (f : Follower κ ν) : List (κ × Option ν) := f.log.drop f.position

/-- The primary has gone on writing, and the follower has not gone back. -/
structure Extends (f g : Follower κ ν) : Prop where
  log : f.log <+: g.log
  position : f.position ≤ g.position

theorem Extends.refl (f : Follower κ ν) : f.Extends f := ⟨List.prefix_rfl, Nat.le_refl _⟩

theorem Extends.trans {f g h : Follower κ ν} (hfg : f.Extends g) (hgh : g.Extends h) :
    f.Extends h :=
  ⟨hfg.log.trans hgh.log, Nat.le_trans hfg.position hgh.position⟩

theorem extends_write (f : Follower κ ν) (batch : List (κ × Option ν)) :
    f.Extends (f.write batch) :=
  ⟨List.prefix_append _ _, Nat.le_refl _⟩

theorem extends_catchUp (f : Follower κ ν) : f.Extends f.catchUp :=
  ⟨List.prefix_rfl, f.position_le⟩

variable [DecidableEq κ]

def primary (f : Follower κ ν) : κ → Option ν := Patch.apply f.log fun _ ↦ none

def snapshot (f : Follower κ ν) : κ → Option ν := Patch.apply (f.log.take f.position) fun _ ↦ none

variable {f : Follower κ ν} {k : κ}

@[simp] theorem snapshot_atEnd (log : List (κ × Option ν)) :
    (atEnd log).snapshot = Patch.apply log fun _ ↦ none := by
  rw [snapshot, atEnd, List.take_length]

@[simp] theorem snapshot_catchUp (f : Follower κ ν) : f.catchUp.snapshot = f.primary :=
  snapshot_atEnd f.log

@[simp] theorem snapshot_write (f : Follower κ ν) (batch : List (κ × Option ν)) :
    (f.write batch).snapshot = f.snapshot := by
  rw [snapshot, snapshot, write, List.take_append_of_le_length f.position_le]

theorem primary_eq_apply_lag (f : Follower κ ν) : f.primary = Patch.apply f.lag f.snapshot := by
  rw [primary, snapshot, lag, ← Patch.apply_append, List.take_append_drop]

/-- A key that no write of the lag is about reads the same on both sides. -/
theorem snapshot_eq_primary (h : k ∉ f.lag.map Prod.fst) : f.snapshot k = f.primary k := by
  rw [primary_eq_apply_lag, Patch.apply_of_notMem h]

/-- What the primary held after its first `p` writes. -/
def history (log : List (κ × Option ν)) (p : ℕ) : κ → Option ν :=
  Patch.apply (log.take p) fun _ ↦ none

theorem snapshot_eq_history (f : Follower κ ν) : f.snapshot = history f.log f.position := rfl

theorem history_of_grown {log log' : List (κ × Option ν)} {p : ℕ} (h : log <+: log')
    (hp : p ≤ log.length) : history log' p = history log p := by
  obtain ⟨more, rfl⟩ := h
  rw [history, history, List.take_append_of_le_length hp]

theorem history_length (log : List (κ × Option ν)) :
    history log log.length = Patch.apply log fun _ ↦ none := by
  rw [history, List.take_length]

/-- A key that is not written any more is held as it is. -/
theorem history_eq {log : List (κ × Option ν)} {p q : ℕ} (hpq : p ≤ q)
    (hk : k ∉ (log.drop p).map Prod.fst) : history log q k = history log p k := by
  have htake : log.take q = log.take p ++ (log.drop p).take (q - p) := by
    rw [← List.take_add, Nat.add_sub_cancel' hpq]
  have hbetween : k ∉ ((log.drop p).take (q - p)).map Prod.fst := by
    intro hmem
    exact hk ((List.take_sublist _ _).map Prod.fst |>.subset hmem)
  rw [history, history, htake, Patch.apply_append, Patch.apply_of_notMem hbetween]

end Follower
