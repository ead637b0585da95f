import Mathlib.Logic.Function.Basic
import SubArchive.Library.Transition
import SubArchive.LockImportRun

/-!
# The marker of the block being imported

`Client::lock_import_and_run` drops the lock for imports at the end of its
inner closure and clears `importing_block` after that, so the calls of other
threads may come in between.  Here the calls of any number of threads take
their steps in any order.
-/

namespace SubArchive

open Results

/-- The calls that run a closure under the lock. -/
inductive LockedCall where
  | importBlock (importBlock : BlockImportRequest)
  | finalizeBlock (id : BlockId)
  | insertAux (insert : List (Bytes × Bytes)) (delete : List Bytes)
deriving DecidableEq, Repr

namespace LockedCall

def isImport : LockedCall → Bool
  | importBlock _ => true
  | finalizeBlock _ | insertAux _ _ => false

/-- The hash that `apply_block` writes into the marker when its first checks
have passed. -/
def importingHash (codec : Codec) : LockedCall → Option Hash
  | importBlock request =>
      if (request.justifications.isSome && request.finalized || request.justifications.isNone) ∧
          request.intermediates = [] ∧ request.forkChoice.isSome then
        some (codec.hashHeader request.post)
      else none
  | finalizeBlock _ | insertAux _ _ => none

theorem importingHash_of_applyBlock {client : LockedClient} {request : BlockImportRequest}
    {operation operation' : ClientImportOperation} {newCache : List (Bytes × Bytes)}
    {outcome : ImportOutcome}
    (h : client.applyBlock operation request newCache = .ok (operation', outcome)) :
    importingHash client.codec (.importBlock request) =
      some (client.codec.hashHeader request.post) := by
  unfold LockedClient.applyBlock at h
  simp only [bind_eq_ok, ensure_eq_ok] at h
  obtain ⟨_, hjustified, _, hintermediates, h⟩ := h
  rcases hfork : request.forkChoice with _ | forkChoice
  · simp [hfork] at h
  · exact if_pos ⟨hjustified, hintermediates, by rw [hfork]; rfl⟩

end LockedCall

/-- Where a thread stands. -/
inductive Phase where
  | idle
  /-- under the lock: the hash it has written into the marker, and whether its
  operation is committed -/
  | locked (call : LockedCall) (written : Option Hash) (committed : Bool)
  /-- the lock is dropped, the marker not yet cleared -/
  | released
deriving DecidableEq, Repr

/-- The hash that the thread has written and still holds the lock for. -/
def Phase.importing : Phase → Option Hash
  | locked _ written _ => written
  | idle | released => none

def Phase.isLocked : Phase → Bool
  | locked _ _ _ => true
  | idle | released => false

/-- The client as the threads `τ` share it. -/
structure SharedClient (τ : Type) where
  importLock : Option τ
  importingBlock : Option Hash
  phase : τ → Phase

namespace SharedClient

variable {τ : Type} [DecidableEq τ]

def new : SharedClient τ := ⟨none, none, fun _ ↦ .idle⟩

def enter (s : SharedClient τ) (thread : τ) (phase : Phase) : SharedClient τ :=
  { s with phase := Function.update s.phase thread phase }

inductive Event (τ : Type) where
  | acquire (thread : τ) (call : LockedCall)
  | writeMarker (thread : τ)
  | commit (thread : τ)
  /-- the end of the inner closure, also by an error -/
  | release (thread : τ)
  /-- a panic under the lock -/
  | unwind (thread : τ)
  | clearMarker (thread : τ)

def next (codec : Codec) (s : SharedClient τ) : Event τ → Option (SharedClient τ)
  | .acquire thread call =>
      if s.phase thread = .idle ∧ s.importLock = none then
        some { s.enter thread (.locked call none false) with importLock := some thread }
      else none
  | .writeMarker thread =>
      match s.phase thread with
      | .locked call none false => (call.importingHash codec).map fun hash ↦
          { s.enter thread (.locked call (some hash) false) with importingBlock := some hash }
      | _ => none
  | .commit thread =>
      match s.phase thread with
      | .locked call written false =>
          if call.isImport → written.isSome then some (s.enter thread (.locked call written true))
          else none
      | _ => none
  | .release thread =>
      if (s.phase thread).isLocked then
        some { s.enter thread .released with importLock := none }
      else none
  | .unwind thread =>
      if (s.phase thread).isLocked then some { s.enter thread .idle with importLock := none }
      else none
  | .clearMarker thread =>
      if s.phase thread = .released then
        some { s.enter thread .idle with importingBlock := none }
      else none

/-- From the write of the marker to the release of the lock the marker stays. -/
def MarkerKept (s : SharedClient τ) : Prop :=
  ∀ thread hash, (s.phase thread).importing = some hash → s.importingBlock = some hash

/-- A call that has released the lock clears the marker while no other one
stands between its write and its release. -/
def ClearsAlone (s : SharedClient τ) : Event τ → Prop
  | .clearMarker _ => ∀ thread, (s.phase thread).importing = none
  | _ => True

/-! ## One step -/

/-- The lock is held by the one thread that stands under it. -/
def Exclusive (s : SharedClient τ) : Prop :=
  ∀ thread, (s.phase thread).isLocked = true ↔ s.importLock = some thread

theorem isLocked_of_importing {phase : Phase} {hash : Hash} (h : phase.importing = some hash) :
    phase.isLocked = true := by
  cases phase with
  | locked => rfl
  | idle | released => simp [Phase.importing] at h

variable {codec : Codec} {s t : SharedClient τ} {e : Event τ} {thread other : τ} {phase : Phase}

@[simp] theorem phase_enter_self : (s.enter thread phase).phase thread = phase :=
  Function.update_self _ _ _

theorem phase_enter_of_ne (h : other ≠ thread) :
    (s.enter thread phase).phase other = s.phase other :=
  Function.update_of_ne h _ _

theorem next_cases (h : s.next codec e = some t) :
    (∃ thread call, s.phase thread = .idle ∧ s.importLock = none ∧ e = .acquire thread call ∧
      t = { s.enter thread (.locked call none false) with importLock := some thread }) ∨
    (∃ thread call hash, s.phase thread = .locked call none false ∧
      call.importingHash codec = some hash ∧ e = .writeMarker thread ∧
      t = { s.enter thread (.locked call (some hash) false) with importingBlock := some hash }) ∨
    (∃ thread call written, s.phase thread = .locked call written false ∧ e = .commit thread ∧
      t = s.enter thread (.locked call written true)) ∨
    (∃ thread phase, (s.phase thread).isLocked = true ∧
      (e = .release thread ∧ phase = .released ∨ e = .unwind thread ∧ phase = .idle) ∧
      t = { s.enter thread phase with importLock := none }) ∨
    ∃ thread, s.phase thread = .released ∧ e = .clearMarker thread ∧
      t = { s.enter thread .idle with importingBlock := none } := by
  cases e with
  | acquire thread call =>
      obtain ⟨⟨hidle, hfree⟩, heq⟩ := Option.ite_none_right_eq_some.mp h
      exact Or.inl ⟨thread, call, hidle, hfree, rfl, (Option.some.inj heq).symm⟩
  | writeMarker thread =>
      rcases hphase : s.phase thread with _ | ⟨call, _ | written, _ | _⟩ | _ <;>
        simp only [next, hphase, reduceCtorEq] at h
      obtain ⟨hash, hhash, rfl⟩ := Option.map_eq_some_iff.mp h
      exact Or.inr (Or.inl ⟨thread, call, hash, hphase, hhash, rfl, rfl⟩)
  | commit thread =>
      rcases hphase : s.phase thread with _ | ⟨call, written, _ | _⟩ | _ <;>
        simp only [next, hphase, reduceCtorEq] at h
      obtain ⟨-, heq⟩ := Option.ite_none_right_eq_some.mp h
      exact Or.inr (Or.inr (Or.inl
        ⟨thread, call, written, hphase, rfl, (Option.some.inj heq).symm⟩))
  | release thread =>
      obtain ⟨hlocked, heq⟩ := Option.ite_none_right_eq_some.mp h
      exact Or.inr (Or.inr (Or.inr (Or.inl
        ⟨thread, .released, hlocked, Or.inl ⟨rfl, rfl⟩, (Option.some.inj heq).symm⟩)))
  | unwind thread =>
      obtain ⟨hlocked, heq⟩ := Option.ite_none_right_eq_some.mp h
      exact Or.inr (Or.inr (Or.inr (Or.inl
        ⟨thread, .idle, hlocked, Or.inr ⟨rfl, rfl⟩, (Option.some.inj heq).symm⟩)))
  | clearMarker thread =>
      obtain ⟨hreleased, heq⟩ := Option.ite_none_right_eq_some.mp h
      exact Or.inr (Or.inr (Or.inr (Or.inr ⟨thread, hreleased, rfl, (Option.some.inj heq).symm⟩)))

theorem exclusive_next (hs : s.Exclusive) (h : s.next codec e = some t) : t.Exclusive := by
  intro other
  have hother := hs other
  rcases next_cases h with ⟨thread, call, hidle, hfree, -, rfl⟩ |
    ⟨thread, call, hash, hphase, -, -, rfl⟩ | ⟨thread, call, written, hphase, -, rfl⟩ |
    ⟨thread, phase, hlocked, hphase, rfl⟩ | ⟨thread, hreleased, -, rfl⟩ <;>
    by_cases heq : other = thread
  · simp [enter, heq, Phase.isLocked]
  · simpa [enter, heq, Ne.symm heq, hfree] using hother
  · simpa [enter, heq, hphase, Phase.isLocked] using hother
  · simpa [enter, heq] using hother
  · simpa [enter, heq, hphase, Phase.isLocked] using hother
  · simpa [enter, heq] using hother
  · rcases hphase with ⟨-, rfl⟩ | ⟨-, rfl⟩ <;> simp [enter, heq, Phase.isLocked]
  · have hlock : s.importLock = some thread := (hs thread).mp hlocked
    simpa [enter, heq, Ne.symm heq, hlock] using hother
  · simpa [enter, heq, hreleased, Phase.isLocked] using hother
  · simpa [enter, heq] using hother

/-- A thread that changes its phase writes no marker by that alone. -/
theorem markerKept_enter (hs : s.MarkerKept)
    (h : ∀ hash, phase.importing = some hash → (s.phase thread).importing = some hash) :
    (s.enter thread phase).MarkerKept := by
  intro other hash himporting
  by_cases heq : other = thread
  · rw [heq, phase_enter_self] at himporting
    exact hs thread hash (h hash himporting)
  · rw [phase_enter_of_ne heq] at himporting
    exact hs other hash himporting

/-- Only the step that clears the marker can lose it. -/
theorem markerKept_next_iff (hexclusive : s.Exclusive) (hs : s.MarkerKept)
    (h : s.next codec e = some t) : t.MarkerKept ↔ s.ClearsAlone e := by
  rcases next_cases h with ⟨thread, call, hidle, hfree, rfl, rfl⟩ |
    ⟨thread, call, hash, hphase, -, rfl, rfl⟩ | ⟨thread, call, written, hphase, rfl, rfl⟩ |
    ⟨thread, phase, hlocked, hphase, rfl⟩ | ⟨thread, hreleased, rfl, rfl⟩
  · refine iff_of_true (markerKept_enter hs ?_) trivial
    intro hash himporting
    cases himporting
  · refine iff_of_true ?_ trivial
    intro other hash' himporting
    by_cases heq : other = thread
    · simpa [enter, heq, Phase.importing] using himporting
    · -- both threads would stand under the lock
      have hother : (s.phase other).importing = some hash' := by
        simpa [enter, heq] using himporting
      have hlock := (hexclusive other).mp (isLocked_of_importing hother)
      have hlock' : s.importLock = some thread :=
        (hexclusive thread).mp (by rw [hphase]; rfl)
      exact absurd (Option.some.inj (hlock.symm.trans hlock')) heq
  · refine iff_of_true (markerKept_enter hs ?_) trivial
    intro hash himporting
    rw [hphase]
    exact himporting
  · have hleft : phase.importing = none := by
      rcases hphase with ⟨-, rfl⟩ | ⟨-, rfl⟩ <;> rfl
    have htrue : s.ClearsAlone e := by
      rcases hphase with ⟨rfl, -⟩ | ⟨rfl, -⟩ <;> exact trivial
    refine iff_of_true (markerKept_enter hs ?_) htrue
    intro hash himporting
    rw [hleft] at himporting
    cases himporting
  · have hsame : ∀ other, ((s.enter thread .idle).phase other).importing =
        (s.phase other).importing := by
      intro other
      by_cases heq : other = thread
      · rw [heq, phase_enter_self, hreleased]
        rfl
      · rw [phase_enter_of_ne heq]
    constructor
    · intro hkept other
      by_contra himporting
      obtain ⟨hash, hhash⟩ := Option.ne_none_iff_exists'.mp himporting
      have hmarker := hkept other hash ((hsame other).trans hhash)
      simp at hmarker
    · intro halone other hash' himporting
      have himporting : (s.phase other).importing = some hash' :=
        (hsame other).symm.trans himporting
      simp [halone other] at himporting

omit [DecidableEq τ] in
theorem exclusive_new : (new : SharedClient τ).Exclusive := by
  intro thread
  simp [new, Phase.isLocked]

omit [DecidableEq τ] in
theorem markerKept_new : (new : SharedClient τ).MarkerKept := by
  intro thread hash h
  simp [new, Phase.importing] at h

/-! ## Runs -/

/-- As long as no call clears the marker while another one stands between its
write and its release, every block that is being imported is marked, so that
its status is `Queued`; a call that does otherwise takes the mark away. -/
theorem marker_survives (h : Transition.Reaches (next codec) ClearsAlone new s) :
    s.MarkerKept ∧
    (∀ (client : Client) thread hash, (s.phase thread).importing = some hash →
      client.blockStatus s.importingBlock (.hash hash) = .ok .queued) ∧
    ∀ e t, s.next codec e = some t → (t.MarkerKept ↔ s.ClearsAlone e) := by
  have hinv : s.Exclusive ∧ s.MarkerKept :=
    h.invariant (I := fun s ↦ s.Exclusive ∧ s.MarkerKept) ⟨exclusive_new, markerKept_new⟩
      fun a e b ha halone hnext ↦
        ⟨exclusive_next ha.1 hnext, (markerKept_next_iff ha.1 ha.2 hnext).mpr halone⟩
  refine ⟨hinv.2, ?_, fun e t hnext ↦ markerKept_next_iff hinv.1 hinv.2 hnext⟩
  intro client thread hash himporting
  exact if_pos (hinv.2 thread hash himporting)

/-- A call of `finalize_block` clears the marker after the import that follows
has taken the lock and before it writes the marker. -/
theorem marker_survives_two : ∃ s : SharedClient ℕ,
    Transition.Reaches (next Sample.codec) ClearsAlone new s ∧
    (s.phase 1).importing = some [3, 7] ∧
    Sample.threeBlocks.blockStatus s.importingBlock (.hash [3, 7]) = .ok .queued := by
  have hrun : Transition.Reaches (next Sample.codec) ClearsAlone (new : SharedClient ℕ) _ :=
    .head ⟨.acquire 0 (.finalizeBlock (.number 1)), trivial, rfl⟩
      (.head ⟨.release 0, trivial, rfl⟩
      (.head ⟨.acquire 1 (.importBlock (Sample.finalBlock none)), trivial, rfl⟩
      (.head ⟨.clearMarker 0, ?alone, rfl⟩
      (.single ⟨.writeMarker 1, trivial, rfl⟩))))
  · exact ⟨_, hrun, rfl, (marker_survives hrun).2.1 _ 1 [3, 7] rfl⟩
  · intro thread
    by_cases h₁ : thread = 1
    · simp [enter, h₁, Phase.importing]
    · by_cases h₀ : thread = 0 <;> simp [enter, new, h₁, h₀, Phase.importing]

/-- The call of `finalize_block` clears the marker after that import has
written it. -/
theorem marker_lost : ∃ s : SharedClient ℕ,
    Transition.Reaches (next Sample.codec) (fun _ _ ↦ True) new s ∧
    (s.phase 1).importing = some [3, 7] ∧ s.importingBlock = none ∧
    Sample.threeBlocks.blockStatus s.importingBlock (.hash [3, 7]) = .ok .unknown := by
  have hrun : Transition.execute (next Sample.codec) (fun _ _ ↦ True) new
      [.acquire 0 (.finalizeBlock (.number 1)), .commit 0, .release 0,
        .acquire 1 (.importBlock (Sample.finalBlock none)), .writeMarker 1, .clearMarker 0] =
      some _ := rfl
  exact ⟨_, .of_execute (fun _ _ _ _ ↦ trivial) hrun, rfl, rfl, by decide +kernel⟩

end SharedClient

end SubArchive
