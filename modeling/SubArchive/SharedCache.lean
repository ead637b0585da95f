import SubArchive.Chain
import SubArchive.Library.Transition

/-!
# Concurrent calls of the version cache

`RuntimeVersionCache::get_by_id` takes `&self`: calls on one cache may run at
the same time.  The map is behind an `ArcSwap`, which is loaded twice on a hit
and replaced by a compare-and-swap loop, `rcu`, on a miss.  Between any two of
these steps other calls may take theirs.
-/

namespace SubArchive

/-- The pointer that is in place and the map behind it.  A pointer that a call
still holds is not used again. -/
structure ArcSwap where
  pointer : ℕ
  versions : KeyedTable ℕ (ℕ × RuntimeVersion) Prod.fst

/-- Where a call of `get_by_id` is once it has read the state. -/
inductive GetById where
  | hashing (code : Option Bytes)
  | hit (codeHash : ℕ)
  | missed (code : Option Bytes)
  | loading (codeHash : ℕ) (version : RuntimeVersion)
  | swapping (codeHash : ℕ) (version : RuntimeVersion) (current : ArcSwap)
  | returned (result : Except Error (Option RuntimeVersion))
  | panicked (message : Panic)

/-- The call has returned, not with an error. -/
def GetById.hasAnswer : GetById → Bool
  | .returned (.ok _) => true
  | _ => false

/-- A call, with the backend as it was when the call read the state. -/
structure CacheCall where
  backend : Backend
  id : BlockId
  task : GetById

structure SharedCache (τ : Type) where
  backend : Backend
  cell : ArcSwap
  calls : τ → Option CacheCall

inductive CacheEvent (τ : Type) where
  | backend (backend : Backend)
  | call (i : τ) (id : BlockId)
  | proceed (i : τ)

/-- The version that `id` has when it is read afresh. -/
def VersionReader.readVersion (reader : VersionReader) (backend : Backend) (id : BlockId) :
    Except Panic (Except Error RuntimeVersion) :=
  match backend.stateAt id with
  | .error error => .ok (.error error)
  | .ok state =>
      match state.storage codeKey with
      | .error _ => .error s!"No storage found for {repr id}"
      | .ok none => .error "called Option::unwrap() on a None value"
      | .ok (some code) => .ok (reader.versionOf code)

namespace GetById

def readCode (backend : Backend) (id : BlockId) : GetById :=
  match backend.stateAt id with
  | .error error => .returned (.error error)
  | .ok state =>
      match state.storage codeKey with
      | .error _ => .panicked s!"No storage found for {repr id}"
      | .ok code => .hashing code

def proceed (reader : VersionReader) (cell : ArcSwap) : GetById → Option (ArcSwap × GetById)
  | .hashing code =>
      let codeHash := reader.makeHash code
      if codeHash ∈ cell.versions.keys then some (cell, .hit codeHash)
      else some (cell, .missed code)
  | .hit codeHash =>
      some (cell, .returned (.ok ((cell.versions.find? codeHash).map Prod.snd)))
  | .missed none => some (cell, .panicked "called Option::unwrap() on a None value")
  | .missed (some code) =>
      match reader.versionOf code with
      | .error error => some (cell, .returned (.error error))
      | .ok version => some (cell, .loading (reader.makeHash (some code)) version)
  | .loading codeHash version => some (cell, .swapping codeHash version cell)
  | .swapping codeHash version current =>
      if cell.pointer = current.pointer then
        some (⟨cell.pointer + 1, current.versions.upsert (codeHash, version)⟩,
          .returned (.ok (some version)))
      else some (cell, .swapping codeHash version cell)
  | .returned _ | .panicked _ => none

end GetById

namespace SharedCache

variable {τ : Type} [DecidableEq τ]

def start (backend : Backend) : SharedCache τ := ⟨backend, ⟨0, .empty⟩, fun _ ↦ none⟩

/-- Call `i` is where `call` says and has left `cell` behind. -/
def put (s : SharedCache τ) (i : τ) (cell : ArcSwap) (call : CacheCall) : SharedCache τ :=
  { s with cell, calls := Function.update s.calls i (some call) }

/-- A call reads the state when it begins; from then on it only meets the
cache. -/
def next (reader : VersionReader) (s : SharedCache τ) : CacheEvent τ → Option (SharedCache τ)
  | .backend backend => some { s with backend }
  | .call i id =>
      match s.calls i with
      | some _ => none
      | none => some (s.put i s.cell ⟨s.backend, id, .readCode s.backend id⟩)
  | .proceed i => do
      let call ← s.calls i
      let (cell, task) ← call.task.proceed reader s.cell
      return s.put i cell { call with task }

/-- Every state that is asked for holds a code in play. -/
def AsksForCode (codes : Set Bytes) (s : SharedCache τ) : CacheEvent τ → Prop
  | .call _ id => ∀ state, s.backend.stateAt id = .ok state →
      ∃ code ∈ codes, state.storage codeKey = .ok (some code)
  | _ => True

instance (codes : Set Bytes) [DecidablePred (· ∈ codes)] (s : SharedCache τ) (e : CacheEvent τ) :
    Decidable (AsksForCode codes s e) :=
  match e with
  | .call _ id =>
      match hstate : s.backend.stateAt id with
      | .error _ => isTrue fun state h ↦ by simp [hstate] at h
      | .ok state =>
          match hcode : state.storage codeKey with
          | .ok (some code) =>
              decidable_of_iff (code ∈ codes) (by simp [AsksForCode, hstate, hcode])
          | .ok none => isFalse (by simp [AsksForCode, hstate, hcode])
          | .error _ => isFalse (by simp [AsksForCode, hstate, hcode])
  | .backend _ | .proceed _ => isTrue trivial

abbrev Reaches (reader : VersionReader) (codes : Set Bytes) :
    SharedCache τ → SharedCache τ → Prop :=
  Transition.Reaches (next reader) (AsksForCode codes)

end SharedCache

/-! ## What a call knows -/

/-- What is known of a call whose answer should be `expected`. -/
def GetById.Knows (reader : VersionReader) (codes : Set Bytes) (cell : ArcSwap)
    (expected : Except Error RuntimeVersion) : GetById → Prop
  | .hashing code | .missed code => ∃ c ∈ codes, code = some c ∧ reader.versionOf c = expected
  | .hit codeHash => codeHash ∈ cell.versions.keys ∧
      ∃ c ∈ codes, codeHash = reader.makeHash (some c) ∧ reader.versionOf c = expected
  | .loading codeHash version => expected = .ok version ∧
      ∃ c ∈ codes, codeHash = reader.makeHash (some c) ∧ reader.versionOf c = expected
  | .swapping codeHash version current => expected = .ok version ∧
      current.pointer ≤ cell.pointer ∧
      (cell.pointer = current.pointer → current.versions = cell.versions) ∧
      ∃ c ∈ codes, codeHash = reader.makeHash (some c) ∧ reader.versionOf c = expected
  | .returned result => result = expected.map some
  | .panicked _ => False

/-- From one cell to a later one: the pointer tells whether the map was
replaced, and no key goes away. -/
structure ArcSwap.Grows (before after : ArcSwap) : Prop where
  pointer : before.pointer ≤ after.pointer
  same : after.pointer = before.pointer → after.versions = before.versions
  kept : ∀ entry ∈ before.versions.rows, entry ∈ after.versions.rows

namespace ArcSwap.Grows

variable {a b c : ArcSwap}

theorem refl (a : ArcSwap) : a.Grows a := ⟨le_rfl, fun _ ↦ rfl, fun _ h ↦ h⟩

theorem keys (h : a.Grows b) {k : ℕ} (hk : k ∈ a.versions.keys) : k ∈ b.versions.keys := by
  obtain ⟨entry, hentry, rfl⟩ := KeyedTable.mem_keys.mp hk
  exact KeyedTable.key_mem_keys (h.kept entry hentry)

theorem trans (hab : a.Grows b) (hbc : b.Grows c) : a.Grows c where
  pointer := hab.pointer.trans hbc.pointer
  same heq := by
    have hb : b.pointer = a.pointer :=
      le_antisymm (hbc.pointer.trans heq.le) hab.pointer
    rw [hbc.same (heq.trans hb.symm), hab.same hb]
  kept entry hentry := hbc.kept entry (hab.kept entry hentry)

end ArcSwap.Grows

namespace GetById

variable {reader : VersionReader} {codes : Set Bytes} {cell cell' : ArcSwap}
  {expected : Except Error RuntimeVersion} {task task' : GetById}

theorem Knows.mono (h : task.Knows reader codes cell expected) (hgrows : cell.Grows cell') :
    task.Knows reader codes cell' expected := by
  cases task with
  | hit codeHash => exact ⟨hgrows.keys h.1, h.2⟩
  | swapping codeHash version current =>
      obtain ⟨hversion, hle, hsame, hcode⟩ := h
      refine ⟨hversion, hle.trans hgrows.pointer, ?_, hcode⟩
      intro heq
      have hcell : cell.pointer = current.pointer :=
        le_antisymm (hgrows.pointer.trans heq.le) hle
      rw [hsame hcell, hgrows.same (heq.trans hcell.symm)]
  | _ => exact h

/-- One step of a call on a valid cache: the call comes closer to its answer,
and the map only changes with the answer of a call that succeeds. -/
theorem proceed_of_knows (hcollision : RuntimeVersionCache.NoCollision reader codes)
    (hvalid : RuntimeVersionCache.Valid reader codes ⟨cell.versions⟩)
    (hknows : task.Knows reader codes cell expected)
    (hproceed : task.proceed reader cell = some (cell', task')) :
    task'.Knows reader codes cell' expected ∧
      RuntimeVersionCache.Valid reader codes ⟨cell'.versions⟩ ∧ cell.Grows cell' ∧
      (cell' = cell ∨ ∃ version, task' = .returned (.ok (some version))) := by
  cases task with
  | hashing code =>
      obtain ⟨c, hc, rfl, hversion⟩ := hknows
      simp only [proceed] at hproceed
      split at hproceed <;> cases hproceed
      · rename_i hmem
        exact ⟨⟨hmem, c, hc, rfl, hversion⟩, hvalid, .refl _, Or.inl rfl⟩
      · exact ⟨⟨c, hc, rfl, hversion⟩, hvalid, .refl _, Or.inl rfl⟩
  | hit codeHash =>
      obtain ⟨hmem, c, hc, rfl, hversion⟩ := hknows
      cases hproceed
      refine ⟨?_, hvalid, .refl _, Or.inl rfl⟩
      obtain ⟨entry, hentry, hkey⟩ := KeyedTable.mem_keys.mp hmem
      have hfind := KeyedTable.find?_eq_some_iff.mpr ⟨hentry, hkey⟩
      -- the entry stands for a code with the same hash, so for the code itself
      obtain ⟨c', hc', hhash, hversion'⟩ := hvalid entry hentry
      obtain rfl := hcollision c' hc' c hc (hhash.trans hkey)
      simp [Knows, hfind, ← hversion, hversion', Except.map]
  | missed code =>
      obtain ⟨c, hc, rfl, hversion⟩ := hknows
      simp only [proceed] at hproceed
      split at hproceed <;> cases hproceed
      · rename_i error herror
        refine ⟨?_, hvalid, .refl _, Or.inl rfl⟩
        simp [Knows, ← hversion, herror, Except.map]
      · rename_i version hok
        exact ⟨⟨hversion.symm.trans hok, c, hc, rfl, hversion⟩, hvalid, .refl _, Or.inl rfl⟩
  | loading codeHash version =>
      obtain ⟨hexpected, hcode⟩ := hknows
      cases hproceed
      exact ⟨⟨hexpected, le_rfl, fun _ ↦ rfl, hcode⟩, hvalid, .refl _, Or.inl rfl⟩
  | swapping codeHash version current =>
      obtain ⟨rfl, hle, hsame, c, hc, rfl, hversion⟩ := hknows
      simp only [proceed] at hproceed
      split at hproceed <;> cases hproceed
      · rename_i heq
        have hcurrent := hsame heq
        refine ⟨rfl, ?_, ⟨Nat.le_succ _, fun h ↦ absurd h (Nat.succ_ne_self _), ?_⟩,
          Or.inr ⟨version, rfl⟩⟩
        · intro entry hentry
          rw [hcurrent] at hentry
          rcases KeyedTable.mem_rows_upsert.mp hentry with rfl | ⟨hold, -⟩
          · exact ⟨c, hc, rfl, hversion⟩
          · exact hvalid entry hold
        · intro entry hentry
          rw [hcurrent]
          apply KeyedTable.mem_rows_upsert.mpr
          by_cases hkey : entry.1 = reader.makeHash (some c)
          · -- an entry under this hash already is the one that is put in
            obtain ⟨c', hc', hhash, hversion'⟩ := hvalid entry hentry
            obtain rfl := hcollision c' hc' c hc (hhash.trans hkey)
            rw [hversion, Except.ok.injEq] at hversion'
            exact Or.inl (Prod.ext hkey hversion'.symm)
          · exact Or.inr ⟨hentry, hkey⟩
      · exact ⟨⟨rfl, le_rfl, fun _ ↦ rfl, c, hc, rfl, hversion⟩, hvalid, .refl _, Or.inl rfl⟩
  | returned result => simp [proceed] at hproceed
  | panicked message => exact hknows.elim

/-- Reading the state settles what the answer should be. -/
theorem readCode_knows {backend : Backend} {id : BlockId}
    (hcode : ∀ state, backend.stateAt id = .ok state →
      ∃ code ∈ codes, state.storage codeKey = .ok (some code)) :
    ∃ expected, reader.readVersion backend id = .ok expected ∧
      (readCode backend id).Knows reader codes cell expected := by
  rcases hstate : backend.stateAt id with error | state
  · exact ⟨.error error, by simp [VersionReader.readVersion, hstate],
      by simp [readCode, hstate, Knows, Except.map]⟩
  · obtain ⟨code, hmem, hstored⟩ := hcode state hstate
    refine ⟨reader.versionOf code, by simp [VersionReader.readVersion, hstate, hstored], ?_⟩
    simp only [readCode, hstate, hstored]
    exact ⟨code, hmem, rfl, rfl⟩

end GetById

/-! ## A call by itself -/

namespace GetById

variable {reader : VersionReader} {codes : Set Bytes} {cell : ArcSwap}
  {expected : Except Error RuntimeVersion} {task : GetById}

/-- The steps of a call that no other call interrupts. -/
abbrev Runs (reader : VersionReader) : ArcSwap × GetById → ArcSwap × GetById → Prop :=
  Relation.ReflTransGen fun a b ↦ a.2.proceed reader a.1 = some b

theorem runs_of_loading (codeHash : ℕ) (version : RuntimeVersion) :
    Runs reader (cell, .loading codeHash version)
      (⟨cell.pointer + 1, cell.versions.upsert (codeHash, version)⟩,
        .returned (.ok (some version))) := by
  have hload : Runs reader (cell, .loading codeHash version)
      (cell, .swapping codeHash version cell) := .single rfl
  exact hload.tail (by simp [proceed])

/-- A call that is left alone returns, whatever other calls have done before. -/
theorem runs_of_knows (hcollision : RuntimeVersionCache.NoCollision reader codes)
    (hvalid : RuntimeVersionCache.Valid reader codes ⟨cell.versions⟩)
    (hknows : task.Knows reader codes cell expected) :
    ∃ cell', Runs reader (cell, task) (cell', .returned (expected.map some)) := by
  have hmissed : ∀ {c}, reader.versionOf c = expected →
      ∃ cell', Runs reader (cell, .missed (some c)) (cell', .returned (expected.map some)) := by
    rintro c rfl
    rcases hversion : reader.versionOf c with error | version
    · exact ⟨cell, .single (by simp [proceed, hversion, Except.map])⟩
    · have hload : proceed reader cell (.missed (some c)) =
          some (cell, .loading (reader.makeHash (some c)) version) := by
        simp only [proceed, hversion]
      exact ⟨_, .head hload (runs_of_loading _ version)⟩
  have hhit : ∀ {codeHash}, Knows reader codes cell expected (.hit codeHash) →
      ∃ cell', Runs reader (cell, .hit codeHash) (cell', .returned (expected.map some)) := by
    intro codeHash hhit
    have hstep := proceed_of_knows hcollision hvalid hhit rfl
    exact ⟨cell, .single (hstep.1 ▸ rfl)⟩
  cases task with
  | hashing code =>
      obtain ⟨c, hc, rfl, hversion⟩ := hknows
      by_cases hmem : reader.makeHash (some c) ∈ cell.versions.keys
      · obtain ⟨cell', hrun⟩ := hhit ⟨hmem, c, hc, rfl, hversion⟩
        exact ⟨cell', .head (by simp [proceed, hmem]) hrun⟩
      · obtain ⟨cell', hrun⟩ := hmissed hversion
        exact ⟨cell', .head (by simp [proceed, hmem]) hrun⟩
  | hit codeHash => exact hhit hknows
  | missed code =>
      obtain ⟨c, -, rfl, hversion⟩ := hknows
      exact hmissed hversion
  | loading codeHash version =>
      obtain ⟨rfl, -⟩ := hknows
      exact ⟨_, runs_of_loading codeHash version⟩
  | swapping codeHash version current =>
      obtain ⟨rfl, -⟩ := hknows
      by_cases heq : cell.pointer = current.pointer
      · refine ⟨⟨cell.pointer + 1, current.versions.upsert (codeHash, version)⟩, .single ?_⟩
        simp [proceed, heq, Except.map]
      · -- the map was replaced in the meantime; the second try meets no one
        refine ⟨⟨cell.pointer + 1, cell.versions.upsert (codeHash, version)⟩, ?_⟩
        have hretry : Runs reader (cell, .swapping codeHash version current)
            (cell, .swapping codeHash version cell) := .single (by simp [proceed, heq])
        exact hretry.tail (by simp [proceed, Except.map])
  | returned result =>
      obtain rfl : result = expected.map some := hknows
      exact ⟨cell, .refl⟩
  | panicked message => exact hknows.elim

/-- A call that no other call interrupts is the call of `RuntimeVersionCache`. -/
theorem runs_getById {backend : Backend} {id : BlockId} {cache' : RuntimeVersionCache}
    {result : Except Error (Option RuntimeVersion)}
    (hget : RuntimeVersionCache.getById reader backend ⟨cell.versions⟩ id =
      .ok (result, cache')) :
    ∃ cell', Runs reader (cell, readCode backend id) (cell', .returned result) ∧
      cell'.versions = cache'.versions := by
  unfold RuntimeVersionCache.getById at hget
  rcases hstate : backend.stateAt id with error | state
  · simp only [hstate, Except.ok.injEq, Prod.mk.injEq] at hget
    obtain ⟨rfl, rfl⟩ := hget
    exact ⟨cell, by simp only [readCode, hstate]; exact .refl, rfl⟩
  rcases hcode : state.storage codeKey with error | code
  · simp [hstate, hcode] at hget
  simp only [readCode, hstate, hcode] at hget ⊢
  rcases hfind : cell.versions.find? (reader.makeHash code) with _ | entry
  · have hmem : reader.makeHash code ∉ cell.versions.keys := by
      intro hmem
      obtain ⟨entry, hentry, hkey⟩ := KeyedTable.mem_keys.mp hmem
      simp [KeyedTable.find?_eq_some_iff.mpr ⟨hentry, hkey⟩] at hfind
    have hhash : Runs reader (cell, .hashing code) (cell, .missed code) :=
      .single (by simp [proceed, hmem])
    rcases code with _ | code
    · simp [hfind] at hget
    rcases hversion : reader.versionOf code with error | version
    · simp only [hfind, hversion, Except.ok.injEq, Prod.mk.injEq] at hget
      obtain ⟨rfl, rfl⟩ := hget
      exact ⟨cell, hhash.tail (by simp [proceed, hversion]), rfl⟩
    · simp only [hfind, hversion, Except.ok.injEq, Prod.mk.injEq] at hget
      obtain ⟨rfl, rfl⟩ := hget
      have hread : Runs reader (cell, .hashing (some code))
          (cell, .loading (reader.makeHash (some code)) version) :=
        hhash.tail (by simp [proceed, hversion])
      exact ⟨_, hread.trans (runs_of_loading _ version), rfl⟩
  · obtain ⟨hentry, hkey⟩ := KeyedTable.find?_eq_some_iff.mp hfind
    have hmem : reader.makeHash code ∈ cell.versions.keys :=
      KeyedTable.mem_keys.mpr ⟨entry, hentry, hkey⟩
    simp only [hfind, Except.ok.injEq, Prod.mk.injEq] at hget
    obtain ⟨rfl, rfl⟩ := hget
    have hhash : Runs reader (cell, .hashing code) (cell, .hit (reader.makeHash code)) :=
      .single (by simp [proceed, hmem])
    exact ⟨cell, hhash.tail (by simp [proceed, hfind]), rfl⟩

end GetById

/-! ## Any number of calls -/

namespace SharedCache

section Put

variable {τ : Type} [DecidableEq τ] {s : SharedCache τ} {i j : τ} {cell : ArcSwap}
  {call : CacheCall}

@[simp] theorem put_cell : (s.put i cell call).cell = cell := rfl

@[simp] theorem put_calls_self : (s.put i cell call).calls i = some call :=
  Function.update_self ..

theorem put_calls_of_ne (h : j ≠ i) : (s.put i cell call).calls j = s.calls j :=
  Function.update_of_ne h ..

end Put

variable {τ : Type} {reader : VersionReader} {codes : Set Bytes} {s t : SharedCache τ}
  {e : CacheEvent τ} {i : τ}

structure Inv (reader : VersionReader) (codes : Set Bytes) (s : SharedCache τ) : Prop where
  valid : RuntimeVersionCache.Valid reader codes ⟨s.cell.versions⟩
  knows : ∀ i call, s.calls i = some call → ∃ expected,
    reader.readVersion call.backend call.id = .ok expected ∧
      call.task.Knows reader codes s.cell expected

theorem inv_start (backend : Backend) : Inv reader codes (start backend : SharedCache τ) where
  valid := RuntimeVersionCache.valid_new
  knows := by simp [start]

variable [DecidableEq τ]

theorem inv_put {cell : ArcSwap} {call : CacheCall} {expected : Except Error RuntimeVersion}
    (hinv : s.Inv reader codes)
    (hvalid : RuntimeVersionCache.Valid reader codes ⟨cell.versions⟩) (hgrows : s.cell.Grows cell)
    (hexpected : reader.readVersion call.backend call.id = .ok expected)
    (hknows : call.task.Knows reader codes cell expected) :
    (s.put i cell call).Inv reader codes := by
  refine ⟨hvalid, ?_⟩
  intro j other hother
  by_cases hj : j = i
  · subst hj
    rw [put_calls_self, Option.some.injEq] at hother
    subst hother
    exact ⟨expected, hexpected, hknows⟩
  · rw [put_calls_of_ne hj] at hother
    obtain ⟨expected', hexpected', hother'⟩ := hinv.knows j other hother
    exact ⟨expected', hexpected', hother'.mono hgrows⟩

/-- What one step does to the cell, besides keeping the invariant. -/
theorem inv_step (hcollision : RuntimeVersionCache.NoCollision reader codes)
    (hinv : s.Inv reader codes) (hasks : AsksForCode codes s e) (hnext : next reader s e = some t) :
    t.Inv reader codes ∧ s.cell.Grows t.cell ∧
      (t.cell = s.cell ∨ ∃ i call version, e = .proceed i ∧ t.calls i = some call ∧
        call.task = .returned (.ok (some version))) := by
  cases e with
  | backend backend =>
      cases hnext
      exact ⟨⟨hinv.valid, hinv.knows⟩, .refl _, Or.inl rfl⟩
  | call i id =>
      simp only [next] at hnext
      split at hnext
      · simp at hnext
      · cases hnext
        obtain ⟨expected, hexpected, hknows⟩ := GetById.readCode_knows hasks
        exact ⟨inv_put hinv hinv.valid (.refl _) hexpected hknows, .refl _, Or.inl rfl⟩
  | proceed i =>
      obtain ⟨call, hcall, hrest⟩ := Option.bind_eq_some_iff.mp hnext
      obtain ⟨⟨cell, task⟩, hproceed, heq⟩ := Option.bind_eq_some_iff.mp hrest
      cases heq
      obtain ⟨expected, hexpected, hknows⟩ := hinv.knows i call hcall
      obtain ⟨hknows', hvalid', hgrows, hcell⟩ :=
        GetById.proceed_of_knows hcollision hinv.valid hknows hproceed
      refine ⟨inv_put hinv hvalid' hgrows hexpected hknows', hgrows, ?_⟩
      rcases hcell with rfl | ⟨version, rfl⟩
      · exact Or.inl rfl
      · exact Or.inr ⟨i, _, version, rfl, put_calls_self, rfl⟩

theorem inv_of_reaches (hcollision : RuntimeVersionCache.NoCollision reader codes)
    (hs : s.Inv reader codes) (hrun : Reaches reader codes s t) :
    t.Inv reader codes ∧ s.cell.Grows t.cell := by
  induction hrun with
  | refl => exact ⟨hs, .refl _⟩
  | tail _ hlast ih =>
      obtain ⟨e, hasks, hnext⟩ := hlast
      obtain ⟨hinv, hgrows, -⟩ := inv_step hcollision ih.1 hasks hnext
      exact ⟨hinv, ih.2.trans hgrows⟩

/-- The steps of one call, one after the other. -/
theorem reaches_of_runs {call : CacheCall} {cell : ArcSwap} {task : GetById}
    (hcall : s.calls i = some call)
    (hruns : GetById.Runs reader (s.cell, call.task) (cell, task)) :
    ∃ t, Transition.Reaches (next reader) (fun _ e ↦ e = .proceed i) s t ∧
      t.calls i = some { call with task } ∧ t.cell = cell := by
  generalize hend : (cell, task) = last at hruns
  induction hruns generalizing cell task with
  | refl =>
      cases hend
      exact ⟨s, .refl, hcall, rfl⟩
  | @tail before _ _ hlast ih =>
      subst hend
      obtain ⟨u, hrun, hu, hcell⟩ := ih rfl
      refine ⟨u.put i cell { call with task }, hrun.tail ⟨.proceed i, rfl, ?_⟩, put_calls_self, rfl⟩
      simp [next, hu, hcell, hlast]

/-- On one cache, with any number of calls at the same time: a call returns
what reading the version afresh would have returned and never panics, and it
does return when it is left alone.  Entries are never lost, and only a call
that thereby returns a version changes the map. -/
theorem cache_transparent {backend : Backend}
    (hcollision : RuntimeVersionCache.NoCollision reader codes)
    (hrun : Reaches reader codes (start backend) s) :
    (∀ i call, s.calls i = some call → ∃ expected,
      reader.readVersion call.backend call.id = .ok expected ∧
      (∀ result, call.task = .returned result → result = expected.map some ∧
        result ≠ .ok none) ∧
      (∀ message, call.task ≠ .panicked message) ∧
      ∃ t, Transition.Reaches (next reader) (fun _ e ↦ e = .proceed i) s t ∧
        t.calls i = some { call with task := .returned (expected.map some) }) ∧
    (∀ t, Reaches reader codes s t →
      ∀ entry ∈ s.cell.versions.rows, entry ∈ t.cell.versions.rows) ∧
    ∀ e t, AsksForCode codes s e → next reader s e = some t → t.cell = s.cell ∨
      ∃ i call version, e = .proceed i ∧ t.calls i = some call ∧
        call.task = .returned (.ok (some version)) := by
  have hinv := (inv_of_reaches hcollision (inv_start backend) hrun).1
  refine ⟨?_, ?_, ?_⟩
  · intro i call hcall
    obtain ⟨expected, hexpected, hknows⟩ := hinv.knows i call hcall
    refine ⟨expected, hexpected, ?_, ?_, ?_⟩
    · intro result hresult
      rw [hresult] at hknows
      obtain rfl : result = expected.map some := hknows
      refine ⟨rfl, ?_⟩
      rcases expected with error | version <;> simp [Except.map]
    · intro message hmessage
      rw [hmessage] at hknows
      exact hknows
    · obtain ⟨cell, hruns⟩ := GetById.runs_of_knows hcollision hinv.valid hknows
      obtain ⟨t, hreaches, ht, -⟩ := reaches_of_runs hcall hruns
      exact ⟨t, hreaches, ht⟩
  · intro t ht
    exact (inv_of_reaches hcollision hinv ht).2.kept
  · intro e t hasks hnext
    exact (inv_step hcollision hinv hasks hnext).2.2

/-- Two calls miss at the same time; the second finds the map replaced and
tries again. -/
theorem cache_transparent_two_misses :
    ∃ s : SharedCache Bool,
      Reaches Sample.reader {code | code = [1]} (start ((Sample.branch []).backend 0)) s ∧
      s.cell.versions.keys = [1] ∧
      ∃ call version, s.calls true = some call ∧
        Sample.reader.readVersion call.backend call.id = .ok (.ok version) ∧
        call.task = .returned (.ok (some version)) := by
  let events : List (CacheEvent Bool) := [.call false (.number 0), .call true (.number 0),
    .proceed false, .proceed true, .proceed false, .proceed true, .proceed false, .proceed true,
    .proceed false, .proceed true, .proceed true]
  have hcompute : (Transition.execute (next Sample.reader) (AsksForCode {code | code = [1]})
      (start ((Sample.branch []).backend 0)) events).map (fun s ↦ (s.cell.versions.keys,
        (s.calls true).map fun call ↦ call.task.hasAnswer)) = some ([1], some true) := by
    decide +kernel
  obtain ⟨s, hrun, hview⟩ := Transition.Reaches.exists_of_execute (fun _ _ _ h ↦ h) hcompute
  obtain ⟨hkeys, hcall⟩ := Prod.mk.inj hview
  obtain ⟨call, hcall, hreturned⟩ := Option.map_eq_some_iff.mp hcall
  have hcollision : RuntimeVersionCache.NoCollision Sample.reader {code | code = [1]} := by
    rintro code hcode code' hcode' -
    exact (hcode : code = [1]).trans (hcode' : code' = [1]).symm
  obtain ⟨expected, hexpected, hresult, -⟩ :=
    (cache_transparent hcollision hrun).1 true call hcall
  unfold GetById.hasAnswer at hreturned
  split at hreturned
  · rename_i result htask
    obtain ⟨heq, -⟩ := hresult _ htask
    rcases expected with error | version
    · simp [Except.map] at heq
    · exact ⟨s, hrun, hkeys, call, version, hcall, hexpected, by rw [htask, heq]; rfl⟩
  · simp at hreturned

end SharedCache

end SubArchive
