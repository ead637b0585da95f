import SubArchive.Chain
import SubArchive.Library.Gather

/-!
# Wasm overrides

`WasmOverride` reads the `.wasm` files of a directory, asks the executor for
the version of each and keeps them by `spec_version`.  The directory is given
with everything the file system answers about it, in the order in which
`read_dir` returns the entries.
-/

namespace SubArchive

open Results

structure RuntimeCode where
  /-- what `code_fetcher` fetches -/
  code : Bytes
  hash : Bytes
  heapPages : Option ℕ
deriving DecidableEq, Repr

/-- The trait's `runtime_version` on empty externalities.  An error is given as
`{:?}` prints it. -/
structure RuntimeInfo where
  runtimeVersion : RuntimeCode → Except String RuntimeVersion

structure WasmBlob where
  code : Bytes
  hash : Bytes
deriving DecidableEq, Repr

namespace WasmBlob

/-- `makeHash` is the `DefaultHasher` of the standard library. -/
def new (makeHash : Bytes → Bytes) (code : Bytes) : WasmBlob := ⟨code, makeHash code⟩

def runtimeCode (wasm : WasmBlob) (heapPages : Option ℕ) : RuntimeCode :=
  ⟨wasm.code, wasm.hash, heapPages⟩

end WasmBlob

/-- Boxed into `sp_blockchain::Error::Application` on its way out. -/
inductive WasmOverrideError where
  | versionInvalid (message : String)
  | io (path : String) (error : IoError)
  | notADirectory (path : String)
  | duplicateRuntime (paths : List String)
deriving DecidableEq, Repr

structure DirEntry where
  /-- as `display` prints it -/
  path : String
  /-- `none` also for an extension that is not UTF-8 -/
  extension : Option String
  /-- what `fs::read` answers -/
  contents : Except IoError Bytes

structure Directory where
  path : String
  isDir : Bool
  readDir : Except IoError (List (Except IoError DirEntry))

abbrev Overrides := Finmap fun _ : ℕ ↦ WasmBlob

structure WasmOverride where
  /-- from runtime spec version to wasm blob -/
  overrides : Overrides
  executor : RuntimeInfo

namespace WasmOverride

section scrape

variable (makeHash : Bytes → Bytes) (executor : RuntimeInfo)

def runtimeVersion (code : WasmBlob) (heapPages : Option ℕ) :
    Except WasmOverrideError RuntimeVersion :=
  (executor.runtimeVersion (code.runtimeCode heapPages)).mapError .versionInvalid

/-- One round of the loop in `scrape_overrides`. -/
def scrapeEntry (dir : String) (state : Overrides × List String)
    (entry : Except IoError DirEntry) : Except WasmOverrideError (Overrides × List String) := do
  let (overrides, duplicates) := state
  let entry ← entry.mapError (.io dir)
  if entry.extension = some "wasm" then
    let wasm := WasmBlob.new makeHash (← entry.contents.mapError (.io dir))
    let version ← runtimeVersion executor wasm (some 128)
    match overrides.lookup version.specVersion with
    | some _duplicate =>
        return (overrides.insert version.specVersion wasm, duplicates ++ [entry.path])
    | none => return (overrides.insert version.specVersion wasm, duplicates)
  else return (overrides, duplicates)

def scrapeOverrides (dir : Directory) : Except WasmOverrideError Overrides :=
  if !dir.isDir then .error (.notADirectory dir.path)
  else do
    let entries ← dir.readDir.mapError (.io dir.path)
    let (overrides, duplicates) ← entries.foldlM (scrapeEntry makeHash executor dir.path) (∅, [])
    if !duplicates.isEmpty then .error (.duplicateRuntime duplicates)
    else return overrides

def new (path : Directory) : Except WasmOverrideError WasmOverride := do
  let overrides ← scrapeOverrides makeHash executor path
  return ⟨overrides, executor⟩

end scrape

def get (wasmOverride : WasmOverride) (spec : ℕ) (pages : Option ℕ) : Option RuntimeCode :=
  (wasmOverride.overrides.lookup spec).map fun w ↦ w.runtimeCode pages

/-- The heap pages of an override are those of the code it replaces. -/
theorem get_code (wasmOverride : WasmOverride) (spec : ℕ) (pages : Option ℕ) :
    (wasmOverride.get spec pages).map RuntimeCode.code =
      (wasmOverride.overrides.lookup spec).map WasmBlob.code := by
  rw [get, Option.map_map]
  rfl

end WasmOverride

/-- `LocalCallExecutor::new`; `executor` and `info` are the two traits of the
one executor. -/
def LocalCallExecutor.new (makeHash : Bytes → Bytes) (backend : Backend) (executor : CodeExecutor)
    (info : RuntimeInfo) (wasmRuntimeOverrides : Option Directory) :
    Except WasmOverrideError LocalCallExecutor := do
  let wasmOverride ← wasmRuntimeOverrides.mapM (WasmOverride.new makeHash info)
  return ⟨backend, executor,
    wasmOverride.map fun o spec ↦ (o.get spec none).map RuntimeCode.code⟩

namespace WasmOverride

variable {makeHash : Bytes → Bytes} {executor : RuntimeInfo} {dir : String}
  {entries entries' : List (Except IoError DirEntry)} {files : List (Σ _ : ℕ, WasmBlob)}

/-! ## The files of a directory -/

def wasmFile? : Except IoError DirEntry → Option DirEntry
  | .ok entry => if entry.extension = some "wasm" then some entry else none
  | .error _ => none

/-- The `.wasm` files among the entries that could be listed. -/
def wasmFiles (entries : List (Except IoError DirEntry)) : List DirEntry :=
  entries.filterMap wasmFile?

/-- The file can be read and has a valid version; `file` is its `spec_version`
and its code. -/
def Provides (makeHash : Bytes → Bytes) (executor : RuntimeInfo) (entry : DirEntry)
    (file : Σ _ : ℕ, WasmBlob) : Prop :=
  ∃ code version, entry.contents = .ok code ∧
    executor.runtimeVersion ((WasmBlob.new makeHash code).runtimeCode (some 128)) = .ok version ∧
    file = ⟨version.specVersion, WasmBlob.new makeHash code⟩

theorem Provides.unique {entry : DirEntry} {file file' : Σ _ : ℕ, WasmBlob}
    (h : Provides makeHash executor entry file) (h' : Provides makeHash executor entry file') :
    file = file' := by
  obtain ⟨code, version, hcode, hversion, rfl⟩ := h
  obtain ⟨code', version', hcode', hversion', rfl⟩ := h'
  obtain rfl : code = code' := Except.ok.inj (hcode.symm.trans hcode')
  obtain rfl : version = version' := Except.ok.inj (hversion.symm.trans hversion')
  rfl

/-- What the loop reads in one round, before it touches the map. -/
def readEntry (makeHash : Bytes → Bytes) (executor : RuntimeInfo) (dir : String)
    (entry : Except IoError DirEntry) :
    Except WasmOverrideError (Option (String × (Σ _ : ℕ, WasmBlob))) := do
  let entry ← entry.mapError (.io dir)
  if entry.extension = some "wasm" then
    let wasm := WasmBlob.new makeHash (← entry.contents.mapError (.io dir))
    let version ← runtimeVersion executor wasm (some 128)
    return some (entry.path, ⟨version.specVersion, wasm⟩)
  else return none

theorem scrapeEntry_eq (dir : String) (state : Overrides × List String)
    (entry : Except IoError DirEntry) :
    scrapeEntry makeHash executor dir state entry =
      (readEntry makeHash executor dir entry).map (Gather.collect state) := by
  rcases entry with error | entry
  · rfl
  · unfold scrapeEntry readEntry
    by_cases hwasm : entry.extension = some "wasm"
    · rcases hcode : entry.contents with error | code
      · simp [hwasm, hcode, Except.mapError, Except.map]
      · rcases hversion : runtimeVersion executor (WasmBlob.new makeHash code) (some 128) with
          error | version
        · simp [hwasm, hcode, hversion, Except.mapError, Except.map]
        · rcases hlookup : state.1.lookup version.specVersion with _ | duplicate <;>
            simp [hwasm, hcode, hversion, hlookup, Except.mapError, Except.map, Gather.collect,
              Gather.insertNoting]
    · simp [hwasm, Except.mapError, Except.map, Gather.collect]

theorem readEntry_wasm {entry : DirEntry} (hwasm : entry.extension = some "wasm")
    {read : Option (String × (Σ _ : ℕ, WasmBlob))} :
    readEntry makeHash executor dir (.ok entry) = .ok read ↔
      ∃ file, Provides makeHash executor entry file ∧ read = some (entry.path, file) := by
  unfold readEntry
  rcases hcode : entry.contents with error | code
  · simp [hwasm, hcode, Provides, Except.mapError]
  · rcases hversion : executor.runtimeVersion ((WasmBlob.new makeHash code).runtimeCode (some 128))
      with error | version
    · simp [hwasm, hcode, hversion, Provides, runtimeVersion, Except.mapError]
    · simp only [hwasm, hcode, hversion, Provides, runtimeVersion, Except.mapError, if_true,
        Except.ok.injEq, ok_bind, pure_eq]
      constructor
      · rintro rfl
        exact ⟨_, ⟨code, version, rfl, hversion, rfl⟩, rfl⟩
      · rintro ⟨_, ⟨_, _, rfl, hversion', rfl⟩, rfl⟩
        obtain rfl : version = _ := Except.ok.inj (hversion.symm.trans hversion')
        rfl

theorem readEntry_other {entry : DirEntry} (hother : entry.extension ≠ some "wasm") :
    readEntry makeHash executor dir (.ok entry) = .ok none := by
  simp [readEntry, hother, Except.mapError]

/-- Under way the loop fails with what the file system says of the directory,
or with the version of a file. -/
theorem readEntry_error {entry : Except IoError DirEntry} {failure : WasmOverrideError}
    (h : readEntry makeHash executor dir entry = .error failure) :
    (∃ error, failure = .io dir error) ∨ ∃ message, failure = .versionInvalid message := by
  rcases entry with error | entry
  · obtain rfl : WasmOverrideError.io dir error = failure := Except.error.inj h
    exact Or.inl ⟨error, rfl⟩
  · by_cases hwasm : entry.extension = some "wasm"
    · unfold readEntry at h
      rcases hcode : entry.contents with error | code
      · simp only [hwasm, hcode, Except.mapError, if_true, Except.error.injEq, ok_bind,
          error_bind] at h
        exact Or.inl ⟨error, h.symm⟩
      · rcases hversion :
          executor.runtimeVersion ((WasmBlob.new makeHash code).runtimeCode (some 128))
          with message | version
        · simp only [hwasm, hcode, hversion, runtimeVersion, Except.mapError, if_true,
            Except.error.injEq, ok_bind, error_bind] at h
          exact Or.inr ⟨message, h.symm⟩
        · simp [hwasm, hcode, hversion, runtimeVersion, Except.mapError] at h
    · simp [readEntry_other hwasm] at h

/-- The loop reads all entries when all are listed and every `.wasm` file
provides a version and a code, and it reads exactly these. -/
theorem exists_reads_iff :
    (∃ reads, List.Forall₂ (fun entry read ↦ readEntry makeHash executor dir entry = .ok read)
        entries reads ∧ reads.reduceOption.map Prod.snd = files) ↔
      (∀ entry ∈ entries, entry.isOk) ∧
        List.Forall₂ (Provides makeHash executor) (wasmFiles entries) files := by
  induction entries generalizing files with
  | nil =>
    constructor
    · rintro ⟨_, _ | _, rfl⟩
      exact ⟨by simp, .nil⟩
    · rintro ⟨-, hfiles⟩
      cases hfiles
      exact ⟨[], .nil, rfl⟩
  | cons entry entries ih =>
    simp only [List.forall₂_cons_left_iff]
    rcases entry with error | entry
    · have hlisted : readEntry makeHash executor dir (.error error) = .error (.io dir error) := rfl
      simp [hlisted, Except.isOk, Except.toBool]
    · rw [List.forall_mem_cons]
      by_cases hwasm : entry.extension = some "wasm"
      · have hfiles : wasmFiles (.ok entry :: entries) = entry :: wasmFiles entries := by
          simp [wasmFiles, wasmFile?, hwasm]
        rw [hfiles, List.forall₂_cons_left_iff]
        constructor
        · rintro ⟨_, ⟨read, reads, hread, hreads, rfl⟩, rfl⟩
          obtain ⟨file, hprovides, rfl⟩ := (readEntry_wasm hwasm).mp hread
          obtain ⟨hlisted, hrest⟩ := ih.mp ⟨reads, hreads, rfl⟩
          refine ⟨⟨rfl, hlisted⟩, file, _, hprovides, hrest, ?_⟩
          rw [List.reduceOption_cons_of_some, List.map_cons]
        · rintro ⟨⟨-, hlisted⟩, file, rest, hprovides, hrest, rfl⟩
          obtain ⟨reads, hreads, rfl⟩ := ih.mpr ⟨hlisted, hrest⟩
          have hread : readEntry makeHash executor dir (.ok entry) =
              .ok (some (entry.path, file)) := (readEntry_wasm hwasm).mpr ⟨file, hprovides, rfl⟩
          refine ⟨_, ⟨_, reads, hread, hreads, rfl⟩, ?_⟩
          rw [List.reduceOption_cons_of_some, List.map_cons]
      · have hfiles : wasmFiles (.ok entry :: entries) = wasmFiles entries := by
          simp [wasmFiles, wasmFile?, hwasm]
        rw [hfiles, readEntry_other hwasm]
        constructor
        · rintro ⟨_, ⟨read, reads, hread, hreads, rfl⟩, rfl⟩
          obtain rfl : none = read := Except.ok.inj hread
          obtain ⟨hlisted, hrest⟩ := ih.mp ⟨reads, hreads, rfl⟩
          rw [List.reduceOption_cons_of_none]
          exact ⟨⟨rfl, hlisted⟩, hrest⟩
        · rintro ⟨⟨-, hlisted⟩, hrest⟩
          obtain ⟨reads, hreads, rfl⟩ := ih.mpr ⟨hlisted, hrest⟩
          refine ⟨_, ⟨none, reads, rfl, hreads, rfl⟩, ?_⟩
          rw [List.reduceOption_cons_of_none]

/-! ## What the directory gives -/

/-- What the loop reads, with an empty map at its start. -/
def scraped (makeHash : Bytes → Bytes) (executor : RuntimeInfo) (dir : String)
    (entries : List (Except IoError DirEntry)) :
    Except WasmOverrideError (Overrides × List String) :=
  Gather.run (readEntry makeHash executor dir) (∅, []) entries

/-- The check after the loop. -/
def refuseDuplicates (state : Overrides × List String) : Except WasmOverrideError Overrides :=
  if state.2 = [] then .ok state.1 else .error (.duplicateRuntime state.2)

theorem scrapeOverrides_eq (dir : String) (entries : List (Except IoError DirEntry)) :
    scrapeOverrides makeHash executor ⟨dir, true, .ok entries⟩ =
      (scraped makeHash executor dir entries).bind refuseDuplicates := by
  have hstep : scrapeEntry makeHash executor dir = fun state entry ↦
      (readEntry makeHash executor dir entry).map (Gather.collect state) := by
    funext state entry
    exact scrapeEntry_eq dir state entry
  simp only [scrapeOverrides, hstep, scraped, Gather.run, Bool.not_true, Bool.false_eq_true,
    if_false, Except.mapError, ok_bind, pure_eq]
  congr 1
  funext state
  rcases state with ⟨o, _ | ⟨path, paths⟩⟩ <;> rfl

theorem scrapeOverrides_eq_ok_iff {overrides : Overrides} :
    scrapeOverrides makeHash executor ⟨dir, true, .ok entries⟩ = .ok overrides ↔
      scraped makeHash executor dir entries = .ok (overrides, []) := by
  rw [scrapeOverrides_eq]
  rcases scraped makeHash executor dir entries with error | ⟨o, duplicates⟩
  · simp
  · by_cases hnone : duplicates = [] <;> simp [refuseDuplicates, hnone]

theorem scrapeOverrides_eq_duplicateRuntime_iff {paths : List String} :
    scrapeOverrides makeHash executor ⟨dir, true, .ok entries⟩ =
        .error (.duplicateRuntime paths) ↔
      ∃ overrides, scraped makeHash executor dir entries = .ok (overrides, paths) ∧
        paths ≠ [] := by
  rw [scrapeOverrides_eq]
  rcases hrun : scraped makeHash executor dir entries with error | ⟨o, duplicates⟩
  · obtain ⟨entry, -, herror⟩ := Gather.exists_read_eq_error hrun
    rcases readEntry_error herror with ⟨_, rfl⟩ | ⟨_, rfl⟩ <;> simp
  · by_cases hnone : duplicates = []
    · simp [refuseDuplicates, hnone, eq_comm]
    · simp only [refuseDuplicates, if_neg hnone, bind_eq, ok_bind]
      constructor
      · intro h
        obtain rfl : duplicates = paths := by simpa using h
        exact ⟨o, rfl, hnone⟩
      · rintro ⟨_, h, -⟩
        obtain ⟨-, rfl⟩ := Prod.mk.inj (Except.ok.inj h)
        rfl

theorem provides_of_scrapeOverrides {overrides : Overrides}
    (h : scrapeOverrides makeHash executor ⟨dir, true, .ok entries⟩ = .ok overrides) :
    ∃ files, List.Forall₂ (Provides makeHash executor) (wasmFiles entries) files ∧
      (files.map Sigma.fst).Nodup ∧ overrides.entries = (files : Multiset (Σ _ : ℕ, WasmBlob)) := by
  obtain ⟨reads, hreads, hfold⟩ := Gather.run_eq_ok_iff.mp (scrapeOverrides_eq_ok_iff.mp h)
  have hnotes : (reads.reduceOption.foldl Gather.insertNoting (∅, [])).2 = [] :=
    congrArg Prod.snd hfold.symm
  obtain ⟨-, hprovides⟩ := exists_reads_iff.mp ⟨reads, hreads, rfl⟩
  have hentries := Gather.entries_eq hnotes
  rw [← hfold] at hentries
  exact ⟨_, hprovides, (Gather.notes_eq_nil_iff _).mp hnotes, hentries⟩

theorem exists_duplicateRuntime_iff :
    (∃ paths, scrapeOverrides makeHash executor ⟨dir, true, .ok entries⟩ =
        .error (.duplicateRuntime paths)) ↔
      (∀ entry ∈ entries, entry.isOk) ∧
        ∃ files, List.Forall₂ (Provides makeHash executor) (wasmFiles entries) files ∧
          ¬ (files.map Sigma.fst).Nodup := by
  simp only [scrapeOverrides_eq_duplicateRuntime_iff]
  constructor
  · rintro ⟨paths, overrides, hrun, hpaths⟩
    obtain ⟨reads, hreads, hfold⟩ := Gather.run_eq_ok_iff.mp hrun
    obtain ⟨hlisted, hprovides⟩ := exists_reads_iff.mp ⟨reads, hreads, rfl⟩
    refine ⟨hlisted, _, hprovides, fun hnodup ↦ hpaths ?_⟩
    have hnotes := (Gather.notes_eq_nil_iff reads.reduceOption).mpr hnodup
    rw [← hfold] at hnotes
    exact hnotes
  · rintro ⟨hlisted, files, hprovides, hdup⟩
    obtain ⟨reads, hreads, rfl⟩ := exists_reads_iff.mpr ⟨hlisted, hprovides⟩
    refine ⟨_, _, Gather.run_eq_ok_iff.mpr ⟨reads, hreads, rfl⟩, fun hnotes ↦ hdup ?_⟩
    exact (Gather.notes_eq_nil_iff _).mp hnotes

theorem scrapeOverrides_perm (h : entries.Perm entries') {overrides : Overrides}
    (hscrape : scrapeOverrides makeHash executor ⟨dir, true, .ok entries⟩ = .ok overrides) :
    scrapeOverrides makeHash executor ⟨dir, true, .ok entries'⟩ = .ok overrides := by
  rw [scrapeOverrides_eq_ok_iff] at hscrape ⊢
  exact Gather.run_perm h hscrape rfl

theorem checkOverride_of_new {backend : Backend} {engine : CodeExecutor}
    {callExecutor : LocalCallExecutor} {directory : Directory} {id : BlockId}
    {version : RuntimeVersion}
    (hnew : LocalCallExecutor.new makeHash backend engine executor (some directory) =
      .ok callExecutor)
    (hversion : callExecutor.runtimeVersion id = .ok version) (onchainCode : Bytes) :
    ∃ overrides, scrapeOverrides makeHash executor directory = .ok overrides ∧
      callExecutor.checkOverride onchainCode id =
        .ok (((overrides.lookup version.specVersion).map WasmBlob.code).getD onchainCode) := by
  rcases hscrape : scrapeOverrides makeHash executor directory with error | overrides
  · simp [LocalCallExecutor.new, new, hscrape] at hnew
  · obtain rfl : _ = callExecutor := by
      simpa [LocalCallExecutor.new, new, hscrape] using hnew
    refine ⟨overrides, rfl, ?_⟩
    rw [LocalCallExecutor.checkOverride, hversion]
    simp only [get_code, ok_bind, pure_eq]

theorem mem_iff_provided {found : List DirEntry} {file : Σ _ : ℕ, WasmBlob}
    (h : List.Forall₂ (Provides makeHash executor) found files) :
    file ∈ files ↔ ∃ entry ∈ found, Provides makeHash executor entry file := by
  induction h with
  | nil => simp
  | cons hfirst _ ih =>
    rw [List.mem_cons, ih, List.exists_mem_cons_iff]
    constructor
    · rintro (rfl | hrest)
      · exact .inl hfirst
      · exact .inr hrest
    · rintro (hfile | hrest)
      · exact .inl (hfile.unique hfirst)
      · exact .inr hrest

/-- The directory's order has no influence: not on whether it is accepted, not
on the map, which has the `.wasm` files and nothing else, and not on which
code runs at a block. -/
theorem scrapeOverrides_order (h : entries.Perm entries') :
    (∀ overrides, scrapeOverrides makeHash executor ⟨dir, true, .ok entries⟩ = .ok overrides ↔
      scrapeOverrides makeHash executor ⟨dir, true, .ok entries'⟩ = .ok overrides) ∧
    (∀ overrides, scrapeOverrides makeHash executor ⟨dir, true, .ok entries⟩ = .ok overrides →
      ∃ files, List.Forall₂ (Provides makeHash executor) (wasmFiles entries) files ∧
        (files.map Sigma.fst).Nodup ∧
        overrides.entries = (files : Multiset (Σ _ : ℕ, WasmBlob))) ∧
    ((∃ paths, scrapeOverrides makeHash executor ⟨dir, true, .ok entries⟩ =
        .error (.duplicateRuntime paths)) ↔
      (∀ entry ∈ entries, entry.isOk) ∧
        ∃ files, List.Forall₂ (Provides makeHash executor) (wasmFiles entries) files ∧
          ¬ (files.map Sigma.fst).Nodup) ∧
    ∀ backend engine callExecutor,
      LocalCallExecutor.new makeHash backend engine executor
        (some ⟨dir, true, .ok entries⟩) = .ok callExecutor →
      ∀ id version onchainCode, callExecutor.runtimeVersion id = .ok version →
        (∀ entry ∈ wasmFiles entries, ∀ wasm,
          Provides makeHash executor entry ⟨version.specVersion, wasm⟩ →
            callExecutor.checkOverride onchainCode id = .ok wasm.code) ∧
        ((∀ entry ∈ wasmFiles entries, ∀ wasm,
          ¬ Provides makeHash executor entry ⟨version.specVersion, wasm⟩) →
            callExecutor.checkOverride onchainCode id = .ok onchainCode) := by
  refine ⟨fun overrides ↦ ⟨scrapeOverrides_perm h, scrapeOverrides_perm h.symm⟩,
    fun overrides ↦ provides_of_scrapeOverrides, exists_duplicateRuntime_iff, ?_⟩
  intro backend engine callExecutor hnew id version onchainCode hversion
  obtain ⟨overrides, hscrape, hcheck⟩ := checkOverride_of_new hnew hversion onchainCode
  obtain ⟨files, hprovides, -, hentries⟩ := provides_of_scrapeOverrides hscrape
  have hlookup : ∀ wasm, overrides.lookup version.specVersion = some wasm ↔
      ∃ entry ∈ wasmFiles entries,
        Provides makeHash executor entry ⟨version.specVersion, wasm⟩ := by
    intro wasm
    rw [← mem_iff_provided hprovides, ← Multiset.mem_coe, ← hentries]
    exact Finmap.lookup_eq_some_iff
  constructor
  · intro entry hentry wasm hwasm
    rw [hcheck, (hlookup wasm).mpr ⟨entry, hentry, hwasm⟩]
    rfl
  · intro hnone
    have hmissing : overrides.lookup version.specVersion = none := by
      rw [Option.eq_none_iff_forall_ne_some]
      intro wasm hwasm
      obtain ⟨entry, hentry, hprovided⟩ := (hlookup wasm).mp hwasm
      exact hnone entry hentry wasm hprovided
    rw [hcheck, hmissing]
    rfl

namespace Sample

open SubArchive.Sample

def info : RuntimeInfo :=
  ⟨fun code ↦ .ok ⟨[], [], 0, (code.code.headD 0).toNat, 0, [], 1⟩⟩

/-- Two overrides and a file that is none and cannot be read. -/
def listing : List (Except IoError DirEntry) :=
  [.ok ⟨"overrides/1.wasm", some "wasm", .ok [1, 7]⟩,
    .ok ⟨"overrides/README", none, .error "permission denied"⟩,
    .ok ⟨"overrides/3.wasm", some "wasm", .ok [3]⟩]

end Sample

open SubArchive.Sample in
/-- Read in the other order the directory gives the same overrides: block 0
runs the file with its version, block 1 its own code. -/
theorem scrapeOverrides_order_reverse :
    ∃ callExecutor,
      LocalCallExecutor.new id (world [(1, 2)]).main engine Sample.info
        (some ⟨"overrides", true, .ok Sample.listing⟩) = .ok callExecutor ∧
      (∃ overrides, scrapeOverrides id Sample.info
        ⟨"overrides", true, .ok Sample.listing.reverse⟩ = .ok overrides) ∧
      callExecutor.checkOverride [1] (.number 0) = .ok [1, 7] ∧
      callExecutor.checkOverride [2] (.number 1) = .ok [2] := by
  obtain ⟨hmap, -, -, hrun⟩ := @scrapeOverrides_order id Sample.info "overrides" Sample.listing
    Sample.listing.reverse Sample.listing.reverse_perm.symm
  refine ⟨_, rfl, ⟨_, (hmap _).mp rfl⟩, ?_, ?_⟩
  · have hfirst := (hrun (world [(1, 2)]).main engine _ rfl (.number 0) _ [1] rfl).1
    exact hfirst _ List.mem_cons_self _ ⟨[1, 7], _, rfl, rfl, rfl⟩
  · refine (hrun (world [(1, 2)]).main engine _ rfl (.number 1) _ [2] rfl).2 ?_
    have hfiles : wasmFiles Sample.listing = [⟨"overrides/1.wasm", some "wasm", .ok [1, 7]⟩,
        ⟨"overrides/3.wasm", some "wasm", .ok [3]⟩] := rfl
    rw [hfiles, List.forall_mem_cons, List.forall_mem_singleton]
    constructor
    · rintro wasm ⟨code, version, hcode, hversion, hfile⟩
      cases hcode
      cases hversion
      have hspec : 2 = 1 := congrArg Sigma.fst hfile
      omega
    · rintro wasm ⟨code, version, hcode, hversion, hfile⟩
      cases hcode
      cases hversion
      have hspec : 2 = 3 := congrArg Sigma.fst hfile
      omega

end WasmOverride

end SubArchive
