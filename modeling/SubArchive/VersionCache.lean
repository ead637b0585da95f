import Mathlib.Data.Set.Basic
import SubArchive.Backend
import SubArchive.Library.KeyedTable

/-!
# The cache of runtime versions

`RuntimeVersionCache` maps the hash of a code blob to the version read from it.
The host function that reads the version section, the SCALE decoders and the
standard library's hasher are parameters.
-/

namespace SubArchive

structure OldRuntimeVersion where
  specName : Bytes
  implName : Bytes
  authoringVersion : ℕ
  specVersion : ℕ
  implVersion : ℕ
  apis : List (Bytes × ℕ)
deriving DecidableEq, Repr

/-- `From<OldRuntimeVersion> for RuntimeVersion` -/
def OldRuntimeVersion.into (version : OldRuntimeVersion) : RuntimeVersion where
  specName := version.specName
  implName := version.implName
  authoringVersion := version.authoringVersion
  specVersion := version.specVersion
  implVersion := version.implVersion
  apis := version.apis
  transactionVersion := 1

structure VersionReader where
  /-- `sp_io::misc::runtime_version` -/
  runtimeVersion : Bytes → Option Bytes
  decodeOld : Bytes → Option OldRuntimeVersion
  decodeNew : Bytes → Option RuntimeVersion
  /-- `DefaultHasher` on the code as it was read -/
  makeHash : Option Bytes → ℕ

namespace VersionReader

def decodeVersion (reader : VersionReader) (version : Bytes) : Except Error RuntimeVersion :=
  match reader.decodeOld version with
  | none => .error (.other "decode error")
  | some old =>
      let v := old.into
      if v.hasApiWith coreApiId fun v ↦ v ≥ 3 then
        match reader.decodeNew version with
        | none => .error (.other "decode error")
        | some v => .ok v
      else .ok v

def versionOf (reader : VersionReader) (code : Bytes) : Except Error RuntimeVersion :=
  match reader.runtimeVersion code with
  | none => .error (.other "wasm runtime")
  | some version => reader.decodeVersion version

def specVersionOf (reader : VersionReader) (code : Bytes) : Except Error ℕ :=
  (reader.versionOf code).map (·.specVersion)

end VersionReader

structure RuntimeVersionCache where
  versions : KeyedTable ℕ (ℕ × RuntimeVersion) Prod.fst

namespace RuntimeVersionCache

def new : RuntimeVersionCache := ⟨.empty⟩

def getById (reader : VersionReader) (backend : Backend) (cache : RuntimeVersionCache)
    (id : BlockId) :
    Except Panic (Except Error (Option RuntimeVersion) × RuntimeVersionCache) :=
  match backend.stateAt id with
  | .error error => .ok (.error error, cache)
  | .ok state =>
      match state.storage codeKey with
      | .error _ => .error s!"No storage found for {repr id}"
      | .ok code =>
          let codeHash := reader.makeHash code
          match cache.versions.find? codeHash with
          | some entry => .ok (.ok (some entry.2), cache)
          | none =>
              match code with
              | none => .error "called Option::unwrap() on a None value"
              | some code =>
                  match reader.versionOf code with
                  | .error error => .ok (.error error, cache)
                  | .ok version =>
                      .ok (.ok (some version), ⟨cache.versions.upsert (codeHash, version)⟩)

/-- The state is there with a code whose version is cached or readable. -/
def Answers (reader : VersionReader) (backend : Backend) (cache : RuntimeVersionCache)
    (id : BlockId) : Prop :=
  ∃ state code, backend.stateAt id = .ok state ∧ state.storage codeKey = .ok code ∧
    ((cache.versions.find? (reader.makeHash code)).isSome = true ∨
      ∃ blob version, code = some blob ∧ reader.versionOf blob = .ok version)

/-- Every entry is the version of some code blob in play, under its hash. -/
def Valid (reader : VersionReader) (codes : Set Bytes) (cache : RuntimeVersionCache) : Prop :=
  ∀ entry ∈ cache.versions.rows, ∃ code ∈ codes,
    reader.makeHash (some code) = entry.1 ∧ reader.versionOf code = .ok entry.2

/-- The hasher does not collide on the code blobs in play. -/
def NoCollision (reader : VersionReader) (codes : Set Bytes) : Prop :=
  ∀ code ∈ codes, ∀ code' ∈ codes,
    reader.makeHash (some code) = reader.makeHash (some code') → code = code'

variable {reader : VersionReader} {codes : Set Bytes} {cache cache' : RuntimeVersionCache}

theorem getById_eq_some_iff {backend : Backend} {id : BlockId} :
    (∃ version cache', getById reader backend cache id = .ok (.ok (some version), cache')) ↔
      cache.Answers reader backend id := by
  unfold getById Answers
  rcases hstate : backend.stateAt id with error | state
  · simp
  rcases hcode : state.storage codeKey with error | code
  · simp [hcode]
  rcases hfind : cache.versions.find? (reader.makeHash code) with _ | entry
  · rcases code with _ | blob
    · simp [hcode, hfind]
    · rcases hversion : reader.versionOf blob with error | version <;>
        simp [hcode, hfind, hversion]
  · simp [hcode, hfind]

theorem valid_new : Valid reader codes new := by
  simp [Valid, new]

/-- On a state that holds a code in play, a valid cache answers what reading
the code's version afresh would, and stays valid. -/
theorem getById_of_valid (hcollision : NoCollision reader codes)
    (hvalid : Valid reader codes cache) {backend : Backend} {id : BlockId} {state : StateBackend}
    {code : Bytes} (hstate : backend.stateAt id = .ok state)
    (hcode : state.storage codeKey = .ok (some code)) (hmem : code ∈ codes) :
    ∃ cache', getById reader backend cache id =
        .ok ((reader.versionOf code).map some, cache') ∧ Valid reader codes cache' := by
  rcases hfind : cache.versions.find? (reader.makeHash (some code)) with _ | entry
  · rcases hversion : reader.versionOf code with error | version
    · refine ⟨cache, ?_, hvalid⟩
      simp [getById, hstate, hcode, hfind, hversion, Except.map]
    · refine ⟨⟨cache.versions.upsert (reader.makeHash (some code), version)⟩, ?_, ?_⟩
      · simp [getById, hstate, hcode, hfind, hversion, Except.map]
      · intro entry hentry
        rcases KeyedTable.mem_rows_upsert.mp hentry with rfl | ⟨hold, _⟩
        · exact ⟨code, hmem, rfl, hversion⟩
        · exact hvalid entry hold
  · obtain ⟨hentry, hkey⟩ := KeyedTable.find?_eq_some_iff.mp hfind
    obtain ⟨code', hmem', hhash, hversion⟩ := hvalid entry hentry
    have heq : code' = code := hcollision code' hmem' code hmem (hhash.trans hkey)
    rw [heq] at hversion
    refine ⟨cache, ?_, hvalid⟩
    simp [getById, hstate, hcode, hfind, hversion, Except.map]

end RuntimeVersionCache

end SubArchive
