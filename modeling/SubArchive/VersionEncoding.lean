import SubArchive.VersionCache
import SubArchive.Library.Scale

/-!
# The two encodings of a runtime version

The old encoding has no transaction version and is a prefix of the new one, so
`decode_version` reads it first and lets the version of the `Core` API decide
whether there is more to read.
-/

namespace SubArchive

abbrev VersionFields := Bytes × Bytes × ℕ × ℕ × ℕ × List (Bytes × ℕ)

def OldRuntimeVersion.ofFields : VersionFields ≃ OldRuntimeVersion where
  toFun f := ⟨f.1, f.2.1, f.2.2.1, f.2.2.2.1, f.2.2.2.2.1, f.2.2.2.2.2⟩
  invFun v := (v.specName, v.implName, v.authoringVersion, v.specVersion, v.implVersion, v.apis)
  left_inv _ := rfl
  right_inv _ := rfl

def RuntimeVersion.ofFields : VersionFields × ℕ ≃ RuntimeVersion where
  toFun f := ⟨f.1.1, f.1.2.1, f.1.2.2.1, f.1.2.2.2.1, f.1.2.2.2.2.1, f.1.2.2.2.2.2, f.2⟩
  invFun v := ((v.specName, v.implName, v.authoringVersion, v.specVersion, v.implVersion, v.apis),
    v.transactionVersion)
  left_inv _ := rfl
  right_inv _ := rfl

namespace VersionFormat

def u32 : Format ℕ := .uint 4

/-- `ApisVec` -/
def apis : Format (List (Bytes × ℕ)) := .list (.pair (.array 8) u32)

def fields : Format VersionFields :=
  .pair .string (.pair .string (.pair u32 (.pair u32 (.pair u32 apis))))

/-- `sp_api::OldRuntimeVersion` -/
def old : Format OldRuntimeVersion := fields.via OldRuntimeVersion.ofFields

/-- `sp_version::RuntimeVersion` -/
def new : Format RuntimeVersion := (fields.pair u32).via RuntimeVersion.ofFields

/-- The fields up to `spec_version`. -/
def leading : Format (Bytes × Bytes × ℕ × ℕ) := .pair .string (.pair .string (.pair u32 u32))

/-- The `spec_version` at its position in an encoding. -/
def specVersion (bytes : Bytes) : Option ℕ := (leading.decode bytes).map fun f ↦ f.1.2.2.2

/-- A reader with these decoders. -/
def reader (runtimeVersion : Bytes → Option Bytes) (makeHash : Option Bytes → ℕ) :
    VersionReader where
  runtimeVersion := runtimeVersion
  decodeOld bytes := (old.decode bytes).map Prod.fst
  decodeNew bytes := (new.decode bytes).map Prod.fst
  makeHash := makeHash

variable {bytes rest : Bytes} {runtimeVersion : Bytes → Option Bytes}
  {makeHash : Option Bytes → ℕ}

theorem specVersion_leading {f : Bytes × Bytes × ℕ × ℕ} (h : leading.Valid f) (rest : Bytes) :
    specVersion (leading.encode f ++ rest) = some f.2.2.2 := by
  rw [specVersion, leading.decode_encode f h, Option.map_some]

theorem encode_old (w : OldRuntimeVersion) :
    old.encode w = leading.encode (w.specName, w.implName, w.authoringVersion, w.specVersion) ++
      (u32.pair apis).encode (w.implVersion, w.apis) := by
  simp only [old, Format.via, OldRuntimeVersion.ofFields, fields, leading, Format.pair,
    Equiv.coe_fn_symm_mk, List.append_assoc]

theorem valid_leading {w : OldRuntimeVersion} (h : old.Valid w) :
    leading.Valid (w.specName, w.implName, w.authoringVersion, w.specVersion) :=
  ⟨h.1, h.2.1, h.2.2.1, h.2.2.2.1⟩

/-- What the old layout reads of a new version. -/
def withoutTransactionVersion (v : RuntimeVersion) : OldRuntimeVersion :=
  ⟨v.specName, v.implName, v.authoringVersion, v.specVersion, v.implVersion, v.apis⟩

theorem valid_withoutTransactionVersion {v : RuntimeVersion} (h : new.Valid v) :
    old.Valid (withoutTransactionVersion v) :=
  h.1

theorem encode_new (v : RuntimeVersion) :
    new.encode v = old.encode (withoutTransactionVersion v) ++ u32.encode v.transactionVersion :=
  rfl

theorem decodeOld_encode {w : OldRuntimeVersion} (h : old.Valid w) (rest : Bytes) :
    (reader runtimeVersion makeHash).decodeOld (old.encode w ++ rest) = some w :=
  congrArg (Option.map Prod.fst) (old.decode_encode w h rest)

theorem decodeNew_encode {v : RuntimeVersion} (h : new.Valid v) (rest : Bytes) :
    (reader runtimeVersion makeHash).decodeNew (new.encode v ++ rest) = some v :=
  congrArg (Option.map Prod.fst) (new.decode_encode v h rest)

theorem decodeVersion_new {v : RuntimeVersion} (hvalid : new.Valid v)
    (hcore : v.hasApiWith coreApiId fun v ↦ v ≥ 3) (rest : Bytes) :
    (reader runtimeVersion makeHash).decodeVersion (new.encode v ++ rest) = .ok v := by
  have hold : (reader runtimeVersion makeHash).decodeOld (new.encode v ++ rest) =
      some (withoutTransactionVersion v) := by
    rw [encode_new, List.append_assoc]
    exact decodeOld_encode (valid_withoutTransactionVersion hvalid) _
  rw [VersionReader.decodeVersion, hold, decodeNew_encode hvalid]
  exact if_pos hcore

theorem decodeVersion_old {w : OldRuntimeVersion} (hvalid : old.Valid w)
    (hcore : ¬ w.into.hasApiWith coreApiId fun v ↦ v ≥ 3) (rest : Bytes) :
    (reader runtimeVersion makeHash).decodeVersion (old.encode w ++ rest) = .ok w.into := by
  rw [VersionReader.decodeVersion, decodeOld_encode hvalid]
  exact if_neg hcore

/-- Whichever layout is chosen, the bytes start with the fields of the decoded
version up to its apis. -/
theorem eq_of_decodeVersion {v : RuntimeVersion}
    (h : (reader runtimeVersion makeHash).decodeVersion bytes = .ok v) :
    old.Valid (withoutTransactionVersion v) ∧
      ∃ rest, bytes = old.encode (withoutTransactionVersion v) ++ rest := by
  unfold VersionReader.decodeVersion at h
  rcases hold : (reader runtimeVersion makeHash).decodeOld bytes with _ | w
  · simp [hold] at h
  rcases hcore : w.into.hasApiWith coreApiId fun v ↦ v ≥ 3
  · obtain rfl : w.into = v := by simpa [hold, hcore] using h
    obtain ⟨⟨w', rest⟩, hdecode, rfl⟩ := Option.map_eq_some_iff.mp hold
    obtain ⟨hvalid, hbytes⟩ := old.eq_encode _ _ _ hdecode
    exact ⟨hvalid, rest, hbytes⟩
  · rcases hnew : (reader runtimeVersion makeHash).decodeNew bytes with _ | v'
    · simp [hold, hcore, hnew] at h
    obtain rfl : v' = v := by simpa [hold, hcore, hnew] using h
    obtain ⟨⟨v'', rest⟩, hdecode, rfl⟩ := Option.map_eq_some_iff.mp hnew
    obtain ⟨hvalid, hbytes⟩ := new.eq_encode _ _ _ hdecode
    rw [encode_new, List.append_assoc] at hbytes
    exact ⟨valid_withoutTransactionVersion hvalid, _, hbytes⟩

/-- What follows an encoding does not matter.  The lengths of a valid version
fit in a `u32`, its numbers too, and its names are UTF-8. -/
theorem decodeVersion_scale (runtimeVersion : Bytes → Option Bytes)
    (makeHash : Option Bytes → ℕ) :
    (∀ v rest, new.Valid v → (∃ version ≥ 3, (coreApiId, version) ∈ v.apis) →
      (reader runtimeVersion makeHash).decodeVersion (new.encode v ++ rest) = .ok v) ∧
    (∀ w rest, old.Valid w → (∀ version, (coreApiId, version) ∈ w.apis → version < 3) →
      (reader runtimeVersion makeHash).decodeVersion (old.encode w ++ rest) = .ok w.into) ∧
    ∀ bytes v, (reader runtimeVersion makeHash).decodeVersion bytes = .ok v →
      specVersion bytes = some v.specVersion ∧
        ∃ rest, bytes =
          leading.encode (v.specName, v.implName, v.authoringVersion, v.specVersion) ++ rest := by
  refine ⟨?_, ?_, ?_⟩
  · rintro v rest hvalid ⟨version, hle, hmem⟩
    refine decodeVersion_new hvalid ?_ rest
    exact List.any_eq_true.mpr ⟨_, hmem, by simpa using hle⟩
  · intro w rest hvalid hcore
    refine decodeVersion_old hvalid ?_ rest
    intro hany
    obtain ⟨⟨id, version⟩, hmem, hentry⟩ := List.any_eq_true.mp hany
    obtain ⟨rfl, hle⟩ : id = coreApiId ∧ version ≥ 3 := by simpa using hentry
    have hlt := hcore version hmem
    omega
  · intro bytes v h
    obtain ⟨hvalid, rest, rfl⟩ := eq_of_decodeVersion h
    rw [encode_old, List.append_assoc]
    exact ⟨specVersion_leading (valid_leading hvalid) _, _, rfl⟩

theorem decodeVersion_scale_node :
    (reader some fun _ ↦ 0).decodeVersion (new.encode
        ⟨[110, 111, 100, 101], [110, 111, 100, 101], 10, 2022, 1, [(coreApiId, 3)], 5⟩ ++ [0]) =
      .ok ⟨[110, 111, 100, 101], [110, 111, 100, 101], 10, 2022, 1, [(coreApiId, 3)], 5⟩ := by
  have hname : Format.string.Valid [110, 111, 100, 101] := by
    refine ⟨⟨by decide, fun _ _ ↦ trivial⟩, ?_⟩
    decide
  have hapis : apis.Valid [(coreApiId, 3)] := by
    refine ⟨by decide, ?_⟩
    simp [coreApiId, u32, Format.pair, Format.array, Format.uint]
  have hvalid : new.Valid
      ⟨[110, 111, 100, 101], [110, 111, 100, 101], 10, 2022, 1, [(coreApiId, 3)], 5⟩ := by
    refine ⟨⟨hname, hname, ?_, ?_, ?_, hapis⟩, ?_⟩ <;>
      simp [u32, Format.uint, RuntimeVersion.ofFields]
  exact (decodeVersion_scale some fun _ ↦ 0).1 _ _ hvalid ⟨3, by decide, by simp⟩

end VersionFormat

end SubArchive
