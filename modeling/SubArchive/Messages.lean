import Mathlib.Data.List.Basic
import SubArchive.Backend
import SubArchive.Library.KeyedTable

/-!
# Rows and payloads

The rows of `archive_postgres::model`, the payloads of `archive_kafka::payload`
and the JSON that carries the storage changes of a row.
-/

namespace SubArchive

inductive JsonValue where
  | null
  | string (value : String)
  | object (fields : List (String × JsonValue))
deriving Repr

/-! ## Hexadecimal byte strings -/

def hexDigit (n : ℕ) : Char :=
  if n < 10 then Char.ofNat (48 + n) else Char.ofNat (87 + n)

def hexValue (c : Char) : Option ℕ :=
  let n := c.toNat
  if 48 ≤ n ∧ n < 58 then some (n - 48)
  else if 97 ≤ n ∧ n < 103 then some (n - 87)
  else none

def hexChars : Bytes → List Char
  | [] => []
  | b :: bs => hexDigit (b.toNat / 16) :: hexDigit (b.toNat % 16) :: hexChars bs

def bytesOfHexChars : List Char → Option Bytes
  | [] => some []
  | hi :: lo :: cs => do
      let high ← hexValue hi
      let low ← hexValue lo
      let rest ← bytesOfHexChars cs
      return UInt8.ofNat (16 * high + low) :: rest
  | [_] => none

/-- `impl_serde::serialize`, the string a `StorageKey` or `StorageData`
becomes. -/
def toHex (bytes : Bytes) : String := String.ofList ('0' :: 'x' :: hexChars bytes)

def ofHex (string : String) : Option Bytes :=
  match string.toList with
  | '0' :: 'x' :: cs => bytesOfHexChars cs
  | _ => none

theorem hexValue_hexDigit : ∀ n < 16, hexValue (hexDigit n) = some n := by
  decide

theorem bytesOfHexChars_hexChars (bytes : Bytes) :
    bytesOfHexChars (hexChars bytes) = some bytes := by
  induction bytes with
  | nil => rfl
  | cons b bs ih =>
      have hlt := b.toNat_lt
      have hhigh : hexValue (hexDigit (b.toNat / 16)) = some (b.toNat / 16) :=
        hexValue_hexDigit _ (by omega)
      have hlow : hexValue (hexDigit (b.toNat % 16)) = some (b.toNat % 16) :=
        hexValue_hexDigit _ (by omega)
      have hbyte : UInt8.ofNat (16 * (b.toNat / 16) + b.toNat % 16) = b := by
        rw [Nat.div_add_mod]
        exact UInt8.ofNat_toNat
      simp only [hexChars, bytesOfHexChars, hhigh, hlow, ih, Option.bind_eq_bind,
        Option.bind_some, Option.pure_def, hbyte]

@[simp] theorem ofHex_toHex (bytes : Bytes) : ofHex (toHex bytes) = some bytes := by
  simp [ofHex, toHex, bytesOfHexChars_hexChars]

/-! ## Storage changes in both forms -/

/-- `HashMap<StorageKey, Option<StorageData>>` -/
abbrev StorageMap := KeyedTable Bytes (Bytes × Option Bytes) Prod.fst

def hexOrNull : Option Bytes → JsonValue
  | none => .null
  | some data => .string (toHex data)

/-- `serde_json::json!` of the map -/
def StorageMap.toJson (map : StorageMap) : JsonValue :=
  .object (map.rows.map fun (key, data) ↦ (toHex key, hexOrNull data))

def bytesOrDeletion : JsonValue → Option (Option Bytes)
  | .null => some none
  | .string value => (ofHex value).map some
  | .object _ => none

/-- Read the changes of a row back: a null value is a deletion. -/
def changesOfJson : JsonValue → Option (List (Bytes × Option Bytes))
  | .object fields => fields.mapM fun (key, value) ↦ do
      let key ← ofHex key
      let data ← bytesOrDeletion value
      return (key, data)
  | _ => none

@[simp] theorem bytesOrDeletion_hexOrNull (data : Option Bytes) :
    bytesOrDeletion (hexOrNull data) = some data := by
  cases data <;> simp [hexOrNull, bytesOrDeletion]

theorem mapM_map_eq_some {α β γ : Type} {encode : α → β} {decode : β → Option γ} {view : α → γ}
    (h : ∀ a, decode (encode a) = some (view a)) (l : List α) :
    (l.map encode).mapM decode = some (l.map view) := by
  induction l with
  | nil => rfl
  | cons a l ih =>
      rw [List.map_cons, List.mapM_cons, ih, h]
      rfl

@[simp] theorem changesOfJson_toJson (map : StorageMap) :
    changesOfJson map.toJson = some map.rows := by
  have hrow : ∀ row : Bytes × Option Bytes,
      (do
        let key ← ofHex (toHex row.1)
        let data ← bytesOrDeletion (hexOrNull row.2)
        return (key, data)) = some (id row) := by
    intro row
    simp
  exact (mapM_map_eq_some hrow map.rows).trans (by rw [List.map_id])

/-! ## Models and payloads -/

structure MetadataModel where
  specVersion : ℕ
  blockNum : BlockNumber
  blockHash : Bytes
  metadata : Bytes
deriving DecidableEq, Repr

structure BlockModel where
  specVersion : ℕ
  blockNum : BlockNumber
  blockHash : Bytes
  parentHash : Bytes
  stateRoot : Bytes
  extrinsicsRoot : Bytes
  digest : Bytes
  extrinsics : List Bytes
  justifications : Option (List Bytes)
  mainChanges : JsonValue
  childChanges : JsonValue

structure MetadataPayload where
  specVersion : ℕ
  blockNum : BlockNumber
  blockHash : Hash
  metadata : Bytes
deriving DecidableEq, Repr

structure BlockPayload where
  specVersion : ℕ
  blockNum : BlockNumber
  blockHash : Hash
  parentHash : Hash
  stateRoot : Hash
  extrinsicsRoot : Hash
  digest : List DigestItem
  extrinsics : List Bytes
  justifications : Option Justifications
  mainChanges : StorageMap
  childChanges : KeyedTable Bytes (Bytes × StorageMap) Prod.fst
deriving DecidableEq

/-- The fields a row and a payload of one block have in common. -/
structure BlockModel.Agrees (model : BlockModel) (payload : BlockPayload) : Prop where
  specVersion : payload.specVersion = model.specVersion
  blockHash : payload.blockHash = model.blockHash
  parentHash : payload.parentHash = model.parentHash
  stateRoot : payload.stateRoot = model.stateRoot
  extrinsicsRoot : payload.extrinsicsRoot = model.extrinsicsRoot
  mainChanges : model.mainChanges = payload.mainChanges.toJson

structure ArchiveSendMsg where
  model : BlockModel
  payload : BlockPayload
  agrees : model.Agrees payload

end SubArchive
