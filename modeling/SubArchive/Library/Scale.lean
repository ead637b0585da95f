import Mathlib.Algebra.Ring.Nat
import Mathlib.Data.Nat.Notation
import Mathlib.Logic.Equiv.Defs

/-!
# The SCALE encoding

Integers are little-endian, a collection is its length in the compact form
followed by its elements, and a record is its fields in order.  A decoder reads
a prefix and leaves the rest.  Every value has one encoding: a decoder accepts
exactly what the encoder writes, so a compact length in a longer form than
needed is refused.
-/

/-- A decoder with the encoder it inverts.  `Valid` picks the values that the
encoded type has. -/
structure Format (α : Type*) where
  Valid : α → Prop
  encode : α → List UInt8
  decode : List UInt8 → Option (α × List UInt8)
  decode_encode : ∀ a, Valid a → ∀ rest, decode (encode a ++ rest) = some (a, rest)
  eq_encode : ∀ bytes a rest, decode bytes = some (a, rest) →
    Valid a ∧ bytes = encode a ++ rest

namespace Format

variable {α β : Type*}

def pair (f : Format α) (g : Format β) : Format (α × β) where
  Valid p := f.Valid p.1 ∧ g.Valid p.2
  encode p := f.encode p.1 ++ g.encode p.2
  decode bytes := (f.decode bytes).bind fun a ↦
    (g.decode a.2).map fun b ↦ ((a.1, b.1), b.2)
  decode_encode := by
    rintro ⟨a, b⟩ ⟨ha, hb⟩ rest
    rw [List.append_assoc, f.decode_encode a ha, Option.bind_some, g.decode_encode b hb,
      Option.map_some]
  eq_encode := by
    rintro bytes ⟨a, b⟩ rest h
    obtain ⟨⟨a', rest'⟩, ha, h⟩ := Option.bind_eq_some_iff.mp h
    obtain ⟨⟨b', rest''⟩, hb, h⟩ := Option.map_eq_some_iff.mp h
    cases h
    obtain ⟨hvalid, rfl⟩ := f.eq_encode _ _ _ ha
    obtain ⟨hvalid', rfl⟩ := g.eq_encode _ _ _ hb
    exact ⟨⟨hvalid, hvalid'⟩, (List.append_assoc _ _ _).symm⟩

/-- The same bytes for another presentation of the values. -/
def via (f : Format α) (e : α ≃ β) : Format β where
  Valid b := f.Valid (e.symm b)
  encode b := f.encode (e.symm b)
  decode bytes := (f.decode bytes).map fun a ↦ (e a.1, a.2)
  decode_encode := by
    intro b hb rest
    rw [f.decode_encode _ hb, Option.map_some, e.apply_symm_apply]
  eq_encode := by
    intro bytes b rest h
    obtain ⟨⟨a, rest'⟩, ha, h⟩ := Option.map_eq_some_iff.mp h
    cases h
    rw [e.symm_apply_apply]
    exact f.eq_encode _ _ _ ha

/-- Refuse the values without `p`. -/
def restrict (f : Format α) (p : α → Prop) [DecidablePred p] : Format α where
  Valid a := f.Valid a ∧ p a
  encode := f.encode
  decode bytes := (f.decode bytes).filter fun a ↦ p a.1
  decode_encode := by
    rintro a ⟨ha, hp⟩ rest
    rw [f.decode_encode a ha, Option.filter_some, if_pos (decide_eq_true hp)]
  eq_encode := by
    intro bytes a rest h
    obtain ⟨ha, hp⟩ := Option.filter_eq_some_iff.mp h
    obtain ⟨hvalid, hbytes⟩ := f.eq_encode _ _ _ ha
    exact ⟨⟨hvalid, of_decide_eq_true hp⟩, hbytes⟩

/-! ## Integers -/

def littleEndian : ℕ → ℕ → List UInt8
  | 0, _ => []
  | width + 1, n => UInt8.ofNat n :: littleEndian width (n / 256)

def ofLittleEndian : List UInt8 → ℕ
  | [] => 0
  | b :: bs => b.toNat + 256 * ofLittleEndian bs

@[simp] theorem length_littleEndian (width n : ℕ) : (littleEndian width n).length = width := by
  induction width generalizing n with
  | zero => rfl
  | succ width ih => rw [littleEndian, List.length_cons, ih]

theorem ofLittleEndian_littleEndian {width n : ℕ} (h : n < 256 ^ width) :
    ofLittleEndian (littleEndian width n) = n := by
  induction width generalizing n with
  | zero =>
      rw [littleEndian, ofLittleEndian]
      omega
  | succ width ih =>
      have hdiv : n / 256 < 256 ^ width := by
        rw [Nat.div_lt_iff_lt_mul (by decide), ← Nat.pow_succ]
        exact h
      rw [littleEndian, ofLittleEndian, ih hdiv, UInt8.toNat_ofNat']
      omega

theorem ofLittleEndian_lt (bs : List UInt8) : ofLittleEndian bs < 256 ^ bs.length := by
  induction bs with
  | nil => simp [ofLittleEndian]
  | cons b bs ih =>
      have hb := b.toNat_lt
      rw [ofLittleEndian, List.length_cons, Nat.pow_succ]
      omega

theorem littleEndian_ofLittleEndian (bs : List UInt8) :
    littleEndian bs.length (ofLittleEndian bs) = bs := by
  induction bs with
  | nil => rfl
  | cons b bs ih =>
      have hb := b.toNat_lt
      have hmod : UInt8.ofNat (b.toNat + 256 * ofLittleEndian bs) = b := by
        apply UInt8.toNat_inj.mp
        rw [UInt8.toNat_ofNat']
        omega
      have hdiv : (b.toNat + 256 * ofLittleEndian bs) / 256 = ofLittleEndian bs := by
        omega
      rw [List.length_cons, ofLittleEndian, littleEndian, hmod, hdiv, ih]

/-- `[u8; n]` -/
def array (n : ℕ) : Format (List UInt8) where
  Valid bs := bs.length = n
  encode bs := bs
  decode bytes := if n ≤ bytes.length then some (bytes.take n, bytes.drop n) else none
  decode_encode := by
    rintro bs rfl rest
    rw [if_pos (by simp), List.take_left, List.drop_left]
  eq_encode := by
    intro bytes a rest h
    obtain ⟨hle, h⟩ := Option.ite_none_right_eq_some.mp h
    obtain ⟨rfl, rfl⟩ := Prod.mk.inj (Option.some.inj h)
    exact ⟨List.length_take_of_le hle, (List.take_append_drop n bytes).symm⟩

/-- An unsigned integer of `width` bytes. -/
def uint (width : ℕ) : Format ℕ where
  Valid n := n < 256 ^ width
  encode n := littleEndian width n
  decode bytes := ((array width).decode bytes).map fun bs ↦ (ofLittleEndian bs.1, bs.2)
  decode_encode := by
    intro n hn rest
    have harray := (array width).decode_encode (littleEndian width n) (length_littleEndian width n)
      rest
    rw [show (array width).encode (littleEndian width n) = littleEndian width n from rfl] at harray
    rw [harray, Option.map_some, ofLittleEndian_littleEndian hn]
  eq_encode := by
    intro bytes n rest h
    obtain ⟨⟨bs, rest'⟩, harray, h⟩ := Option.map_eq_some_iff.mp h
    cases h
    obtain ⟨hlength, rfl⟩ := (array width).eq_encode _ _ _ harray
    obtain rfl : bs.length = width := hlength
    rw [littleEndian_ofLittleEndian]
    exact ⟨ofLittleEndian_lt bs, rfl⟩

def byte : Format UInt8 where
  Valid _ := True
  encode b := [b]
  decode
    | [] => none
    | b :: rest => some (b, rest)
  decode_encode _ _ _ := rfl
  eq_encode := by
    rintro (_ | ⟨b, bytes⟩) a rest h
    · simp at h
    · cases h
      exact ⟨trivial, rfl⟩

/-! ## The compact form of lengths

The two low bits of the first byte say how many bytes follow. -/

def encodeCompact (n : ℕ) : List UInt8 :=
  if n < 2 ^ 6 then littleEndian 1 (4 * n)
  else if n < 2 ^ 14 then littleEndian 2 (4 * n + 1)
  else if n < 2 ^ 30 then littleEndian 4 (4 * n + 2)
  else 3 :: littleEndian 4 n

/-- An integer of `width` bytes without its two low bits, refused below
`least`. -/
def decodeShifted (width least : ℕ) (bytes : List UInt8) : Option (ℕ × List UInt8) :=
  ((uint width).decode bytes).bind fun x ↦
    if least ≤ x.1 / 4 then some (x.1 / 4, x.2) else none

def decodeCompact : List UInt8 → Option (ℕ × List UInt8)
  | [] => none
  | b :: rest =>
      match b.toNat % 4 with
      | 0 => decodeShifted 1 0 (b :: rest)
      | 1 => decodeShifted 2 (2 ^ 6) (b :: rest)
      | 2 => decodeShifted 4 (2 ^ 14) (b :: rest)
      | _ =>
          if b.toNat / 4 = 0 then ((uint 4).decode rest).filter fun x ↦ 2 ^ 30 ≤ x.1 else none

theorem littleEndian_append_eq_cons (width n : ℕ) (rest : List UInt8) :
    ∃ b bs, littleEndian (width + 1) n ++ rest = b :: bs ∧ b.toNat % 4 = n % 4 := by
  refine ⟨UInt8.ofNat n, littleEndian width (n / 256) ++ rest, rfl, ?_⟩
  rw [UInt8.toNat_ofNat']
  omega

theorem decodeShifted_littleEndian {width least n mode : ℕ} (hmode : mode < 4)
    (hn : 4 * n + mode < 256 ^ width) (hleast : least ≤ n) (rest : List UInt8) :
    decodeShifted width least (littleEndian width (4 * n + mode) ++ rest) = some (n, rest) := by
  have hdecode := (uint width).decode_encode (4 * n + mode) hn rest
  have hdiv : (4 * n + mode) / 4 = n := by omega
  have hencode : (uint width).encode (4 * n + mode) = littleEndian width (4 * n + mode) := rfl
  rw [hencode] at hdecode
  rw [decodeShifted, hdecode, Option.bind_some, hdiv, if_pos hleast]

theorem decodeShifted_eq {width least n : ℕ} {b : UInt8} {bytes rest : List UInt8}
    (h : decodeShifted (width + 1) least (b :: bytes) = some (n, rest)) :
    least ≤ n ∧ 4 * n + b.toNat % 4 < 256 ^ (width + 1) ∧
      b :: bytes = littleEndian (width + 1) (4 * n + b.toNat % 4) ++ rest := by
  obtain ⟨⟨x, rest'⟩, hx, h⟩ := Option.bind_eq_some_iff.mp h
  obtain ⟨hleast, h⟩ := Option.ite_none_right_eq_some.mp h
  obtain ⟨rfl, rfl⟩ := Prod.mk.inj (Option.some.inj h)
  obtain ⟨hvalid, hbytes⟩ := (uint (width + 1)).eq_encode _ _ _ hx
  obtain ⟨b', bs, hcons, hmod⟩ := littleEndian_append_eq_cons width x rest'
  obtain ⟨rfl, -⟩ : b = b' ∧ bytes = bs := List.cons.inj (hbytes.trans hcons)
  have hx' : 4 * (x / 4) + b.toNat % 4 = x := by omega
  dsimp only
  rw [hx']
  exact ⟨hleast, hvalid, hbytes⟩

theorem decodeCompact_encodeCompact {n : ℕ} (hn : n < 2 ^ 32) (rest : List UInt8) :
    decodeCompact (encodeCompact n ++ rest) = some (n, rest) := by
  unfold encodeCompact
  by_cases h₁ : n < 2 ^ 6
  · obtain ⟨b, bs, hcons, hmode⟩ := littleEndian_append_eq_cons 0 (4 * n) rest
    have hmode : b.toNat % 4 = 0 := by omega
    rw [if_pos h₁, hcons, decodeCompact, hmode, ← hcons]
    exact decodeShifted_littleEndian (Nat.zero_lt_succ 3) (by omega) (by omega) rest
  by_cases h₂ : n < 2 ^ 14
  · obtain ⟨b, bs, hcons, hmode⟩ := littleEndian_append_eq_cons 1 (4 * n + 1) rest
    have hmode : b.toNat % 4 = 1 := by omega
    rw [if_neg h₁, if_pos h₂, hcons, decodeCompact, hmode, ← hcons]
    exact decodeShifted_littleEndian (by decide) (by omega) (by omega) rest
  by_cases h₃ : n < 2 ^ 30
  · obtain ⟨b, bs, hcons, hmode⟩ := littleEndian_append_eq_cons 3 (4 * n + 2) rest
    have hmode : b.toNat % 4 = 2 := by omega
    rw [if_neg h₁, if_neg h₂, if_pos h₃, hcons, decodeCompact, hmode, ← hcons]
    exact decodeShifted_littleEndian (by decide) (by omega) (by omega) rest
  · have hvalid : (uint 4).Valid n := hn
    have hdecode : (uint 4).decode (littleEndian 4 n ++ rest) = some (n, rest) :=
      (uint 4).decode_encode n hvalid rest
    have hle : 2 ^ 30 ≤ n := by omega
    have hfilter : (some (n, rest)).filter (fun x ↦ decide (2 ^ 30 ≤ x.1)) = some (n, rest) :=
      if_pos (decide_eq_true hle)
    rw [if_neg h₁, if_neg h₂, if_neg h₃, List.cons_append, ← hfilter, ← hdecode]
    rfl

theorem eq_encodeCompact {n : ℕ} {bytes rest : List UInt8}
    (h : decodeCompact bytes = some (n, rest)) :
    n < 2 ^ 32 ∧ bytes = encodeCompact n ++ rest := by
  rcases bytes with _ | ⟨b, bytes⟩
  · simp [decodeCompact] at h
  have hmode : b.toNat % 4 = 0 ∨ b.toNat % 4 = 1 ∨ b.toNat % 4 = 2 ∨ b.toNat % 4 = 3 := by omega
  rw [decodeCompact] at h
  rcases hmode with hmode | hmode | hmode | hmode
  · rw [hmode] at h
    obtain ⟨-, hlt, hbytes⟩ := decodeShifted_eq h
    rw [hmode] at hlt hbytes
    have h₁ : n < 2 ^ 6 := by omega
    rw [encodeCompact, if_pos h₁]
    exact ⟨by omega, hbytes⟩
  · rw [hmode] at h
    obtain ⟨hle, hlt, hbytes⟩ := decodeShifted_eq h
    rw [hmode] at hlt hbytes
    have h₂ : n < 2 ^ 14 := by omega
    rw [encodeCompact, if_neg (by omega), if_pos h₂]
    exact ⟨by omega, hbytes⟩
  · rw [hmode] at h
    obtain ⟨hle, hlt, hbytes⟩ := decodeShifted_eq h
    rw [hmode] at hlt hbytes
    have h₃ : n < 2 ^ 30 := by omega
    rw [encodeCompact, if_neg (by omega), if_neg (by omega), if_pos h₃]
    exact ⟨by omega, hbytes⟩
  · rw [hmode] at h
    obtain ⟨hshort, h⟩ := Option.ite_none_right_eq_some.mp h
    obtain ⟨hn, hle⟩ := Option.filter_eq_some_iff.mp h
    obtain ⟨hlt, rfl⟩ := (uint 4).eq_encode _ _ _ hn
    have hle : 2 ^ 30 ≤ n := of_decide_eq_true hle
    have hb : b = 3 := by
      have hthree : (3 : UInt8).toNat = 3 := rfl
      apply UInt8.toNat_inj.mp
      omega
    rw [encodeCompact, if_neg (by omega), if_neg (by omega), if_neg (by omega), hb]
    exact ⟨hlt, rfl⟩

/-- `Compact<u32>` -/
def compact : Format ℕ where
  Valid n := n < 2 ^ 32
  encode := encodeCompact
  decode := decodeCompact
  decode_encode _ hn rest := decodeCompact_encodeCompact hn rest
  eq_encode _ _ _ h := eq_encodeCompact h

/-! ## Collections -/

def decodeItems (f : Format α) : ℕ → List UInt8 → Option (List α × List UInt8)
  | 0, bytes => some ([], bytes)
  | n + 1, bytes =>
      (f.decode bytes).bind fun a ↦
        (decodeItems f n a.2).map fun as ↦ (a.1 :: as.1, as.2)

theorem decodeItems_flatMap {f : Format α} {as : List α} (h : ∀ a ∈ as, f.Valid a)
    (rest : List UInt8) :
    decodeItems f as.length (as.flatMap f.encode ++ rest) = some (as, rest) := by
  induction as with
  | nil => rfl
  | cons a as ih =>
      rw [List.forall_mem_cons] at h
      rw [List.flatMap_cons, List.append_assoc, List.length_cons, decodeItems,
        f.decode_encode a h.1, Option.bind_some, ih h.2, Option.map_some]

theorem eq_flatMap_of_decodeItems {f : Format α} {n : ℕ} {bytes rest : List UInt8} {as : List α}
    (h : decodeItems f n bytes = some (as, rest)) :
    as.length = n ∧ (∀ a ∈ as, f.Valid a) ∧ bytes = as.flatMap f.encode ++ rest := by
  induction n generalizing bytes as with
  | zero =>
      cases h
      simp
  | succ n ih =>
      obtain ⟨⟨a, bytes'⟩, ha, h⟩ := Option.bind_eq_some_iff.mp h
      obtain ⟨⟨as', rest'⟩, has, h⟩ := Option.map_eq_some_iff.mp h
      cases h
      obtain ⟨hvalid, rfl⟩ := f.eq_encode _ _ _ ha
      obtain ⟨rfl, hvalids, rfl⟩ := ih has
      refine ⟨rfl, List.forall_mem_cons.mpr ⟨hvalid, hvalids⟩, ?_⟩
      rw [List.flatMap_cons, List.append_assoc]

/-- `Vec<T>`; the encoder panics on a length that is no `u32`. -/
def list (f : Format α) : Format (List α) where
  Valid as := as.length < 2 ^ 32 ∧ ∀ a ∈ as, f.Valid a
  encode as := compact.encode as.length ++ as.flatMap f.encode
  decode bytes := (compact.decode bytes).bind fun n ↦ decodeItems f n.1 n.2
  decode_encode := by
    rintro as ⟨hlength, hvalid⟩ rest
    rw [List.append_assoc, compact.decode_encode _ hlength, Option.bind_some,
      decodeItems_flatMap hvalid]
  eq_encode := by
    intro bytes as rest h
    obtain ⟨⟨n, rest'⟩, hn, hitems⟩ := Option.bind_eq_some_iff.mp h
    obtain ⟨hlength, rfl⟩ := compact.eq_encode _ _ _ hn
    obtain ⟨rfl, hvalid, rfl⟩ := eq_flatMap_of_decodeItems hitems
    exact ⟨⟨hlength, hvalid⟩, (List.append_assoc _ _ _).symm⟩

/-- `String`: bytes that are UTF-8. -/
def string : Format (List UInt8) :=
  (list byte).restrict fun bytes ↦ bytes.toByteArray.IsValidUTF8

end Format
