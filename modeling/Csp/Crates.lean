import Mathlib.Order.Lex
import Mathlib.Data.List.Lex
import Csp.Text

/-! The engine's error type, and what it takes from third-party crates. An object id is
the value of a hash, and everything the engine does with one is to compare it, print it,
read it back and store it inside another object. -/

namespace Csp

/-- `CspError`. `abort` is no engine error: the process ends there, by a panic or by
recursion without bound. -/
inductive CspError
  | objectNotFound (oid : Str)
  | malformed (what : Str)
  | io (what : Str)
  | badSignature (what : Str)
  | channelBinding (what : Str)
  | unauthorized (what : Str)
  | foldVerify (what : Str)
  | protocol (what : Str)
  | scope (what : Str)
  | config (what : Str)
  | other (what : Str)
  | abort
  deriving DecidableEq

abbrev CspResult := Except CspError

instance instLinearOrderUInt8 : LinearOrder UInt8 where
  le_refl := UInt8.le_refl
  le_trans _ _ _ := UInt8.le_trans
  le_antisymm _ _ := UInt8.le_antisymm
  le_total := UInt8.le_total
  lt_iff_le_not_ge a b := by
    rw [UInt8.lt_iff_toNat_lt, UInt8.le_iff_toNat_le, UInt8.le_iff_toNat_le]
    omega
  toDecidableLE := inferInstance

def hexValue (c : Char) : Option Nat :=
  let v := c.toNat
  if 48 ≤ v ∧ v ≤ 57 then some (v - 48)
  else if 97 ≤ v ∧ v ≤ 102 then some (v - 87)
  else if 65 ≤ v ∧ v ≤ 70 then some (v - 55)
  else none

/-- A node's stable identity: the 32-byte ed25519 public key. -/
structure NodeId where
  bytes : Bytes
  size : bytes.length = 32
  deriving DecidableEq

theorem NodeId.bytes_injective : Function.Injective NodeId.bytes := by
  rintro ⟨a, ha⟩ ⟨b, hb⟩ h
  simpa using h

instance : LinearOrder NodeId := LinearOrder.lift' NodeId.bytes NodeId.bytes_injective

instance NodeId.transOrd : Std.TransOrd NodeId := inferInstance

instance instTransOrdStrs : Std.TransOrd (List Str) := inferInstance

/-- The hash `sha1` and its digests: ordered bytewise, printed in hex, and embedded raw
in tree objects. `takeRaw` reads the raw form off the head of a byte string; `decodeHex` is
`hex::decode`, with the text of its error, and `ofBytes` takes bytes of the digest's size. -/
class ObjectId (Oid : Type) extends LinearOrder Oid where
  sha1 : Bytes → Oid
  raw : Oid → Bytes
  takeRaw : Bytes → Option (Oid × Bytes)
  toHex : Oid → Str
  decodeHex : Str → Except Str Bytes
  ofBytes : Bytes → Option Oid

def ObjectId.hexToOid {Oid : Type} [ObjectId Oid] (s : Str) : Option Oid :=
  match ObjectId.decodeHex Oid s with
  | .ok b => ObjectId.ofBytes b
  | .error _ => none

instance ObjectId.lawfulBEq {Oid : Type} [ObjectId Oid] : LawfulBEq Oid := inferInstance

instance ObjectId.transOrd {Oid : Type} [ObjectId Oid] : Std.TransOrd Oid := inferInstance

inductive DiffOp
  | equal (oldIndex newIndex len : Nat)
  | delete (oldIndex oldLen newIndex : Nat)
  | insert (oldIndex newIndex newLen : Nat)
  | replace (oldIndex oldLen newIndex newLen : Nat)
  deriving DecidableEq

/-- `hex`, `flate2`, `ed25519-dalek`, `base64`, `similar`, and the header values of `http`:
`from_str` with the text of its error, and `to_str`. A signing key is its seed. -/
class Crates where
  hexEncode : Bytes → Str
  hexDecode : Str → Option Bytes
  deflate : Bytes → Bytes
  inflate : Bytes → Option Bytes
  verifyingKey : Bytes → NodeId
  sign : Bytes → Bytes → Bytes
  verify : NodeId → Bytes → Bytes → Bool
  base64Encode : Bytes → Str
  base64Decode : Str → Option Bytes
  captureDiffSlices : List Bytes → List Bytes → List DiffOp
  headerValue : Str → Except Str Bytes
  headerToStr : Bytes → Option Str

def NodeId.toHex [Crates] (n : NodeId) : Str := Crates.hexEncode n.bytes

def NodeId.fromHex [Crates] (s : Str) : Option NodeId :=
  match Crates.hexDecode s with
  | none => none
  | some v => if h : v.length = 32 then some ⟨v, h⟩ else none

def isHexDigit (c : Char) : Bool := (hexValue c).isSome

/-- What the engine relies on in an object id: a digest read back is the digest written,
in both encodings, and the hash has no collisions. -/
class LawfulObjectId (Oid : Type) [ObjectId Oid] : Prop where
  sha1_injective : Function.Injective (ObjectId.sha1 : Bytes → Oid)
  takeRaw_raw : ∀ (o : Oid) (t : Bytes), ObjectId.takeRaw (ObjectId.raw o ++ t) = some (o, t)
  hexToOid_toHex : ∀ o : Oid, ObjectId.hexToOid (ObjectId.toHex o) = some o
  isHexDigit_toHex : ∀ o : Oid, ∀ c ∈ ObjectId.toHex o, isHexDigit c

/-- A character of the standard base64 alphabet, padding included. -/
def isBase64 (c : Char) : Bool :=
  let v := c.toNat
  (48 ≤ v && v ≤ 57) || (65 ≤ v && v ≤ 90) || (97 ≤ v && v ≤ 122) || v = 43 || v = 47 || v = 61

def isVisible (c : Char) : Bool := 32 ≤ c.toNat && c.toNat < 127

/-- The crates' own round trips, and that a signature verifies under its key. -/
class LawfulCrates [Crates] : Prop where
  hexDecode_encode : ∀ b, Crates.hexDecode (Crates.hexEncode b) = some b
  isHexDigit_encode : ∀ b, ∀ c ∈ Crates.hexEncode b, isHexDigit c
  inflate_deflate : ∀ b, Crates.inflate (Crates.deflate b) = some b
  verify_sign : ∀ k m, Crates.verify (Crates.verifyingKey k) m (Crates.sign k m) = true
  base64Decode_encode : ∀ b, Crates.base64Decode (Crates.base64Encode b) = some b
  isBase64_encode : ∀ b, ∀ c ∈ Crates.base64Encode b, isBase64 c
  headerToStr_headerValue : ∀ s : Str, (∀ c ∈ s, isVisible c) →
    ∃ v, Crates.headerValue s = .ok v ∧ Crates.headerToStr v = some s

export ObjectId (sha1 raw takeRaw toHex)

/-- `Oid::from_hex`. -/
def fromHex {Oid : Type} [ObjectId Oid] (s : Str) : CspResult Oid :=
  match ObjectId.decodeHex Oid s with
  | .error e => .error (.malformed ("bad oid hex ".toList ++ s ++ ": ".toList ++ e))
  | .ok b =>
    match ObjectId.ofBytes b with
    | some o => .ok o
    | none => .error (.malformed ("oid must be 20 bytes, got ".toList ++ decimal b.length))

theorem fromHex_of_hexToOid {Oid : Type} [ObjectId Oid] {s : Str} {o : Oid}
    (h : ObjectId.hexToOid s = some o) :
    fromHex s = .ok o := by
  unfold ObjectId.hexToOid at h
  unfold fromHex
  split at h
  · rename_i b hb
    simp only [hb, h]
  · cases h

end Csp
