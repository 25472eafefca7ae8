import Csp.PrimitiveFacts

/-! Small crates: an injective hash that is a number, a store format that does not
compress, and a signature that is a checksum. The laws that the engine relies on hold of
them, and the model can be evaluated on them. -/

namespace Csp

namespace Small

/-- An object id: a number whose digits in base 256, after a leading 1, are the bytes. -/
def Digest : Type := Nat
  deriving DecidableEq

instance : LinearOrder Digest := inferInstanceAs (LinearOrder Nat)

def code (b : Bytes) : Nat := b.foldl (fun n x => n * 256 + x.toNat) 1

theorem code_injective : Function.Injective code := by
  have step : ∀ (a b : Bytes) (x y : UInt8), code (a ++ [x]) = code (b ++ [y]) →
      code a = code b ∧ x = y := by
    intro a b x y h
    simp only [code, List.foldl_append, List.foldl_cons, List.foldl_nil] at h
    have hx := x.toNat_lt
    have hy := y.toNat_lt
    exact ⟨by unfold code; omega, UInt8.toNat_inj.mp (by omega)⟩
  have pos : ∀ a : Bytes, 1 ≤ code a := by
    intro a
    induction a using List.reverseRecOn with
    | nil => decide
    | append_singleton a x ih =>
      simp only [code, List.foldl_append, List.foldl_cons, List.foldl_nil] at ih ⊢
      omega
  have long : ∀ (a : Bytes) (x : UInt8), code (a ++ [x]) ≠ 1 := by
    intro a x
    have := pos a
    simp only [code, List.foldl_append, List.foldl_cons, List.foldl_nil] at this ⊢
    omega
  intro a b h
  induction a using List.reverseRecOn generalizing b with
  | nil =>
    rcases List.eq_nil_or_concat b with rfl | ⟨b, y, rfl⟩
    · rfl
    · rw [List.concat_eq_append] at h
      exact absurd h.symm (long b y)
  | append_singleton a x ih =>
    rcases List.eq_nil_or_concat b with rfl | ⟨b, y, rfl⟩
    · exact absurd h (long a x)
    · rw [List.concat_eq_append] at h ⊢
      obtain ⟨hc, rfl⟩ := step a b x y h
      rw [ih hc]

def toDigest (s : Str) : Digest := Nat.ofDigitChars 10 s 0

instance : ObjectId Digest where
  sha1 := code
  raw o := utf8 (decimal o) ++ [0]
  takeRaw b := match Split.cut 0 b with
    | some (h, t) => (fromUtf8 h).map fun s => (toDigest s, t)
    | none => none
  toHex := decimal
  decodeHex s := .ok (utf8 s)
  ofBytes b := (fromUtf8 b).map toDigest

theorem toDigest_decimal (n : Nat) : toDigest (decimal n) = n := Nat.ofDigitChars_ten_toDigits

instance : LawfulObjectId Digest where
  sha1_injective := code_injective
  takeRaw_raw o t := by
    have h : (0 : UInt8) ∉ utf8 (decimal o) :=
      notMem_utf8 (n := 0) (by decide) (notMem_decimal (by decide) o)
    have hcut := Split.cut_append h t
    simp only [ObjectId.takeRaw, ObjectId.raw, List.append_assoc, List.cons_append, List.nil_append,
      hcut, fromUtf8_utf8, Option.map_some]
    exact congrArg (fun d => some (d, t)) (toDigest_decimal o)
  hexToOid_toHex o := by
    simp only [ObjectId.hexToOid, ObjectId.decodeHex, ObjectId.ofBytes, ObjectId.toHex,
      fromUtf8_utf8, Option.map_some]
    exact congrArg some (toDigest_decimal o)
  isHexDigit_toHex o c hc := by
    have hd : c.isDigit = true := isDigit_of_mem_decimal hc
    simp only [Char.isDigit, Bool.and_eq_true, decide_eq_true_eq] at hd
    have h1 : 48 ≤ c.toNat := hd.1
    have h2 : c.toNat ≤ 57 := hd.2
    simp [isHexDigit, hexValue, h1, h2]

def key (seed : Bytes) : NodeId := ⟨(seed ++ List.replicate 32 0).take 32, by simp⟩

def tag (n : NodeId) (m : Bytes) : Bytes := [n.bytes.headD 0, m.foldl (· + ·) 0]

def matching : Nat → Nat → Nat → List Bytes → List Bytes → List (Nat × Nat)
  | n + 1, i, j, a :: as, b :: bs =>
    if a = b then (i, j) :: matching n (i + 1) (j + 1) as bs
    else
      let l := matching n (i + 1) j as (b :: bs)
      let r := matching n i (j + 1) (a :: as) bs
      if r.length ≤ l.length then l else r
  | _, _, _, _, _ => []

def hexByte (b : UInt8) : Str := [Nat.digitChar (b.toNat / 16), Nat.digitChar (b.toNat % 16)]

/-- Two lower-case digits a byte. -/
def hexEncode (b : Bytes) : Str := b.flatMap hexByte

/-- Digits of either case, two a byte. -/
def hexDecode : Str → Option Bytes
  | [] => some []
  | a :: b :: s =>
    match hexValue a, hexValue b, hexDecode s with
    | some x, some y, some t => some (UInt8.ofNat (16 * x + y) :: t)
    | _, _, _ => none
  | [_] => none

theorem isHexDigit_of_mem_hexEncode {b : Bytes} {c : Char} (h : c ∈ hexEncode b) :
    isHexDigit c = true := by
  obtain ⟨x, -, hx⟩ := List.mem_flatMap.mp h
  have key : ∀ n < 16, isHexDigit (Nat.digitChar n) = true := by decide
  have := x.toNat_lt
  rcases List.mem_pair.mp hx with rfl | rfl
  · exact key _ (by omega)
  · exact key _ (by omega)

theorem hexDecode_hexEncode (b : Bytes) : hexDecode (hexEncode b) = some b := by
  have key : ∀ x : UInt8, hexValue (Nat.digitChar (x.toNat / 16)) = some (x.toNat / 16) ∧
      hexValue (Nat.digitChar (x.toNat % 16)) = some (x.toNat % 16) := by
    intro x
    have h : ∀ n < 16, hexValue (Nat.digitChar n) = some n := by decide
    have := x.toNat_lt
    exact ⟨h _ (by omega), h _ (by omega)⟩
  induction b with
  | nil => rfl
  | cons x b ih =>
    have hx : UInt8.ofNat (16 * (x.toNat / 16) + x.toNat % 16) = x := by
      rw [Nat.div_add_mod, UInt8.ofNat_toNat]
    rw [hexEncode, List.flatMap_cons, hexByte]
    simp only [List.cons_append, List.nil_append, hexDecode, key]
    rw [← hexEncode, ih]
    simp [hx]

scoped instance : Crates where
  hexEncode := hexEncode
  hexDecode := hexDecode
  deflate b := b
  inflate b := some b
  verifyingKey := key
  sign seed m := tag (key seed) m
  verify n m sig := sig = tag n m
  base64Encode := hexEncode
  base64Decode := hexDecode
  captureDiffSlices a b :=
    (matching (a.length + b.length) 0 0 a b).map fun (i, j) => .equal i j 1
  headerValue s :=
    if s.all isVisible then .ok (utf8 s) else .error "failed to parse header value".toList
  headerToStr := fromUtf8

scoped instance : LawfulCrates where
  hexDecode_encode := hexDecode_hexEncode
  isHexDigit_encode _ _ := isHexDigit_of_mem_hexEncode
  inflate_deflate _ := rfl
  verify_sign _ _ := decide_eq_true rfl
  base64Decode_encode := hexDecode_hexEncode
  isBase64_encode b c hc := by
    obtain ⟨x, -, hx⟩ := List.mem_flatMap.mp hc
    have h : ∀ n < 16, isBase64 (Nat.digitChar n) = true := by decide
    have := x.toNat_lt
    rcases List.mem_pair.mp hx with rfl | rfl
    · exact h _ (by omega)
    · exact h _ (by omega)
  headerToStr_headerValue s hs := ⟨utf8 s, if_pos (List.all_eq_true.mpr hs), fromUtf8_utf8 s⟩

end Small

end Csp
