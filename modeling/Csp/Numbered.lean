import Csp.Small

/-! Ids that number the objects of a scenario, so that they stay short however deep the
history is. Objects that are not listed get a number of their own. -/

namespace Csp.Small

/-- Ids for a scenario whose objects have the listed frames. -/
def Num (_frames : List Bytes) : Type := Nat
  deriving DecidableEq

variable {frames : List Bytes}

instance : LinearOrder (Num frames) := inferInstanceAs (LinearOrder Nat)
instance (n : Nat) : OfNat (Num frames) n := ⟨(n : Nat)⟩

def number (frames : List Bytes) (b : Bytes) : Nat :=
  if frames.idxOf b < frames.length then frames.idxOf b else frames.length + code b

theorem number_injective : Function.Injective (number frames) := by
  intro a b h
  unfold number at h
  by_cases ha : frames.idxOf a < frames.length
  · rw [if_pos ha] at h
    split_ifs at h
    · exact (List.idxOf_inj (List.idxOf_lt_length_iff.mp ha)).mp h
    · omega
  · rw [if_neg ha] at h
    split_ifs at h
    · omega
    · exact code_injective (by omega)

def toNum (s : Str) : Num frames := Nat.ofDigitChars 10 s 0

instance : ObjectId (Num frames) where
  sha1 := number frames
  raw o := utf8 (decimal o) ++ [0]
  takeRaw b := match Split.cut 0 b with
    | some (h, t) => (fromUtf8 h).map fun s => (toNum s, t)
    | none => none
  toHex := decimal
  decodeHex s := .ok (utf8 s)
  ofBytes b := (fromUtf8 b).map toNum

theorem toNum_decimal (n : Nat) : (toNum (decimal n) : Num frames) = n :=
  Nat.ofDigitChars_ten_toDigits

instance : LawfulObjectId (Num frames) where
  sha1_injective := number_injective
  takeRaw_raw o t := by
    have h : (0 : UInt8) ∉ utf8 (decimal o) :=
      notMem_utf8 (n := 0) (by decide) (notMem_decimal (by decide) o)
    have hcut := Split.cut_append h t
    simp only [ObjectId.takeRaw, ObjectId.raw, List.append_assoc, List.cons_append, List.nil_append,
      hcut, fromUtf8_utf8, Option.map_some]
    exact congrArg (fun d => some (d, t)) (toNum_decimal o)
  hexToOid_toHex o := by
    simp only [ObjectId.hexToOid, ObjectId.decodeHex, ObjectId.ofBytes, ObjectId.toHex,
      fromUtf8_utf8, Option.map_some]
    exact congrArg some (toNum_decimal o)
  isHexDigit_toHex o c hc := by
    have hd : c.isDigit = true := isDigit_of_mem_decimal hc
    simp only [Char.isDigit, Bool.and_eq_true, decide_eq_true_eq] at hd
    have h1 : 48 ≤ c.toNat := hd.1
    have h2 : c.toNat ≤ 57 := hd.2
    simp [isHexDigit, hexValue, h1, h2]

end Csp.Small
