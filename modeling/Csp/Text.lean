import Mathlib.Algebra.Ring.Nat
import Mathlib.Data.List.Basic
import Mathlib.Tactic.Common
import Csp.Lib.Split

/-! Rust's `str` and byte-slice operations, as far as the engine uses them. A `String`
is its list of scalar values; its bytes are the UTF-8 encoding. -/

namespace Csp

abbrev Bytes := List UInt8
abbrev Str := List Char

/-- `str::as_bytes`. -/
def utf8 (s : Str) : Bytes := s.flatMap String.utf8EncodeChar

/-! ### Decoding -/

def continuation (b : UInt8) : Bool := 0x80 ≤ b.toNat && b.toNat ≤ 0xBF

/-- The scalar value at the head of a byte string, by the table of well-formed UTF-8
sequences, and what follows it. -/
def utf8Head : Bytes → Option (Char × Bytes)
  | [] => none
  | a :: t =>
    let x := a.toNat
    if x ≤ 0x7F then some (Char.ofNat x, t)
    else if 0xC2 ≤ x ∧ x ≤ 0xDF then
      match t with
      | b :: t =>
        if continuation b then some (Char.ofNat ((x - 0xC0) * 64 + (b.toNat - 0x80)), t) else none
      | [] => none
    else if 0xE0 ≤ x ∧ x ≤ 0xEF then
      match t with
      | b :: c :: t =>
        let v := (x - 0xE0) * 4096 + (b.toNat - 0x80) * 64 + (c.toNat - 0x80)
        if continuation b && continuation c && 0x800 ≤ v && !(0xD800 ≤ v && v ≤ 0xDFFF) then
          some (Char.ofNat v, t)
        else none
      | _ => none
    else if 0xF0 ≤ x ∧ x ≤ 0xF4 then
      match t with
      | b :: c :: d :: t =>
        let v := (x - 0xF0) * 262144 + (b.toNat - 0x80) * 4096 + (c.toNat - 0x80) * 64
          + (d.toNat - 0x80)
        if continuation b && continuation c && continuation d && 0x10000 ≤ v && v ≤ 0x10FFFF then
          some (Char.ofNat v, t)
        else none
      | _ => none
    else none

/-- How many bytes at the head of an ill-formed string one replacement character stands
for: the longest prefix that some well-formed sequence starts with, one byte at least. -/
def illFormedLength : Bytes → Nat
  | a :: b :: t =>
    let x := a.toNat
    let y := b.toNat
    let second :=
      if x = 0xE0 then 0xA0 ≤ y && y ≤ 0xBF
      else if x = 0xED then 0x80 ≤ y && y ≤ 0x9F
      else if x = 0xF0 then 0x90 ≤ y && y ≤ 0xBF
      else if x = 0xF4 then 0x80 ≤ y && y ≤ 0x8F
      else 0xE1 ≤ x && x ≤ 0xF3 && continuation b
    if !second then 1
    else if x ≤ 0xEF then 2
    else match t with
      | c :: _ => if continuation c then 3 else 2
      | [] => 2
  | _ => 1

def fromUtf8Aux : Nat → Bytes → Option Str
  | _, [] => some []
  | 0, _ :: _ => none
  | n + 1, b :: t =>
    match utf8Head (b :: t) with
    | some (c, rest) => (fromUtf8Aux n rest).map (c :: ·)
    | none => none

/-- `std::str::from_utf8`. -/
def fromUtf8 (b : Bytes) : Option Str := fromUtf8Aux b.length b

def fromUtf8LossyAux : Nat → Bytes → Str
  | _, [] => []
  | 0, _ :: _ => []
  | n + 1, b :: t =>
    match utf8Head (b :: t) with
    | some (c, rest) => c :: fromUtf8LossyAux n rest
    | none => Char.ofNat 0xFFFD :: fromUtf8LossyAux n ((b :: t).drop (illFormedLength (b :: t)))

/-- `String::from_utf8_lossy`. -/
def fromUtf8Lossy (b : Bytes) : Str := fromUtf8LossyAux b.length b

/-! ### Lines, trimming, prefixes, numbers -/

/-- `char::is_whitespace` (the Unicode property `White_Space`). -/
def isWhitespace (c : Char) : Bool :=
  let v := c.toNat
  (9 ≤ v && v ≤ 13) || v = 32 || v = 0x85 || v = 0xA0 || v = 0x1680 ||
    (0x2000 ≤ v && v ≤ 0x200A) || v = 0x2028 || v = 0x2029 || v = 0x202F || v = 0x205F || v = 0x3000

def trimStart (s : Str) : Str := s.dropWhile isWhitespace
def trimEnd (s : Str) : Str := (s.reverse.dropWhile isWhitespace).reverse

/-- `str::trim`. -/
def trim (s : Str) : Str := trimEnd (trimStart s)

def stripCr (l : Str) : Str := if l.getLast? = some '\r' then l.dropLast else l

/-- `str::lines`: the last piece is a line only if it is not empty, and only a terminated
line loses a carriage return. -/
def lines (s : Str) : List Str :=
  let pieces := Split.splitOn '\n' s
  match pieces.getLast? with
  | none => []
  | some last => pieces.dropLast.map stripCr ++ (if last = [] then [] else [last])

/-- `str::strip_prefix`. -/
def stripPrefix (p s : Str) : Option Str := if p <+: s then some (s.drop p.length) else none

/-- `str::strip_suffix`. -/
def stripSuffix (p s : Str) : Option Str :=
  if p <:+ s then some (s.take (s.length - p.length)) else none

/-- `{}` of an unsigned integer. -/
def decimal (n : Nat) : Str := Nat.toDigits 10 n

def dropPlus : Str → Str
  | '+' :: t => t
  | t => t

/-- `str::parse` to an unsigned integer with values below `bound`; one leading `+` is
allowed. -/
def parseUnsigned (bound : Nat) (s : Str) : Option Nat :=
  let ds := dropPlus s
  if ds = [] then none
  else if ds.all Char.isDigit then
    let n := Nat.ofDigitChars 10 ds 0
    if n < bound then some n else none
  else none

/-- `str::parse::<u64>`. -/
def parseU64 : Str → Option Nat := parseUnsigned (2 ^ 64)

/-- The first word of `str::split_whitespace`, if there is one. -/
def firstWord (s : Str) : Option Str :=
  match trimStart s with
  | [] => none
  | t => some (t.takeWhile (!isWhitespace ·))

/-! ### What encoding and parsing undo -/

@[simp] theorem utf8_nil : utf8 [] = [] := rfl

@[simp] theorem utf8_cons (c : Char) (s : Str) :
    utf8 (c :: s) = String.utf8EncodeChar c ++ utf8 s := rfl

@[simp] theorem utf8_append (s t : Str) : utf8 (s ++ t) = utf8 s ++ utf8 t :=
  List.flatMap_append

theorem toNat_ofNat_of_lt {n : Nat} (h : n < 256) : (UInt8.ofNat n).toNat = n := by
  simp only [UInt8.toNat_ofNat', Nat.reducePow]
  omega

theorem utf8Head_encode (c : Char) (t : Bytes) :
    utf8Head (String.utf8EncodeChar c ++ t) = some (c, t) := by
  have hv : c.val.toNat < 0xD800 ∨ 0xDFFF < c.val.toNat ∧ c.val.toNat < 0x110000 := by
    simpa [UInt32.isValidChar, Nat.isValidChar] using c.valid
  have hc : Char.ofNat c.val.toNat = c := Char.ofNat_toNat c
  generalize hn : c.val.toNat = v at hv hc
  unfold String.utf8EncodeChar
  simp only [hn]
  split_ifs with h1 h2 h3
  · simp only [List.cons_append, List.nil_append, utf8Head, toNat_ofNat_of_lt (by omega : v < 256),
      if_pos h1, hc]
  · have ha : (UInt8.ofNat (v / 64 % 32 + 192)).toNat = v / 64 % 32 + 192 :=
      toNat_ofNat_of_lt (by omega)
    have hb : (UInt8.ofNat (v % 64 + 128)).toNat = v % 64 + 128 := toNat_ofNat_of_lt (by omega)
    have hcb : continuation (UInt8.ofNat (v % 64 + 128)) = true := by
      simp only [continuation, hb, Bool.and_eq_true, decide_eq_true_eq]; omega
    have he : (v / 64 % 32 + 192 - 192) * 64 + (v % 64 + 128 - 128) = v := by omega
    simp only [List.cons_append, List.nil_append, utf8Head, ha, hb, hcb, if_true,
      if_neg (by omega : ¬ v / 64 % 32 + 192 ≤ 127),
      if_pos (by omega : 194 ≤ v / 64 % 32 + 192 ∧ v / 64 % 32 + 192 ≤ 223), he, hc]
  · have ha : (UInt8.ofNat (v / 4096 % 16 + 224)).toNat = v / 4096 % 16 + 224 :=
      toNat_ofNat_of_lt (by omega)
    have hb : (UInt8.ofNat (v / 64 % 64 + 128)).toNat = v / 64 % 64 + 128 :=
      toNat_ofNat_of_lt (by omega)
    have hd : (UInt8.ofNat (v % 64 + 128)).toNat = v % 64 + 128 := toNat_ofNat_of_lt (by omega)
    have hcb : continuation (UInt8.ofNat (v / 64 % 64 + 128)) = true := by
      simp only [continuation, hb, Bool.and_eq_true, decide_eq_true_eq]; omega
    have hcd : continuation (UInt8.ofNat (v % 64 + 128)) = true := by
      simp only [continuation, hd, Bool.and_eq_true, decide_eq_true_eq]; omega
    have he : (v / 4096 % 16 + 224 - 224) * 4096 + (v / 64 % 64 + 128 - 128) * 64
        + (v % 64 + 128 - 128) = v := by omega
    have hok : (decide (2048 ≤ v) && !(decide (55296 ≤ v) && decide (v ≤ 57343))) = true := by
      simp only [Bool.and_eq_true, Bool.not_eq_true', Bool.and_eq_false_iff, decide_eq_true_eq,
        decide_eq_false_iff_not]
      omega
    simp only [List.cons_append, List.nil_append, utf8Head, ha, hb, hd, hcb, hcd, he,
      if_neg (by omega : ¬ v / 4096 % 16 + 224 ≤ 127),
      if_neg (by omega : ¬ (194 ≤ v / 4096 % 16 + 224 ∧ v / 4096 % 16 + 224 ≤ 223)),
      if_pos (by omega : 224 ≤ v / 4096 % 16 + 224 ∧ v / 4096 % 16 + 224 ≤ 239),
      Bool.true_and, hok, if_true, hc]
  · have ha : (UInt8.ofNat (v / 262144 % 8 + 240)).toNat = v / 262144 % 8 + 240 :=
      toNat_ofNat_of_lt (by omega)
    have hb : (UInt8.ofNat (v / 4096 % 64 + 128)).toNat = v / 4096 % 64 + 128 :=
      toNat_ofNat_of_lt (by omega)
    have hd : (UInt8.ofNat (v / 64 % 64 + 128)).toNat = v / 64 % 64 + 128 :=
      toNat_ofNat_of_lt (by omega)
    have he : (UInt8.ofNat (v % 64 + 128)).toNat = v % 64 + 128 := toNat_ofNat_of_lt (by omega)
    have hcb : continuation (UInt8.ofNat (v / 4096 % 64 + 128)) = true := by
      simp only [continuation, hb, Bool.and_eq_true, decide_eq_true_eq]; omega
    have hcd : continuation (UInt8.ofNat (v / 64 % 64 + 128)) = true := by
      simp only [continuation, hd, Bool.and_eq_true, decide_eq_true_eq]; omega
    have hce : continuation (UInt8.ofNat (v % 64 + 128)) = true := by
      simp only [continuation, he, Bool.and_eq_true, decide_eq_true_eq]; omega
    have hval : (v / 262144 % 8 + 240 - 240) * 262144 + (v / 4096 % 64 + 128 - 128) * 4096
        + (v / 64 % 64 + 128 - 128) * 64 + (v % 64 + 128 - 128) = v := by omega
    have hok : (decide (65536 ≤ v) && decide (v ≤ 1114111)) = true := by
      simp only [Bool.and_eq_true, decide_eq_true_eq]; omega
    simp only [List.cons_append, List.nil_append, utf8Head, ha, hb, hd, he, hcb, hcd, hce, hval,
      if_neg (by omega : ¬ v / 262144 % 8 + 240 ≤ 127),
      if_neg (by omega : ¬ (194 ≤ v / 262144 % 8 + 240 ∧ v / 262144 % 8 + 240 ≤ 223)),
      if_neg (by omega : ¬ (224 ≤ v / 262144 % 8 + 240 ∧ v / 262144 % 8 + 240 ≤ 239)),
      if_pos (by omega : 240 ≤ v / 262144 % 8 + 240 ∧ v / 262144 % 8 + 240 ≤ 244),
      Bool.true_and, hok, if_true, hc]

end Csp
