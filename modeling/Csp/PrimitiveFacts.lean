import Csp.Codec
import Csp.Primitive

/-! A primitive that is built carries its counter, its node and its re-adds in its message,
verifies under its node, and can be framed. -/

namespace Csp
open Result
variable {Oid : Type}

/-! ### Messages by lines -/

theorem stripCr_eq_self {l : Str} (h : l.getLast? ≠ some '\r') : stripCr l = l := by
  rw [stripCr, if_neg h]

theorem lines_terminated {ls : List Str} (h : ∀ l ∈ ls, '\n' ∉ l ∧ l.getLast? ≠ some '\r') :
    lines (ls.flatMap fun l => l ++ ['\n']) = ls := by
  have hsplit : Split.splitOn '\n' (ls.flatMap fun l => l ++ ['\n']) = ls ++ [[]] := by
    induction ls with
    | nil => rfl
    | cons l ls ih =>
      rw [List.flatMap_cons, List.append_assoc, List.singleton_append,
        Split.splitOn_append_sep (h l List.mem_cons_self).1,
        ih fun l hl => h l (List.mem_cons_of_mem _ hl)]
      rfl
  have hmap : ls.map stripCr = ls := by
    rw [List.map_congr_left fun l hl => stripCr_eq_self (h l hl).2, List.map_id']
  simp [lines, hsplit, hmap]

theorem lines_append_newline (s t : Str) :
    lines (s ++ '\n' :: t) = (Split.splitOn '\n' s).map stripCr ++ lines t := by
  have hne := Split.splitOn_ne_nil '\n' t
  obtain ⟨last, hlast⟩ := Option.ne_none_iff_exists'.mp (mt List.getLast?_eq_none_iff.mp hne)
  rw [lines, lines, Split.splitOn_append]
  simp only [List.getLast?_append, hlast, Option.some_or, List.dropLast_append_of_ne_nil hne,
    List.map_append,
    List.append_assoc]

theorem notMem_append_of {c : Char} {a b : Str} (ha : c ∉ a) (hb : c ∉ b) : c ∉ a ++ b := by
  rw [List.mem_append, not_or]
  exact ⟨ha, hb⟩

theorem stripPrefix_of_take_ne {p q : Str} (n : Nat) (hp : n ≤ p.length) (hq : n ≤ q.length)
    (h : p.take n ≠ q.take n) (t : Str) : stripPrefix p (q ++ t) = none := by
  rw [stripPrefix, if_neg]
  rintro ⟨r, hr⟩
  apply h
  have := congrArg (List.take n) hr
  rwa [List.take_append_of_le_length hp, List.take_append_of_le_length hq] at this

def NoReadd (subject : Str) : Prop := ∀ l ∈ lines subject, stripPrefix readdTrailer l = none

instance (subject : Str) : Decidable (NoReadd subject) :=
  inferInstanceAs (Decidable (∀ l ∈ lines subject, _))

theorem noReadd_edit : NoReadd "ctx edit".toList := by decide

section Hex
variable [Crates] [LawfulCrates]

theorem NodeId.fromHex_toHex (n : NodeId) : NodeId.fromHex n.toHex = some n := by
  rw [fromHex, toHex, LawfulCrates.hexDecode_encode]
  simp [n.size]

theorem notMem_nodeHex {c : Char} (hc : isHexDigit c = false) (n : NodeId) : c ∉ n.toHex := by
  intro h
  simp [LawfulCrates.isHexDigit_encode n.bytes c h] at hc

theorem trim_nodeHex (n : NodeId) : trim n.toHex = n.toHex :=
  trim_eq_self (trimmed_of_all fun c hc => isWhitespace_of_isHexDigit
    (LawfulCrates.isHexDigit_encode n.bytes c hc))

end Hex

theorem trim_decimal (n : Nat) : trim (decimal n) = decimal n :=
  trim_eq_self (trimmed_of_all fun _ hc => isWhitespace_of_isDigit (isDigit_of_mem_decimal hc))

theorem isWhitespace_of_isBase64 {c : Char} (h : isBase64 c = true) : isWhitespace c = false := by
  simp only [isBase64, Bool.or_eq_true, Bool.and_eq_true, decide_eq_true_eq] at h
  simp only [isWhitespace, Bool.or_eq_false_iff, Bool.and_eq_false_iff, decide_eq_false_iff_not]
  omega

section Built
variable [ObjectId Oid] [Crates]

def bodyLines (node : NodeId) (counter : Nat) (subject : Str) (readds : List Oid) : List Str :=
  [subject, [], "CSP-Counter: ".toList ++ decimal counter, "CSP-Node: ".toList ++ node.toHex] ++
    readds.map fun r => readdTrailer ++ toHex r

theorem primitiveBody_eq (node : NodeId) (counter : Nat) (subject : Str) (readds : List Oid) :
    primitiveBody node counter subject readds =
      (bodyLines node counter subject readds).flatMap fun l => l ++ ['\n'] := by
  simp [primitiveBody, bodyLines, List.flatMap_map]

variable [LawfulObjectId Oid]

theorem noNewline_bodyLines [LawfulCrates] {node : NodeId} {counter : Nat} {subject : Str}
    {readds : List Oid} {l : Str} (hl : l ∈ (bodyLines node counter subject readds).tail) :
    '\n' ∉ l ∧ l.getLast? ≠ some '\r' := by
  have key : ∀ l : Str, '\n' ∉ l → '\r' ∉ l → '\n' ∉ l ∧ l.getLast? ≠ some '\r' :=
    fun l hn hr => ⟨hn, fun h => hr (List.mem_of_getLast? h)⟩
  rw [bodyLines, List.cons_append, List.tail_cons, List.mem_append, List.mem_map] at hl
  rcases hl with hl | ⟨r, -, rfl⟩
  · simp only [List.mem_cons, List.not_mem_nil, or_false] at hl
    rcases hl with rfl | rfl | rfl
    · exact key _ List.not_mem_nil List.not_mem_nil
    · exact key _ (notMem_append_of (by decide) (notMem_decimal (by decide) _))
        (notMem_append_of (by decide) (notMem_decimal (by decide) _))
    · exact key _ (notMem_append_of (by decide) (notMem_nodeHex (by decide) _))
        (notMem_append_of (by decide) (notMem_nodeHex (by decide) _))
  · exact key _ (notMem_append_of (by decide) (notMem_toHex (by decide) _))
      (notMem_append_of (by decide) (notMem_toHex (by decide) _))

omit [LawfulObjectId Oid] in
theorem metaLine_readd (m : Option Nat × Option NodeId) (r : Oid) :
    metaLine m (readdTrailer ++ toHex r) = m := by
  rw [metaLine, stripPrefix_of_take_ne 5 (by decide) (by decide) (by decide),
    stripPrefix_of_take_ne 5 (by decide) (by decide) (by decide)]

theorem metaLine_sig (m : Option Nat × Option NodeId) (sig : Str) :
    metaLine m (sigTrailer ++ sig) = m := by
  rw [metaLine, stripPrefix_of_take_ne 5 (by decide) (by decide) (by decide),
    stripPrefix_of_take_ne 5 (by decide) (by decide) (by decide)]

theorem foldl_metaLine_id {ls : List Str} (h : ∀ l ∈ ls, ∀ m, metaLine m l = m)
    (m : Option Nat × Option NodeId) : ls.foldl metaLine m = m := by
  induction ls generalizing m with
  | nil => rfl
  | cons l ls ih =>
    rw [List.foldl_cons, h l List.mem_cons_self]
    exact ih (fun l hl => h l (List.mem_cons_of_mem _ hl)) m

omit [LawfulObjectId Oid] in
/-- The trailer that is read is the one that was written, whatever the lines before it say. -/
theorem foldl_metaLine_body [LawfulCrates] {node : NodeId} {counter : Nat}
    (hc : counter < 2 ^ 64) (subject : Str) (readds : List Oid) (m : Option Nat × Option NodeId) :
    (bodyLines node counter subject readds).tail.foldl metaLine m = (some counter, some node) := by
  have h1 : ∀ m, metaLine m [] = m := fun m => rfl
  have h2 : metaLine m ("CSP-Counter: ".toList ++ decimal counter) = (some counter, m.2) := by
    rw [metaLine, stripPrefix_append]
    simp only [trim_decimal, parseU64, parseUnsigned_decimal hc]
  have h3 : metaLine (some counter, m.2) ("CSP-Node: ".toList ++ node.toHex) =
      (some counter, some node) := by
    have hno : stripPrefix "CSP-Counter: ".toList ("CSP-Node: ".toList ++ node.toHex) = none := by
      simp [stripPrefix]
    rw [metaLine, hno, stripPrefix_append]
    simp only [trim_nodeHex, NodeId.fromHex_toHex]
  rw [bodyLines, List.cons_append, List.tail_cons, List.foldl_append]
  simp only [List.foldl_cons, List.foldl_nil, h1, h2, h3]
  refine foldl_metaLine_id (fun l hl m => ?_) _
  obtain ⟨r, -, rfl⟩ := List.mem_map.mp hl
  exact metaLine_readd m r

def signedLines (id : Identity) (tree parent : Oid) (counter wallTime : Nat) (subject : Str)
    (readds : List Oid) : List Str :=
  bodyLines id.nodeId counter subject readds ++
    [sigTrailer ++ Crates.base64Encode (id.sign
      (GitObject.commit (unsignedPrimitive id tree parent counter wallTime subject
        readds)).payload)]

def signedPrimitive (id : Identity) (tree parent : Oid) (counter wallTime : Nat) (subject : Str)
    (readds : List Oid) : CommitObj Oid :=
  { unsignedPrimitive id tree parent counter wallTime subject readds with
    message := (signedLines id tree parent counter wallTime subject readds).flatMap fun l =>
    l ++ ['\n'] }

omit [LawfulObjectId Oid] in
theorem buildPrimitiveWithReadd_eq (id : Identity) (tree parent : Oid) (counter wallTime : Nat)
    (subject : Str) (readds : List Oid) :
    buildPrimitiveWithReadd id tree parent counter wallTime subject readds =
      .commit (signedPrimitive id tree parent counter wallTime subject readds) := by
  simp only [buildPrimitiveWithReadd, signedPrimitive, signedLines, List.flatMap_append,
    ← primitiveBody_eq, List.flatMap_cons, List.flatMap_nil, List.append_nil, List.append_assoc]
  rfl

omit [LawfulObjectId Oid] in
theorem message_signed (id : Identity) (tree parent : Oid) (counter wallTime : Nat) (subject : Str)
    (readds : List Oid) :
    (signedPrimitive id tree parent counter wallTime subject readds).message =
      (unsignedPrimitive id tree parent counter wallTime subject readds).message ++
        (sigTrailer ++ Crates.base64Encode (id.sign (GitObject.commit
          (unsignedPrimitive id tree parent counter wallTime subject readds)).payload) ++
          ['\n']) := by
  simp only [signedPrimitive, signedLines, List.flatMap_append, ← primitiveBody_eq,
    List.flatMap_cons,
    List.flatMap_nil, List.append_nil]
  rfl

variable [LawfulCrates]

theorem notMem_base64 {c : Char} (hc : isBase64 c = false) (b : Bytes) :
    c ∉ Crates.base64Encode b := by
  intro h
  simp [LawfulCrates.isBase64_encode b c h] at hc

theorem lines_signed (id : Identity) (tree parent : Oid) (counter wallTime : Nat) (subject : Str)
    (readds : List Oid) :
    lines (signedPrimitive id tree parent counter wallTime subject readds).message =
      (Split.splitOn '\n' subject).map stripCr ++
        (signedLines id tree parent counter wallTime subject readds).tail := by
  have hmsg : (signedPrimitive id tree parent counter wallTime subject readds).message =
      subject ++ '\n' :: (signedLines id tree parent counter wallTime subject readds).tail.flatMap
      fun l => l ++ ['\n'] := by
    rw [signedPrimitive, signedLines, bodyLines]
    simp only [List.cons_append, List.flatMap_cons, List.tail_cons, List.append_assoc,
      List.nil_append]
  rw [hmsg, lines_append_newline, lines_terminated]
  intro l hl
  rw [signedLines, bodyLines, List.cons_append, List.cons_append, List.tail_cons] at hl
  rcases List.mem_append.mp hl with hl | hl
  · have hbody : l ∈ (bodyLines id.nodeId counter subject readds).tail := hl
    exact noNewline_bodyLines hbody
  · rw [List.mem_singleton] at hl
    subst hl
    refine ⟨notMem_append_of (by decide) (notMem_base64 (by decide) _), fun h => ?_⟩
    exact notMem_append_of (by decide) (notMem_base64 (by decide) _) (List.mem_of_getLast? h)

omit [LawfulObjectId Oid] [LawfulCrates] in
theorem tail_signedLines (id : Identity) (tree parent : Oid) (counter wallTime : Nat)
    (subject : Str) (readds : List Oid) : (signedLines id tree parent counter wallTime subject
      readds).tail =
      (bodyLines id.nodeId counter subject readds).tail ++
      [sigTrailer ++ Crates.base64Encode (id.sign
        (GitObject.commit (unsignedPrimitive id tree parent counter wallTime subject
          readds)).payload)] := rfl

theorem parsePrimitiveMeta_signed (id : Identity) (tree parent : Oid) {counter : Nat}
    (hc : counter < 2 ^ 64) (wallTime : Nat) (subject : Str) (readds : List Oid) :
    parsePrimitiveMeta (signedPrimitive id tree parent counter wallTime subject readds) =
      some (counter, id.nodeId) := by
  rw [parsePrimitiveMeta, messageMeta, lines_signed, tail_signedLines, List.foldl_append,
    List.foldl_append,
    foldl_metaLine_body hc, List.foldl_cons, List.foldl_nil, metaLine_sig]

theorem isPrimitive_signed (id : Identity) (tree parent : Oid) {counter : Nat}
    (hc : counter < 2 ^ 64) (wallTime : Nat) (subject : Str) (readds : List Oid) :
    isPrimitive (signedPrimitive id tree parent counter wallTime subject readds) = true := by
  rw [isPrimitive, parsePrimitiveMeta_signed id tree parent hc]
  rfl

omit [LawfulObjectId Oid] [LawfulCrates] in
theorem verifyPrimitive_ok_of {c : CommitObj Oid} {counter : Nat} {node : NodeId}
    {b : Str} (pre : Str) (sig : Bytes) (hmeta : parsePrimitiveMeta c = some (counter, node))
    (hlast : (lines c.message).reverse.find? (fun l => sigTrailer.isPrefixOf l) = some
      (sigTrailer ++ b))
    (hsig : Crates.base64Decode (trim b) = some sig)
    (hpre : stripSuffix (sigTrailer ++ b ++ ['\n']) c.message = some pre)
    (hver : Crates.verify node (GitObject.commit { c with message := pre }).payload sig = true) :
    verifyPrimitive c = .ok node := by
  simp only [verifyPrimitive, hmeta, hlast, List.drop_left, hsig, hpre, hver, if_true]

omit [LawfulCrates] [LawfulObjectId Oid] [ObjectId Oid] [Crates] in
theorem stripSuffix_append (p s : Str) : stripSuffix p (s ++ p) = some s := by
  rw [stripSuffix, if_pos (List.suffix_append s p), List.length_append, Nat.add_sub_cancel,
    List.take_left]

theorem trim_base64 (b : Bytes) : trim (Crates.base64Encode b) = Crates.base64Encode b :=
  trim_eq_self (trimmed_of_all fun _ hc => isWhitespace_of_isBase64
      (LawfulCrates.isBase64_encode b _ hc))

theorem verifyPrimitive_signed (id : Identity) (tree parent : Oid) {counter : Nat}
    (hc : counter < 2 ^ 64) (wallTime : Nat) (subject : Str) (readds : List Oid) :
    verifyPrimitive (signedPrimitive id tree parent counter wallTime subject readds) =
    .ok id.nodeId := by
  refine verifyPrimitive_ok_of (b := Crates.base64Encode (id.sign
      (GitObject.commit (unsignedPrimitive id tree parent counter wallTime subject
        readds)).payload))
    (unsignedPrimitive id tree parent counter wallTime subject readds).message
    (id.sign (GitObject.commit (unsignedPrimitive id tree parent counter wallTime subject
      readds)).payload)
    (parsePrimitiveMeta_signed id tree parent hc wallTime subject readds) ?_
    (by rw [trim_base64, LawfulCrates.base64Decode_encode]) ?_ (LawfulCrates.verify_sign _ _)
  · rw [lines_signed, tail_signedLines, ← List.append_assoc, List.reverse_append, List.reverse_singleton,
      List.singleton_append, List.find?_cons_of_pos]
    exact List.isPrefixOf_iff_prefix.mpr (List.prefix_append _ _)
  · rw [message_signed, stripSuffix_append]

omit [LawfulObjectId Oid] in
theorem encodable_signedPrimitive (id : Identity) (tree parent : Oid) (counter : Nat)
    {wallTime : Nat} (hw : wallTime < 2 ^ 64) (subject : Str) (readds : List Oid) :
    (signedPrimitive id tree parent counter wallTime subject readds).Encodable := by
  have hno : ∀ c : Char, isHexDigit c = false → c ∉ id.nodeId.toHex :=
    fun c hc => notMem_nodeHex hc _
  have htake : ∀ c : Char, isHexDigit c = false → c ∉ id.nodeId.toHex.take 16 := fun c hc h =>
    hno c hc (List.mem_of_mem_take h)
  have hline : IdentEncodable id.nodeId.toHex (id.nodeId.toHex.take 16 ++ "@csp".toList) wallTime :=
    { trimmed := trimmed_of_all fun c hc => isWhitespace_of_isHexDigit
        (LawfulCrates.isHexDigit_encode id.nodeId.bytes c hc)
      noLt := hno _ (by decide)
      noGt := hno _ (by decide)
      emailNoGt := notMem_append_of (htake _ (by decide)) (by decide)
      noNewline :=
        notMem_append_of (hno _ (by decide)) (notMem_append_of (htake _ (by decide)) (by decide))
      time_lt := hw }
  exact ⟨hline, hline⟩

/-- The deletion that a line names, if it is a re-add trailer. -/
def readdOf (line : Str) : Option Oid :=
  match stripPrefix readdTrailer line with
  | some v => (fromHex (trim v)).toOption
  | none => none

omit [LawfulObjectId Oid] [LawfulCrates] [Crates] in
theorem parsePrimitiveReadds_eq (c : CommitObj Oid) :
    parsePrimitiveReadds c = (lines c.message).filterMap readdOf := rfl

omit [LawfulCrates] [Crates] in
theorem readdOf_trailer (r : Oid) : readdOf (readdTrailer ++ toHex r) = some r := by
  rw [readdOf, stripPrefix_append]
  simp only [fromHex_trim_toHex]
  rfl

omit [LawfulObjectId Oid] [LawfulCrates] [Crates] in
theorem readdOf_none {line : Str} (h : stripPrefix readdTrailer line = none) :
    (readdOf line : Option Oid) = none := by
  rw [readdOf, h]

omit [LawfulObjectId Oid] [LawfulCrates] [Crates] [ObjectId Oid] in
/-- A carriage return that is stripped makes no trailer. -/
theorem NoReadd.splitOn {subject : Str} (hs : NoReadd subject) {l : Str}
    (hl : l ∈ Split.splitOn '\n' subject) :
    stripPrefix readdTrailer (stripCr l) = none := by
  have hne := Split.splitOn_ne_nil '\n' subject
  obtain ⟨last, hlast⟩ := Option.ne_none_iff_exists'.mp (mt List.getLast?_eq_none_iff.mp hne)
  have hlines : lines subject = (Split.splitOn '\n' subject).dropLast.map stripCr ++
      (if last = [] then [] else [last]) := by
    rw [lines]
    simp only [hlast]
  rw [← List.dropLast_append_getLast? last hlast, List.mem_append, List.mem_singleton] at hl
  rcases hl with hl | rfl
  · exact hs _ (by rw [hlines]; exact List.mem_append_left _ (List.mem_map_of_mem hl))
  · by_cases h0 : l = []
    · subst h0
      rfl
    have hl : stripPrefix readdTrailer l = none := hs l (by rw [hlines, if_neg h0]; simp)
    rw [stripPrefix, ite_eq_right_iff] at hl ⊢
    intro hpre
    refine absurd (hl (hpre.trans ?_)) (Option.some_ne_none _)
    rw [stripCr]
    split_ifs
    · exact List.dropLast_prefix l
    · exact List.prefix_refl l

theorem parsePrimitiveReadds_signed (id : Identity) (tree parent : Oid) (counter wallTime : Nat)
    {subject : Str} (hs : NoReadd subject) (readds : List Oid) :
    parsePrimitiveReadds (signedPrimitive id tree parent counter wallTime subject readds) =
    readds := by
  have h1 : stripPrefix readdTrailer ("CSP-Counter: ".toList ++ decimal counter) = none :=
    stripPrefix_of_take_ne 5 (by decide) (by decide) (by decide) _
  have h2 : stripPrefix readdTrailer ("CSP-Node: ".toList ++ id.nodeId.toHex) = none :=
    stripPrefix_of_take_ne 5 (by decide) (by decide) (by decide) _
  have h3 : ∀ b, stripPrefix readdTrailer (sigTrailer ++ b) = none := fun b =>
    stripPrefix_of_take_ne 5 (by decide) (by decide) (by decide) b
  have h4 : stripPrefix readdTrailer [] = none := rfl
  have hsubject : ((Split.splitOn '\n' subject).map stripCr).filterMap readdOf =
      ([] : List Oid) := by
    rw [List.filterMap_map, List.filterMap_eq_nil_iff]
    exact fun l hl => readdOf_none (hs.splitOn hl)
  have hbody : (readds.map fun r => readdTrailer ++ toHex r).filterMap readdOf = readds := by
    rw [List.filterMap_map]
    exact Eq.trans (List.filterMap_congr fun r _ => readdOf_trailer r) List.filterMap_some
  rw [parsePrimitiveReadds_eq, lines_signed, tail_signedLines, bodyLines, List.cons_append,
    List.tail_cons,
    List.filterMap_append, List.filterMap_append, List.filterMap_append, hbody, hsubject]
  simp only [List.filterMap_cons, List.filterMap_nil, readdOf_none h1, readdOf_none h2,
    readdOf_none (h3 _),
    readdOf_none h4, List.nil_append, List.append_nil]

end Built

end Csp
