import Csp.Lib.Slice
import Csp.Small

/-! The object parser with every slice that it takes. A slice whose bounds are out of order, out
of range or inside a character ends the process; the only one that can is the email of an
identity whose first `>` comes before its first `<`. -/

namespace Csp
open Result

/-! ### Slices -/

/-- `b[i..j]`. -/
def sliceBytes (b : Bytes) (i j : Nat) : CspResult Bytes :=
  match Slice.range b i j with
  | some r => .ok r
  | none => .error .abort

/-- How many characters end at a byte offset, if one ends there. -/
def charIndex : Str → Nat → Option Nat
  | _, 0 => some 0
  | [], _ + 1 => none
  | c :: s, n + 1 =>
    if n + 1 < (String.utf8EncodeChar c).length then none
    else (charIndex s (n + 1 - (String.utf8EncodeChar c).length)).map (· + 1)

/-- `s[i..j]`, by byte offsets. -/
def sliceStr (s : Str) (i j : Nat) : CspResult Str :=
  match charIndex s i, charIndex s j with
  | some a, some b => if i ≤ j then .ok ((s.take b).drop a) else .error .abort
  | _, _ => .error .abort

/-- `str::find`: a byte offset. -/
def findChar (c : Char) : Str → Option Nat
  | [] => none
  | a :: s => if a = c then some 0 else (findChar c s).map (· + (String.utf8EncodeChar a).length)

theorem sliceBytes_of_le {b : Bytes} {i j : Nat} (hi : i ≤ j) (hj : j ≤ b.length) :
    sliceBytes b i j = .ok ((b.take j).drop i) := by
  rw [sliceBytes, Slice.range_of_le hi hj]

theorem sliceBytes_to_end {b : Bytes} {i : Nat} (hi : i ≤ b.length) :
    sliceBytes b i b.length = .ok (b.drop i) := by
  rw [sliceBytes, Slice.range_to_end hi]

theorem slice_of_drop {b p q : Bytes} {i : Nat} {sep : UInt8} (h : b.drop i = p ++ sep :: q) :
    p.length + i + 1 ≤ b.length ∧ sliceBytes b i (p.length + i) = .ok p ∧
    b.drop (p.length + i + 1) = q := by
  have hlen : b.length - i = p.length + (q.length + 1) := by
    rw [← List.length_drop, h, List.length_append, List.length_cons]
  refine ⟨by omega, ?_, ?_⟩
  · rw [sliceBytes_of_le (by omega) (by omega), List.drop_take, h, Nat.add_sub_cancel,
      List.take_left]
  · rw [show p.length + i + 1 = i + (p.length + 1) by omega, ← List.drop_drop, h, ← List.drop_drop,
      List.drop_left]
    rfl

theorem charIndex_append (p q : Str) : charIndex (p ++ q) (utf8 p).length = some p.length := by
  induction p with
  | nil =>
    rw [utf8_nil, List.length_nil]
    cases q <;> rfl
  | cons c p ih =>
    have hpos : 0 < (String.utf8EncodeChar c).length :=
        List.length_pos_iff.mpr (utf8EncodeChar_ne_nil c)
    obtain ⟨n, hn⟩ := Nat.exists_eq_add_of_lt hpos
    rw [utf8_cons, List.length_append]
    rw [show (String.utf8EncodeChar c).length + (utf8 p).length =
      (n + (utf8 p).length) + 1 by omega, List.cons_append,
      charIndex, if_neg (by omega),
      show n + (utf8 p).length + 1 - (String.utf8EncodeChar c).length =
          (utf8 p).length by omega, ih]
    rfl

theorem sliceStr_append (a b c : Str) :
    sliceStr (a ++ b ++ c) (utf8 a).length (utf8 (a ++ b)).length = .ok b := by
  have ha : charIndex (a ++ b ++ c) (utf8 a).length = some a.length := by
    rw [List.append_assoc, charIndex_append]
  have hle : (utf8 a).length ≤ (utf8 (a ++ b)).length := by
    rw [utf8_append, List.length_append]
    exact Nat.le_add_right _ _
  simp only [sliceStr, ha, charIndex_append, if_pos hle]
  rw [List.take_left, List.drop_left]

theorem sliceStr_of_lt {s : Str} {i j : Nat} (h : j < i) : sliceStr s i j = .error .abort := by
  rw [sliceStr]
  split
  · rw [if_neg (by omega)]
  · rfl

theorem findChar_eq_cut (c : Char) (s : Str) : findChar c s = (Split.cut c s).map fun p =>
    (utf8 p.1).length := by
  induction s with
  | nil => rfl
  | cons a s ih =>
    by_cases ha : a = c
    · simp [findChar, Split.cut, ha]
    · simp only [findChar, Split.cut, if_neg ha, ih, Option.map_map]
      congr 1
      funext p
      simp only [Function.comp_apply, utf8_cons, List.length_append, Nat.add_comm]

/-! ### The parser with its slices -/

/-- `parse_ident`. -/
def parseIdentSliced (s : Str) : CspResult (Str × Str × Nat) :=
  match findChar '<' s with
  | none => .error (.malformed "ident missing <".toList)
  | some lt =>
    match findChar '>' s with
    | none => .error (.malformed "ident missing >".toList)
    | some gt => do
      let name ← sliceStr s 0 lt
      let email ← sliceStr s (lt + 1) gt
      let rest ← sliceStr s (gt + 1) (utf8 s).length
      pure (trim name, email, ((firstWord (trim rest)).bind parseU64).getD 0)

theorem parseIdentSliced_eq (s : Str) : parseIdentSliced s = parseIdent s := by
  rw [parseIdentSliced, parseIdent, findChar_eq_cut, findChar_eq_cut]
  cases hlt : Split.cut '<' s with
  | none => rfl
  | some lt =>
    cases hgt : Split.cut '>' s with
    | none => rfl
    | some gt =>
      obtain ⟨name, after⟩ := lt
      obtain ⟨upToGt, rest⟩ := gt
      obtain ⟨hs, hname⟩ := Split.cut_eq_some hlt
      obtain ⟨hs', hupTo⟩ := Split.cut_eq_some hgt
      have hsep : ∀ p : Str, (utf8 (p ++ ['<'])).length = (utf8 p).length + 1 := by
        intro p
        rw [utf8_append, List.length_append]
        rfl
      have hsep' : ∀ p : Str, (utf8 (p ++ ['>'])).length = (utf8 p).length + 1 := by
        intro p
        rw [utf8_append, List.length_append]
        rfl
      have hn : sliceStr s 0 (utf8 name).length = .ok name := by
        have := sliceStr_append [] name ('<' :: after)
        rwa [List.nil_append, ← hs] at this
      have hr : sliceStr s ((utf8 upToGt).length + 1) (utf8 s).length = .ok rest := by
        have := sliceStr_append (upToGt ++ ['>']) rest []
        rwa [List.append_nil, hsep', List.append_assoc, List.singleton_append, ← hs'] at this
      simp only [Option.map_some, hn, hr, ok_bind]
      by_cases hlen : upToGt.length ≤ name.length
      · -- the first `>` comes first, and the bounds of the email are out of order
        rw [if_pos hlen]
        obtain ⟨t, ht⟩ := Split.prefix_of_cut hgt hlt hlen
        have hle : (utf8 upToGt).length ≤ (utf8 name).length := by
          rw [← ht, utf8_append, List.length_append]
          exact Nat.le_add_right _ _
        rw [sliceStr_of_lt (by omega)]
        rfl
      -- byte offsets and characters agree, since both separators take one byte
      · rw [if_neg hlen]
        obtain ⟨t, ht⟩ := Split.prefix_of_cut hlt hgt (by omega)
        cases t with
        | nil => simp [← ht] at hlen
        | cons c email =>
          rw [hs, ← ht, List.append_assoc, List.append_cancel_left_eq, List.cons_append,
            List.cons.injEq] at hs'
          obtain ⟨rfl, hafter⟩ := hs'
          have he : sliceStr s ((utf8 name).length + 1) (utf8 (name ++ '<' :: email)).length =
              .ok email := by
            have := sliceStr_append (name ++ ['<']) email ('>' :: rest)
            rwa [hsep, List.append_assoc, List.append_assoc, List.singleton_append, ← hafter, ← hs,
              List.append_assoc, List.singleton_append] at this
          rw [← ht, he, ok_bind]
          rw [← List.drop_drop, List.drop_left]
          rfl

section Objects
variable {Oid : Type} [ObjectId Oid]

def parseTreeLoop (fromRaw : Bytes → Oid) (payload : Bytes) :
    Nat → Nat → List (TreeEntry Oid) → CspResult (List (TreeEntry Oid))
  | fuel, i, entries =>
    if payload.length ≤ i then .ok entries
    else
      match fuel with
      | 0 => .error .abort
      | fuel + 1 => do
        match Slice.position 32 (← sliceBytes payload i payload.length) with
        | none => .error (.malformed "tree entry missing space".toList)
        | some k =>
          let sp := k + i
          match fromUtf8 (← sliceBytes payload i sp) with
          | none => .error (.malformed "tree mode utf8".toList)
          | some mode =>
            match Slice.position 0 (← sliceBytes payload (sp + 1) payload.length) with
            | none => .error (.malformed "tree entry missing NUL".toList)
            | some k =>
              let nul := k + sp + 1
              match fromUtf8 (← sliceBytes payload (sp + 1) nul) with
              | none => .error (.malformed "tree name utf8".toList)
              | some name =>
                let oidStart := nul + 1
                if payload.length < oidStart + 20 then .error (.malformed "tree entry truncated oid".toList)
                else do
                  let oid ← sliceBytes payload oidStart (oidStart + 20)
                  parseTreeLoop fromRaw payload fuel (oidStart + 20)
                    (entries ++ [{ mode, name, oid := fromRaw oid }])

/-- `parse_tree`. -/
def parseTreeSliced (fromRaw : Bytes → Oid) (payload : Bytes) : CspResult (List (TreeEntry Oid)) :=
  parseTreeLoop fromRaw payload payload.length 0 []

def headerLineSliced (h : CommitHeader Oid) (line : Str) : CspResult (CommitHeader Oid) :=
  match stripPrefix "tree ".toList line with
  | some rest => do
    let t ← fromHex (trim rest)
    pure { h with tree := some t }
  | none =>
    match stripPrefix "parent ".toList line with
    | some rest => do
      let p ← fromHex (trim rest)
      pure { h with parents := h.parents ++ [p] }
    | none =>
      match stripPrefix "author ".toList line with
      | some rest => do
        let (n, e, t) ← parseIdentSliced rest
        pure { h with author := n, authorEmail := e, authorTime := t }
      | none =>
        match stripPrefix "committer ".toList line with
        | some rest => do
          let (n, e, t) ← parseIdentSliced rest
          pure { h with committer := n, committerEmail := e, committerTime := t }
        | none => .ok h

def parseHeaderSliced (h : CommitHeader Oid) : List Str → CspResult (CommitHeader Oid × List Str)
  | [] => .ok (h, [])
  | l :: ls =>
    if l = [] then .ok (h, ls)
    else do
      let h ← headerLineSliced h l
      parseHeaderSliced h ls

/-- `parse_commit`, which splits its text at newlines and slices only in its identities. -/
def parseCommitSliced (payload : Bytes) : CspResult (CommitObj Oid) := do
  let (h, rest) ← parseHeaderSliced {} (Split.splitOn '\n' (fromUtf8Lossy payload))
  match h.tree with
  | none => .error (.malformed "commit missing tree".toList)
  | some tree =>
    pure { tree, parents := h.parents, author := h.author, authorEmail := h.authorEmail,
           authorTime := h.authorTime, committer := h.committer,
           committerEmail := h.committerEmail, committerTime := h.committerTime,
           message := Split.join '\n' rest }

/-- `parse_framed`. -/
def parseFramedSliced (fromRaw : Bytes → Oid) (framed : Bytes) : CspResult (GitObject Oid) :=
  match Slice.position 0 framed with
  | none => .error (.malformed "missing header NUL".toList)
  | some nul => do
    match fromUtf8 (← sliceBytes framed 0 nul) with
    | none => .error (.malformed "non-utf8 header".toList)
    | some header =>
      match Split.cut ' ' header with
      | none => .error (.malformed "bad header".toList)
      | some (kind, len) => do
        let payload ← sliceBytes framed (nul + 1) framed.length
        match parseUnsigned (max (2 ^ 64) (payload.length + 1)) len with
        | none => .error (.malformed "bad header length".toList)
        | some declared =>
          if declared ≠ payload.length then
            .error (.malformed ("framed length ".toList ++ decimal declared ++ " != payload ".toList
              ++ decimal payload.length))
          else if kind = "blob".toList then .ok (.blob payload)
          else if kind = "tree".toList then do
            let es ← parseTreeSliced fromRaw payload
            pure (.tree es)
          else if kind = "commit".toList then do
            let c ← parseCommitSliced payload
            pure (.commit c)
          else .error (.malformed ("unknown object kind ".toList ++ kind))

/-! ### The slices of the other parsers are in range -/

section Raw
variable {fromRaw : Bytes → Oid}
  (hraw : ∀ b, takeRaw b = if 20 ≤ b.length then some (fromRaw (b.take 20), b.drop 20) else none)

omit hraw [ObjectId Oid] in
theorem nil_append_map (r : CspResult (List (TreeEntry Oid))) : r.map ([] ++ ·) = r := by
  cases r <;> rfl

omit hraw [ObjectId Oid] in
theorem map_append_cons (entries : List (TreeEntry Oid)) (e : TreeEntry Oid)
    (r : CspResult (List (TreeEntry Oid))) :
    r.map (entries ++ [e] ++ ·) = (r >>= fun es => pure (e :: es)).map (entries ++ ·) := by
  cases r with
  | error _ => rfl
  | ok es => exact congrArg Except.ok (List.append_assoc entries [e] es)

include hraw in
theorem parseTreeLoop_eq (payload : Bytes) (n i : Nat) (hi : i ≤ payload.length)
    (entries : List (TreeEntry Oid)) :
    parseTreeLoop fromRaw payload n i entries = (parseTreeAux n (payload.drop i)).map (entries ++ ·) := by
  induction n generalizing i entries with
  | zero =>
    rw [parseTreeLoop]
    split_ifs with hend
    · rw [List.drop_eq_nil_of_le hend]
      simp [parseTreeAux, Except.map]
    · obtain ⟨b, t, ht⟩ := List.exists_cons_of_ne_nil (List.drop_eq_nil_iff.not.mpr hend)
      rw [ht]
      rfl
  | succ n ih =>
    rw [parseTreeLoop]
    split_ifs with hend
    · rw [List.drop_eq_nil_of_le hend]
      simp [parseTreeAux, Except.map]
    obtain ⟨b, t, ht⟩ := List.exists_cons_of_ne_nil (List.drop_eq_nil_iff.not.mpr hend)
    rw [sliceBytes_to_end hi, ok_bind, ht, parseTreeAux, ← ht]
    cases hsp : Split.cut 32 (payload.drop i) with
    | none =>
      rw [Slice.position_of_cut_none hsp]
      rfl
    | some cut =>
      obtain ⟨modeBytes, rest⟩ := cut
      obtain ⟨hsp', hmode, hrest⟩ := slice_of_drop (Split.cut_eq_some hsp).1
      rw [Slice.position_of_cut hsp]
      simp only [hmode, ok_bind]
      cases fromUtf8 modeBytes with
      | none => rfl
      | some mode =>
        simp only [sliceBytes_to_end hsp', hrest, ok_bind]
        cases hnul : Split.cut 0 rest with
        | none =>
          rw [Slice.position_of_cut_none hnul]
          rfl
        | some cut =>
          obtain ⟨nameBytes, rest'⟩ := cut
          obtain ⟨hnul', hname, hrest'⟩ := slice_of_drop (hrest.trans (Split.cut_eq_some hnul).1)
          rw [Slice.position_of_cut hnul]
          simp only [← Nat.add_assoc] at hname hnul' hrest' ⊢
          simp only [hname, ok_bind]
          cases fromUtf8 nameBytes with
          | none => rfl
          | some name =>
            have hlen : rest'.length = payload.length -
                (nameBytes.length + modeBytes.length + i + 1 + 1) := by
              rw [← hrest', List.length_drop]
            simp only [hraw]
            -- the check on the rest and the check on the index are one
            split_ifs with hshort h20 h20
            · omega
            · rfl
            · rw [sliceBytes_of_le (by omega) (by omega), ok_bind, ih _ (by omega), List.drop_take, hrest',
                Nat.add_sub_cancel_left, ← List.drop_drop, hrest']
              exact map_append_cons _ _ _
            · omega

include hraw in
theorem parseTreeSliced_eq (payload : Bytes) :
    parseTreeSliced fromRaw payload = parseTree payload := by
  rw [parseTreeSliced, parseTreeLoop_eq hraw payload _ 0 (Nat.zero_le _), nil_append_map]
  rfl

theorem headerLineSliced_eq (h : CommitHeader Oid) (line : Str) :
    headerLineSliced h line = headerLine h line := by
  have hident : parseIdentSliced = parseIdent := funext fun _ => parseIdentSliced_eq _
  unfold headerLineSliced
  rw [hident]
  rfl

theorem parseHeaderSliced_eq (h : CommitHeader Oid) (ls : List Str) :
    parseHeaderSliced h ls = parseHeader h ls := by
  induction ls generalizing h with
  | nil => rfl
  | cons l ls ih => simp only [parseHeaderSliced, parseHeader, headerLineSliced_eq, ih]

theorem parseCommitSliced_eq (payload : Bytes) :
    (parseCommitSliced payload : CspResult (CommitObj Oid)) = parseCommit payload := by
  have hheader : @parseHeaderSliced Oid _ = parseHeader := funext₂ parseHeaderSliced_eq
  unfold parseCommitSliced
  rw [hheader]
  rfl

include hraw in
theorem parseFramedSliced_eq (framed : Bytes) :
    parseFramedSliced fromRaw framed = parseFramed framed := by
  rw [parseFramedSliced, parseFramed]
  cases hnul : Split.cut 0 framed with
  | none =>
    rw [Slice.position_of_cut_none hnul]
  | some cut =>
    obtain ⟨headerBytes, payload⟩ := cut
    obtain ⟨hnul', hheader, hpayload⟩ := slice_of_drop (i := 0) (Split.cut_eq_some hnul).1
    rw [Slice.position_of_cut hnul]
    simp only [Nat.add_zero] at hnul' hheader hpayload ⊢
    simp only [hheader, ok_bind, sliceBytes_to_end hnul', hpayload]
    cases fromUtf8 headerBytes with
    | none => rfl
    | some header =>
      dsimp only
      cases Split.cut ' ' header with
      | none => rfl
      | some words =>
        dsimp only
        cases parseUnsigned (max (2 ^ 64) (payload.length + 1)) words.2 with
        | none => rfl
        | some declared =>
          dsimp only
          rw [parseTreeSliced_eq hraw, parseCommitSliced_eq]

end Raw

/-! ### Where a slice fails -/

/-- The first `>` comes before the first `<`. -/
def CrossedIdent (s : Str) : Prop := ∃ p q, s = p ++ '>' :: q ∧ '>' ∉ p ∧ '<' ∉ p ∧ '<' ∈ q

/-- The first `<` comes before the first `>`. -/
def OrderedIdent (s : Str) : Prop :=
  ∃ n e t, s = n ++ '<' :: (e ++ '>' :: t) ∧ '<' ∉ n ∧ '>' ∉ n ∧ '>' ∉ e

/-- A header line that holds an identity. -/
def HoldsIdent (line r : Str) : Prop :=
  line = "author ".toList ++ r ∨ line = "committer ".toList ++ r

/-- A header line that is read: its id is one, and its identity is in order. -/
def ReadableLine (Oid : Type) [ObjectId Oid] (line : Str) : Prop :=
  (∀ r, line = "tree ".toList ++ r ∨ line = "parent ".toList ++ r →
      (ObjectId.hexToOid (trim r) : Option Oid).isSome = true) ∧
    ∀ r, HoldsIdent line r → OrderedIdent r

omit [ObjectId Oid] in
theorem parseIdent_abort_iff {s : Str} : parseIdent s = .error .abort ↔ CrossedIdent s := by
  rw [parseIdent]
  constructor
  · intro h
    split at h
    · cases h
    · cases h
    rename_i name after upToGt rest hlt hgt
    split_ifs at h with hlen
    obtain ⟨hs, hname⟩ := Split.cut_eq_some hlt
    obtain ⟨hs', hupTo⟩ := Split.cut_eq_some hgt
    obtain ⟨t, ht⟩ := Split.prefix_of_cut hgt hlt hlen
    refine ⟨upToGt, rest, hs', hupTo, fun h => hname (ht ▸ List.mem_append_left _ h), ?_⟩
    have hmem : '<' ∈ s := hs ▸ List.mem_append_right _ List.mem_cons_self
    rw [hs', List.mem_append, List.mem_cons] at hmem
    rcases hmem with h | h | h
    · exact absurd (ht ▸ List.mem_append_left _ h) hname
    · exact absurd h (by decide)
    · exact h
  · rintro ⟨p, q, rfl, hgt, hlt, hq⟩
    obtain ⟨⟨a, b⟩, hab⟩ := Option.ne_none_iff_exists'.mp (mt Split.cut_eq_none.mp (not_not.mpr hq))
    obtain ⟨rfl, ha⟩ := Split.cut_eq_some hab
    have hcut : Split.cut '<' (p ++ '>' :: (a ++ '<' :: b)) = some (p ++ '>' :: a, b) := by
      rw [← List.cons_append, ← List.append_assoc]
      refine Split.cut_append ?_ b
      simp only [List.mem_append, List.mem_cons, not_or]
      exact ⟨hlt, by decide, ha⟩
    rw [hcut, Split.cut_append hgt]
    simp

omit [ObjectId Oid] in
theorem parseIdent_ok_iff {s : Str} : (∃ x, parseIdent s = .ok x) ↔ OrderedIdent s := by
  rw [parseIdent]
  constructor
  · rintro ⟨x, h⟩
    split at h
    · cases h
    · cases h
    rename_i name after upToGt rest hlt hgt
    split_ifs at h with hlen
    obtain ⟨hs, hname⟩ := Split.cut_eq_some hlt
    obtain ⟨hs', hupTo⟩ := Split.cut_eq_some hgt
    obtain ⟨t, rfl⟩ := Split.prefix_of_cut hlt hgt (by omega)
    rw [List.mem_append, not_or] at hupTo
    cases t with
    | nil => simp at hlen
    | cons c email =>
      have heq := hs.symm.trans hs'
      rw [List.append_assoc, List.append_cancel_left_eq, List.cons_append, List.cons.injEq] at heq
      obtain ⟨rfl, -⟩ := heq
      rw [List.mem_cons, not_or] at hupTo
      exact ⟨name, email, rest, by rw [hs', List.append_assoc, List.cons_append], hname, hupTo.1, hupTo.2.2⟩
  · rintro ⟨n, e, t, rfl, hlt, hgt, he⟩
    have hcut : Split.cut '>' (n ++ '<' :: (e ++ '>' :: t)) = some (n ++ '<' :: e, t) := by
      rw [← List.cons_append, ← List.append_assoc]
      refine Split.cut_append ?_ t
      simp only [List.mem_append, List.mem_cons, not_or]
      exact ⟨hgt, by decide, he⟩
    rw [hcut, Split.cut_append hlt]
    exact ⟨_, if_neg (by simp)⟩

section Lines
variable {h : CommitHeader Oid} {line : Str}

theorem headerLine_tree_text (h : CommitHeader Oid) (r : Str) :
    headerLine h ("tree ".toList ++ r) = fromHex (trim r) >>= fun t =>
    pure { h with tree := some t } := by
  simp only [headerLine, stripPrefix_append]

theorem headerLine_parent_text (h : CommitHeader Oid) (r : Str) :
    headerLine h ("parent ".toList ++ r) =
      fromHex (trim r) >>= fun p => pure { h with parents := h.parents ++ [p] } := by
  have h1 : stripPrefix "tree ".toList ("parent ".toList ++ r) = none := rfl
  simp only [headerLine, h1, stripPrefix_append]

theorem headerLine_author_text (h : CommitHeader Oid) (r : Str) :
    headerLine h ("author ".toList ++ r) =
      parseIdent r >>= fun i => pure { h with author := i.1, authorEmail := i.2.1, authorTime := i.2.2 } := by
  have h1 : stripPrefix "tree ".toList ("author ".toList ++ r) = none := rfl
  have h2 : stripPrefix "parent ".toList ("author ".toList ++ r) = none := rfl
  simp only [headerLine, h1, h2, stripPrefix_append]

theorem headerLine_committer_text (h : CommitHeader Oid) (r : Str) :
    headerLine h ("committer ".toList ++ r) =
      parseIdent r >>= fun i =>
        pure { h with committer := i.1, committerEmail := i.2.1, committerTime := i.2.2 } := by
  have h1 : stripPrefix "tree ".toList ("committer ".toList ++ r) = none := rfl
  have h2 : stripPrefix "parent ".toList ("committer ".toList ++ r) = none := rfl
  have h3 : stripPrefix "author ".toList ("committer ".toList ++ r) = none := rfl
  simp only [headerLine, h1, h2, h3, stripPrefix_append]

/-- A header line of no known kind. -/
def OtherLine (line : Str) : Prop :=
  ∀ r, line ≠ "tree ".toList ++ r ∧ line ≠ "parent ".toList ++ r ∧ ¬ HoldsIdent line r

omit [ObjectId Oid] in
theorem line_cases (line : Str) :
    (∃ r, line = "tree ".toList ++ r) ∨ (∃ r, line = "parent ".toList ++ r) ∨
    (∃ r, line = "author ".toList ++ r) ∨
      (∃ r, line = "committer ".toList ++ r) ∨ OtherLine line := by
  by_cases h1 : ∃ r, line = "tree ".toList ++ r
  · exact .inl h1
  by_cases h2 : ∃ r, line = "parent ".toList ++ r
  · exact .inr (.inl h2)
  by_cases h3 : ∃ r, line = "author ".toList ++ r
  · exact .inr (.inr (.inl h3))
  by_cases h4 : ∃ r, line = "committer ".toList ++ r
  · exact .inr (.inr (.inr (.inl h4)))
  · refine .inr (.inr (.inr (.inr fun r => ⟨fun h => h1 ⟨r, h⟩, fun h => h2 ⟨r, h⟩, ?_⟩)))
    rintro (h | h)
    · exact h3 ⟨r, h⟩
    · exact h4 ⟨r, h⟩

theorem headerLine_other (h : CommitHeader Oid) (ho : OtherLine line) :
    headerLine h line = .ok h := by
  have hnone : ∀ tag : Str, (∀ r, line ≠ tag ++ r) → stripPrefix tag line = none := by
    intro tag htag
    rw [Option.eq_none_iff_forall_ne_some]
    exact fun r hr => htag r (stripPrefix_eq_some hr)
  rw [headerLine, hnone _ fun r => (ho r).1]
  simp only
  rw [hnone _ fun r => (ho r).2.1]
  simp only
  rw [hnone _ fun r hr => (ho r).2.2 (.inl hr)]
  simp only
  rw [hnone _ fun r hr => (ho r).2.2 (.inr hr)]

theorem fromHex_ne_abort {s : Str} : (fromHex s : CspResult Oid) ≠ .error .abort := by
  rw [fromHex]
  split
  · simp
  · split <;> simp

theorem fromHex_ok_iff {s : Str} :
    (∃ o, (fromHex s : CspResult Oid) = .ok o) ↔
    (ObjectId.hexToOid s : Option Oid).isSome = true := by
  rw [fromHex, ObjectId.hexToOid]
  cases ObjectId.decodeHex Oid s with
  | error e => simp
  | ok b =>
    dsimp only
    cases (ObjectId.ofBytes b : Option Oid) with
    | none => simp
    | some o => simp

/-- The process ends at a header line iff the line's identity is crossed. -/
theorem headerLine_abort_iff : headerLine h line = .error .abort ↔ ∃ r, HoldsIdent line r ∧
    CrossedIdent r := by
  constructor
  · intro ha
    rcases line_cases line with ⟨r, rfl⟩ | ⟨r, rfl⟩ | ⟨r, rfl⟩ | ⟨r, rfl⟩ | ho
    · rw [headerLine_tree_text, bind_error] at ha
      rcases ha with ha | ⟨t, -, ha⟩
      · exact absurd ha fromHex_ne_abort
      · cases ha
    · rw [headerLine_parent_text, bind_error] at ha
      rcases ha with ha | ⟨t, -, ha⟩
      · exact absurd ha fromHex_ne_abort
      · cases ha
    · rw [headerLine_author_text, bind_error] at ha
      rcases ha with ha | ⟨t, -, ha⟩
      · exact ⟨r, .inl rfl, parseIdent_abort_iff.mp ha⟩
      · cases ha
    · rw [headerLine_committer_text, bind_error] at ha
      rcases ha with ha | ⟨t, -, ha⟩
      · exact ⟨r, .inr rfl, parseIdent_abort_iff.mp ha⟩
      · cases ha
    · rw [headerLine_other h ho] at ha
      cases ha
  · rintro ⟨r, rfl | rfl, hc⟩
    · rw [headerLine_author_text, parseIdent_abort_iff.mpr hc]
      rfl
    · rw [headerLine_committer_text, parseIdent_abort_iff.mpr hc]
      rfl

theorem headerLine_ok_iff : (∃ h', headerLine h line = .ok h') ↔ ReadableLine Oid line := by
  have hbind : ∀ {α : Type} (x : CspResult α) (f : α → CommitHeader Oid),
      (∃ h', (x >>= fun a => pure (f a)) = .ok h') ↔ ∃ a, x = .ok a := by
    intro α x f
    cases x with
    | error e => simp
    | ok a => simp
  rcases line_cases line with ⟨r, rfl⟩ | ⟨r, rfl⟩ | ⟨r, rfl⟩ | ⟨r, rfl⟩ | ho
  · rw [headerLine_tree_text, hbind, fromHex_ok_iff]
    refine ⟨fun hr => ⟨?_, ?_⟩, fun hr => hr.1 r (.inl rfl)⟩
    · rintro r' (h' | h')
      · rwa [List.append_cancel_left h'] at hr
      · cases h'
    · rintro r' (h' | h') <;> cases h'
  · rw [headerLine_parent_text, hbind, fromHex_ok_iff]
    refine ⟨fun hr => ⟨?_, ?_⟩, fun hr => hr.1 r (.inr rfl)⟩
    · rintro r' (h' | h')
      · cases h'
      · rwa [List.append_cancel_left h'] at hr
    · rintro r' (h' | h') <;> cases h'
  · rw [headerLine_author_text, hbind, parseIdent_ok_iff]
    refine ⟨fun hr => ⟨?_, ?_⟩, fun hr => hr.2 r (.inl rfl)⟩
    · rintro r' (h' | h') <;> cases h'
    · rintro r' (h' | h')
      · rwa [List.append_cancel_left h'] at hr
      · cases h'
  · rw [headerLine_committer_text, hbind, parseIdent_ok_iff]
    refine ⟨fun hr => ⟨?_, ?_⟩, fun hr => hr.2 r (.inr rfl)⟩
    · rintro r' (h' | h') <;> cases h'
    · rintro r' (h' | h')
      · cases h'
      · rwa [List.append_cancel_left h'] at hr
  · refine ⟨fun _ => ⟨?_, fun r hr => absurd hr (ho r).2.2⟩, fun _ => ⟨h, headerLine_other h ho⟩⟩
    rintro r (hr | hr)
    · exact absurd hr (ho r).1
    · exact absurd hr (ho r).2.1

/-- The lines of a header up to one whose identity is crossed, all of them read. -/
def ReachesCrossed (Oid : Type) [ObjectId Oid] (ls : List Str) : Prop :=
  ∃ pre l post r, ls = pre ++ l :: post ∧ (∀ x ∈ pre, x ≠ [] ∧ ReadableLine Oid x) ∧
    HoldsIdent l r ∧ CrossedIdent r

omit [ObjectId Oid] in
theorem HoldsIdent.ne_nil {r : Str} (hl : HoldsIdent line r) : line ≠ [] := by
  rcases hl with rfl | rfl <;> simp

theorem reachesCrossed_cons {l : Str} {ls : List Str} :
    ReachesCrossed Oid (l :: ls) ↔
      (∃ r, HoldsIdent l r ∧ CrossedIdent r) ∨ (l ≠ [] ∧ ReadableLine Oid l) ∧
      ReachesCrossed Oid ls := by
  constructor
  · rintro ⟨pre, x, post, r, hls, hpre, hx, hr⟩
    cases pre with
    | nil =>
      rw [List.nil_append, List.cons.injEq] at hls
      exact .inl ⟨r, hls.1 ▸ hx, hr⟩
    | cons y pre =>
      rw [List.cons_append, List.cons.injEq] at hls
      obtain ⟨rfl, hls⟩ := hls
      rw [List.forall_mem_cons] at hpre
      exact .inr ⟨hpre.1, pre, x, post, r, hls, hpre.2, hx, hr⟩
  · rintro (⟨r, hl, hr⟩ | ⟨hl, pre, x, post, r, rfl, hpre, hx, hr⟩)
    · exact ⟨[], l, ls, r, rfl, by simp, hl, hr⟩
    · exact ⟨l :: pre, x, post, r, rfl, List.forall_mem_cons.mpr ⟨hl, hpre⟩, hx, hr⟩

theorem parseHeader_abort_iff {ls : List Str} : parseHeader h ls = .error .abort ↔
    ReachesCrossed Oid ls := by
  induction ls generalizing h with
  | nil =>
    constructor
    · intro ha
      cases ha
    · rintro ⟨pre, l, post, r, hls, -⟩
      simp at hls
  | cons l ls ih =>
    rw [reachesCrossed_cons, parseHeader]
    split_ifs with hl
    · constructor
      · intro ha
        cases ha
      · rintro (⟨r, hr, -⟩ | ⟨⟨hne, -⟩, -⟩)
        · exact absurd hl hr.ne_nil
        · exact absurd hl hne
    · rw [bind_error, headerLine_abort_iff]
      refine or_congr_right ⟨?_, ?_⟩
      · rintro ⟨h', hok, ha⟩
        exact ⟨⟨hl, headerLine_ok_iff.mp ⟨h', hok⟩⟩, ih.mp ha⟩
      · rintro ⟨⟨-, hread⟩, hreach⟩
        obtain ⟨h', hok⟩ := (headerLine_ok_iff (h := h)).mpr hread
        exact ⟨h', hok, ih.mpr hreach⟩

theorem parseCommit_abort_iff {payload : Bytes} :
    (parseCommit payload : CspResult (CommitObj Oid)) = .error .abort ↔
      ReachesCrossed Oid (Split.splitOn '\n' (fromUtf8Lossy payload)) := by
  rw [parseCommit, bind_error, parseHeader_abort_iff, or_iff_left]
  rintro ⟨⟨hd, rest⟩, -, ha⟩
  simp only at ha
  split at ha <;> cases ha

end Lines

section Framed
variable {fromRaw : Bytes → Oid}
  (hraw : ∀ b, takeRaw b = if 20 ≤ b.length then some (fromRaw (b.take 20), b.drop 20) else none)

include hraw in
theorem parseTreeAux_ne_abort {n : Nat} {payload : Bytes} (hn : payload.length ≤ n) :
    (parseTreeAux n payload : CspResult (List (TreeEntry Oid))) ≠ .error .abort := by
  induction n generalizing payload with
  | zero =>
    rw [List.length_eq_zero_iff.mp (Nat.le_zero.mp hn)]
    simp [parseTreeAux]
  | succ n ih =>
    cases payload with
    | nil => simp [parseTreeAux]
    | cons b t =>
      rw [parseTreeAux]
      split
      · simp
      rename_i modeBytes rest hsp
      split
      · simp
      split
      · simp
      rename_i nameBytes rest' hnul
      split
      · simp
      split
      · simp
      rename_i o rest'' ho
      rw [ne_eq, bind_error]
      rintro (ha | ⟨es, -, ha⟩)
      · refine ih ?_ ha
        rw [hraw, Option.ite_none_right_eq_some] at ho
        have h1 := congrArg List.length (Split.cut_eq_some hsp).1
        have h2 := congrArg List.length (Split.cut_eq_some hnul).1
        have h3 : rest''.length = rest'.length - 20 := by
          rw [← (Prod.mk.inj (Option.some.inj ho.2)).2, List.length_drop]
        simp only [List.length_cons, List.length_append] at h1 h2 hn
        omega
      · cases ha

/-- A frame of a commit: its kind, the length of the payload as a number, and the payload. -/
def FramesCommit (framed payload : Bytes) : Prop :=
  ∃ len : Str, framed = utf8 ("commit".toList ++ ' ' :: len) ++ 0 :: payload ∧ Char.ofNat 0 ∉ len ∧
    parseUnsigned (max (2 ^ 64) (payload.length + 1)) len = some payload.length

include hraw in
/-- No slice of the parser fails iff the frame holds no commit whose header reaches an identity
with its first `>` before its first `<`. -/
theorem parseFramed_safe_iff (framed : Bytes) :
    parseFramedSliced fromRaw framed ≠ .error .abort ↔
      ∀ payload, FramesCommit framed payload →
      ¬ ReachesCrossed Oid (Split.splitOn '\n' (fromUtf8Lossy payload)) := by
  rw [parseFramedSliced_eq hraw]
  constructor
  · rintro hok payload ⟨len, rfl, hzero, hlen⟩ hreach
    apply hok
    have hnot : (0 : UInt8) ∉ utf8 ("commit".toList ++ ' ' :: len) := by
      refine notMem_utf8 (n := 0) (by omega) ?_
      simpa using hzero
    rw [parseFramed, Split.cut_append hnot]
    simp only [fromUtf8_utf8, Split.cut_append (show ' ' ∉ "commit".toList by decide), hlen]
    rw [if_neg (by simp), if_neg (by decide), if_neg (by decide), if_pos trivial,
      parseCommit_abort_iff.mpr hreach]
    rfl
  · intro hnone ha
    rw [parseFramed] at ha
    split at ha
    · cases ha
    rename_i headerBytes payload hnul
    split at ha
    · cases ha
    rename_i header hheader
    split at ha
    · cases ha
    rename_i kind len hsp
    split at ha
    · cases ha
    rename_i declared hlen
    split_ifs at ha with hdecl hblob htree hcommit
    · cases ha
    · rw [bind_error] at ha
      rcases ha with ha | ⟨es, -, ha⟩
      · exact parseTreeAux_ne_abort hraw (Nat.le_refl _) ha
      · cases ha
    · rw [bind_error] at ha
      rcases ha with ha | ⟨c, -, ha⟩
      · obtain ⟨hheaderEq, -⟩ := Split.cut_eq_some hsp
        obtain ⟨hframed, hnot⟩ := Split.cut_eq_some hnul
        refine hnone payload ⟨len, ?_, ?_, ?_⟩ (parseCommit_abort_iff.mp ha)
        · rw [← hcommit, ← hheaderEq, utf8_fromUtf8 hheader, ← hframed]
        · have := notMem_fromUtf8 (n := 0) hheader (by omega) hnot
          rw [hheaderEq, List.mem_append, List.mem_cons, not_or, not_or] at this
          exact this.2.2
        · rw [hlen, not_not.mp hdecl]
      · cases ha
    · cases ha

end Framed

end Objects

namespace Small

def Sha : Type := { b : Bytes // b.length = 20 }
  deriving DecidableEq

def sha (b : Bytes) : Sha := ⟨(b ++ List.replicate 20 0).take 20, by simp⟩

instance : LinearOrder Sha := inferInstanceAs (LinearOrder { b : Bytes // b.length = 20 })

instance : ObjectId Sha where
  sha1 := sha
  raw o := o.1
  takeRaw b := if 20 ≤ b.length then some (sha (b.take 20), b.drop 20) else none
  toHex o := hexEncode o.1
  decodeHex s := match hexDecode s with
    | some b => .ok b
    | none => .error "Odd number of digits or an invalid character".toList
  ofBytes b := if h : b.length = 20 then some ⟨b, h⟩ else none

def crossedFrame : Bytes := utf8 "commit 10".toList ++ 0 :: utf8 "author >a<".toList

theorem parseFramed_safe_crossed :
    parseFramedSliced sha crossedFrame ≠ .error .abort ↔
      ∀ payload, FramesCommit crossedFrame payload →
        ¬ ReachesCrossed Sha (Split.splitOn '\n' (fromUtf8Lossy payload)) :=
  parseFramed_safe_iff (fun _ => rfl) crossedFrame

/-- An identity with its first `>` before its first `<`. -/
theorem crossed_ident_aborts : parseFramedSliced sha crossedFrame = .error .abort := by
  decide +kernel

end Small

end Csp
