import Csp.Object
import Csp.Lib.Result
import Csp.TextFacts

/-! The framing of a git object is undone by the parser, up to the order of tree entries,
for the objects whose fields the framing keeps apart. Everything the parser returns is
such an object. -/

namespace Csp
open Result
variable {Oid : Type}

/-- Fields of an identity line that come back as they were written. -/
structure IdentEncodable (name email : Str) (time : Nat) : Prop where
  trimmed : Trimmed name
  noLt : '<' ∉ name
  noGt : '>' ∉ name
  emailNoGt : '>' ∉ email
  noNewline : '\n' ∉ name ++ email
  time_lt : time < 2 ^ 64

def TreeEntry.Encodable (e : TreeEntry Oid) : Prop := ' ' ∉ e.mode ∧ Char.ofNat 0 ∉ e.name

def CommitObj.Encodable (c : CommitObj Oid) : Prop :=
  IdentEncodable c.author c.authorEmail c.authorTime ∧
    IdentEncodable c.committer c.committerEmail c.committerTime

def GitObject.Encodable : GitObject Oid → Prop
  | .blob _ => True
  | .tree es => ∀ e ∈ es, e.Encodable
  | .commit c => c.Encodable

instance (name email : Str) (time : Nat) : Decidable (IdentEncodable name email time) :=
  decidable_of_iff (trim name = name ∧ '<' ∉ name ∧ '>' ∉ name ∧ '>' ∉ email ∧
      '\n' ∉ name ++ email ∧
      time < 2 ^ 64)
    ⟨fun ⟨h1, h2, h3, h4, h5, h6⟩ => ⟨h1 ▸ trimmed_trim name, h2, h3, h4, h5, h6⟩,
      fun ⟨h1, h2, h3, h4, h5, h6⟩ => ⟨trim_eq_self h1, h2, h3, h4, h5, h6⟩⟩

instance (e : TreeEntry Oid) : Decidable e.Encodable := inferInstanceAs (Decidable (_ ∧ _))

instance (c : CommitObj Oid) : Decidable c.Encodable := inferInstanceAs (Decidable (_ ∧ _))

instance (x : GitObject Oid) : Decidable x.Encodable :=
  match x with
  | .blob _ => inferInstanceAs (Decidable True)
  | .tree es => inferInstanceAs (Decidable (∀ e ∈ es, e.Encodable))
  | .commit c => inferInstanceAs (Decidable c.Encodable)

/-- An object as its framing tells it: the entries of a tree in the order of the framing. -/
def GitObject.canon : GitObject Oid → GitObject Oid
  | .blob b => .blob b
  | .tree es => .tree (sortEntries es)
  | .commit c => .commit c

theorem sortEntries_perm (es : List (TreeEntry Oid)) : (sortEntries es).Perm es :=
  List.perm_insertionSort _ es

theorem pairwise_sortEntries (es : List (TreeEntry Oid)) :
    (sortEntries es).Pairwise fun a b => treeSortKey a ≤ treeSortKey b := by
  have : IsTrans (TreeEntry Oid) fun a b => treeSortKey a ≤ treeSortKey b := ⟨fun _ _ _ => le_trans⟩
  have : Std.Total fun a b : TreeEntry Oid => treeSortKey a ≤ treeSortKey b :=
      ⟨fun _ _ => le_total _ _⟩
  exact List.pairwise_insertionSort _ es

theorem sortEntries_sortEntries (es : List (TreeEntry Oid)) :
    sortEntries (sortEntries es) = sortEntries es :=
  (pairwise_sortEntries es).insertionSort_eq

theorem GitObject.kind_canon (x : GitObject Oid) : x.canon.kind = x.kind := by cases x <;> rfl

theorem GitObject.Encodable.canon {x : GitObject Oid} (h : x.Encodable) : x.canon.Encodable := by
  cases x with
  | blob b => exact h
  | tree es => exact fun e he => h e ((sortEntries_perm es).subset he)
  | commit c => exact h

variable [ObjectId Oid]

theorem GitObject.framed_canon (x : GitObject Oid) : x.canon.framed = x.framed := by
  have hp : x.canon.payload = x.payload := by
    cases x with
    | blob b => rfl
    | tree es => simp only [GitObject.canon, GitObject.payload, sortEntries_sortEntries]
    | commit c => rfl
  rw [framed, framed, hp, kind_canon]

theorem GitObject.oid_canon (x : GitObject Oid) : x.canon.oid = x.oid := by
  rw [oid, framed_canon, oid]

/-! ### Trees -/

theorem entryPayload_ne_nil (e : TreeEntry Oid) : entryPayload e ≠ [] := by
  simp [entryPayload]

theorem parseTreeAux_cons [LawfulObjectId Oid] {e : TreeEntry Oid} (he : e.Encodable) (n : Nat)
    (rest : Bytes) :
    parseTreeAux (n + 1) (entryPayload e ++ rest) =
      (parseTreeAux n rest >>= fun es => pure (e :: es)) := by
  have hsp : (32 : UInt8) ∉ utf8 e.mode := notMem_utf8 (n := 32) (by omega) he.1
  have hnul : (0 : UInt8) ∉ utf8 e.name := notMem_utf8 (n := 0) (by omega) he.2
  have hform : entryPayload e ++ rest =
      utf8 e.mode ++ 32 :: (utf8 e.name ++ 0 :: (raw e.oid ++ rest)) := by
    simp [entryPayload, show utf8 [' '] = [32] from rfl]
  obtain ⟨b, t, hbt⟩ := List.exists_cons_of_ne_nil
    (show entryPayload e ++ rest ≠ [] by simp [entryPayload_ne_nil])
  rw [hbt, parseTreeAux, ← hbt, hform, Split.cut_append hsp]
  simp only [fromUtf8_utf8, Split.cut_append hnul, LawfulObjectId.takeRaw_raw]

theorem parseTreeAux_payload [LawfulObjectId Oid] {es : List (TreeEntry Oid)}
    (he : ∀ e ∈ es, e.Encodable) (n : Nat) (hn : es.length ≤ n) :
    parseTreeAux n (es.flatMap entryPayload) = .ok es := by
  induction es generalizing n with
  | nil => cases n <;> rfl
  | cons e es ih =>
    obtain ⟨m, rfl⟩ : ∃ m, n = m + 1 := ⟨n - 1, by simp at hn; omega⟩
    rw [List.flatMap_cons, parseTreeAux_cons (he e List.mem_cons_self),
      ih (fun e' h => he e' (List.mem_cons_of_mem _ h)) m (by simpa using hn)]
    rfl

theorem length_le_payload (es : List (TreeEntry Oid)) :
    es.length ≤ (es.flatMap entryPayload).length := by
  induction es with
  | nil => simp
  | cons e es ih =>
    have := List.length_pos_iff.mpr (entryPayload_ne_nil e)
    simp only [List.flatMap_cons, List.length_append, List.length_cons]
    omega

theorem parseTree_payload [LawfulObjectId Oid] {es : List (TreeEntry Oid)}
    (he : ∀ e ∈ es, e.Encodable) : parseTree (es.flatMap entryPayload) = .ok es :=
  parseTreeAux_payload he _ (length_le_payload es)

/-! ### Commits -/

theorem stripPrefix_append (p s : Str) : stripPrefix p (p ++ s) = some s := by simp [stripPrefix]

theorem stripPrefix_eq_some {pre p q : Str} (h : stripPrefix pre p = some q) : p = pre ++ q := by
  simp only [stripPrefix] at h
  split_ifs at h with hp
  obtain ⟨t, rfl⟩ := hp
  simpa using h

theorem isWhitespace_of_isHexDigit {c : Char} (h : isHexDigit c) : isWhitespace c = false := by
  simp only [isHexDigit, hexValue] at h
  simp only [isWhitespace]
  generalize c.toNat = v at h
  split_ifs at h with h1 h2 h3 <;> simp <;> first | omega | simp at h

theorem notMem_toHex [LawfulObjectId Oid] {c : Char} (hc : isHexDigit c = false) (o : Oid) :
    c ∉ toHex o := by
  intro h
  simp [LawfulObjectId.isHexDigit_toHex o c h] at hc

theorem fromHex_toHex [LawfulObjectId Oid] (o : Oid) : fromHex (toHex o) = .ok o :=
  fromHex_of_hexToOid (LawfulObjectId.hexToOid_toHex o)

theorem fromHex_trim_toHex [LawfulObjectId Oid] (o : Oid) : fromHex (trim (toHex o)) = .ok o := by
  rw [trim_eq_self (trimmed_of_all fun c hc =>
    isWhitespace_of_isHexDigit (LawfulObjectId.isHexDigit_toHex o c hc)), fromHex_toHex]

def identText (name email : Str) (time : Nat) : Str :=
  name ++ " <".toList ++ email ++ "> ".toList ++ decimal time ++ " +0000".toList

theorem identLine_eq (role name email : Str) (time : Nat) :
    identLine role name email time = role ++ ' ' :: identText name email time ++ ['\n'] := by
  simp [identLine, identText]

theorem isWhitespace_of_isDigit {c : Char} (h : c.isDigit) : isWhitespace c = false := by
  simp only [Char.isDigit, Bool.and_eq_true, decide_eq_true_eq] at h
  have h1 : 48 ≤ c.toNat := by simpa using UInt32.le_iff_toNat_le.mp h.1
  have h2 : c.toNat ≤ 57 := by simpa using UInt32.le_iff_toNat_le.mp h.2
  simp only [isWhitespace]
  generalize c.toNat = v at h1 h2
  simp
  omega

theorem firstWord_time (n : Nat) :
    firstWord (trim (' ' :: (decimal n ++ " +0000".toList))) = some (decimal n) := by
  have hdig : ∀ c ∈ decimal n, isWhitespace c = false := fun c hc =>
    isWhitespace_of_isDigit (isDigit_of_mem_decimal hc)
  obtain ⟨d, ds, hd⟩ := List.exists_cons_of_ne_nil (decimal_ne_nil n)
  have hd0 : isWhitespace d = false := hdig d (hd ▸ List.mem_cons_self)
  have hstart : trimStart (decimal n ++ " +0000".toList) = decimal n ++ " +0000".toList := by
    rw [trimStart, hd, List.cons_append, List.dropWhile_cons_of_neg (by simp [hd0])]
  have htrim : trim (' ' :: (decimal n ++ " +0000".toList)) = decimal n ++ " +0000".toList := by
    have hsp : trimStart (' ' :: (decimal n ++ " +0000".toList)) =
        trimStart (decimal n ++ " +0000".toList) := by
      rw [trimStart, List.dropWhile_cons_of_pos (by decide), trimStart]
    rw [trim, hsp, hstart, trimEnd_eq_rdropWhile,
      show decimal n ++ " +0000".toList = decimal n ++ " +000".toList ++ ['0'] by simp,
      List.rdropWhile_concat_neg _ _ _ (by decide)]
  rw [htrim, firstWord, hstart]
  split
  · simp_all
  · rename_i t ht
    rw [Option.some.injEq, List.takeWhile_append_of_pos (by simpa using hdig)]
    simp [show isWhitespace ' ' = true by decide]

theorem parseIdent_identText {name email : Str} {time : Nat} (h : IdentEncodable name email time) :
    parseIdent (identText name email time) = .ok (name, email, time) := by
  have hlt : Split.cut '<' (identText name email time) =
      some (name ++ [' '], email ++ "> ".toList ++ decimal time ++ " +0000".toList) := by
    rw [← Split.cut_append (by simp [h.noLt] : '<' ∉ name ++ [' '])]
    simp [identText]
  have hgt : Split.cut '>' (identText name email time) =
      some (name ++ " <".toList ++ email, ' ' :: (decimal time ++ " +0000".toList)) := by
    rw [← Split.cut_append (by simp [h.noGt, h.emailNoGt] : '>' ∉ name ++ " <".toList ++ email)]
    simp [identText]
  have hdrop : (name ++ " <".toList ++ email).drop ((name ++ [' ']).length + 1) = email := by
    rw [show name ++ " <".toList ++ email = (name ++ " <".toList) ++ email by simp,
      List.drop_left' (by simp)]
  have hlen : ¬ (name ++ " <".toList ++ email).length ≤ (name ++ [' ']).length := by
    simp
  simp only [parseIdent, hlt, hgt, if_neg hlen, hdrop, firstWord_time, Option.bind_some, parseU64,
    parseUnsigned_decimal h.time_lt, Option.getD_some, trim_append_space h.trimmed]

/-! The header lines of a commit, and what reading each of them does. -/

theorem parentLine_eq (p : Oid) : parentLine p = ("parent ".toList ++ toHex p) ++ ['\n'] := rfl

def headerLines (c : CommitObj Oid) : List Str :=
  ("tree ".toList ++ toHex c.tree) :: c.parents.map (fun p => "parent ".toList ++ toHex p) ++
    ["author ".toList ++ identText c.author c.authorEmail c.authorTime,
      "committer ".toList ++ identText c.committer c.committerEmail c.committerTime]

variable [LawfulObjectId Oid]

theorem headerLine_tree (h : CommitHeader Oid) (t : Oid) :
    headerLine h ("tree ".toList ++ toHex t) = .ok { h with tree := some t } := by
  simp only [headerLine, stripPrefix_append, fromHex_trim_toHex, ok_bind]
  rfl

theorem headerLine_parent (h : CommitHeader Oid) (p : Oid) :
    headerLine h ("parent ".toList ++ toHex p) = .ok { h with parents := h.parents ++ [p] } := by
  have h1 : stripPrefix "tree ".toList ("parent ".toList ++ toHex p) = none := rfl
  simp only [headerLine, h1, stripPrefix_append, fromHex_trim_toHex, ok_bind]
  rfl

omit [LawfulObjectId Oid] in
theorem headerLine_author (h : CommitHeader Oid) {name email : Str} {time : Nat}
    (hi : IdentEncodable name email time) :
    headerLine h ("author ".toList ++ identText name email time) =
      .ok { h with author := name, authorEmail := email, authorTime := time } := by
  have h1 : ∀ s, stripPrefix "tree ".toList ("author ".toList ++ s) = none := fun _ => rfl
  have h2 : ∀ s, stripPrefix "parent ".toList ("author ".toList ++ s) = none := fun _ => rfl
  simp only [headerLine, h1, h2, stripPrefix_append, parseIdent_identText hi, ok_bind]
  rfl

omit [LawfulObjectId Oid] in
theorem headerLine_committer (h : CommitHeader Oid) {name email : Str} {time : Nat}
    (hi : IdentEncodable name email time) :
    headerLine h ("committer ".toList ++ identText name email time) =
      .ok { h with committer := name, committerEmail := email, committerTime := time } := by
  have h1 : ∀ s, stripPrefix "tree ".toList ("committer ".toList ++ s) = none := fun _ => rfl
  have h2 : ∀ s, stripPrefix "parent ".toList ("committer ".toList ++ s) = none := fun _ => rfl
  have h3 : ∀ s, stripPrefix "author ".toList ("committer ".toList ++ s) = none := fun _ => rfl
  simp only [headerLine, h1, h2, h3, stripPrefix_append, parseIdent_identText hi, ok_bind]
  rfl

omit [LawfulObjectId Oid] in
theorem parseHeader_append {ls : List Str} (hls : ∀ l ∈ ls, l ≠ []) (h : CommitHeader Oid)
    (rest : List Str) :
    parseHeader h (ls ++ [] :: rest) = (ls.foldlM headerLine h >>= fun h => pure (h, rest)) := by
  induction ls generalizing h with
  | nil => rfl
  | cons l ls ih =>
    rw [List.cons_append, parseHeader, if_neg (hls l List.mem_cons_self), List.foldlM_cons]
    cases headerLine h l with
    | error e => rfl
    | ok h' => exact ih (fun l' hl' => hls l' (List.mem_cons_of_mem _ hl')) h'

theorem foldlM_headerLine_parents (ps : List Oid) (h : CommitHeader Oid) :
    (ps.map fun p => "parent ".toList ++ toHex p).foldlM headerLine h =
      .ok { h with parents := h.parents ++ ps } := by
  induction ps generalizing h with
  | nil => simp [pure, Except.pure]
  | cons p ps ih =>
    rw [List.map_cons, List.foldlM_cons, headerLine_parent, ok_bind, ih]
    simp

theorem parseHeader_headerLines {c : CommitObj Oid} (hc : c.Encodable) (rest : List Str) :
    parseHeader {} (headerLines c ++ [] :: rest) =
      .ok ({ tree := some c.tree, parents := c.parents, author := c.author,
             authorEmail := c.authorEmail, authorTime := c.authorTime, committer := c.committer,
             committerEmail := c.committerEmail, committerTime := c.committerTime }, rest) := by
  rw [parseHeader_append (by rintro l hl rfl; simp [headerLines] at hl)]
  simp only [headerLines, List.cons_append, List.foldlM_cons, headerLine_tree, ok_bind,
    List.foldlM_append, foldlM_headerLine_parents, headerLine_author _ hc.1,
    headerLine_committer _ hc.2, List.foldlM_nil, List.nil_append]
  rfl

theorem splitOn_commitText {c : CommitObj Oid} (hc : c.Encodable) :
    Split.splitOn '\n' (commitText c) = headerLines c ++ [] :: Split.splitOn '\n' c.message := by
  have hid : ∀ {name email : Str} {time : Nat}, IdentEncodable name email time →
      '\n' ∉ identText name email time := by
    intro name email time h
    have := h.noNewline
    rw [List.mem_append, not_or] at this
    simp [identText, this.1, this.2, notMem_decimal (c := '\n') (by decide) time]
  have hparents : ∀ (ps : List Oid) (rest : Str),
      Split.splitOn '\n' (ps.flatMap parentLine ++ rest) =
        ps.map (fun p => "parent ".toList ++ toHex p) ++ Split.splitOn '\n' rest := by
    intro ps rest
    induction ps with
    | nil => rfl
    | cons p ps ih =>
      rw [List.map_cons, List.cons_append, ← ih,
        ← Split.splitOn_append_sep (p := "parent ".toList ++ toHex p)
          (by simp [notMem_toHex (c := '\n') (by decide) p]), List.flatMap_cons, parentLine_eq]
      simp only [List.append_assoc, List.cons_append, List.nil_append]
  have htree : commitText c = ("tree ".toList ++ toHex c.tree) ++ '\n' ::
      (c.parents.flatMap parentLine ++
        (("author ".toList ++ identText c.author c.authorEmail c.authorTime) ++ '\n' ::
          (("committer ".toList ++ identText c.committer c.committerEmail c.committerTime) ++
            '\n' ::
            '\n' :: c.message))) := by
    have hauthor : "author ".toList = "author".toList ++ [' '] := rfl
    have hcommitter : "committer ".toList = "committer".toList ++ [' '] := rfl
    simp only [commitText, identLine_eq, hauthor, hcommitter, List.append_assoc, List.cons_append,
      List.nil_append]
  have ht : '\n' ∉ "tree ".toList ++ toHex c.tree := by
    simp [notMem_toHex (c := '\n') (by decide) c.tree]
  have ha : '\n' ∉ "author ".toList ++ identText c.author c.authorEmail c.authorTime := by
    simpa using hid hc.1
  have hm : '\n' ∉ "committer ".toList ++ identText c.committer c.committerEmail
      c.committerTime := by
    simpa using hid hc.2
  rw [htree, Split.splitOn_append_sep ht, hparents, Split.splitOn_append_sep ha,
    Split.splitOn_append_sep hm, Split.splitOn_cons_self, headerLines, List.cons_append,
    List.cons_append, List.append_assoc]
  rfl

theorem parseCommit_payload {c : CommitObj Oid} (hc : c.Encodable) :
    parseCommit (GitObject.commit c).payload = .ok c := by
  simp only [parseCommit, GitObject.payload, fromUtf8Lossy_utf8, splitOn_commitText hc,
    parseHeader_headerLines hc, ok_bind, Split.join_splitOn]
  rfl

/-! ### Objects -/

/-- What is framed is read back, the entries of a tree in the order of the framing. -/
theorem parseFramed_framed {x : GitObject Oid} (hx : x.Encodable) :
    parseFramed x.framed = .ok x.canon := by
  have hdec : Char.ofNat 0 ∉ decimal x.payload.length := notMem_decimal (by decide) _
  have hnul : (0 : UInt8) ∉ utf8 (x.kind ++ ' ' :: decimal x.payload.length) := by
    refine notMem_utf8 (n := 0) (by omega) ?_
    cases x <;> simpa [GitObject.kind] using hdec
  have hsp : ' ' ∉ x.kind := by cases x <;> simp [GitObject.kind]
  simp only [parseFramed, GitObject.framed, Split.cut_append hnul, fromUtf8_utf8,
    Split.cut_append hsp,
    parseUnsigned_decimal (show x.payload.length < max (2 ^ 64) (x.payload.length + 1) by omega),
    ne_eq, not_true_eq_false, if_false]
  cases x with
  | blob b => rfl
  | tree es =>
    have hes : ∀ e ∈ sortEntries es, e.Encodable := fun e he =>
        hx e ((sortEntries_perm es).subset he)
    simp only [GitObject.kind, GitObject.payload, parseTree_payload hes]
    rfl
  | commit c =>
    simp only [GitObject.kind, parseCommit_payload (show c.Encodable from hx)]
    rfl

theorem canon_eq_of_oid_eq {x y : GitObject Oid} (hx : x.Encodable) (hy : y.Encodable)
    (h : x.oid = y.oid) : x.canon = y.canon := by
  have hf : x.framed = y.framed := LawfulObjectId.sha1_injective h
  have := parseFramed_framed hx
  rw [hf, parseFramed_framed hy] at this
  exact (Except.ok.inj this).symm

/-! ### What the parser returns -/

omit [LawfulObjectId Oid] in
theorem encodable_of_parseTreeAux (n : Nat) (payload : Bytes) {es : List (TreeEntry Oid)}
    (h : parseTreeAux n payload = .ok es) : ∀ e ∈ es, e.Encodable := by
  induction n generalizing payload es with
  | zero =>
    cases payload with
    | nil => simp only [parseTreeAux, Except.ok.injEq] at h; simp [← h]
    | cons b t => simp [parseTreeAux] at h
  | succ n ih =>
    cases payload with
    | nil => simp only [parseTreeAux, Except.ok.injEq] at h; simp [← h]
    | cons b t =>
      simp only [parseTreeAux] at h
      split at h
      · simp at h
      rename_i modeBytes rest hsp
      split at h
      · simp at h
      rename_i mode hmode
      split at h
      · simp at h
      rename_i nameBytes rest' hnul
      split at h
      · simp at h
      rename_i name hname
      split at h
      · simp at h
      rename_i o rest'' _
      obtain ⟨es', hes', h⟩ := bind_ok.mp h
      obtain rfl := pure_ok.mp h
      intro e he
      rcases List.mem_cons.mp he with rfl | he
      · exact ⟨notMem_fromUtf8 (n := 32) hmode (by omega) (Split.cut_eq_some hsp).2,
          notMem_fromUtf8 (n := 0) hname (by omega) (Split.cut_eq_some hnul).2⟩
      · exact ih rest'' hes' e he

theorem identEncodable_of_parseIdent {s name email : Str} {time : Nat} (hs : '\n' ∉ s)
    (h : parseIdent s = .ok (name, email, time)) : IdentEncodable name email time := by
  simp only [parseIdent] at h
  split at h
  · simp at h
  · simp at h
  rename_i n after upToGt rest hlt hgt
  split_ifs at h with hlen
  simp only [Except.ok.injEq, Prod.mk.injEq] at h
  obtain ⟨rfl, rfl, rfl⟩ := h
  obtain ⟨-, hn⟩ := Split.cut_eq_some hlt
  obtain ⟨hs2, hg⟩ := Split.cut_eq_some hgt
  have htrim : trim n ⊆ n := fun c hc =>
    (List.dropWhile_sublist _).subset ((List.rdropWhile_prefix _ _).subset hc)
  -- the first `>` comes after the first `<`, so the name is a prefix of what precedes it
  have hpre : n <+: upToGt := Split.prefix_of_cut hlt hgt (by omega)
  have hsub : upToGt ⊆ s := hs2 ▸ List.subset_append_left _ _
  refine ⟨trimmed_trim n, fun hc => hn (htrim hc), fun hc => hg (hpre.subset (htrim hc)),
    fun hc => hg (List.drop_subset _ _ hc), fun hc => hs ?_, ?_⟩
  · rcases List.mem_append.mp hc with hc | hc
    · exact hsub (hpre.subset (htrim hc))
    · exact hsub (List.drop_subset _ _ hc)
  · cases htime : (firstWord (trim rest)).bind parseU64 with
    | none => simp
    | some t =>
      obtain ⟨w, -, hw⟩ := Option.bind_eq_some_iff.mp htime
      exact parseUnsigned_lt hw

def CommitHeader.Encodable (h : CommitHeader Oid) : Prop :=
  IdentEncodable h.author h.authorEmail h.authorTime ∧
    IdentEncodable h.committer h.committerEmail h.committerTime

theorem identEncodable_empty : IdentEncodable [] [] 0 where
  trimmed := trimmed_of_all (by simp)
  noLt := by simp
  noGt := by simp
  emailNoGt := by simp
  noNewline := by simp
  time_lt := by decide

theorem notMem_of_stripPrefix {p s t : Str} {c : Char} (h : stripPrefix p s = some t) (hs : c ∉ s) :
    c ∉ t := by
  simp only [stripPrefix] at h
  split_ifs at h
  exact fun hc => hs (List.drop_subset _ _ (Option.some.inj h ▸ hc))

omit [LawfulObjectId Oid] in
theorem encodable_headerLine {h h' : CommitHeader Oid} {line : Str} (hh : h.Encodable)
    (hline : '\n' ∉ line) (hok : headerLine h line = .ok h') : h'.Encodable := by
  simp only [headerLine] at hok
  split at hok
  · obtain ⟨t, -, hok⟩ := bind_ok.mp hok
    exact pure_ok.mp hok ▸ hh
  split at hok
  · obtain ⟨p, -, hok⟩ := bind_ok.mp hok
    exact pure_ok.mp hok ▸ hh
  split at hok
  · rename_i rest hrest
    obtain ⟨⟨n, e, t⟩, hid, hok⟩ := bind_ok.mp hok
    exact pure_ok.mp hok ▸ ⟨identEncodable_of_parseIdent
      (notMem_of_stripPrefix hrest hline) hid, hh.2⟩
  split at hok
  · rename_i rest hrest
    obtain ⟨⟨n, e, t⟩, hid, hok⟩ := bind_ok.mp hok
    exact pure_ok.mp hok ▸ ⟨hh.1, identEncodable_of_parseIdent
      (notMem_of_stripPrefix hrest hline) hid⟩
  · exact Except.ok.inj hok ▸ hh

omit [LawfulObjectId Oid] in
theorem encodable_parseHeader {ls rest : List Str} {h h' : CommitHeader Oid} (hh : h.Encodable)
    (hls : ∀ l ∈ ls, '\n' ∉ l) (hok : parseHeader h ls = .ok (h', rest)) : h'.Encodable := by
  induction ls generalizing h with
  | nil =>
    simp only [parseHeader, Except.ok.injEq, Prod.mk.injEq] at hok
    exact hok.1 ▸ hh
  | cons l ls ih =>
    simp only [parseHeader] at hok
    split_ifs at hok
    · simp only [Except.ok.injEq, Prod.mk.injEq] at hok
      exact hok.1 ▸ hh
    · obtain ⟨h1, hl, hok⟩ := bind_ok.mp hok
      exact ih (encodable_headerLine hh (hls l List.mem_cons_self) hl)
        (fun l' hl' => hls l' (List.mem_cons_of_mem _ hl')) hok

omit [LawfulObjectId Oid] in
theorem encodable_of_parseCommit {payload : Bytes} {c : CommitObj Oid}
    (h : parseCommit payload = .ok c) : c.Encodable := by
  simp only [parseCommit] at h
  obtain ⟨⟨hd, rest⟩, hp, h⟩ := bind_ok.mp h
  have := encodable_parseHeader (h := ({} : CommitHeader Oid))
    ⟨identEncodable_empty, identEncodable_empty⟩ (fun l hl => Split.notMem_of_mem_splitOn hl) hp
  simp only at h
  split at h
  · simp at h
  · exact pure_ok.mp h ▸ this

omit [LawfulObjectId Oid] in
/-- The parser returns only objects whose framing can be read back. -/
theorem encodable_of_parseFramed {framed : Bytes} {x : GitObject Oid}
    (h : parseFramed framed = .ok x) : x.Encodable := by
  simp only [parseFramed] at h
  split at h
  · simp at h
  split at h
  · simp at h
  split at h
  · simp at h
  split at h
  · simp at h
  split_ifs at h
  · exact Except.ok.inj h ▸ trivial
  · obtain ⟨es, hes, h⟩ := bind_ok.mp h
    exact pure_ok.mp h ▸ encodable_of_parseTreeAux _ _ hes
  · obtain ⟨c, hc, h⟩ := bind_ok.mp h
    exact pure_ok.mp h ▸ encodable_of_parseCommit hc

section Wire
variable [Crates]

omit [LawfulObjectId Oid] in
theorem encodable_of_decompressAndParse {r : Bytes} {x : GitObject Oid}
    (h : decompressAndParse r = .ok x) : x.Encodable := by
  simp only [decompressAndParse] at h
  split at h
  · simp at h
  · exact encodable_of_parseFramed h

theorem decompressAndParse_compress [LawfulCrates] {x : GitObject Oid} (hx : x.Encodable) :
    decompressAndParse x.compress = .ok x.canon := by
  simp only [decompressAndParse, GitObject.compress, LawfulCrates.inflate_deflate,
    parseFramed_framed hx]

end Wire

end Csp
