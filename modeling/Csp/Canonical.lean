import Csp.Small
import Csp.Store

/-! Which frames are stored as they came: those that the encoder would write. The parser accepts
others, and what it makes of them has the id of another frame. -/

namespace Csp

section Canonical
variable {Oid : Type} [ObjectId Oid]

def CanonicalIdent (s : Str) : Prop :=
  ∃ name email time, IdentEncodable name email time ∧ s = identText name email time

/-- The tree, the parents, the author and the committer, a line each, and no other line. -/
def CanonicalHeader (Oid : Type) [ObjectId Oid] (ls : List Str) : Prop :=
  ∃ (t : Oid) (ps : List Oid) (author committer : Str), CanonicalIdent author ∧
    CanonicalIdent committer ∧
    ls = ("tree ".toList ++ toHex t) :: ps.map (fun p => "parent ".toList ++ toHex p) ++
      ["author ".toList ++ author, "committer ".toList ++ committer]

/-- Any bytes for a blob, entries in git's order for a tree, and for a commit UTF-8 text: the
header, an empty line and the message. -/
inductive CanonicalPayload (Oid : Type) [ObjectId Oid] : Str → Bytes → Prop
  | blob (b : Bytes) : CanonicalPayload Oid "blob".toList b
  | tree {es : List (TreeEntry Oid)} (names : ∀ e ∈ es, e.Encodable)
      (sorted : es.Pairwise fun e f => treeSortKey e ≤ treeSortKey f) :
      CanonicalPayload Oid "tree".toList (es.flatMap entryPayload)
  | commit {text : Str} {header message : List Str}
    (lines : Split.splitOn '\n' text = header ++ [] :: message)
      (message_ne : message ≠ []) (header_ok : CanonicalHeader Oid header) :
      CanonicalPayload Oid "commit".toList (utf8 text)

/-- The kind, the length as a number is printed, and the payload. -/
def CanonicalFrame (Oid : Type) [ObjectId Oid] (b : Bytes) : Prop :=
  ∃ kind payload, CanonicalPayload Oid kind payload ∧
    b = utf8 (kind ++ ' ' :: decimal payload.length) ++ 0 :: payload

variable [LawfulObjectId Oid]

omit [LawfulObjectId Oid] in
theorem canonicalHeader_headerLines {c : CommitObj Oid} (hc : c.Encodable) :
    CanonicalHeader Oid (headerLines c) :=
  ⟨c.tree, c.parents, _, _, ⟨_, _, _, hc.1, rfl⟩, ⟨_, _, _, hc.2, rfl⟩, rfl⟩

theorem canonicalFrame_framed {x : GitObject Oid} (hx : x.Encodable) :
    CanonicalFrame Oid x.framed := by
  refine ⟨x.kind, x.payload, ?_, rfl⟩
  cases x with
  | blob b => exact .blob b
  | tree es =>
    exact .tree (fun e he => hx e ((sortEntries_perm es).subset he)) (pairwise_sortEntries es)
  | commit c =>
    exact .commit (splitOn_commitText hx) (Split.splitOn_ne_nil _ _)
      (canonicalHeader_headerLines hx)

theorem exists_framed_of_canonical {b : Bytes} (h : CanonicalFrame Oid b) :
    ∃ x : GitObject Oid, x.Encodable ∧ x.framed = b := by
  obtain ⟨kind, payload, hpayload, rfl⟩ := h
  cases hpayload with
  | blob => exact ⟨.blob payload, trivial, rfl⟩
  | tree names sorted =>
    refine ⟨.tree _, names, ?_⟩
    rw [GitObject.framed, GitObject.payload, sortEntries, sorted.insertionSort_eq]
    rfl
  | @commit text header message lines message_ne header_ok =>
    obtain ⟨t, ps, author, committer, ⟨an, ae, at', ha, rfl⟩, ⟨cn, ce, ct, hc, rfl⟩,
      rfl⟩ := header_ok
    let c : CommitObj Oid :=
      { tree := t, parents := ps, author := an, authorEmail := ae, authorTime := at',
        committer := cn, committerEmail := ce, committerTime := ct, message :=
        Split.join '\n' message }
    have henc : c.Encodable := ⟨ha, hc⟩
    have hmessage : Split.splitOn '\n' c.message = message := by
      refine Split.splitOn_join message_ne fun p hp => ?_
      refine Split.notMem_of_mem_splitOn (l := text) ?_
      rw [lines]
      exact List.mem_append_right _ (List.mem_cons_of_mem _ hp)
    have htext : commitText c = text := by
      apply Split.splitOn_injective '\n'
      rw [splitOn_commitText henc, hmessage, lines]
      rfl
    refine ⟨.commit c, henc, ?_⟩
    rw [GitObject.framed, GitObject.payload, htext]
    rfl

variable [Crates]

omit [Crates] in
theorem framed_eq_iff {b : Bytes} {x : GitObject Oid} (h : parseFramed b = .ok x) :
    x.framed = b ↔ CanonicalFrame Oid b := by
  constructor
  · intro hx
    exact hx ▸ canonicalFrame_framed (encodable_of_parseFramed h)
  · intro hb
    obtain ⟨y, hy, rfl⟩ := exists_framed_of_canonical hb
    rw [parseFramed_framed hy, Except.ok.injEq] at h
    rw [← h, GitObject.framed_canon]

omit [LawfulObjectId Oid] in
theorem putRaw_eq {r b : Bytes} {x : GitObject Oid} (hr : Crates.inflate r = some b)
    (h : parseFramed b = .ok x) (s : Store Oid) : (StoreM.putRaw r s).1 = .ok x.oid := by
  simp only [StoreM.putRaw, decompressAndParse, hr, h]
  rfl

/-- Of the frames that are accepted, the canonical ones are those that are written back as they
came, those that are stored under their own hash, and those that share their object with no
other canonical frame. -/
theorem stored_canonically_iff [LawfulCrates] {r b : Bytes} {x : GitObject Oid}
    (hr : Crates.inflate r = some b) (h : parseFramed b = .ok x) (s : Store Oid) :
    (x.framed = b ↔ CanonicalFrame Oid b) ∧
      ((StoreM.putRaw r s).1 = .ok (sha1 b) ↔ CanonicalFrame Oid b) ∧
      ((∀ (r' b' : Bytes) (x' : GitObject Oid), Crates.inflate r' = some b' →
        parseFramed b' = .ok x' →
        CanonicalFrame Oid b' → (StoreM.putRaw r' s).1 = (StoreM.putRaw r s).1 → b' = b) ↔
        CanonicalFrame Oid b) := by
  have hput := putRaw_eq hr h s
  refine ⟨framed_eq_iff h, ?_, ?_⟩
  · rw [hput, Except.ok.injEq, ← framed_eq_iff h]
    exact LawfulObjectId.sha1_injective.eq_iff
  · rw [← framed_eq_iff h]
    constructor
    · intro halone
      have hx := encodable_of_parseFramed h
      have hframed := parseFramed_framed hx
      have hinflate : Crates.inflate x.compress = some x.framed := LawfulCrates.inflate_deflate _
      apply halone x.compress x.framed x.canon hinflate hframed (canonicalFrame_framed hx)
      rw [← GitObject.oid_canon] at hput
      exact (putRaw_eq hinflate hframed s).trans hput.symm
    · intro hb r' b' x' hr' h' hcanon' hsame
      rw [putRaw_eq hr' h' s, hput, Except.ok.injEq] at hsame
      rw [← (framed_eq_iff h').mpr hcanon', ← hb]
      exact LawfulObjectId.sha1_injective hsame

end Canonical

namespace Small

def emptyStore : Store Digest := Store.empty .mem

def longLength : Bytes := utf8 "blob 00".toList ++ [0]

theorem parse_longLength : parseFramed longLength = .ok (.blob [] : GitObject Digest) := by
  decide +kernel

theorem stored_canonically_longLength :
    ((GitObject.blob [] : GitObject Digest).framed = longLength ↔
      CanonicalFrame Digest longLength) ∧
      ((StoreM.putRaw longLength emptyStore).1 = .ok (sha1 longLength) ↔
        CanonicalFrame Digest longLength) ∧
      ((∀ (r' b' : Bytes) (x' : GitObject Digest), Crates.inflate r' = some b' →
        parseFramed b' = .ok x' →
        CanonicalFrame Digest b' → (StoreM.putRaw r' emptyStore).1 =
          (StoreM.putRaw longLength emptyStore).1 → b' = longLength) ↔
          CanonicalFrame Digest longLength) :=
  stored_canonically_iff rfl parse_longLength emptyStore

/-- Two byte strings, both accepted, and one object. -/
theorem longLength_shares :
    parseFramed longLength = .ok (.blob [] : GitObject Digest) ∧
      parseFramed (utf8 "blob 0".toList ++ [0]) = .ok (.blob [] : GitObject Digest) ∧
      (GitObject.blob [] : GitObject Digest).framed ≠ longLength ∧
      (StoreM.putRaw longLength emptyStore).1 =
        (StoreM.putRaw (utf8 "blob 0".toList ++ [0]) emptyStore).1 ∧
      (StoreM.putRaw longLength emptyStore).1 ≠ .ok (sha1 longLength) := by
  decide +kernel

end Small

end Csp
