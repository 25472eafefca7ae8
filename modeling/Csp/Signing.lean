import Csp.Small

/-! What is built is read back as it was built, and what the signature of an accepted
primitive fixes: every byte of its commit but the blanks around the signature itself. -/

namespace Csp

/-! ### The end of a message -/

theorem stripSuffix_eq_some {p s r : Str} (h : stripSuffix p s = some r) : s = r ++ p := by
  rw [stripSuffix, Option.ite_none_right_eq_some] at h
  obtain ⟨⟨t, rfl⟩, h⟩ := h
  rw [List.length_append, Nat.add_sub_cancel, List.take_left, Option.some.injEq] at h
  rw [h]

def Blank (s : Str) : Prop := ∀ c ∈ s, isWhitespace c = true ∧ c ≠ '\n'

/-- One text but for the blanks around the base64 of the signature that ends it. -/
def Repadded (s s' : Str) : Prop :=
  ∃ pre b w x w' x' : Str, (∀ c ∈ b, isBase64 c = true) ∧ Blank (w ++ x) ∧ Blank (w' ++ x') ∧
    s = pre ++ (sigTrailer ++ (w ++ b ++ x) ++ ['\n']) ∧
    s' = pre ++ (sigTrailer ++ (w' ++ b ++ x') ++ ['\n'])

theorem exists_blank_trim {s : Str} (h : '\n' ∉ s) : ∃ w x, Blank (w ++ x) ∧
    s = w ++ trim s ++ x := by
  refine ⟨s.takeWhile isWhitespace, (trimStart s).rtakeWhile isWhitespace, ?_, ?_⟩
  · have hw : s.takeWhile isWhitespace ⊆ s := (List.takeWhile_prefix _).subset
    have hx : (trimStart s).rtakeWhile isWhitespace ⊆ s := fun c hc =>
      (List.dropWhile_sublist _).subset ((List.rtakeWhile_suffix _ _).subset hc)
    intro c hc
    rcases List.mem_append.mp hc with hc | hc
    · exact ⟨List.mem_takeWhile_imp hc, fun he => h (he ▸ hw hc)⟩
    · exact ⟨List.mem_rtakeWhile_imp hc, fun he => h (he ▸ hx hc)⟩
  · rw [List.append_assoc, trim, trimEnd_eq_rdropWhile,
      List.rdropWhile_append_rtakeWhile, trimStart,
      List.takeWhile_append_dropWhile]

theorem append_cons_last_inj {α : Type*} [DecidableEq α] {sep : α} {a b s t : List α} (hs : sep ∉ s)
    (ht : sep ∉ t) (h : a ++ sep :: s = b ++ sep :: t) : a = b ∧ s = t := by
  have hrev := congrArg List.reverse h
  simp only [List.reverse_append, List.reverse_cons, List.append_assoc,
    List.singleton_append] at hrev
  have hcut := congrArg (Split.cut sep) hrev
  rw [Split.cut_append (mt List.mem_reverse.mp hs),
    Split.cut_append (mt List.mem_reverse.mp ht)] at hcut
  simp only [Option.some.injEq, Prod.mk.injEq, List.reverse_inj] at hcut
  exact ⟨hcut.2, hcut.1⟩

theorem notMem_padded {b w x : Str} (hb : ∀ c ∈ b, isBase64 c = true) (hw : Blank (w ++ x)) :
    ':' ∉ ' ' :: (w ++ b ++ x ++ ['\n']) := by
  have hblank : ':' ∉ w ++ x := fun h => absurd (hw _ h).1 (by decide)
  have hbase : ':' ∉ b := fun h => absurd (hb _ h) (by decide)
  rw [List.mem_append] at hblank
  simp only [List.mem_cons, List.mem_append, List.not_mem_nil]
  tauto

/-- The signature that ends a text tells what is before it. -/
theorem pre_unique {pre pre' b b' w x w' x' : Str} (hb : ∀ c ∈ b, isBase64 c = true)
    (hb' : ∀ c ∈ b', isBase64 c = true) (hw : Blank (w ++ x)) (hw' : Blank (w' ++ x'))
    (h : pre ++ (sigTrailer ++ (w ++ b ++ x) ++ ['\n']) = pre' ++
      (sigTrailer ++ (w' ++ b' ++ x') ++ ['\n'])) :
    pre = pre' := by
  have hsig : ∀ p s : Str, p ++ (sigTrailer ++ s ++ ['\n']) =
      (p ++ "CSP-Signature".toList) ++ ':' :: ' ' :: (s ++ ['\n']) := by
    intro p s
    rw [show sigTrailer = "CSP-Signature".toList ++ [':', ' '] by decide]
    simp only [List.append_assoc, List.cons_append, List.nil_append]
  rw [hsig pre, hsig pre'] at h
  obtain ⟨hpre, -⟩ := append_cons_last_inj (notMem_padded hb hw) (notMem_padded hb' hw') h
  exact List.append_cancel_right hpre

/-! ### Built and accepted -/

section Signed
variable {Oid : Type} [ObjectId Oid] [Crates]

/-- An object is read back from its frame, and a primitive from the wire, with its author, its
counter and its re-adds. -/
theorem read_back [LawfulObjectId Oid] [LawfulCrates] :
    (∀ x : GitObject Oid, x.Encodable → parseFramed x.framed = .ok x.canon) ∧
      ∀ (id : Identity) (tree parent : Oid) (counter wallTime : Nat) (subject :
        Str) (readds : List Oid),
        counter < 2 ^ 64 → wallTime < 2 ^ 64 →
          ∃ c : CommitObj Oid,
            decompressAndParse (buildPrimitiveWithReadd id tree parent counter wallTime subject
              readds).compress =
                .ok (.commit c) ∧
              verifyPrimitive c = .ok id.nodeId ∧ parsePrimitiveMeta c = some (counter, id.nodeId) ∧
              (NoReadd subject → parsePrimitiveReadds c = readds) := by
  refine ⟨fun x hx => parseFramed_framed hx, ?_⟩
  intro id tree parent counter wallTime subject readds hc hw
  refine ⟨signedPrimitive id tree parent counter wallTime subject readds, ?_, ?_, ?_, ?_⟩
  · rw [buildPrimitiveWithReadd_eq]
    exact decompressAndParse_compress (encodable_signedPrimitive id tree parent counter hw
        subject readds)
  · exact verifyPrimitive_signed id tree parent hc wallTime subject readds
  · exact parsePrimitiveMeta_signed id tree parent hc wallTime subject readds
  · exact fun hs => parsePrimitiveReadds_signed id tree parent counter wallTime hs readds

/-- The payload that a primitive's signature is checked against. -/
def signedPayload (c : CommitObj Oid) : Option Bytes :=
  ((lines c.message).reverse.find? fun l => sigTrailer.isPrefixOf l).bind fun sigLine =>
    (stripSuffix (sigTrailer ++ sigLine.drop sigTrailer.length ++ ['\n']) c.message).map
    fun preMsg =>
      (GitObject.commit { c with message := preMsg }).payload

omit [Crates] in
theorem commitText_append (c : CommitObj Oid) (pre needle : Str) :
    commitText { c with message := pre ++ needle } = commitText { c with message := pre } ++
    needle := by
  simp only [commitText, List.append_assoc, List.cons_append]

section Accepted
variable [LawfulCrates] {node : NodeId} {c c' : CommitObj Oid}

omit [LawfulCrates] in
theorem signed_of_verify (hstrict : ∀ s b, Crates.base64Decode s = some b →
      Crates.base64Encode b = s)
    (h : verifyPrimitive c = .ok node) :
    ∃ pre sig w x, Blank (w ++ x) ∧
      commitText c = commitText { c with message := pre } ++
        (sigTrailer ++ (w ++ Crates.base64Encode sig ++ x) ++ ['\n']) ∧
      signedPayload c = some (utf8 (commitText { c with message := pre })) ∧
      Crates.verify node (utf8 (commitText { c with message := pre })) sig = true := by
  rw [verifyPrimitive] at h
  split at h
  · cases h
  rename_i counter n hmeta
  split at h
  · cases h
  rename_i sigLine hline
  simp only at h
  split at h
  · cases h
  rename_i sig hsig
  split at h
  · cases h
  rename_i pre hpre
  split_ifs at h with hver
  obtain rfl := Except.ok.inj h
  have hmem : sigLine ∈ lines c.message := List.mem_reverse.mp (List.mem_of_find?_eq_some hline)
  have hnot : '\n' ∉ sigLine.drop sigTrailer.length := fun hm => notMem_lines hmem
      (List.drop_subset _ _ hm)
  obtain ⟨w, x, hblank, hpad⟩ := exists_blank_trim hnot
  rw [← hstrict _ _ hsig] at hpad
  refine ⟨pre, sig, w, x, hblank, ?_, ?_, hver⟩
  · rw [← commitText_append, ← hpad, ← stripSuffix_eq_some hpre]
  · rw [signedPayload, hline, Option.bind_some, hpre]
    rfl

/-- Of the accepted primitives of one author, two are signed for one payload iff they are one
text but for the blanks around the signature. -/
theorem signed_payloads_differ_iff
    (hideal : ∀ m s s', Crates.verify node m s = true → Crates.verify node m s' = true → s = s')
    (hstrict : ∀ s b, Crates.base64Decode s = some b → Crates.base64Encode b = s)
    (hc : verifyPrimitive c = .ok node) (hc' : verifyPrimitive c' = .ok node) :
    signedPayload c ≠ signedPayload c' ↔ ¬ Repadded (commitText c) (commitText c') := by
  obtain ⟨pre, sig, w, x, hw, htext, hpay, hver⟩ := signed_of_verify hstrict hc
  obtain ⟨pre', sig', w', x', hw', htext', hpay', hver'⟩ := signed_of_verify hstrict hc'
  have hb : ∀ s : Bytes, ∀ a ∈ Crates.base64Encode s, isBase64 a = true :=
      LawfulCrates.isBase64_encode
  rw [not_iff_not, hpay, hpay', Option.some.injEq]
  constructor
  · intro h
    have hs : sig = sig' := hideal _ _ _ hver (h ▸ hver')
    have ht := utf8_injective h
    refine ⟨_, Crates.base64Encode sig, w, x, w', x', hb sig, hw, hw', htext, ?_⟩
    rw [htext', ht, hs]
  · rintro ⟨t, b, v, y, v', y', hbase, hv, hv', he, he'⟩
    rw [pre_unique (hb sig) hbase hw hv (htext.symm.trans he),
      pre_unique (hb sig') hbase hw' hv' (htext'.symm.trans he')]

end Accepted

end Signed

namespace Small

theorem read_back_readd :
    ∃ c : CommitObj Digest,
      decompressAndParse (buildPrimitiveWithReadd ⟨[7]⟩ (sha1 [1] : Digest)
        (sha1 [2]) 3 5 "ctx edit".toList
          [sha1 [4]]).compress = .ok (.commit c) ∧
        verifyPrimitive c = .ok (key [7]) ∧ parsePrimitiveMeta c = some (3, key [7]) ∧
        (NoReadd "ctx edit".toList → parsePrimitiveReadds c = [(sha1 [4] : Digest)]) :=
  read_back.2 ⟨[7]⟩ (sha1 [1]) (sha1 [2]) 3 5 "ctx edit".toList [sha1 [4]] (by decide) (by decide)

@[reducible] def strict : Crates :=
  { (inferInstance : Crates) with
    base64Decode := fun s => (hexDecode s).filter fun b => hexEncode b = s }

theorem lawful_strict : @LawfulCrates strict :=
  @LawfulCrates.mk strict hexDecode_hexEncode (fun _ _ => isHexDigit_of_mem_hexEncode)
    (fun _ => rfl) (fun _ _ => decide_eq_true rfl)
    (fun b => by
      change (hexDecode (hexEncode b)).filter (fun b' => hexEncode b' = hexEncode b) = some b
      rw [hexDecode_hexEncode, Option.filter_some, if_pos (decide_eq_true rfl)])
    (fun b c hc => LawfulCrates.isBase64_encode b c hc) LawfulCrates.headerToStr_headerValue

theorem decode_strict (s : Str) (b : Bytes) (h : strict.base64Decode s = some b) :
    strict.base64Encode b = s := by
  obtain ⟨-, h⟩ := Option.filter_eq_some_iff.mp h
  exact of_decide_eq_true h

def padded (blanks : Str) : CommitObj Digest :=
  let c := unsignedPrimitive ⟨[7]⟩ (sha1 [1] : Digest) (sha1 [2]) 3 5 "ctx edit".toList []
  let sig := hexEncode (tag (key [7]) (GitObject.commit c).payload)
  { c with message := c.message ++ (sigTrailer ++ sig ++ blanks ++ ['\n']) }

theorem verify_padded :
    @verifyPrimitive Digest strict _ (padded []) = .ok (key [7]) ∧
      @verifyPrimitive Digest strict _ (padded [' ']) = .ok (key [7]) := by
  decide +kernel

theorem signed_payloads_differ_padded :
    signedPayload (padded []) ≠ signedPayload (padded [' ']) ↔
      ¬ Repadded (commitText (padded [])) (commitText (padded [' '])) :=
  @signed_payloads_differ_iff Digest _ strict lawful_strict (key [7]) _ _
    (fun _ _ _ h h' => (of_decide_eq_true h).trans (of_decide_eq_true h').symm) decode_strict
    verify_padded.1 verify_padded.2

/-- A space after the signature: another commit of the same author, accepted too, and signed for
the same payload. -/
theorem space_after_signature :
    @verifyPrimitive Digest strict _ (padded []) = .ok (key [7]) ∧
      @verifyPrimitive Digest strict _ (padded [' ']) = .ok (key [7]) ∧
      (GitObject.commit (padded [])).oid ≠ (GitObject.commit (padded [' '])).oid ∧
      signedPayload (padded []) = signedPayload (padded [' ']) := by
  refine ⟨verify_padded.1, verify_padded.2, ?_, ?_⟩
  · decide +kernel
  · decide +kernel

end Small

end Csp
