import Csp.Merge
import Csp.Parsing
import Csp.Small
import Csp.Lib.Matching

/-! The three-way merge of texts with every slice that it takes, and its laws: where one side is
the base the other is the result, and everything in a result is ours or theirs. -/

namespace Csp
open Matching Result

/-! ### Lines -/

theorem splitLines_flatten (b : Bytes) : (splitLines b).flatten = b := by
  induction b with
  | nil => rfl
  | cons c b ih =>
    rw [splitLines]
    split_ifs with hc
    · rw [List.flatten_cons, ih, List.singleton_append]
    · cases hl : splitLines b with
      | nil =>
        rw [hl] at ih
        simpa using ih
      | cons l ls =>
        rw [hl, List.flatten_cons] at ih
        simp only [List.flatten_cons, List.cons_append, ih]

theorem splitLines_append_newline {p : Bytes} (hp : 10 ∉ p) (q : Bytes) :
    splitLines (p ++ 10 :: q) = (p ++ [10]) :: splitLines q := by
  induction p with
  | nil => rfl
  | cons c p ih =>
    rw [List.mem_cons, not_or] at hp
    rw [List.cons_append, splitLines, if_neg (Ne.symm hp.1), ih hp.2]
    rfl

theorem splitLines_of_notMem {p : Bytes} (hp : 10 ∉ p) :
    splitLines p = if p = [] then [] else [p] := by
  induction p with
  | nil => rfl
  | cons c p ih =>
    rw [List.mem_cons, not_or] at hp
    rw [splitLines, if_neg (Ne.symm hp.1), ih hp.2, if_neg (List.cons_ne_nil c p)]
    by_cases h : p = []
    · rw [if_pos h, h]
    · rw [if_neg h]

/-- The loop of `split_lines`, at byte `i` and from byte `start` on. -/
def splitLinesLoop (s : Str) : Bytes → Nat → Nat → CspResult (List Str)
  | [], _, start =>
    if start < (utf8 s).length then do
      let l ← sliceStr s start (utf8 s).length
      pure [l]
    else pure []
  | c :: bytes, i, start =>
    if c = 10 then do
      let l ← sliceStr s start (i + 1)
      let ls ← splitLinesLoop s bytes (i + 1) (i + 1)
      pure (l :: ls)
    else splitLinesLoop s bytes (i + 1) start

/-- `split_lines`. -/
def splitLinesSliced (s : Str) : CspResult (List Str) := splitLinesLoop s (utf8 s) 0 0

theorem splitLinesLoop_append (s : Str) {p : Bytes} (hp : 10 ∉ p) (q : Bytes) (i start : Nat) :
    splitLinesLoop s (p ++ q) i start = splitLinesLoop s q (i + p.length) start := by
  induction p generalizing i with
  | nil => rfl
  | cons c p ih =>
    rw [List.mem_cons, not_or] at hp
    rw [List.cons_append, splitLinesLoop, if_neg (Ne.symm hp.1), ih hp.2, List.length_cons]
    congr 1
    omega

theorem newline_notMem_utf8 {p : Str} (hp : '\n' ∉ p) : (10 : UInt8) ∉ utf8 p :=
  notMem_utf8 (n := 10) (by decide) hp

theorem splitLinesLoop_eq (s rest done : Str) (hs : s = done ++ rest) :
    ∃ ls, splitLinesLoop s (utf8 rest) (utf8 done).length (utf8 done).length = .ok ls ∧
      ls.map utf8 = splitLines (utf8 rest) := by
  induction hn : rest.length using Nat.strong_induction_on generalizing rest done with
  | _ n ih =>
    cases hcut : Split.cut '\n' rest with
    -- no line end is left: what follows the last one is a line of its own, if anything does
    | none =>
      have hrest := newline_notMem_utf8 (Split.cut_eq_none.mp hcut)
      have hloop := splitLinesLoop_append s hrest [] (utf8 done).length (utf8 done).length
      rw [List.append_nil] at hloop
      rw [hloop, splitLinesLoop, splitLines_of_notMem hrest]
      have hlen : (utf8 s).length = (utf8 done).length + (utf8 rest).length := by
        rw [hs, utf8_append, List.length_append]
      by_cases h0 : utf8 rest = []
      · rw [if_neg (by rw [hlen, h0]; simp), if_pos h0]
        exact ⟨[], rfl, rfl⟩
      · have hpos := List.length_pos_iff.mpr h0
        rw [if_pos (by omega), if_neg h0]
        have hslice := sliceStr_append done rest []
        rw [List.append_nil, ← hs] at hslice
        exact ⟨[rest], by rw [hslice]; rfl, rfl⟩
    | some cut =>
      obtain ⟨p, q⟩ := cut
      obtain ⟨hrest, hp⟩ := Split.cut_eq_some hcut
      have hpre : utf8 rest = utf8 p ++ 10 :: utf8 q := by
        rw [hrest, utf8_append, utf8_cons]
        rfl
      have hlen : (utf8 (done ++ (p ++ ['\n']))).length = (utf8 done).length +
          (utf8 p).length + 1 := by
        rw [utf8_append, utf8_append, List.length_append, List.length_append, Nat.add_assoc]
        rfl
      obtain ⟨ls, hls, hmap⟩ :=
        ih q.length (by rw [← hn, hrest, List.length_append, List.length_cons]; omega) q
        (done ++ (p ++ ['\n'])) (by rw [hs, hrest]; simp) rfl
      have hslice := sliceStr_append done (p ++ ['\n']) q
      rw [show done ++ (p ++ ['\n']) ++ q = s by rw [hs, hrest]; simp, hlen] at hslice
      rw [hlen] at hls
      refine ⟨(p ++ ['\n']) :: ls, ?_, ?_⟩
      · rw [hpre, splitLinesLoop_append s (newline_notMem_utf8 hp), splitLinesLoop, if_pos rfl,
          hslice, ok_bind, hls]
        rfl
      · rw [hpre, splitLines_append_newline (newline_notMem_utf8 hp), List.map_cons, hmap,
          utf8_append]
        rfl

theorem splitLinesSliced_eq (s : Str) : ∃ ls, splitLinesSliced s = .ok ls ∧
    ls.map utf8 = splitLines (utf8 s) :=
  splitLinesLoop_eq s s [] rfl

/-! ### Anchors -/

theorem getElem?_pairMap {ps : List (Nat × Nat)} (h : ps.Pairwise fun p q => p.1 < q.1)
    {i j : Nat} :
    (pairMap ps)[i]? = some j ↔ (i, j) ∈ ps := by
  induction ps using List.reverseRecOn with
  | nil => simp [pairMap]
  | append_singleton ps p ih =>
    rw [List.pairwise_append] at h
    have hlt : ∀ q ∈ ps, q.1 < p.1 := fun q hq => h.2.2 q hq p (List.mem_singleton_self p)
    rw [pairMap, List.foldl_append, List.foldl_cons, List.foldl_nil, ← pairMap,
      Std.ExtTreeMap.getElem?_insert,
      List.mem_append, List.mem_singleton]
    by_cases hi : p.1 = i
    · rw [if_pos (compare_eq_iff_eq.mpr hi), Option.some.injEq]
      constructor
      · intro hj
        exact .inr (Prod.ext hi.symm hj.symm)
      · rintro (hmem | he)
        · exact absurd (hlt _ hmem) (by simp [hi])
        · rw [← he]
    · rw [if_neg (mt compare_eq_iff_eq.mp hi), ih h.1]
      refine ⟨.inl, ?_⟩
      rintro (hmem | he)
      · exact hmem
      · exact absurd (congrArg Prod.fst he).symm hi

section Anchors
variable [Crates] {b o t : List Bytes}

theorem mem_anchors (ho : Matches b o (equalPairs b o)) (ht : Matches b t (equalPairs b t))
    {bi oi ti : Nat} :
    (bi, oi, ti) ∈ anchors b o t ↔ (bi, oi) ∈ equalPairs b o ∧ (bi, ti) ∈ equalPairs b t := by
  have hfst : ∀ {x : List Bytes} {ps : List (Nat × Nat)}, Matches b x ps → ps.Pairwise fun p q =>
      p.1 < q.1 :=
    fun h => h.ascending.imp And.left
  rw [anchors, List.mem_filterMap]
  constructor
  · rintro ⟨⟨i, j⟩, hmem, hmap⟩
    obtain ⟨k, hk, he⟩ := Option.map_eq_some_iff.mp hmap
    simp only [Prod.mk.injEq] at he
    obtain ⟨rfl, rfl, rfl⟩ := he
    rw [Std.ExtTreeMap.mem_toList_iff_getElem?_eq_some, getElem?_pairMap (hfst ho)] at hmem
    exact ⟨hmem, (getElem?_pairMap (hfst ht)).mp hk⟩
  · rintro ⟨h1, h2⟩
    refine ⟨(bi, oi), ?_, ?_⟩
    · rw [Std.ExtTreeMap.mem_toList_iff_getElem?_eq_some]
      exact (getElem?_pairMap (hfst ho)).mpr h1
    · exact Option.map_eq_some_iff.mpr ⟨ti, (getElem?_pairMap (hfst ht)).mpr h2, rfl⟩

theorem pairwise_anchors (b o t : List Bytes) : (anchors b o t).Pairwise fun p q => p.1 < q.1 := by
  have hord := Std.ExtTreeMap.ordered_keys_toList (t := pairMap (equalPairs b o))
  rw [anchors, List.pairwise_filterMap]
  refine hord.imp fun {p q} hlt p' hp' q' hq' => ?_
  obtain ⟨k, -, rfl⟩ := Option.map_eq_some_iff.mp hp'
  obtain ⟨k', -, rfl⟩ := Option.map_eq_some_iff.mp hq'
  exact compare_lt_iff_lt.mp hlt

/-- Anchors from three positions on: in order on every side, and of one line. -/
inductive Anchored (b o t : List Bytes) : Nat → Nat → Nat → List (Nat × Nat × Nat) → Prop
  | nil {pb po pt : Nat} (hb : pb ≤ b.length) (ho : po ≤ o.length) (ht : pt ≤ t.length) :
    Anchored b o t pb po pt []
  | cons {pb po pt bi oi ti : Nat} {line : Bytes} {rest : List (Nat × Nat × Nat)} (hb : pb ≤ bi)
    (ho : po ≤ oi)
      (ht : pt ≤ ti) (hbi : b[bi]? = some line) (hoi : o[oi]? = some line)
      (hti : t[ti]? = some line)
      (hrest : Anchored b o t (bi + 1) (oi + 1) (ti + 1) rest) : Anchored b o t pb po pt
      ((bi, oi, ti) :: rest)

omit [Crates] in
theorem anchored_of_pairwise {as : List (Nat × Nat × Nat)} {pb po pt : Nat}
    (h : as.Pairwise fun p q => p.1 < q.1 ∧ p.2.1 < q.2.1 ∧ p.2.2 < q.2.2)
    (hline : ∀ a ∈ as, ∃ line, b[a.1]? = some line ∧ o[a.2.1]? = some line ∧ t[a.2.2]? = some line)
    (hfrom : ∀ a ∈ as, pb ≤ a.1 ∧ po ≤ a.2.1 ∧ pt ≤ a.2.2) (hb : pb ≤ b.length) (ho : po ≤ o.length)
    (ht : pt ≤ t.length) : Anchored b o t pb po pt as := by
  induction as generalizing pb po pt with
  | nil => exact .nil hb ho ht
  | cons a as ih =>
    obtain ⟨bi, oi, ti⟩ := a
    rw [List.pairwise_cons] at h
    rw [List.forall_mem_cons] at hline hfrom
    obtain ⟨⟨line, hbi, hoi, hti⟩, hline⟩ := hline
    obtain ⟨hbi', -⟩ := List.getElem?_eq_some_iff.mp hbi
    obtain ⟨hoi', -⟩ := List.getElem?_eq_some_iff.mp hoi
    obtain ⟨hti', -⟩ := List.getElem?_eq_some_iff.mp hti
    exact .cons hfrom.1.1 hfrom.1.2.1 hfrom.1.2.2 hbi hoi hti (ih h.2 hline h.1 hbi' hoi' hti')

theorem ascending_anchors (ho : Matches b o (equalPairs b o)) (ht : Matches b t (equalPairs b t)) :
    (anchors b o t).Pairwise fun p q => p.1 < q.1 ∧ p.2.1 < q.2.1 ∧ p.2.2 < q.2.2 := by
  refine (pairwise_anchors b o t).imp_of_mem fun {p q} hp hq hlt => ?_
  obtain ⟨hpo, hpt⟩ := (mem_anchors ho ht).mp hp
  obtain ⟨hqo, hqt⟩ := (mem_anchors ho ht).mp hq
  have hours := ho.snd_lt hpo hqo hlt
  have htheirs := ht.snd_lt hpt hqt hlt
  exact ⟨hlt, hours, htheirs⟩

theorem anchored_anchors (ho : Matches b o (equalPairs b o)) (ht : Matches b t (equalPairs b t)) :
    Anchored b o t 0 0 0 (anchors b o t) := by
  refine anchored_of_pairwise (ascending_anchors ho ht) ?_ ?_ (Nat.zero_le _) (Nat.zero_le _)
    (Nat.zero_le _)
  · rintro ⟨bi, oi, ti⟩ ha
    obtain ⟨h1, h2⟩ := (mem_anchors ho ht).mp ha
    obtain ⟨line, hb, hline⟩ := ho.equal _ h1
    obtain ⟨line', hb', hline'⟩ := ht.equal _ h2
    obtain rfl := Option.some.inj (hb.symm.trans hb')
    exact ⟨line, hb, hline, hline'⟩
  · exact fun a _ => ⟨Nat.zero_le _, Nat.zero_le _, Nat.zero_le _⟩

/-! ### The merge with its slices -/

/-- `x[i..j]` of a list of lines. -/
def sliceLines (x : List Bytes) (i j : Nat) : CspResult (List Bytes) :=
  match Slice.range x i j with
  | some r => .ok r
  | none => .error .abort

/-- `x[i]`. -/
def lineAt (x : List Bytes) (i : Nat) : CspResult Bytes :=
  match x[i]? with
  | some line => .ok line
  | none => .error .abort

def diff3Loop (b o t : List Bytes) : Nat → Nat → Nat → List (Nat × Nat × Nat) → Bytes →
    CspResult Bytes
  | pb, po, pt, [], out => do
    let bc ← sliceLines b pb b.length
    let oc ← sliceLines o po o.length
    let tc ← sliceLines t pt t.length
    pure (out ++ resolveChunk bc oc tc)
  | pb, po, pt, (bi, oi, ti) :: rest, out => do
    let bc ← sliceLines b pb bi
    let oc ← sliceLines o po oi
    let tc ← sliceLines t pt ti
    let line ← lineAt b bi
    diff3Loop b o t (bi + 1) (oi + 1) (ti + 1) rest (out ++ resolveChunk bc oc tc ++ line)

/-- `merge_blob`, its texts being `str`s once they are known to be no binary. -/
def mergeBlobSliced (base ours theirs : Bytes) : CspResult Bytes :=
  if isBinary base || isBinary ours || isBinary theirs then .ok theirs
  else
    match fromUtf8 base, fromUtf8 ours, fromUtf8 theirs with
    | some base, some ours, some theirs => do
      let b := (← splitLinesSliced base).map utf8
      let o := (← splitLinesSliced ours).map utf8
      let t := (← splitLinesSliced theirs).map utf8
      diff3Loop b o t 0 0 0 (anchors b o t) []
    | _, _, _ => .error .abort

omit [Crates] in
theorem sliceLines_of_le {x : List Bytes} {i j : Nat} (hi : i ≤ j) (hj : j ≤ x.length) :
    sliceLines x i j = .ok (slice x i j) := by
  rw [sliceLines, Slice.range_of_le hi hj]
  rfl

omit [Crates] in
theorem sliceLines_to_end {x : List Bytes} {i : Nat} (hi : i ≤ x.length) :
    sliceLines x i x.length = .ok (x.drop i) := by
  rw [sliceLines, Slice.range_to_end hi]

omit [Crates] in
theorem lineAt_of_eq {x : List Bytes} {i : Nat} {line : Bytes} (h : x[i]? = some line) :
    lineAt x i = .ok line := by
  rw [lineAt, h]

omit [Crates] in
theorem getD_of_eq {x : List Bytes} {i : Nat} {line : Bytes} (h : x[i]? = some line) :
    x.getD i [] = line := by
  rw [List.getD_eq_getElem?_getD, h, Option.getD_some]

omit [Crates] in
theorem diff3Loop_eq {as : List (Nat × Nat × Nat)} {pb po pt : Nat} (h : Anchored b o t pb po pt as)
    (out : Bytes) :
    diff3Loop b o t pb po pt as out = .ok (out ++ diff3Aux b o t pb po pt as) := by
  induction h generalizing out with
  | nil hb ho ht =>
    rw [diff3Loop, sliceLines_to_end hb, sliceLines_to_end ho, sliceLines_to_end ht]
    rfl
  | @cons pb po pt bi oi ti line rest hb ho ht hbi hoi hti hrest ih =>
    obtain ⟨hbi', -⟩ := List.getElem?_eq_some_iff.mp hbi
    obtain ⟨hoi', -⟩ := List.getElem?_eq_some_iff.mp hoi
    obtain ⟨hti', -⟩ := List.getElem?_eq_some_iff.mp hti
    rw [diff3Loop, sliceLines_of_le hb hbi'.le, sliceLines_of_le ho hoi'.le,
      sliceLines_of_le ht hti'.le,
      lineAt_of_eq hbi]
    simp only [ok_bind, ih, diff3Aux, getD_of_eq hbi, List.append_assoc]

theorem mergeBlobSliced_eq {base ours theirs : Bytes}
    (ho : Matches (splitLines base) (splitLines ours)
      (equalPairs (splitLines base) (splitLines ours)))
    (ht : Matches (splitLines base) (splitLines theirs)
      (equalPairs (splitLines base) (splitLines theirs))) :
    mergeBlobSliced base ours theirs = .ok (mergeBlob base ours theirs) := by
  rw [mergeBlobSliced, mergeBlob]
  split_ifs with hbin
  · rfl
  simp only [isBinary, Bool.or_eq_true, not_or, Option.isNone_iff_eq_none] at hbin
  obtain ⟨⟨⟨hb, -⟩, ho', -⟩, ht', -⟩ := hbin
  obtain ⟨bs, hbs⟩ := Option.ne_none_iff_exists'.mp hb
  obtain ⟨os, hos⟩ := Option.ne_none_iff_exists'.mp ho'
  obtain ⟨ts, hts⟩ := Option.ne_none_iff_exists'.mp ht'
  obtain ⟨bl, hbl, hbm⟩ := splitLinesSliced_eq bs
  obtain ⟨ol, hol, hom⟩ := splitLinesSliced_eq os
  obtain ⟨tl, htl, htm⟩ := splitLinesSliced_eq ts
  rw [utf8_fromUtf8 hbs] at hbm
  rw [utf8_fromUtf8 hos] at hom
  rw [utf8_fromUtf8 hts] at htm
  simp only [hbs, hos, hts, hbl, hol, htl, ok_bind, hbm, hom, htm]
  rw [diff3Loop_eq (anchored_anchors ho ht), List.nil_append, diff3]

/-! ### What is merged -/

/-- Ours' chunk or theirs' up to each anchor, the anchor's line, and a last chunk. -/
inductive Assembled (b o t : List Bytes) : Nat → Nat → List (Nat × Nat × Nat) → Bytes → Prop
  | tail {po pt : Nat} {out : Bytes} (chunk : out = (o.drop po).flatten ∨
      out = (t.drop pt).flatten) :
      Assembled b o t po pt [] out
  | anchor {po pt bi oi ti : Nat} {rest : List (Nat × Nat × Nat)} {chunk line out : Bytes}
      (chunk_of : chunk = (slice o po oi).flatten ∨ chunk = (slice t pt ti).flatten)
      (line_of : b[bi]? = some line ∧ o[oi]? = some line ∧ t[ti]? = some line)
      (next : Assembled b o t (oi + 1) (ti + 1) rest out) :
      Assembled b o t po pt ((bi, oi, ti) :: rest) (chunk ++ line ++ out)

omit [Crates] in
theorem resolveChunk_mem (bc oc tc : List Bytes) :
    resolveChunk bc oc tc = oc.flatten ∨ resolveChunk bc oc tc = tc.flatten := by
  simp only [resolveChunk]
  split_ifs
  · exact .inl rfl
  · exact .inr rfl
  · exact .inl rfl
  · exact .inr rfl

omit [Crates] in
theorem resolveChunk_ours (c tc : List Bytes) : resolveChunk c c tc = tc.flatten := by
  simp only [resolveChunk]
  split_ifs with h
  · exact h
  · rfl

omit [Crates] in
theorem resolveChunk_theirs (c oc : List Bytes) : resolveChunk c oc c = oc.flatten := by
  simp only [resolveChunk]
  split_ifs
  · rfl
  · rfl

omit [Crates] in
theorem resolveChunk_same (bc c : List Bytes) : resolveChunk bc c c = c.flatten := if_pos rfl

omit [Crates] in
theorem assembled_diff3Aux {as : List (Nat × Nat × Nat)} {pb po pt : Nat}
    (h : Anchored b o t pb po pt as) :
    Assembled b o t po pt as (diff3Aux b o t pb po pt as) := by
  induction h with
  | nil => exact .tail (resolveChunk_mem _ _ _)
  | cons hb ho ht hbi hoi hti hrest ih =>
    rw [diff3Aux, getD_of_eq hbi]
    exact .anchor (resolveChunk_mem _ _ _) ⟨hbi, hoi, hti⟩ ih

omit [Crates] in
theorem flatten_slice {x : List Bytes} {i j : Nat} {line : Bytes} (hi : i ≤ j)
    (hj : x[j]? = some line) :
    (slice x i j).flatten ++ line ++ (x.drop (j + 1)).flatten = (x.drop i).flatten := by
  obtain ⟨hlt, hline⟩ := List.getElem?_eq_some_iff.mp hj
  have hdrop : x.drop j = line :: x.drop (j + 1) := by
    rw [List.drop_eq_getElem_cons hlt, hline]
  have happ : x.drop i = slice x i j ++ x.drop j := by
    rw [slice, List.drop_take, show x.drop j = (x.drop i).drop
      (j - i) by rw [List.drop_drop]; congr 1; omega,
      List.take_append_drop]
  rw [happ, hdrop, List.flatten_append, List.flatten_cons, List.append_assoc]

omit [Crates] in
theorem diff3Aux_ours {as : List (Nat × Nat × Nat)} {pb po pt : Nat}
    (h : Anchored b b t pb po pt as) (hp : pb = po) (has : ∀ a ∈ as, a.1 = a.2.1) :
    diff3Aux b b t pb po pt as = (t.drop pt).flatten := by
  induction h with
  | nil => rw [diff3Aux, hp, resolveChunk_ours]
  | cons hb ho ht hbi hoi hti hrest ih =>
    rw [List.forall_mem_cons] at has
    obtain ⟨hbo, has⟩ := has
    dsimp only at hbo
    subst hp hbo
    rw [diff3Aux, resolveChunk_ours, getD_of_eq hbi, ih rfl has, flatten_slice ht hti]

omit [Crates] in
theorem diff3Aux_theirs {as : List (Nat × Nat × Nat)} {pb po pt : Nat}
    (h : Anchored b o b pb po pt as) (hp : pb = pt) (has : ∀ a ∈ as, a.1 = a.2.2) :
    diff3Aux b o b pb po pt as = (o.drop po).flatten := by
  induction h with
  | nil => rw [diff3Aux, hp, resolveChunk_theirs]
  | cons hb ho ht hbi hoi hti hrest ih =>
    rw [List.forall_mem_cons] at has
    obtain ⟨hbt, has⟩ := has
    dsimp only at hbt
    subst hp hbt
    rw [diff3Aux, resolveChunk_theirs, getD_of_eq hbi, ih rfl has, flatten_slice ho hoi]

omit [Crates] in
theorem diff3Aux_same {as : List (Nat × Nat × Nat)} {pb po pt : Nat}
    (h : Anchored b o o pb po pt as) (hp : po = pt) (has : ∀ a ∈ as, a.2.1 = a.2.2) :
    diff3Aux b o o pb po pt as = (o.drop pt).flatten := by
  induction h with
  | nil => rw [diff3Aux, hp, resolveChunk_same]
  | cons hb ho ht hbi hoi hti hrest ih =>
    rw [List.forall_mem_cons] at has
    obtain ⟨hot, has⟩ := has
    dsimp only at hot
    subst hp hot
    rw [diff3Aux, resolveChunk_same, getD_of_eq hbi, ih rfl has, flatten_slice ht hti]

def Diagonal (ps : List (Nat × Nat)) (n : Nat) : Prop := ps = (List.range n).map fun i => (i, i)

omit [Crates] in
theorem fst_eq_snd_of_diagonal {ps : List (Nat × Nat)} {n : Nat} (h : Diagonal ps n) {i j : Nat}
    (hp : (i, j) ∈ ps) :
    i = j := by
  rw [h] at hp
  obtain ⟨k, -, he⟩ := List.mem_map.mp hp
  exact (Prod.mk.inj he).1.symm.trans (Prod.mk.inj he).2

omit [Crates] in
theorem matches_diagonal {ps : List (Nat × Nat)} {x : List Bytes} (h : Diagonal ps x.length) :
    Matches x x ps := by
  rw [h]
  refine ⟨?_, ?_⟩
  · rw [List.pairwise_map]
    exact List.pairwise_lt_range.imp fun hlt => ⟨hlt, hlt⟩
  · intro p hp
    obtain ⟨k, hk, rfl⟩ := List.mem_map.mp hp
    rw [List.mem_range] at hk
    exact ⟨x[k], List.getElem?_eq_getElem hk, List.getElem?_eq_getElem hk⟩

theorem mergeBlob_of_text {base ours theirs : Bytes} (hb : isBinary base = false)
    (ho : isBinary ours = false) (ht : isBinary theirs = false) :
    mergeBlob base ours theirs = diff3 base ours theirs := by
  rw [mergeBlob, hb, ho, ht]
  rfl

/-- The laws of the merge of three texts, for a line diff that matches equal lines in order, and
every line of a text with itself. -/
theorem merge_laws {base ours theirs : Bytes} (hb : isBinary base = false)
    (ho : isBinary ours = false) (ht : isBinary theirs = false)
    (mo : Matches (splitLines base) (splitLines ours)
      (equalPairs (splitLines base) (splitLines ours)))
    (mt : Matches (splitLines base) (splitLines theirs)
      (equalPairs (splitLines base) (splitLines theirs)))
    (mb : Diagonal (equalPairs (splitLines base) (splitLines base)) (splitLines base).length) :
    mergeBlobSliced base ours theirs = .ok (mergeBlob base ours theirs) ∧
      mergeBlob base base theirs = theirs ∧ mergeBlob base ours base = ours ∧
      mergeBlob base ours ours = ours ∧
      ∃ as, (as.Pairwise fun p q : Nat × Nat × Nat => p.1 < q.1 ∧ p.2.1 < q.2.1 ∧ p.2.2 < q.2.2) ∧
        (∀ bi oi ti, (bi, oi, ti) ∈ as ↔
          (bi, oi) ∈ equalPairs (splitLines base) (splitLines ours) ∧
            (bi, ti) ∈ equalPairs (splitLines base) (splitLines theirs)) ∧
        Assembled (splitLines base) (splitLines ours) (splitLines theirs) 0 0 as
        (mergeBlob base ours theirs) := by
  have hbb := matches_diagonal mb
  refine ⟨mergeBlobSliced_eq mo mt, ?_, ?_, ?_, ?_⟩
  · rw [mergeBlob_of_text hb hb ht, diff3, diff3Aux_ours (anchored_anchors hbb mt) rfl,
      List.drop_zero, splitLines_flatten]
    rintro ⟨bi, oi, ti⟩ ha
    exact fst_eq_snd_of_diagonal mb ((mem_anchors hbb mt).mp ha).1
  · rw [mergeBlob_of_text hb ho hb, diff3, diff3Aux_theirs (anchored_anchors mo hbb) rfl,
      List.drop_zero, splitLines_flatten]
    rintro ⟨bi, oi, ti⟩ ha
    exact fst_eq_snd_of_diagonal mb ((mem_anchors mo hbb).mp ha).2
  · rw [mergeBlob_of_text hb ho ho, diff3, diff3Aux_same (anchored_anchors mo mo) rfl,
      List.drop_zero, splitLines_flatten]
    rintro ⟨bi, oi, ti⟩ ha
    exact mo.snd_eq ((mem_anchors mo mo).mp ha).1 ((mem_anchors mo mo).mp ha).2
  · refine ⟨anchors (splitLines base) (splitLines ours) (splitLines theirs),
      ascending_anchors mo mt,
      fun _ _ _ => mem_anchors mo mt, ?_⟩
    rw [mergeBlob_of_text hb ho ht, diff3]
    exact assembled_diff3Aux (anchored_anchors mo mt)

end Anchors

namespace Small

/-- A text, one that has a line before it, and one that lacks its last newline. -/
def baseText : Bytes := utf8 "a\nb\n".toList
def oursText : Bytes := utf8 "x\na\nb\n".toList
def theirsText : Bytes := utf8 "a\nb".toList

theorem merge_laws_texts :
    mergeBlobSliced baseText oursText theirsText = .ok (mergeBlob baseText oursText theirsText) ∧
      mergeBlob baseText baseText theirsText = theirsText ∧
      mergeBlob baseText oursText baseText = oursText ∧
      mergeBlob baseText oursText oursText = oursText ∧
      ∃ as, (as.Pairwise fun p q : Nat × Nat × Nat => p.1 < q.1 ∧ p.2.1 < q.2.1 ∧ p.2.2 < q.2.2) ∧
        (∀ bi oi ti, (bi, oi, ti) ∈ as ↔
          (bi, oi) ∈ equalPairs (splitLines baseText) (splitLines oursText) ∧
            (bi, ti) ∈ equalPairs (splitLines baseText) (splitLines theirsText)) ∧
        Assembled (splitLines baseText) (splitLines oursText) (splitLines theirsText) 0 0 as
          (mergeBlob baseText oursText theirsText) :=
  merge_laws (by decide) (by decide) (by decide) (by decide +kernel) (by decide +kernel)
    (show equalPairs (splitLines baseText) (splitLines baseText) = _ by decide +kernel)

end Small

end Csp
