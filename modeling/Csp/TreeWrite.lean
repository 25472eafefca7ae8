import Csp.Closure

/-! Writing a file map as a tree and reading it back. Nothing is lost but the paths that no
tree can hold: the empty one and those that end in `/`. -/

namespace Csp
open Result
variable {Oid : Type}

/-- A path that names a file: some tree can hold it. -/
def Storable (p : Path) : Prop := p ≠ [] ∧ p.getLast? ≠ some '/'

instance (p : Path) : Decidable (Storable p) := inferInstanceAs (Decidable (_ ∧ _))

/-- A path that can be framed: no character is NUL. -/
def Framable (p : Path) : Prop := Char.ofNat 0 ∉ p

instance (p : Path) : Decidable (Framable p) := inferInstanceAs (Decidable (_ ∉ _))

/-! ### One level of the map -/

theorem mem_of_lastOf {l : List (Path × Bytes)} {p : Path} {c : Bytes} (h : lastOf l p = some c) :
    (p, c) ∈ l := by
  induction l with
  | nil => cases h
  | cons f l ih =>
    rw [lastOf, Option.or_eq_some_iff] at h
    rcases h with h | ⟨-, h⟩
    · exact List.mem_cons_of_mem _ (ih h)
    · split_ifs at h with hf
      rw [← hf, ← Option.some.inj h]
      exact List.mem_cons_self

theorem lastOf_of_mem {l : List (Path × Bytes)} (hfun : ∀ p c c', (p, c) ∈ l → (p, c') ∈ l → c = c')
    {p : Path} {c : Bytes} (h : (p, c) ∈ l) : lastOf l p = some c := by
  cases hl : lastOf l p with
  | some c' => rw [hfun p c c' h (mem_of_lastOf hl)]
  | none =>
    induction l with
    | nil => cases h
    | cons f l ih =>
      rw [lastOf, Option.or_eq_none_iff] at hl
      rcases List.mem_cons.mp h with rfl | h
      · simp at hl
      · exact ih (fun p c c' h h' => hfun p c c' (List.mem_cons_of_mem _ h) (List.mem_cons_of_mem _ h'))
          h hl.1

theorem mem_toList {files : FileMap} {p : Path} {c : Bytes} :
    (p, c) ∈ files.toList ↔ files[p]? = some c := Std.ExtTreeMap.mem_toList_iff_getElem?_eq_some

theorem mem_relFiles {pre rel : Str} {files : FileMap} {c : Bytes} :
    (rel, c) ∈ relFiles pre files ↔ rel ≠ [] ∧ files[pre ++ rel]? = some c := by
  simp only [relFiles, List.mem_filterMap, Prod.exists, mem_toList]
  constructor
  · rintro ⟨p, c', hp, h⟩
    cases hs : stripPrefix pre p with
    | none => simp [hs] at h
    | some r =>
      simp only [hs] at h
      split_ifs at h with hr
      simp only [Option.some.injEq, Prod.mk.injEq] at h
      obtain ⟨rfl, rfl⟩ := h
      exact ⟨hr, stripPrefix_eq_some hs ▸ hp⟩
  · rintro ⟨hr, h⟩
    exact ⟨_, c, h, by simp [stripPrefix_append, hr]⟩

theorem directFiles_eq (pre : Str) (files : FileMap) :
    directFiles pre files = insertAll [] ((relFiles pre files).filter fun f => '/' ∉ f.1) ∅ := by
  suffices ∀ (l : List (Str × Bytes)) (m : FileMap),
      l.foldl addDirect m = insertAll [] (l.filter fun f => '/' ∉ f.1) m from this _ _
  intro l
  induction l with
  | nil => exact fun _ => rfl
  | cons f l ih =>
    intro m
    rw [List.foldl_cons, ih, List.filter_cons]
    by_cases h : '/' ∈ f.1 <;> simp [h, insertAll, addDirect]

theorem getElem?_directFiles {pre rel : Str} {files : FileMap} {c : Bytes} :
    (directFiles pre files)[rel]? = some c ↔ '/' ∉ rel ∧ rel ≠ [] ∧
    files[pre ++ rel]? = some c := by
  have hfun : ∀ (p : Path) (c c' : Bytes), (p, c) ∈ (relFiles pre files).filter
      (fun f => '/' ∉ f.1) →
      (p, c') ∈ (relFiles pre files).filter (fun f => '/' ∉ f.1) → c = c' := by
    intro p c c' h h'
    have h := (mem_relFiles.mp (List.mem_filter.mp h).1).2
    have h' := (mem_relFiles.mp (List.mem_filter.mp h').1).2
    exact Option.some.inj (h.symm.trans h')
  rw [directFiles_eq, getElem?_insertAll]
  simp only [Std.ExtTreeMap.getElem?_empty, Option.or_none]
  constructor
  · intro h
    have h := List.mem_filter.mp (mem_of_lastOf h)
    exact ⟨by simpa using h.2, mem_relFiles.mp h.1⟩
  · rintro ⟨hs, h⟩
    exact lastOf_of_mem hfun (List.mem_filter.mpr ⟨mem_relFiles.mpr h, by simpa using hs⟩)

theorem mem_addSubdir {m : Std.ExtTreeMap Str Unit compare} {f : Str × Bytes} {dir : Str} :
    dir ∈ addSubdir m f ↔ dir ∈ m ∨ ∃ q, Split.cut '/' f.1 = some (dir, q) := by
  unfold addSubdir
  cases hc : Split.cut '/' f.1 with
  | none => simp
  | some d =>
    simp only [Std.ExtTreeMap.mem_insert, Std.LawfulEqCmp.compare_eq_iff_eq, Option.some.injEq,
      Prod.ext_iff, exists_and_left, exists_eq', and_true]
    exact or_comm

theorem mem_subdirs {pre dir : Str} {files : FileMap} :
    dir ∈ (subdirs pre files).keys ↔
      '/' ∉ dir ∧ ∃ q c, files[pre ++ (dir ++ '/' :: q)]? = some c := by
  have key : ∀ (l : List (Str × Bytes)) (m : Std.ExtTreeMap Str Unit compare),
      dir ∈ l.foldl addSubdir m ↔ dir ∈ m ∨ ∃ f ∈ l, ∃ q, Split.cut '/' f.1 = some (dir, q) := by
    intro l
    induction l with
    | nil => simp
    | cons f l ih =>
      intro m
      simp only [List.foldl_cons, ih, mem_addSubdir, List.exists_mem_cons_iff, or_assoc]
  rw [Std.ExtTreeMap.mem_keys, subdirs, key]
  simp only [Std.ExtTreeMap.not_mem_empty, false_or, Prod.exists, mem_relFiles]
  constructor
  · rintro ⟨rel, c, ⟨-, hf⟩, q, hq⟩
    obtain ⟨rfl, hd⟩ := Split.cut_eq_some hq
    exact ⟨hd, q, c, hf⟩
  · rintro ⟨hd, q, c, hf⟩
    exact ⟨_, c, ⟨by simp, hf⟩, q, Split.cut_append hd q⟩

theorem nodup_keys_of_map {β : Type} (m : Std.ExtTreeMap Str β compare) : m.keys.Nodup := by
  simpa [List.Nodup] using m.distinct_keys

/-! ### The objects of a tree -/

section Build
variable [ObjectId Oid]

def levelEntries (n : Nat) (pre : Str) (files : FileMap) : List (TreeEntry Oid) :=
  (directFiles pre files).toList.map (fun (name, content) =>
    { mode := fileMode, name, oid := (GitObject.blob content).oid }) ++
  (subdirs pre files).keys.map fun name =>
    { mode := treeMode, name, oid := (buildTree n (pre ++ name ++ ['/']) files).2 }

theorem buildTree_snd (n : Nat) (pre : Str) (files : FileMap) :
    (buildTree (n + 1) pre files : List (GitObject Oid) × Oid).2 =
    (GitObject.tree (levelEntries n pre files)).oid := by
  simp only [buildTree, levelEntries, List.map_map]
  rfl

theorem mem_buildTree_fst {n : Nat} {pre : Str} {files : FileMap} {x : GitObject Oid} :
    x ∈ (buildTree (n + 1) pre files).1 ↔
      (∃ (rel : Str) (c : Bytes), (directFiles pre files)[rel]? = some c ∧ x = .blob c) ∨
      (∃ d ∈ (subdirs pre files).keys, x ∈ (buildTree n (pre ++ d ++ ['/']) files).1) ∨
      x = .tree (levelEntries n pre files) := by
  have hlevel : ((directFiles pre files).toList.map fun (name, content) =>
        { mode := fileMode, name, oid := (GitObject.blob content).oid : TreeEntry Oid }) ++
      ((subdirs pre files).keys.map fun name =>
        (name, buildTree n (pre ++ name ++ ['/']) files)).map (fun sub =>
        { mode := treeMode, name := sub.1, oid := sub.2.2 : TreeEntry Oid }) =
        levelEntries n pre files := by
    rw [List.map_map]
    rfl
  simp only [buildTree, hlevel, List.mem_append, List.mem_map, List.mem_flatMap,
    List.mem_singleton, Prod.exists, mem_toList, or_assoc]
  refine or_congr ?_ (or_congr ?_ Iff.rfl)
  · exact exists_congr fun rel => exists_congr fun c => and_congr_right fun _ => eq_comm
  · constructor
    · rintro ⟨name, put, oid, ⟨d, hd, heq⟩, hx⟩
      simp only [Prod.mk.injEq] at heq
      obtain ⟨rfl, heq⟩ := heq
      exact ⟨d, hd, heq ▸ hx⟩
    · rintro ⟨d, hd, hx⟩
      exact ⟨d, _, _, ⟨d, hd, rfl⟩, hx⟩

theorem mem_levelEntries {n : Nat} {pre : Str} {files : FileMap} {e : TreeEntry Oid} :
    e ∈ levelEntries n pre files ↔
      (∃ (rel : Str) (c : Bytes), (directFiles pre files)[rel]? = some c ∧
        e = { mode := fileMode, name := rel, oid := (GitObject.blob c).oid }) ∨
      ∃ d ∈ (subdirs pre files).keys,
        e = { mode := treeMode, name := d, oid := (buildTree n (pre ++ d ++ ['/']) files).2 } := by
  simp only [levelEntries, List.mem_append, List.mem_map, Prod.exists, mem_toList, @eq_comm _ _ e]

theorem tidy_levelEntries (n : Nat) (pre : Str) (files : FileMap) :
    Tidy (levelEntries n pre files : List (TreeEntry Oid)) := by
  refine ⟨fun e he => ?_, ?_⟩
  · rcases mem_levelEntries.mp he with ⟨rel, c, hrel, rfl⟩ | ⟨d, hd, rfl⟩
    · exact (getElem?_directFiles.mp hrel).1
    · exact (mem_subdirs.mp hd).1
  · refine List.pairwise_append.mpr ⟨?_, ?_, fun a ha b hb _ => ?_⟩
    · refine List.pairwise_map.mpr ?_
      have hk := nodup_keys_of_map (directFiles pre files)
      rw [← Std.ExtTreeMap.map_fst_toList_eq_keys] at hk
      exact (List.pairwise_map.mp hk).imp fun hne heq => absurd heq hne
    · refine List.pairwise_map.mpr ((nodup_keys_of_map (subdirs pre files)).imp ?_)
      exact fun hne heq => absurd heq hne
    · obtain ⟨f, -, rfl⟩ := List.mem_map.mp ha
      obtain ⟨d, -, rfl⟩ := List.mem_map.mp hb
      exact ⟨(by decide : fileMode ≠ treeMode), rfl⟩

theorem tidy_of_mem_buildTree {n : Nat} {pre : Str} {files : FileMap} {es : List (TreeEntry Oid)}
    (h : GitObject.tree es ∈ (buildTree n pre files).1) : Tidy es := by
  induction n generalizing pre with
  | zero => cases h
  | succ n ih =>
    rcases mem_buildTree_fst.mp h with ⟨rel, c, -, hx⟩ | ⟨d, -, hx⟩ | hx
    · cases hx
    · exact ih hx
    · rw [GitObject.tree.inj hx]
      exact tidy_levelEntries n pre files

theorem encodable_of_mem_buildTree {n : Nat} {pre : Str} {files : FileMap}
    (hf : ∀ p ∈ files.keys, Framable p) {x : GitObject Oid} (h : x ∈ (buildTree n pre files).1) :
    x.Encodable := by
  induction n generalizing pre with
  | zero => cases h
  | succ n ih =>
    rcases mem_buildTree_fst.mp h with ⟨rel, c, -, rfl⟩ | ⟨d, -, hx⟩ | rfl
    · trivial
    · exact ih hx
    · have hpath : ∀ p c, files[p]? = some c → Framable p := fun p c hp =>
        hf p (Std.ExtTreeMap.mem_keys.mpr (Std.ExtTreeMap.mem_iff_isSome_getElem?.mpr
          (by simp [hp])))
      intro e he
      rcases mem_levelEntries.mp he with ⟨rel, c, hrel, rfl⟩ | ⟨d, hd, rfl⟩
      · refine ⟨(by decide : ' ' ∉ fileMode), fun h0 =>
          hpath _ c (getElem?_directFiles.mp hrel).2.2 ?_⟩
        exact List.mem_append_right _ h0
      · obtain ⟨-, q, c, hq⟩ := mem_subdirs.mp hd
        refine ⟨(by decide : ' ' ∉ treeMode), fun h0 => hpath _ c hq ?_⟩
        exact List.mem_append_right _ (List.mem_append_left _ h0)

theorem refs_of_mem_buildTree {n : Nat} {pre : Str} {files : FileMap}
    (hdepth : ∀ p c, files[pre ++ p]? = some c → p.length < n + 1) {x : GitObject Oid}
    (hx : x ∈ (buildTree (n + 1) pre files).1) {r : Oid} (hr : r ∈ x.refs) :
    ∃ y ∈ (buildTree (n + 1) pre files).1, y.oid = r := by
  induction n generalizing pre with
  | zero =>
    rcases mem_buildTree_fst.mp hx with ⟨rel, c, -, rfl⟩ | ⟨d, -, hx⟩ | rfl
    · cases hr
    · cases hx
    · obtain ⟨e, he, rfl⟩ := List.mem_map.mp hr
      rcases mem_levelEntries.mp he with ⟨rel, c, hrel, rfl⟩ | ⟨d, hd, rfl⟩
      · exact ⟨_, mem_buildTree_fst.mpr (.inl ⟨rel, c, hrel, rfl⟩), rfl⟩
      · obtain ⟨-, q, c, hq⟩ := mem_subdirs.mp hd
        have := hdepth _ c hq
        simp at this
  | succ n ih =>
    rcases mem_buildTree_fst.mp hx with ⟨rel, c, -, rfl⟩ | ⟨d, hd, hx⟩ | rfl
    · cases hr
    · have hsub : ∀ p c, files[pre ++ d ++ ['/'] ++ p]? = some c → p.length < n + 1 := by
        intro p c hp
        have := hdepth (d ++ '/' :: p) c (by simpa using hp)
        simp only [List.length_append, List.length_cons] at this
        omega
      obtain ⟨y, hy, rfl⟩ := ih hsub hx
      exact ⟨y, mem_buildTree_fst.mpr (.inr (.inl ⟨d, hd, hy⟩)), rfl⟩
    · obtain ⟨e, he, rfl⟩ := List.mem_map.mp hr
      rcases mem_levelEntries.mp he with ⟨rel, c, hrel, rfl⟩ | ⟨d, hd, rfl⟩
      · exact ⟨_, mem_buildTree_fst.mpr (.inl ⟨rel, c, hrel, rfl⟩), rfl⟩
      · refine ⟨.tree (levelEntries n (pre ++ d ++ ['/']) files), mem_buildTree_fst.mpr
          (.inr (.inl ⟨d, hd, mem_buildTree_fst.mpr (.inr (.inr rfl))⟩)), ?_⟩
        exact (buildTree_snd n _ files).symm

/-! ### Reading back -/

/-- The store holds the object under its id, up to the order of tree entries. -/
def Held (s : Store Oid) (x : GitObject Oid) : Prop := ∃ y, s.get x.oid = .ok y ∧ y.canon = x.canon

theorem Held.blob {s : Store Oid} {c : Bytes} (h : Held s (.blob c)) :
    s.get (GitObject.blob c : GitObject Oid).oid = .ok (.blob c) := by
  obtain ⟨y, hy, hc⟩ := h
  cases y <;> simp_all [GitObject.canon]

theorem Held.tree {s : Store Oid} {es : List (TreeEntry Oid)} (h : Held s (.tree es)) :
    ∃ es', s.get (GitObject.tree es).oid = .ok (.tree es') ∧ es'.Perm es := by
  obtain ⟨y, hy, hc⟩ := h
  cases y with
  | tree es' =>
    refine ⟨es', hy, (sortEntries_perm es').symm.trans ?_⟩
    rw [GitObject.tree.inj hc]
    exact sortEntries_perm es
  | blob b => cases hc
  | commit c => cases hc

def Shallow (n : Nat) (pre : Str) (files : FileMap) : Prop :=
  ∀ p c, files[pre ++ p]? = some c → p.length < n

theorem Shallow.sub {n : Nat} {pre d : Str} {files : FileMap} (h : Shallow (n + 1) pre files) :
    Shallow n (pre ++ d ++ ['/']) files := by
  intro p c hp
  have := h (d ++ '/' :: p) c (by simpa using hp)
  simp only [List.length_append, List.length_cons] at this
  omega

theorem Storable.append {d q : Path} (h : Storable q) : Storable (d ++ '/' :: q) := by
  refine ⟨by simp, ?_⟩
  obtain ⟨a, t, rfl⟩ := List.exists_cons_of_ne_nil h.1
  have := h.2
  rw [List.getLast?_append, List.getLast?_cons_cons]
  cases hl : (a :: t).getLast? with
  | none => simp at hl
  | some b =>
    rw [hl] at this
    simpa using this

theorem Storable.of_append {d q : Path} (h : Storable (d ++ '/' :: q)) : Storable q := by
  have hq : q ≠ [] := by
    rintro rfl
    exact h.2 (by simp)
  refine ⟨hq, fun hl => h.2 ?_⟩
  obtain ⟨a, t, rfl⟩ := List.exists_cons_of_ne_nil hq
  rw [List.getLast?_append, List.getLast?_cons_cons, hl]
  rfl

theorem storable_of_noSlash {p : Path} (h : p ≠ []) (hs : '/' ∉ p) : Storable p :=
  ⟨h, fun hl => hs (List.mem_of_getLast? hl)⟩

theorem listing_level {s : Store Oid} {n : Nat} {pre : Str} {files : FileMap}
    (hheld : ∀ x ∈ (buildTree (n + 1) pre files : List (GitObject Oid) × Oid).1, Held s x)
    (hsub : ∀ d ∈ (subdirs pre files).keys,
      TreeIn s (buildTree n (pre ++ d ++ ['/']) files : List (GitObject Oid) × Oid).2 ∧
      ∃ l, listing s.get n (buildTree n (pre ++ d ++ ['/']) files :
        List (GitObject Oid) × Oid).2 = .ok l ∧
        ∀ p c, lastOf l p = some c ↔ Storable p ∧ files[pre ++ d ++ ['/'] ++ p]? = some c) :
    TreeIn s (buildTree (n + 1) pre files : List (GitObject Oid) × Oid).2 ∧
      ∃ l, listing s.get (n + 1) (buildTree (n + 1) pre files :
        List (GitObject Oid) × Oid).2 = .ok l ∧
        ∀ p c, lastOf l p = some c ↔ Storable p ∧ files[pre ++ p]? = some c := by
  rw [buildTree_snd]
  obtain ⟨es, hget, hperm⟩ := (hheld _ (mem_buildTree_fst.mpr (.inr (.inr rfl)))).tree
  have hflat : Flat es := (tidy_levelEntries n pre files).flat.perm hperm.symm
  have hblob : ∀ (rel : Str) (c : Bytes), (directFiles pre files)[rel]? = some c →
      s.get (GitObject.blob c : GitObject Oid).oid = .ok (.blob c) := fun rel c hrel =>
    (hheld _ (mem_buildTree_fst.mpr (.inl ⟨rel, c, hrel, rfl⟩))).blob
  constructor
  · refine .mk hget (fun e he hm => ?_) fun e he hm => ?_
    · rcases mem_levelEntries.mp (hperm.mem_iff.mp he) with ⟨rel, c, hrel, rfl⟩ | ⟨d, hd, rfl⟩
      · exact absurd hm (by decide : fileMode ≠ treeMode)
      · exact (hsub d hd).1
    · rcases mem_levelEntries.mp (hperm.mem_iff.mp he) with ⟨rel, c, hrel, rfl⟩ | ⟨d, hd, rfl⟩
      · exact ⟨c, hblob rel c hrel⟩
      · exact absurd rfl hm
  -- what each entry contributes is the files of the map below it
  have hentry : ∀ e ∈ es, ∃ seg, entryListing s.get (listing s.get n) e = .ok seg ∧
      ∀ p c, lastOf seg p = some c ↔ Owns e p ∧ Storable p ∧ files[pre ++ p]? = some c := by
    intro e he
    rcases mem_levelEntries.mp (hperm.mem_iff.mp he) with ⟨rel, c, hrel, rfl⟩ | ⟨d, hd, rfl⟩
    · refine ⟨[(rel, c)], ?_, fun p c' => ?_⟩
      · rw [entryListing, if_neg (by decide : fileMode ≠ treeMode), hblob rel c hrel]
        rfl
      · obtain ⟨hs, hne, hf⟩ := getElem?_directFiles.mp hrel
        simp only [lastOf, Option.none_or, Option.ite_none_right_eq_some, Option.some.injEq, Owns,
          if_neg (by decide : fileMode ≠ treeMode)]
        constructor
        · rintro ⟨rfl, rfl⟩
          exact ⟨rfl, storable_of_noSlash hne hs, hf⟩
        · rintro ⟨rfl, -, hf'⟩
          exact ⟨rfl, Option.some.inj (hf.symm.trans hf')⟩
    · obtain ⟨-, l, hl, hlast⟩ := hsub d hd
      refine ⟨l.map fun f => (d ++ ['/'] ++ f.1, f.2), ?_, fun p c => ?_⟩
      · rw [entryListing, if_pos rfl, hl]
        rfl
      · rw [lastOf_map_append, Option.bind_eq_some_iff]
        simp only [Owns, if_true, hlast]
        constructor
        · rintro ⟨q, hq, hst, hf⟩
          obtain rfl := stripPrefix_eq_some hq
          refine ⟨List.prefix_append _ _, ?_, by simpa using hf⟩
          simpa using hst.append (d := d)
        · rintro ⟨⟨q, rfl⟩, hst, hf⟩
          refine ⟨q, stripPrefix_append _ _, ?_, by simpa using hf⟩
          exact Storable.of_append (d := d) (by simpa using hst)
  choose! seg hseg hlast using hentry
  refine ⟨_, (listing_ok _).mpr ⟨es, _, hget, mapM_eq_ok_map hseg, rfl⟩, fun p c => ?_⟩
  rw [← List.flatMap_def, hflat.lastOf_flatMap fun e he p c h => ((hlast e he p c).mp h).1]
  constructor
  · rintro ⟨e, he, hc⟩
    exact ((hlast e he p c).mp hc).2
  · rintro ⟨hst, hf⟩
    cases hcut : Split.cut '/' p with
    | none =>
      have hs := Split.cut_eq_none.mp hcut
      refine ⟨{ mode := fileMode, name := p, oid := (GitObject.blob c).oid }, ?_, ?_⟩
      · exact hperm.mem_iff.mpr (mem_levelEntries.mpr (.inl ⟨p, c,
          getElem?_directFiles.mpr ⟨hs, hst.1, hf⟩, rfl⟩))
      · refine (hlast _ ?_ p c).mpr ⟨rfl, hst, hf⟩
        exact hperm.mem_iff.mpr (mem_levelEntries.mpr (.inl ⟨p, c,
          getElem?_directFiles.mpr ⟨hs, hst.1, hf⟩, rfl⟩))
    | some dq =>
      obtain ⟨d, q⟩ := dq
      obtain ⟨rfl, hd⟩ := Split.cut_eq_some hcut
      have hmem : d ∈ (subdirs pre files).keys := mem_subdirs.mpr ⟨hd, q, c, hf⟩
      have he := hperm.mem_iff.mpr (mem_levelEntries (n := n).mpr (.inr ⟨d, hmem, rfl⟩))
      refine ⟨_, he, (hlast _ he _ c).mpr ⟨?_, hst, hf⟩⟩
      exact ⟨q, by simp⟩

/-- A store that holds the objects written for a file map holds the tree, and the tree
lists the storable paths of the map. -/
theorem listing_buildTree {s : Store Oid} {n : Nat} {pre : Str} {files : FileMap}
    (hdepth : Shallow (n + 1) pre files)
    (hheld : ∀ x ∈ (buildTree (n + 1) pre files : List (GitObject Oid) × Oid).1, Held s x) :
    TreeIn s (buildTree (n + 1) pre files : List (GitObject Oid) × Oid).2 ∧
      ∃ l, listing s.get (n + 1) (buildTree (n + 1) pre files :
        List (GitObject Oid) × Oid).2 = .ok l ∧
        ∀ p c, lastOf l p = some c ↔ Storable p ∧ files[pre ++ p]? = some c := by
  induction n generalizing pre with
  | zero =>
    refine listing_level hheld fun d hd => ?_
    obtain ⟨-, q, c, hq⟩ := mem_subdirs.mp hd
    have := hdepth _ c hq
    simp at this
  | succ n ih =>
    refine listing_level hheld fun d hd => ih hdepth.sub fun x hx => hheld x ?_
    exact mem_buildTree_fst.mpr (.inr (.inl ⟨d, hd, hx⟩))

theorem shallow_depthBound (files : FileMap) : Shallow (depthBound files) [] files := by
  have key : ∀ (l : List Nat) (n : Nat), n ∈ l → n ≤ l.foldr max 0 := by
    intro l n hn
    induction l with
    | nil => cases hn
    | cons a l ih =>
      rcases List.mem_cons.mp hn with rfl | hn
      · exact le_max_left _ _
      · exact (ih hn).trans (le_max_right _ _)
  intro p c hp
  have hk : p ∈ files.keys :=
    Std.ExtTreeMap.mem_keys.mpr (Std.ExtTreeMap.mem_iff_isSome_getElem?.mpr (by simp_all))
  exact Nat.lt_succ_of_le (key _ _ (List.mem_map_of_mem hk))

/-- The files of a tree that was written: those of the map that some tree can hold. -/
def storedFiles (files : FileMap) : FileMap := files.filter fun p _ => decide (Storable p)

theorem getElem?_storedFiles {files : FileMap} {p : Path} {c : Bytes} :
    (storedFiles files)[p]? = some c ↔ Storable p ∧ files[p]? = some c := by
  rw [storedFiles, Std.ExtTreeMap.getElem?_filter']
  cases files[p]? <;> simp [Option.filter, and_comm]

theorem treeFiles_writeTree [Crates] [LawfulObjectId Oid] [LawfulCrates] {s : Store Oid}
    (hs : s.Sound) {files : FileMap} (hf : ∀ p ∈ files.keys, Framable p) {s' : Store Oid}
    (he : (s.putAll (writeTreeFromFiles files).1).Extends s') :
    TreeIn s' (writeTreeFromFiles files : List (GitObject Oid) × Oid).2 ∧
      treeFiles s' (writeTreeFromFiles files : List (GitObject Oid) × Oid).2 = .ok
      (storedFiles files) := by
  have henc : ∀ x ∈ (writeTreeFromFiles files : List (GitObject Oid) × Oid).1,
      x.Encodable := fun x hx =>
    encodable_of_mem_buildTree hf hx
  have hheld : ∀ x ∈ (writeTreeFromFiles files : List (GitObject Oid) × Oid).1, Held s' x := by
    intro x hx
    obtain ⟨y, hy, hc⟩ := hs.get_putAll henc hx
    exact ⟨y, he.get hy, hc⟩
  obtain ⟨hin, l, hl, hlast⟩ := listing_buildTree (shallow_depthBound files) hheld
  refine ⟨hin, ?_⟩
  rw [writeTreeFromFiles, depthBound, treeFiles_of_listing hl, Except.ok.injEq]
  apply Std.ExtTreeMap.ext_getElem?
  intro p
  rw [getElem?_insertAll, Std.ExtTreeMap.getElem?_empty, Option.or_none]
  apply Option.ext
  intro c
  rw [hlast, getElem?_storedFiles, List.nil_append]

theorem root_mem_writeTree (files : FileMap) :
    ∃ y ∈ (writeTreeFromFiles files : List (GitObject Oid) × Oid).1,
    y.oid = (writeTreeFromFiles files).2 :=
  ⟨_, mem_buildTree_fst.mpr (.inr (.inr rfl)), (buildTree_snd _ _ files).symm⟩

theorem refs_of_mem_writeTree {files : FileMap} {x : GitObject Oid}
    (hx : x ∈ (writeTreeFromFiles files).1) {r : Oid} (hr : r ∈ x.refs) :
    ∃ y ∈ (writeTreeFromFiles files).1, y.oid = r :=
  refs_of_mem_buildTree (shallow_depthBound files) hx hr

end Build

end Csp
