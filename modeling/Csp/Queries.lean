import Csp.Authoring
import Csp.Commit
import Csp.Genuine
import Csp.Materializable
import Csp.Small

/-! Questions about a tree against the file map it stands for. A map that trees can hold is
read back as it was written. The walks that look at entries only agree with the map as long
as no name is both a file and a directory: an entry is looked up by its name alone. -/

namespace Csp
open Result
variable {Oid : Type} [ObjectId Oid] {s : Store Oid}

/-! ### Writing and reading -/

/-- A map that trees can hold: no path is empty, ends in `/` or has a NUL. -/
def Writable (files : FileMap) : Prop := ∀ p ∈ files.keys, Storable p ∧ Framable p

instance (files : FileMap) : Decidable (Writable files) :=
  inferInstanceAs (Decidable (∀ p ∈ files.keys, Storable p ∧ Framable p))

theorem storedFiles_of_writable {files : FileMap} (h : Writable files) :
    storedFiles files = files := by
  apply Std.ExtTreeMap.ext_getElem?
  intro p
  apply Option.ext
  intro c
  rw [getElem?_storedFiles]
  refine and_iff_right_of_imp fun hc => (h p (mem_keys_iff.mpr ?_)).1
  simp [hc]

section Write
variable [Crates] [LawfulObjectId Oid] [LawfulCrates]

theorem treeFiles_of_written (hs : s.Sound) {files : FileMap} (h : Writable files) :
    treeFiles (s.putAll (writeTreeFromFiles files).1)
    (writeTreeFromFiles files : List (GitObject Oid) × Oid).2 =
      .ok files := by
  have hread := (treeFiles_writeTree hs (fun p hp => (h p hp).2) (.refl _)).2
  rw [storedFiles_of_writable h] at hread
  exact hread

/-- Writing and reading are inverse in every sound store, whether it keeps the objects or
reads them back from their compressed frames, and different maps have different roots. -/
theorem writeTree_round_trip :
    (∀ (s : Store Oid) (files : FileMap), s.Sound → Writable files →
      treeFiles (s.putAll (writeTreeFromFiles files).1)
      (writeTreeFromFiles files : List (GitObject Oid) × Oid).2 =
        .ok files) ∧
    ∀ files files' : FileMap, Writable files → Writable files' → files ≠ files' →
      (writeTreeFromFiles files : List (GitObject Oid) × Oid).2 ≠
      (writeTreeFromFiles files').2 := by
  refine ⟨fun s files hs h => treeFiles_of_written hs h, fun files files' h h' hne heq => hne ?_⟩
  -- both maps in one store
  let t : Store Oid := (Store.empty .mem).putAll (writeTreeFromFiles files).1
  have ht : t.Sound := (Store.sound_empty _).putAll fun x hx => encodable_of_mem_buildTree
      (fun p hp => (h p hp).2) hx
  have hread := (treeFiles_writeTree (Store.sound_empty .mem) (fun p hp => (h p hp).2)
    (t.extends_putAll (writeTreeFromFiles files').1)).2
  have hread' := treeFiles_of_written ht h'
  rw [storedFiles_of_writable h, heq, hread'] at hread
  exact (Except.ok.inj hread).symm

end Write

/-! ### Levels of a listing -/

/-- Some file of the list has the path. -/
def Lists (l : List (Path × Bytes)) (p : Path) : Prop := ∃ c, (p, c) ∈ l

theorem not_beneath {p q : Path} (h : '/' ∉ q) : ¬ Beneath p q := by
  rintro ⟨t, rfl⟩
  exact h (by simp)

theorem beneath_cons {p name r : Path} (hn : '/' ∉ name) :
    Beneath p (name ++ '/' :: r) ↔ p = name ∨ ∃ q, p = name ++ '/' :: q ∧ Beneath q r := by
  constructor
  · rintro ⟨t, ht⟩
    cases hc : Split.cut '/' p with
    | none =>
      have h := Split.cut_append (Split.cut_eq_none.mp hc) t
      rw [List.append_cons, ht, Split.cut_append hn] at h
      exact .inl (congrArg Prod.fst (Option.some.inj h)).symm
    | some d =>
      obtain ⟨rfl, hd⟩ := Split.cut_eq_some hc
      have h := Split.cut_append hd (d.2 ++ '/' :: t)
      rw [show d.1 ++ '/' :: (d.2 ++ '/' :: t) = name ++
        '/' :: r by simpa using ht, Split.cut_append hn] at h
      obtain ⟨rfl, rfl⟩ := Prod.mk.inj (Option.some.inj h)
      exact .inr ⟨d.2, rfl, t, by simp⟩
  · rintro (rfl | ⟨q, rfl, t, rfl⟩)
    · exact ⟨r, by simp⟩
    · exact ⟨t, by simp⟩

omit [ObjectId Oid] in
theorem Tidy.find_file {es : List (TreeEntry Oid)} (h : Tidy es) {e : TreeEntry Oid} (he : e ∈ es)
    (hm : e.mode ≠ treeMode) : es.find? (fun a => a.name = e.name) = some e := by
  obtain ⟨as, bs, rfl⟩ := List.append_of_mem he
  refine List.find?_eq_some_iff_append.mpr ⟨by simp, as, bs, rfl, fun a ha => ?_⟩
  have hpair := (List.pairwise_append.mp h.2).2.2 a ha e List.mem_cons_self
  simpa using fun hn => hm (hpair hn).2

omit [ObjectId Oid] in
theorem Tidy.find_dir {es : List (TreeEntry Oid)} (h : Tidy es) {e : TreeEntry Oid} (he : e ∈ es)
    (hno : ∀ a ∈ es, a.name = e.name → a.mode = treeMode) :
    es.find? (fun a => a.name = e.name) = some e := by
  obtain ⟨as, bs, rfl⟩ := List.append_of_mem he
  refine List.find?_eq_some_iff_append.mpr ⟨by simp, as, bs, rfl, fun a ha => ?_⟩
  have hpair := (List.pairwise_append.mp h.2).2.2 a ha e List.mem_cons_self
  simpa using fun hn => (hpair hn).1 (hno a (List.mem_append_left _ ha) hn)

omit [ObjectId Oid] in
theorem Tidy.dir_unique {es : List (TreeEntry Oid)} (h : Tidy es) {e e' : TreeEntry Oid}
    (he : e ∈ es) (he' : e' ∈ es) (hm : e.mode = treeMode) (hm' : e'.mode = treeMode)
    (hn : e.name = e'.name) : e = e' := by
  obtain ⟨as, bs, rfl⟩ := List.append_of_mem he
  obtain ⟨-, hbs, has⟩ := List.pairwise_append.mp h.2
  rcases List.mem_append.mp he' with ha | hb
  · exact absurd hm' (has e' ha e List.mem_cons_self hn.symm).1
  · rcases List.mem_cons.mp hb with rfl | hb
    · rfl
    · exact absurd hm (List.rel_of_pairwise_cons hbs hb hn).1

/-- What a listing says about the entries of its tree: a path without `/` is a file entry,
any other one is in the listing of a directory entry. -/
structure Level (s : Store Oid) (n : Nat) (l : List (Path × Bytes))
    (es : List (TreeEntry Oid)) : Prop where
  tidy : Tidy es
  sub : ∀ e ∈ es, e.mode = treeMode → ∃ l', listing s.get n e.oid = .ok l' ∧
    ∀ r, Lists l (e.name ++ '/' :: r) ↔ Lists l' r
  file : ∀ q, '/' ∉ q → (Lists l q ↔ ∃ e ∈ es, e.name = q ∧ e.mode ≠ treeMode)
  dir : ∀ d r, '/' ∉ d → Lists l (d ++ '/' :: r) → ∃ e ∈ es, e.name = d ∧ e.mode = treeMode

theorem mem_entryListing {n : Nat} {e : TreeEntry Oid} {seg : List (Path × Bytes)}
    (h : entryListing s.get (listing s.get n) e = .ok seg) (q : Path) :
    Lists seg q ↔ if e.mode = treeMode then ∃ l' r, listing s.get n e.oid = .ok l' ∧ Lists l' r ∧
      q = e.name ++ '/' :: r else q = e.name := by
  unfold entryListing at h
  split_ifs at h ⊢ with hm
  · obtain ⟨l', hl', h⟩ := bind_ok.mp h
    obtain rfl := pure_ok.mp h
    constructor
    · rintro ⟨c, hc⟩
      obtain ⟨⟨r, c'⟩, hr, heq⟩ := List.mem_map.mp hc
      obtain ⟨rfl, rfl⟩ := Prod.mk.inj heq
      exact ⟨l', r, hl', ⟨c', hr⟩, by simp⟩
    · rintro ⟨l'', r, hl'', ⟨c, hr⟩, rfl⟩
      obtain rfl := Except.ok.inj (hl'.symm.trans hl'')
      exact ⟨c, List.mem_map.mpr ⟨(r, c), hr, by simp⟩⟩
  · obtain ⟨x, -, h⟩ := bind_ok.mp h
    cases x with
    | tree es => cases h
    | commit c => cases h
    | blob b =>
      obtain rfl := pure_ok.mp h
      simp [Lists]

theorem level_of_listing (hs : s.Tidy) {n : Nat} {o : Oid} {l : List (Path × Bytes)}
    (h : listing s.get (n + 1) o = .ok l) : ∃ es, s.get o = .ok (.tree es) ∧ Level s n l es := by
  obtain ⟨es, segs, hget, hsegs, rfl⟩ := (listing_ok _).mp h
  have htidy := hs.tidy o es hget
  -- a path is listed exactly if some entry contributes it
  have hlists : ∀ q, Lists segs.flatten q ↔ ∃ e ∈ es, if e.mode = treeMode then
      ∃ l' r, listing s.get n e.oid = .ok l' ∧ Lists l' r ∧ q = e.name ++ '/' :: r else q =
      e.name := by
    intro q
    constructor
    · rintro ⟨c, hc⟩
      obtain ⟨seg, hseg, hc⟩ := List.mem_flatten.mp hc
      obtain ⟨e, he, hentry⟩ := mapM_ok_mem_right hsegs hseg
      exact ⟨e, he, (mem_entryListing hentry q).mp ⟨c, hc⟩⟩
    · rintro ⟨e, he, hq⟩
      obtain ⟨seg, hseg, hentry⟩ := mapM_ok_mem hsegs he
      obtain ⟨c, hc⟩ := (mem_entryListing hentry q).mpr hq
      exact ⟨c, List.mem_flatten_of_mem hseg hc⟩
  refine ⟨es, hget, htidy, fun e he hm => ?_, fun q hq => ?_, fun d r hd hdr => ?_⟩
  · obtain ⟨seg, -, hentry⟩ := mapM_ok_mem hsegs he
    rw [entryListing, if_pos hm] at hentry
    obtain ⟨l', hl', -⟩ := bind_ok.mp hentry
    refine ⟨l', hl', fun r => (hlists _).trans ⟨?_, fun hr => ⟨e, he, ?_⟩⟩⟩
    · rintro ⟨e', he', hq⟩
      split_ifs at hq with hm'
      · obtain ⟨l'', r', hl'', hr', heq⟩ := hq
        have hcut := congrArg (Split.cut '/') heq
        rw [Split.cut_append (htidy.1 e he), Split.cut_append (htidy.1 e' he')] at hcut
        obtain ⟨hname, rfl⟩ := Prod.mk.inj (Option.some.inj hcut)
        have hone : e = e' := htidy.dir_unique he he' hm hm' hname
        subst hone
        obtain rfl := Except.ok.inj (hl'.symm.trans hl'')
        exact hr'
      · exact absurd (hq ▸ htidy.1 e' he') (by simp)
    · rw [if_pos hm]
      exact ⟨l', r, hl', hr, rfl⟩
  · refine (hlists q).trans ⟨?_, ?_⟩
    · rintro ⟨e, he, hqe⟩
      split_ifs at hqe with hm
      · obtain ⟨l', r, -, -, rfl⟩ := hqe
        exact absurd hq (by simp)
      · exact ⟨e, he, hqe.symm, hm⟩
    · rintro ⟨e, he, rfl, hm⟩
      exact ⟨e, he, by rw [if_neg hm]⟩
  · obtain ⟨e, he, hq⟩ := (hlists _).mp hdr
    split_ifs at hq with hm
    · obtain ⟨l', r', -, -, heq⟩ := hq
      have hcut := congrArg (Split.cut '/') heq
      rw [Split.cut_append hd, Split.cut_append (htidy.1 e he)] at hcut
      exact ⟨e, he, (congrArg Prod.fst (Option.some.inj hcut)).symm, hm⟩
    · exact absurd (hq ▸ htidy.1 e he) (by simp)

/-! ### Presence -/

/-- No listed path is a directory on the way to another one. -/
def Unclashing (l : List (Path × Bytes)) : Prop := ∀ p q, Lists l p → Lists l q → ¬ Beneath p q

theorem presentAt_listing (hs : s.Tidy) {n : Nat} {o : Oid} {l : List (Path × Bytes)}
    (h : listing s.get n o = .ok l) (q : Path) :
    ∃ b, presentAt s o (Split.splitOn '/' q) = .ok b ∧
      (b = true ↔ Lists l q ∧ ∀ d, Lists l d → ¬ Beneath d q) := by
  induction n generalizing o l q with
  | zero => cases h
  | succ n ih =>
    obtain ⟨es, hget, hl⟩ := level_of_listing hs h
    have hes : parentEntries s (some o) = .ok es := bind_ok.mpr ⟨_, hget, rfl⟩
    cases hcut : Split.cut '/' q with
    | none =>
      have hq := Split.cut_eq_none.mp hcut
      rw [Split.splitOn_of_notMem hq, presentAt_cons hes, hl.file q hq]
      by_cases hfile : ∃ e ∈ es, e.name = q ∧ e.mode ≠ treeMode
      · obtain ⟨e, he, rfl, hm⟩ := hfile
        rw [hl.tidy.find_file he hm]
        exact ⟨true, by simp [hm], by simpa using ⟨⟨e, he, rfl, hm⟩, fun d _ => not_beneath hq⟩⟩
      · refine ⟨false, ?_, by simp [hfile]⟩
        cases hfind : es.find? (fun a => a.name = q) with
        | none => rfl
        | some e =>
          have hn : e.name = q := by simpa using List.find?_some hfind
          have hm : e.mode = treeMode := by
            by_contra hm
            exact hfile ⟨e, List.mem_of_find?_eq_some hfind, hn, hm⟩
          simp [hm]
    | some dr =>
      obtain ⟨d, r⟩ := dr
      obtain ⟨rfl, hd⟩ := Split.cut_eq_some hcut
      rw [Split.splitOn_append_sep hd, presentAt_cons hes]
      simp only [if_neg (Split.splitOn_ne_nil '/' r)]
      by_cases hfile : Lists l d
      · -- the file of that name is found, not the directory
        obtain ⟨e, he, rfl, hm⟩ := (hl.file d hd).mp hfile
        rw [hl.tidy.find_file he hm]
        refine ⟨false, by simp [hm], ?_⟩
        simpa using fun _ => ⟨e.name, hfile, (beneath_cons hd).mpr (.inl rfl)⟩
      · by_cases hdir : ∃ e ∈ es, e.name = d
        · obtain ⟨e, he, rfl⟩ := hdir
          have hno : ∀ a ∈ es, a.name = e.name → a.mode = treeMode := by
            intro a ha hn
            by_contra hm
            exact hfile ((hl.file e.name hd).mpr ⟨a, ha, hn, hm⟩)
          obtain ⟨l', hl', hsub⟩ := hl.sub e he (hno e he rfl)
          obtain ⟨b, hb, hiff⟩ := ih hl' r
          rw [hl.tidy.find_dir he hno]
          refine ⟨b, by simpa [hno e he rfl] using hb, hiff.trans (and_congr (hsub r).symm ?_)⟩
          constructor
          · intro hall p hp hbelow
            rcases (beneath_cons hd).mp hbelow with rfl | ⟨p, rfl, hr⟩
            · exact hfile hp
            · exact hall p ((hsub p).mp hp) hr
          · intro hall p hp hbelow
            exact hall _ ((hsub p).mpr hp) ((beneath_cons hd).mpr (.inr ⟨p, rfl, hbelow⟩))
        · refine ⟨false, ?_, ?_⟩
          · rw [List.find?_eq_none.mpr fun e he => by simpa using fun hn => hdir ⟨e, he, hn⟩]
          · refine ⟨fun h => (by cases h), fun h => ?_⟩
            obtain ⟨e, he, hn, -⟩ := hl.dir d r hd h.1
            exact absurd ⟨e, he, hn⟩ hdir

/-! ### Added paths -/

def ParentLists (s : Store Oid) (n : Nat) (parent : Option Oid) (l : List (Path × Bytes)) : Prop :=
  match parent with
  | some o => listing s.get n o = .ok l
  | none => l = []

theorem parent_level (hs : s.Tidy) {n : Nat} {parent : Option Oid} {l : List (Path × Bytes)}
    (h : ParentLists s (n + 1) parent l) (hfree : Unclashing l) :
    ∃ es, parentEntries s parent = .ok es ∧ ∀ name, '/' ∉ name →
      (((es.find? fun e => e.name = name).any fun e => e.mode ≠ treeMode) = true ↔ Lists l name) ∧
      ∃ l', ParentLists s n ((es.find? fun e => e.name = name).bind fun e =>
          if e.mode = treeMode then some e.oid else none) l' ∧ Unclashing l' ∧
        ∀ r, Lists l (name ++ '/' :: r) ↔ Lists l' r := by
  have hempty : Unclashing [] := fun p q hp => by simp [Lists] at hp
  cases parent with
  | none =>
    obtain rfl := h
    exact ⟨[], rfl, fun name _ => ⟨by simp [Lists], [], rfl, hempty, by simp [Lists]⟩⟩
  | some o =>
    obtain ⟨es, hget, hl⟩ := level_of_listing hs h
    refine ⟨es, bind_ok.mpr ⟨_, hget, rfl⟩, fun name hname => ?_⟩
    by_cases hfile : Lists l name
    · obtain ⟨e, he, rfl, hm⟩ := (hl.file name hname).mp hfile
      rw [hl.tidy.find_file he hm]
      refine ⟨by simp [hm, hfile], [], by simp [hm, ParentLists], hempty, fun r => ?_⟩
      refine ⟨fun hr => ?_, fun hr => by simp [Lists] at hr⟩
      exact absurd ((beneath_cons hname).mpr (.inl rfl)) (hfree _ _ hfile hr)
    · by_cases hdir : ∃ e ∈ es, e.name = name
      · obtain ⟨e, he, rfl⟩ := hdir
        have hno : ∀ a ∈ es, a.name = e.name → a.mode = treeMode := by
          intro a ha hn
          by_contra hm
          exact hfile ((hl.file e.name hname).mpr ⟨a, ha, hn, hm⟩)
        obtain ⟨l', hl', hsub⟩ := hl.sub e he (hno e he rfl)
        rw [hl.tidy.find_dir he hno]
        refine ⟨by simp [hno e he rfl, hfile], l', by simpa [hno e he rfl, ParentLists] using hl', ?_, hsub⟩
        intro p q hp hq hbelow
        exact hfree _ _ ((hsub p).mpr hp) ((hsub q).mpr hq)
          ((beneath_cons hname).mpr (.inr ⟨p, rfl, hbelow⟩))
      · rw [List.find?_eq_none.mpr fun e he => by simpa using fun hn => hdir ⟨e, he, hn⟩]
        refine ⟨by simp [hfile], [], rfl, hempty, fun r => ⟨fun hr => ?_, fun hr => by simp [Lists] at hr⟩⟩
        obtain ⟨e, he, hn, -⟩ := hl.dir name r hname hr
        exact absurd ⟨e, he, hn⟩ hdir

theorem treePathsAdded_listing (hs : s.Tidy) {n : Nat} (pre : Str) {parent : Option Oid} {o : Oid}
    {l lp : List (Path × Bytes)} (h : listing s.get n o = .ok l) (hp : ParentLists s n parent lp)
    (hfree : Unclashing lp) :
    ∃ added, treePathsAdded s n pre parent o = .ok added ∧
      ∀ p, p ∈ added ↔ ∃ q, p = pre ++ q ∧ Lists l q ∧ ¬ Lists lp q := by
  induction n generalizing pre parent o l lp with
  | zero => cases h
  | succ n ih =>
    by_cases hsame : some o = parent
    · subst hsame
      obtain rfl : l = lp := Except.ok.inj (h.symm.trans hp)
      refine ⟨[], treePathsAdded_ok.mpr (.inl ⟨rfl, rfl⟩), fun p => ?_⟩
      simp
    obtain ⟨es, hget, hl⟩ := level_of_listing hs h
    obtain ⟨pes, hpes, hname⟩ := parent_level hs hp hfree
    -- what one entry adds
    have hentry : ∀ e ∈ es, ∃ seg, pathsAddedAt (treePathsAdded s n) pre pes e = .ok seg ∧
        ∀ p, p ∈ seg ↔ ∃ q, p = pre ++ q ∧ (if e.mode = treeMode then ∃ r,
          q = e.name ++ '/' :: r ∧ Lists l q
          else q = e.name) ∧ ¬ Lists lp q := by
      intro e he
      obtain ⟨hparent, lp', hlp', hfree', hbelow⟩ := hname e.name (hl.tidy.1 e he)
      unfold pathsAddedAt
      by_cases hm : e.mode = treeMode
      · obtain ⟨l', hl', hsub⟩ := hl.sub e he hm
        obtain ⟨added, hadded, hmem⟩ := ih (pre ++ e.name ++ ['/']) hl' hlp' hfree'
        refine ⟨added, by simpa [hm] using hadded, fun p => (hmem p).trans ?_⟩
        simp only [if_pos hm]
        constructor
        · rintro ⟨r, rfl, hr, hnr⟩
          exact ⟨e.name ++ '/' :: r, by simp, ⟨r, rfl, (hsub r).mpr hr⟩, fun hr' => hnr ((hbelow r).mp hr')⟩
        · rintro ⟨_, rfl, ⟨r, rfl, hr⟩, hnr⟩
          exact ⟨r, by simp, (hsub r).mp hr, fun hr' => hnr ((hbelow r).mpr hr')⟩
      · simp only [if_neg hm]
        refine ⟨_, rfl, fun p => ?_⟩
        split_ifs with hfile
        · have := hparent.mp hfile
          simpa using fun _ => this
        · have hno : ¬ Lists lp e.name := fun hl => hfile (hparent.mpr hl)
          simp [hno]
    choose! seg hseg hmem using hentry
    refine ⟨_, treePathsAdded_ok.mpr (.inr ⟨hsame, _, hget,
      .inl ⟨es, pes, _, rfl, hpes, mapM_eq_ok_map hseg, rfl⟩⟩),
      fun p => ?_⟩
    rw [← List.flatMap_def, List.mem_flatMap]
    constructor
    · rintro ⟨e, he, hp⟩
      obtain ⟨q, rfl, hq, hnq⟩ := (hmem e he p).mp hp
      refine ⟨q, rfl, ?_, hnq⟩
      split_ifs at hq with hm
      · obtain ⟨r, -, hq⟩ := hq
        exact hq
      · exact hq ▸ (hl.file e.name (hl.tidy.1 e he)).mpr ⟨e, he, rfl, hm⟩
    · rintro ⟨q, rfl, hq, hnq⟩
      cases hcut : Split.cut '/' q with
      | none =>
        obtain ⟨e, he, rfl, hm⟩ := (hl.file q (Split.cut_eq_none.mp hcut)).mp hq
        exact ⟨e, he, (hmem e he _).mpr ⟨e.name, rfl, by rw [if_neg hm], hnq⟩⟩
      | some dr =>
        obtain ⟨rfl, hd⟩ := Split.cut_eq_some hcut
        obtain ⟨e, he, hn, hm⟩ := hl.dir _ _ hd hq
        refine ⟨e, he, (hmem e he _).mpr ⟨_, rfl, ?_, hnq⟩⟩
        rw [if_pos hm, hn]
        exact ⟨dr.2, rfl, hq⟩

/-! ### Trees that were written -/

omit [ObjectId Oid] in
theorem lists_iff {l : List (Path × Bytes)} {p : Path} : Lists l p ↔
    (insertAll [] l ∅)[p]? ≠ none := by
  rw [getElem?_insertAll, Std.ExtTreeMap.getElem?_empty, Option.or_none]
  constructor
  · rintro ⟨c, hc⟩
    obtain ⟨c', hc'⟩ := exists_lastOf_of_mem hc
    simp [hc']
  · intro h
    obtain ⟨c, hc⟩ := Option.ne_none_iff_exists'.mp h
    exact ⟨c, mem_of_lastOf hc⟩

/-- The structural queries on two trees answer as the file maps of the trees do. -/
def FlatQueries (s : Store Oid) (parent child : Oid) : Prop :=
  ∃ fp fc, treeFiles s parent = .ok fp ∧ treeFiles s child = .ok fc ∧
    (∀ p, pathPresentInTree s parent p = .ok (fp.contains p)) ∧
    (∀ p, pathPresentInTree s child p = .ok (fc.contains p)) ∧
    ∃ added, treePathsAdded s (s.size + 1) [] (some parent) child = .ok added ∧
      ∀ p, p ∈ added ↔ fc.contains p = true ∧ fp.contains p = false

/-- Presence is answered as the file map does exactly if no file stands in another's way. -/
theorem pathPresentInTree_iff (hs : s.Tidy) {o : Oid} {files : FileMap}
    (h : treeFiles s o = .ok files) :
    (∀ p, pathPresentInTree s o p = .ok (files.contains p)) ↔ PrefixFree files := by
  obtain ⟨l, hl, rfl⟩ := treeFiles_ok.mp h
  have hcontains : ∀ p, (insertAll [] l ∅).contains p = true ↔ Lists l p := fun p => by
    rw [lists_iff, Std.ExtTreeMap.contains_eq_isSome_getElem?, Option.isSome_iff_ne_none]
  constructor
  · intro hall p q hp hq hbelow
    obtain ⟨b, hb, hiff⟩ := presentAt_listing hs hl q
    have htrue : b = true := by
      rw [Except.ok.inj (hb.symm.trans (hall q)), hcontains]
      exact lists_iff.mpr hq
    exact (hiff.mp htrue).2 p (lists_iff.mpr hp) hbelow
  · intro hfree p
    obtain ⟨b, hb, hiff⟩ := presentAt_listing hs hl p
    rw [pathPresentInTree, hb, Except.ok.injEq, Bool.eq_iff_iff, hiff, hcontains]
    exact and_iff_left_of_imp fun hp d hd => hfree d p (lists_iff.mp hd) (lists_iff.mp hp)

variable [Crates] [LawfulObjectId Oid] [LawfulCrates]

/-- The structural queries on written trees agree with the flat view exactly if neither map
has a file where another of its files needs a directory. -/
theorem flatQueries_iff_prefixFree {t : Store Oid} (hs : s.Sound) (ht : t.Tidy)
    {parent child : FileMap} (hp : ∀ p ∈ parent.keys, Framable p)
    (hc : ∀ p ∈ child.keys, Framable p) (he : (s.putAll
      ((writeTreeFromFiles parent).1 ++ (writeTreeFromFiles child).1)).Extends t) :
    FlatQueries t (writeTreeFromFiles parent : List (GitObject Oid) × Oid).2
    (writeTreeFromFiles child).2 ↔
      PrefixFree (storedFiles parent) ∧ PrefixFree (storedFiles child) := by
  rw [Store.putAll_append] at he
  have hsound : (s.putAll (writeTreeFromFiles parent).1).Sound :=
    hs.putAll fun x hx => encodable_of_mem_buildTree hp hx
  have hfp := (treeFiles_writeTree hs hp ((Store.extends_putAll _ _).trans he)).2
  have hfc := (treeFiles_writeTree hsound hc he).2
  constructor
  · rintro ⟨fp, fc, hfp', hfc', hpp, hpc, -⟩
    obtain rfl := Except.ok.inj (hfp.symm.trans hfp')
    obtain rfl := Except.ok.inj (hfc.symm.trans hfc')
    exact ⟨(pathPresentInTree_iff ht hfp).mp hpp, (pathPresentInTree_iff ht hfc).mp hpc⟩
  · rintro ⟨hfreep, hfreec⟩
    refine ⟨_, _, hfp, hfc, (pathPresentInTree_iff ht hfp).mpr hfreep,
      (pathPresentInTree_iff ht hfc).mpr hfreec, ?_⟩
    obtain ⟨lp, hlp, heqp⟩ := treeFiles_ok.mp hfp
    obtain ⟨lc, hlc, heqc⟩ := treeFiles_ok.mp hfc
    have hparent : ParentLists t (t.size + 1) (some (writeTreeFromFiles parent).2) lp := hlp
    obtain ⟨added, hadded, hmem⟩ := treePathsAdded_listing ht [] hlc hparent fun p q hp hq =>
      hfreep p q (heqp ▸ lists_iff.mp hp) (heqp ▸ lists_iff.mp hq)
    refine ⟨added, hadded, fun p => (hmem p).trans ?_⟩
    simp only [List.nil_append, exists_eq_left', lists_iff, heqp, heqc,
      Std.ExtTreeMap.contains_eq_isSome_getElem?, Option.isSome_iff_ne_none]
    exact and_congr_right fun _ => by rw [← Bool.not_eq_true, Option.isSome_iff_ne_none]

end Csp

/-! ### A file and a directory of one name -/

namespace Csp.Small

/-- A name that is a file and a directory, beside a name that sorts between the two. -/
def bothKinds : FileMap := (mergeTrees ∅ notes todo).insert "notes.md".toList [51]

def treeOid (files : FileMap) : Digest :=
  (writeTreeFromFiles files : List (GitObject Digest) × Digest).2

def writtenStore (b : Backend) (parent child : FileMap) : Store Digest :=
  (Store.empty b).putAll ((writeTreeFromFiles parent).1 ++ (writeTreeFromFiles child).1)

theorem writeTree_round_trip_clash :
    treeFiles ((Store.empty .mem).putAll (writeTreeFromFiles bothKinds).1) (treeOid bothKinds) =
    .ok bothKinds ∧ treeFiles ((Store.empty .disk).putAll (writeTreeFromFiles bothKinds).1)
    (treeOid bothKinds) = .ok bothKinds ∧ treeOid bothKinds ≠ treeOid notes := by
  have hw : Writable bothKinds ∧ Writable notes ∧ bothKinds ≠ notes := by
    refine ⟨by decide +kernel, by decide +kernel, fun h => ?_⟩
    exact absurd (congrArg (fun m : FileMap => m.contains "notes.md".toList) h) (by decide +kernel)
  obtain ⟨hclash, hnotes, hne⟩ := hw
  obtain ⟨hread, hroots⟩ := @writeTree_round_trip Digest _ _ _ _
  exact ⟨hread _ _ (Store.sound_empty _) hclash, hread _ _ (Store.sound_empty _) hclash,
    hroots _ _ hclash hnotes hne⟩

/-- The file is found where its directory is asked for: the path is in the map and not
present, and it is reported as added to a parent that has it. -/
theorem flatQueries_clash :
    (treeFiles (writtenStore .disk bothKinds todo) (treeOid bothKinds)).toOption.any
        (fun m => m.contains "notes/todo".toList) = true ∧
      (pathPresentInTree (writtenStore .disk bothKinds todo)
        (treeOid bothKinds) "notes/todo".toList).toOption = some false ∧
      (treePathsAdded (writtenStore .disk bothKinds todo) 10 [] (some (treeOid bothKinds))
        (treeOid todo)).toOption =
        some ["notes/todo".toList] ∧
      ¬ FlatQueries (writtenStore .disk bothKinds todo) (treeOid bothKinds) (treeOid todo) := by
  have hrun : (treeFiles (writtenStore .disk bothKinds todo) (treeOid bothKinds)).toOption.any
        (fun m => m.contains "notes/todo".toList) = true ∧
      (pathPresentInTree (writtenStore .disk bothKinds todo)
        (treeOid bothKinds) "notes/todo".toList).toOption = some false ∧
      (treePathsAdded (writtenStore .disk bothKinds todo) 10 [] (some (treeOid bothKinds))
        (treeOid todo)).toOption =
        some ["notes/todo".toList] := by
    decide +kernel
  refine ⟨hrun.1, hrun.2.1, hrun.2.2, ?_⟩
  rintro ⟨fp, fc, hfp, -, hpresent, -⟩
  obtain ⟨hin, hout, -⟩ := hrun
  rw [hfp] at hin
  rw [hpresent] at hout
  have hmem : fp.contains "notes/todo".toList = true := hin
  rw [hmem] at hout
  cases hout

theorem flatQueries_iff_plans :
    FlatQueries (writtenStore .disk notes plans) (treeOid notes) (treeOid plans) := by
  have hempty : (Store.empty .disk : Store Digest).Tidy := ⟨Store.sound_empty _, fun o es h => by
    rw [Store.get_eq_ok] at h
    simp [Store.empty] at h⟩
  have hfacts : (∀ p ∈ notes.keys, Framable p) ∧ (∀ p ∈ plans.keys, Framable p) ∧
      PrefixFree (storedFiles notes) ∧ PrefixFree (storedFiles plans) := by
    decide +kernel
  obtain ⟨hn, hp, hfreen, hfreep⟩ := hfacts
  have htidy : (writtenStore .disk notes plans).Tidy := by
    refine hempty.putAll (fun x hx => ?_) fun es hes => ?_
    · exact (List.mem_append.mp hx).elim (encodable_of_mem_buildTree hn)
        (encodable_of_mem_buildTree hp)
    · exact (List.mem_append.mp hes).elim tidy_of_mem_buildTree tidy_of_mem_buildTree
  exact (flatQueries_iff_prefixFree (Store.sound_empty _) htidy hn hp (.refl _)).mpr
    ⟨hfreen, hfreep⟩

end Csp.Small
