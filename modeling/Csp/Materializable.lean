import Csp.FoldFacts
import Csp.Coverage

/-! File maps that a file system can hold: no file where another file needs a directory. The
merge decides each path by itself, so the two sides can put a file and a directory in one
place. -/

namespace Csp
open Result

/-- The first path is a directory on the way to the second. -/
def Beneath (p q : Path) : Prop := p ++ ['/'] <+: q

instance (p q : Path) : Decidable (Beneath p q) := inferInstanceAs (Decidable (_ <+: _))

/-- No path is a proper directory prefix of another one. -/
def PrefixFree (files : FileMap) : Prop :=
  ∀ p q, files[p]? ≠ none → files[q]? ≠ none → ¬ Beneath p q

theorem mem_keys_iff {files : FileMap} {p : Path} : p ∈ files.keys ↔ files[p]? ≠ none := by
  rw [Std.ExtTreeMap.mem_keys, Std.ExtTreeMap.mem_iff_isSome_getElem?, Option.isSome_iff_ne_none]

instance (files : FileMap) : Decidable (PrefixFree files) :=
  decidable_of_iff (∀ p ∈ files.keys, ∀ q ∈ files.keys, ¬ Beneath p q)
    ⟨fun h p q hp hq => h p (mem_keys_iff.mpr hp) q (mem_keys_iff.mpr hq),
      fun h p hp q hq => h p q (mem_keys_iff.mp hp) (mem_keys_iff.mp hq)⟩

/-- What ours added meets nothing that theirs added or changed: neither is a directory on
the way to the other. -/
def Compatible (base ours theirs : FileMap) : Prop :=
  ∀ p q, Beneath p q ∨ Beneath q p → ours[q]? ≠ none → base[q]? = none → theirs[p]? ≠ none →
    theirs[p]? = base[p]?

instance (base ours theirs : FileMap) : Decidable (Compatible base ours theirs) :=
  decidable_of_iff (∀ p ∈ theirs.keys, ∀ q ∈ ours.keys, Beneath p q ∨ Beneath q p →
      base[q]? = none →
      theirs[p]? = base[p]?)
    ⟨fun h p q hpq hq hb hp => h p (mem_keys_iff.mpr hp) q (mem_keys_iff.mpr hq) hpq hb,
      fun h p hp q hq hpq hb => h p q hpq (mem_keys_iff.mp hq) hb (mem_keys_iff.mp hp)⟩

section Merge
variable [Crates] {base ours theirs : FileMap}

theorem getElem?_foldl_mergeInto (l : List Path) (out : FileMap) (p : Path) :
    (l.foldl (mergeInto base ours theirs) out)[p]? =
      if p ∈ l then (mergeChoice base[p]? ours[p]? theirs[p]?).or out[p]? else out[p]? := by
  induction l generalizing out with
  | nil => rfl
  | cons q l ih =>
    have hstep : (mergeInto base ours theirs out q)[p]? =
        if p = q then (mergeChoice base[p]? ours[p]? theirs[p]?).or out[p]? else out[p]? := by
      rw [mergeInto]
      split
      · rename_i c hc
        rw [Std.ExtTreeMap.getElem?_insert]
        by_cases hpq : p = q
        · subst hpq
          rw [if_pos (Std.LawfulEqCmp.compare_eq_iff_eq.mpr rfl), if_pos rfl, hc, Option.some_or]
        · rw [if_neg (fun h => hpq (Std.LawfulEqCmp.eq_of_compare h).symm), if_neg hpq]
      · rename_i hc
        by_cases hpq : p = q
        · subst hpq
          rw [if_pos rfl, hc, Option.none_or]
        · rw [if_neg hpq]
    rw [List.foldl_cons, ih, hstep]
    by_cases hpq : p = q
    · subst hpq
      by_cases hp : p ∈ l
      · simp only [hp, List.mem_cons, true_or, if_true]
        cases mergeChoice base[p]? ours[p]? theirs[p]? <;> rfl
      · simp only [hp, List.mem_cons, true_or, if_true, if_false]
    · simp only [List.mem_cons, hpq, false_or, if_false]

theorem getElem?_mergeTrees (p : Path) :
    (mergeTrees base ours theirs)[p]? = mergeChoice base[p]? ours[p]? theirs[p]? := by
  rw [mergeTrees, getElem?_foldl_mergeInto, Std.ExtTreeMap.getElem?_empty, Option.or_none]
  split_ifs with hp
  · rfl
  · simp only [List.mem_append, Std.ExtTreeMap.mem_keys, not_or] at hp
    rw [Std.ExtTreeMap.getElem?_eq_none hp.1.1, Std.ExtTreeMap.getElem?_eq_none hp.1.2,
      Std.ExtTreeMap.getElem?_eq_none hp.2]
    rfl

theorem mergeChoice_ne_none {b o t : Option Bytes} :
    mergeChoice b o t ≠ none ↔ t ≠ none ∧ (o = none → t ≠ b) ∨ t = none ∧ b = none ∧ o ≠ none := by
  unfold mergeChoice
  split_ifs with h₁ h₂ h₃
  · subst h₁
    cases o <;> simp
  · subst h₂
    cases t <;> cases o <;> simp_all
  · subst h₃
    cases t <;> cases o <;> simp_all
  · cases b <;> cases o <;> cases t <;> simp_all

/-- Trees that a file system can hold merge into one exactly if they are compatible. -/
theorem mergeTrees_prefixFree_iff (hours : PrefixFree ours) (htheirs : PrefixFree theirs) :
    PrefixFree (mergeTrees base ours theirs) ↔ Compatible base ours theirs := by
  have apart : ∀ {m : FileMap}, PrefixFree m → ∀ {p q}, Beneath p q ∨ Beneath q p → m[p]? ≠ none →
      m[q]? = none := by
    intro m hm p q hpq hp
    by_contra hq
    exact hpq.elim (hm p q hp hq) (hm q p hq hp)
  constructor
  · intro hfree p q hpq hoq hbq htp
    by_contra hchanged
    have htq : theirs[q]? = none := apart htheirs hpq htp
    have hp : (mergeTrees base ours theirs)[p]? ≠ none := by
      rw [getElem?_mergeTrees, mergeChoice_ne_none]
      exact .inl ⟨htp, fun _ => hchanged⟩
    have hq : (mergeTrees base ours theirs)[q]? ≠ none := by
      rw [getElem?_mergeTrees, mergeChoice_ne_none]
      exact .inr ⟨htq, hbq, hoq⟩
    exact hpq.elim (hfree p q hp hq) (hfree q p hq hp)
  · intro hcompat p q hp hq hpq
    rw [getElem?_mergeTrees, mergeChoice_ne_none] at hp hq
    -- the two paths are not both in theirs, nor both in ours
    rcases hp with ⟨htp, hkept⟩ | ⟨-, hbp, hop⟩ <;> rcases hq with ⟨htq, hkept'⟩ | ⟨-, hbq, hoq⟩
    · exact htheirs p q htp htq hpq
    · exact hkept (apart hours (.inr hpq) hoq) (hcompat p q (.inl hpq) hoq hbq htp)
    · exact hkept' (apart hours (.inl hpq) hop) (hcompat q p (.inr hpq) hop hbp htq)
    · exact hours p q hop hoq hpq

end Merge

/-! ### Along the fold -/

section Fold
variable {Oid : Type} [ObjectId Oid] {s t : Store Oid}

def filesOf (s : Store Oid) (o : Oid) : CspResult FileMap := do
  let tree ← commitTree s o
  treeFiles s tree

theorem filesOf_ok {o : Oid} {m : FileMap} :
    filesOf s o = .ok m ↔ ∃ c, loadCommit s o = .ok c ∧ treeFiles s c.tree = .ok m := by
  rw [filesOf, commitTree]
  cases loadCommit s o with
  | error e => simp
  | ok c => simp

theorem filesOf_extends {o : Oid} {m : FileMap} (h : filesOf s o = .ok m) (he : s.Extends t) :
    filesOf t o = .ok m := by
  obtain ⟨c, hc, hm⟩ := filesOf_ok.mp h
  exact filesOf_ok.mpr ⟨c, loadCommit_extends he hc, he.carries.treeFiles
    (fun _ => Tidy.flat) trivial hm⟩

variable [Crates]

theorem mergedFiles_ok {acc tk : Oid} {m : FileMap} :
    mergedFiles s acc tk = .ok m ↔ ∃ base b o t, mergeBase s acc tk = .ok base ∧
    filesOf s base = .ok b ∧
      filesOf s acc = .ok o ∧ filesOf s tk = .ok t ∧ m = mergeTrees b o t := by
  have hsplit : mergedFiles s acc tk = (do
      let base ← mergeBase s acc tk
      let b ← filesOf s base
      let o ← filesOf s acc
      let t ← filesOf s tk
      pure (mergeTrees b o t)) := by
    simp only [mergedFiles, filesOf, bind_assoc]
  rw [hsplit]
  constructor
  · intro h
    obtain ⟨base, hbase, h⟩ := bind_ok.mp h
    obtain ⟨b, hb, h⟩ := bind_ok.mp h
    obtain ⟨o, ho, h⟩ := bind_ok.mp h
    obtain ⟨t, ht, h⟩ := bind_ok.mp h
    exact ⟨base, b, o, t, hbase, hb, ho, ht, (pure_ok.mp h).symm⟩
  · rintro ⟨base, b, o, t, hbase, hb, ho, ht, rfl⟩
    rw [hbase, ok_bind, hb, ok_bind, ho, ok_bind, ht, ok_bind]
    rfl

/-- The merge of two commits has compatible sides. -/
def CompatibleAt (s : Store Oid) (acc tk : Oid) : Prop :=
  ∀ base b o t, mergeBase s acc tk = .ok base → filesOf s base = .ok b → filesOf s acc = .ok o →
    filesOf s tk = .ok t → Compatible b o t

/-- Each merge of the fold over the tips has compatible sides. -/
def CompatibleFold : List Oid → Oid → Store Oid → Prop
  | [], _, _ => True
  | tk :: rest, acc, s => CompatibleAt s acc tk ∧
      ∀ acc' s', foldStep acc tk s = (.ok acc', s') → CompatibleFold rest acc' s'

def CompatibleTips (s : Store Oid) : List Oid → Prop
  | acc :: rest => CompatibleFold rest acc s
  | [] => True

/-- The store holds the files of the commit, and a file system can. -/
def Holdable (s : Store Oid) (o : Oid) : Prop := ∃ m, filesOf s o = .ok m ∧ PrefixFree m

omit [Crates] in
theorem Holdable.extends {o : Oid} (h : Holdable s o) (he : s.Extends t) : Holdable t o := by
  obtain ⟨m, hm, hfree⟩ := h
  exact ⟨m, filesOf_extends hm he, hfree⟩

omit [ObjectId Oid] [Crates] in
theorem PrefixFree.storedFiles {m : FileMap} (h : PrefixFree m) : PrefixFree (storedFiles m) := by
  have hold : ∀ p : Path, (Csp.storedFiles m)[p]? ≠ none → m[p]? ≠ none := by
    intro p hp
    obtain ⟨c, hc⟩ := Option.ne_none_iff_exists'.mp hp
    rw [(getElem?_storedFiles.mp hc).2]
    exact Option.some_ne_none c
  exact fun p q hp hq => h p q (hold p hp) (hold q hq)

variable [LawfulObjectId Oid] [LawfulCrates]

theorem Holdable.foldStep (hs : s.Sound) {acc tk o : Oid} (hacc : Holdable s acc)
    (htk : Holdable s tk) (hcompat : CompatibleAt s acc tk)
    (h : Csp.foldStep acc tk s = (.ok o, t)) :
    t.Sound ∧ s.Extends t ∧ Holdable t o := by
  obtain ⟨objs, c, hf, rfl, rfl⟩ := refold_ok (show refold [acc, tk] s = _ from h)
  obtain ⟨hsound, hload⟩ := hs.load_foldObjects hf
  obtain ⟨-, ⟨tip, htip, -⟩ | ⟨acc', tk', m, heq, hm, rfl, hroot⟩⟩ := foldObjects_commit hf
  · cases htip
  · cases heq
    have hput : (s.putAll (writeTreeFromFiles m).1).Extends
        (s.putAll ((writeTreeFromFiles m).1 ++ [.commit c])) := by
      rw [Store.putAll_append]
      exact Store.extends_putAll _ _
    have hfiles := (treeFiles_writeTree hs (framable_mergedFiles hs hm) hput).2
    rw [← hroot] at hfiles
    refine ⟨hsound, s.extends_putAll _, storedFiles m, filesOf_ok.mpr ⟨c, hload, hfiles⟩,
      PrefixFree.storedFiles ?_⟩
    obtain ⟨base, b, ours, theirs, hbase, hb, hours, htheirs, rfl⟩ := mergedFiles_ok.mp hm
    obtain ⟨m₁, hm₁, hfree₁⟩ := hacc
    obtain ⟨m₂, hm₂, hfree₂⟩ := htk
    obtain rfl := Except.ok.inj (hours.symm.trans hm₁)
    obtain rfl := Except.ok.inj (htheirs.symm.trans hm₂)
    exact (mergeTrees_prefixFree_iff hfree₁ hfree₂).mpr
      (hcompat base b ours theirs hbase hb hours htheirs)

theorem Holdable.foldlM {rest : List Oid} {acc o : Oid} (hs : s.Sound) (hacc : Holdable s acc)
    (hrest : ∀ p ∈ rest, Holdable s p) (hcompat : CompatibleFold rest acc s)
    (h : rest.foldlM Csp.foldStep acc s = (.ok o, t)) : Holdable t o := by
  induction rest generalizing s acc with
  | nil =>
    obtain ⟨rfl, rfl⟩ : acc = o ∧ s = t := by simpa using h
    exact hacc
  | cons tk rest ih =>
    rw [List.foldlM_cons] at h
    obtain ⟨acc', s', hstep, hfold⟩ := run_bind_ok.mp h
    obtain ⟨hs', hext, hacc'⟩ := hacc.foldStep hs (hrest tk List.mem_cons_self) hcompat.1 hstep
    have hrest' : ∀ p ∈ rest, Holdable s' p := fun p hp =>
        (hrest p (List.mem_cons_of_mem _ hp)).extends hext
    exact ih hs' hacc' hrest' (hcompat.2 acc' s' hstep) hfold

theorem holdable_genesis (hs : s.Sound) :
    Holdable (s.putAll [emptyTree, .commit genesisCommit])
    (GitObject.commit (genesisCommit : CommitObj Oid)).oid := by
  have hload := (commitIn_genesis hs).1
  have hempty : (s.putAll [emptyTree, .commit genesisCommit]).get (emptyTree : GitObject Oid).oid =
      .ok (.tree []) := by
    obtain ⟨y, hy, hyc⟩ := hs.get_putAll written_genesis.encodable (x := emptyTree) (by simp)
    obtain rfl := canon_eq_nil hyc
    exact hy
  have hlist : listing (s.putAll [emptyTree, .commit genesisCommit]).get 1
      (emptyTree : GitObject Oid).oid = .ok [] := by
    rw [listing, hempty]
    rfl
  refine ⟨∅, filesOf_ok.mpr ⟨_, hload, treeFiles_of_listing hlist⟩, fun p q hp => ?_⟩
  exact absurd Std.ExtTreeMap.getElem?_empty hp

theorem holdable_foldTips (hs : s.Sound) {tips : List Oid} (htips : ∀ p ∈ tips, Holdable s p)
    (hcompat : CompatibleTips s tips) {o : Oid} (h : foldTips tips s = (.ok o, t)) :
    Holdable t o := by
  match tips with
  | [] =>
    rw [foldTips, genesis_run, Prod.mk.injEq, Except.ok.injEq] at h
    obtain ⟨rfl, rfl⟩ := h
    exact holdable_genesis hs
  | [tip] =>
    obtain ⟨m, hm, hfree⟩ := htips tip List.mem_cons_self
    obtain ⟨d, hd, hdm⟩ := filesOf_ok.mp hm
    obtain ⟨objs, c, hf, ho, ht⟩ := refold_ok (show refold [tip] s = _ from h)
    obtain ⟨-, hload⟩ := hs.load_foldObjects hf
    obtain ⟨-, ⟨tip', htip, -, htree⟩ | ⟨acc, tk, m', htip, -⟩⟩ := foldObjects_commit hf
    · obtain rfl := List.singleton_inj.mp htip
      rw [commitTree, hd, ok_bind] at htree
      rw [pure_ok.mp htree] at hdm
      have hext : s.Extends t := ht ▸ s.extends_putAll _
      refine ⟨m, filesOf_ok.mpr ⟨c, ?_, hext.carries.treeFiles (fun _ => Tidy.flat) trivial hdm⟩,
        hfree⟩
      rw [ho, ht]
      exact hload
    · cases htip
  | acc :: tk :: rest =>
    exact (htips acc List.mem_cons_self).foldlM hs
      (fun p hp => htips p (List.mem_cons_of_mem _ hp)) hcompat h

/-- Trees that a file system can hold merge into one exactly if ours adds nothing that meets
what theirs adds or changes. So if each merge of a fold is of that kind, a file system can
hold the `main` that it computes from primitives whose trees it can hold. -/
theorem merged_main_materializable :
    (∀ base ours theirs : FileMap, PrefixFree base → PrefixFree ours → PrefixFree theirs →
      (PrefixFree (mergeTrees base ours theirs) ↔ Compatible base ours theirs)) ∧
    ∀ (s t : Store Oid) (known tips : List Oid) (main : Oid), s.Sound →
    (∀ o ∈ known, Holdable s o) →
      frontier s known = .ok tips → CompatibleTips s tips → computeMain known s = (.ok main, t) →
      Holdable t main := by
  refine ⟨fun base ours theirs _ ho ht => mergeTrees_prefixFree_iff ho ht, ?_⟩
  intro s t known tips main hs hknown htips hcompat h
  rw [computeMain_run htips] at h
  exact holdable_foldTips hs (fun p hp => hknown p (mem_of_mem_frontier htips hp).1) hcompat h

end Fold
end Csp

/-! ### A file and a directory -/

namespace Csp.Small

def notes : FileMap := (∅ : FileMap).insert "notes".toList [49]
def todo : FileMap := (∅ : FileMap).insert "notes/todo".toList [50]
def plans : FileMap := (∅ : FileMap).insert "plans".toList [50]

def treeOf (files : FileMap) : GitObject Digest :=
  ((writeTreeFromFiles files : List (GitObject Digest) × Digest).1.getLast?).getD emptyTree

def twoPrims (f g : FileMap) : List (GitObject Digest) :=
  [.commit (onGenesis (treeOf f) 1), .commit (onGenesis (treeOf g) 2)]

def twoStore (f g : FileMap) : Store Digest :=
  (Store.empty .mem).putAll ([emptyTree, .commit genesisCommit] ++ (writeTreeFromFiles f).1 ++
      (writeTreeFromFiles g).1 ++
    twoPrims f g)

def twoKnown (f g : FileMap) : List Digest := (twoPrims f g).map GitObject.oid

theorem encodable_writeTree {f : FileMap} (hf : ∀ p ∈ f.keys, Framable p) {x : GitObject Digest}
    (hx : x ∈ (writeTreeFromFiles f).1) : x.Encodable := encodable_of_mem_buildTree hf hx

theorem sound_twoStore {f g : FileMap} (hf : ∀ p ∈ f.keys, Framable p)
    (hg : ∀ p ∈ g.keys, Framable p) (hprims : ∀ x ∈ twoPrims f g, x.Encodable) :
    (twoStore f g).Sound := by
  refine (Store.sound_empty _).putAll fun x hx => ?_
  simp only [List.mem_append, or_assoc] at hx
  rcases hx with hx | hx | hx | hx
  · exact written_genesis.encodable x hx
  · exact encodable_writeTree hf hx
  · exact encodable_writeTree hg hx
  · exact hprims x hx

def mainFiles (s : Store Digest) (known : List Digest) : CspResult FileMap :=
  match computeMain known s with
  | (.ok main, t) => filesOf t main
  | (.error e, _) => .error e

def holdable (s : Store Digest) (o : Digest) : Bool :=
  match filesOf s o with
  | .ok m => decide (PrefixFree m)
  | .error _ => false

theorem holdable_of_check {s : Store Digest} {o : Digest} (h : holdable s o = true) :
    Holdable s o := by
  unfold holdable at h
  split at h
  · rename_i m hm
    exact ⟨m, hm, of_decide_eq_true h⟩
  · cases h

def compatibleAt (s : Store Digest) (acc tk : Digest) : Bool :=
  match mergeBase s acc tk, filesOf s acc, filesOf s tk with
  | .ok base, .ok o, .ok t => match filesOf s base with
    | .ok b => decide (Compatible b o t)
    | .error _ => true
  | _, _, _ => true

theorem compatibleAt_of_check {s : Store Digest} {acc tk : Digest}
    (h : compatibleAt s acc tk = true) :
    CompatibleAt s acc tk := by
  intro base b o t hbase hb ho ht
  rw [compatibleAt, hbase, ho, ht] at h
  dsimp only at h
  rw [hb] at h
  exact of_decide_eq_true h

/-- Two files side by side. -/
theorem merged_main_materializable_plans :
    PrefixFree (mergeTrees ∅ notes plans) ∧
      ∃ main t, computeMain (twoKnown notes plans) (twoStore notes plans) = (.ok main, t) ∧
      Holdable t main := by
  have hfacts : (Compatible ∅ notes plans ∧ PrefixFree ∅ ∧ PrefixFree notes ∧ PrefixFree plans) ∧
      ((∀ p ∈ notes.keys, Framable p) ∧ (∀ p ∈ plans.keys, Framable p) ∧ ∀ x ∈ twoPrims notes plans,
        x.Encodable) ∧
      (∀ o ∈ twoKnown notes plans, holdable (twoStore notes plans) o = true) ∧
      frontier (twoStore notes plans) (twoKnown notes plans) = .ok (twoKnown notes plans) ∧
      (∀ o ∈ twoKnown notes plans, ∀ o' ∈ twoKnown notes plans,
        compatibleAt (twoStore notes plans) o o' = true) ∧
      (computeMain (twoKnown notes plans) (twoStore notes plans)).1.isOk = true := by
    decide +kernel
  obtain ⟨⟨hcompat, hbase, hours, htheirs⟩, ⟨hf, hg, hprims⟩, hhold, htips, hsides, hok⟩ := hfacts
  obtain ⟨hmerge, hmain⟩ := @merged_main_materializable Digest _ _ _ _
  refine ⟨(hmerge ∅ notes plans hbase hours htheirs).mpr hcompat, ?_⟩
  rcases h : computeMain (twoKnown notes plans) (twoStore notes plans) with ⟨_ | main, t⟩
  · rw [h] at hok
    cases hok
  · have htwo : CompatibleTips (twoStore notes plans) (twoKnown notes plans) :=
      ⟨compatibleAt_of_check (hsides _ List.mem_cons_self _
        (List.mem_cons_of_mem _ List.mem_cons_self)), fun _ _ _ => trivial⟩
    exact ⟨main, t, rfl, hmain _ t _ _ main (sound_twoStore hf hg hprims)
      (fun o ho => holdable_of_check (hhold o ho))
      htips htwo h⟩

/-- A file and a directory under one name: the merge keeps both, and so does `main`. -/
theorem merged_main_unmaterializable :
    (PrefixFree ∅ ∧ PrefixFree notes ∧ PrefixFree todo ∧ ¬ PrefixFree (mergeTrees ∅ notes todo)) ∧
      (∀ o ∈ twoKnown notes todo, holdable (twoStore notes todo) o = true) ∧
      (mainFiles (twoStore notes todo) (twoKnown notes todo)).toOption.any
      (fun m => decide (¬ PrefixFree m)) = true := by
  decide +kernel

end Csp.Small
