import Csp.Integrate
import Csp.Materializable
import Csp.MergeBase

/-! What a fold reads. Besides the ancestry of its tips and the times of its commits, it reads
the files of the tips and of the merge bases. Two stores that hold one history fold it alike
if, and only if, what they read there merges to the same trees. -/

namespace Csp
open Result
variable {Oid : Type} [ObjectId Oid] {s s' t u : Store Oid} {pre tips : List Oid} {o tk acc : Oid}

/-! ### The bases of a fold -/

def Reaches (s : Store Oid) (pre : List Oid) (x : Oid) : Prop := ∃ p ∈ pre, Descends s p x

/-- The commits at or below some of the given ones and at or below another one, no such
commit being above them. -/
def bestBelow (s : Store Oid) (pre : List Oid) (tk : Oid) : Set Oid :=
  {m | (Reaches s pre m ∧ Descends s tk m) ∧ ∀ q, Reaches s pre q ∧ Descends s tk q → ¬ Above s q m}

theorem bestBelow_congr (hpre : ∀ p ∈ pre, ∀ x, Descends s p x → SameParents s s' x)
    (htk : ∀ x, Descends s tk x → SameParents s s' x) :
    bestBelow s' pre tk = bestBelow s pre tk := by
  have hboth : ∀ q, (Reaches s' pre q ∧ Descends s' tk q) ↔ Reaches s pre q ∧
      Descends s tk q := fun q =>
    and_congr (exists_congr fun p => and_congr_right fun hp => Descends.congr (hpre p hp))
    (Descends.congr htk)
  ext m
  refine and_congr (hboth m) (forall_congr' fun q => ?_)
  rw [hboth]
  exact imp_congr_right fun hq => not_congr (Above.congr fun x hx => htk x (hq.2.trans hx))

theorem HistoryIn.sameParents_extends (h : HistoryIn s o) (he : s.Extends t) {x : Oid}
    (hx : Descends s o x) :
    SameParents s t x := by
  obtain ⟨c, hc, -⟩ := (h.ancestor hx).load
  exact ⟨c, c, hc, loadCommit_extends he hc, rfl⟩

theorem HistoryIn.extends (h : HistoryIn s o) (he : s.Extends t) : HistoryIn t o :=
  h.congr fun _ => h.sameParents_extends he

theorem historyIn_of_ancestors [LawfulObjectId Oid] (hs : s.Sound) (hs' : s'.Sound) {l : List Oid}
    (h : ancestors s o = .ok l) (h' : HistoryIn s' o) : HistoryIn s o := by
  have hload : ∀ x, Descends s o x → ∃ c, loadCommit s x = .ok c := by
    intro x hx
    rcases (mem_ancestors_iff h).mpr hx with rfl | hx
    · obtain ⟨c, hc, -⟩ := ancestors_ok.mp h
      exact ⟨c, hc⟩
    · exact load_of_mem_ancestors h hx
  suffices ∀ x, HistoryIn s' x → Descends s o x → HistoryIn s x from this o h' .refl
  intro x hx
  induction hx with
  | mk hc _ ih =>
    intro hx
    obtain ⟨d, hd⟩ := hload _ hx
    obtain rfl := load_eq_of_sound hs hs' hd hc
    exact .mk hd fun p hp => ih p hp (hx.tail (parentsOf_of_load hd ▸ hp))

theorem apart_extends (h : HistoryIn s tk) (he : s.Extends t) (hap : ∀ p ∈ pre, ¬ Above s tk p) :
    HistoryIn t tk ∧ ∀ p ∈ pre, ¬ Above t tk p :=
  ⟨h.extends he, fun p hp habove => hap p hp ((Above.congr fun _ =>
      h.sameParents_extends he).mp habove)⟩

section Alike
variable [LawfulObjectId Oid]

theorem HistoryIn.load_alike (hs : s.Sound) (hs' : s'.Sound) (h' : HistoryIn s' o)
    {c : CommitObj Oid} (hc : loadCommit s o = .ok c) : loadCommit s' o = .ok c := by
  obtain ⟨d, hd, -⟩ := h'.load
  rwa [← load_eq_of_sound hs hs' hc hd]

theorem HistoryIn.sameParents (hs : s.Sound) (hs' : s'.Sound) (h : HistoryIn s o)
    (h' : HistoryIn s' o) {x : Oid} (hx : Descends s o x) : SameParents s s' x := by
  suffices HistoryIn s' x by
    obtain ⟨c, hc, -⟩ := (h.ancestor hx).load
    exact ⟨c, c, hc, this.load_alike hs hs' hc, rfl⟩
  induction hx with
  | refl => exact h'
  | tail hb hstep ih =>
    obtain ⟨c, hc, -⟩ := (h.ancestor hb).load
    obtain ⟨d, hd, hparents⟩ := ih.load
    obtain rfl := load_eq_of_sound hs hs' hc hd
    exact hparents _ (parentsOf_of_load hc ▸ hstep)

theorem mergeBase_alike (hs : s.Sound) (hs' : s'.Sound) (ha : HistoryIn s acc) (hk : HistoryIn s tk)
    (ha' : HistoryIn s' acc) (hk' : HistoryIn s' tk) {m : Oid} (h : mergeBase s acc tk = .ok m) :
    mergeBase s' acc tk = .ok m := by
  have hsa : ∀ x, Descends s acc x → SameParents s s' x := fun _ => ha.sameParents hs hs' ha'
  have hsk : ∀ x, Descends s tk x → SameParents s s' x := fun _ => hk.sameParents hs hs' hk'
  obtain ⟨hma, hmk⟩ := mergeBase_above h
  obtain ⟨m', hm'⟩ := mergeBase_total ha' hk' ((Descends.congr hsa).mpr hma)
    ((Descends.congr hsk).mpr hmk)
  have hleast := mergeBase_isLeast ha' hm'
  rw [bestCommon_congr hsa hsk] at hleast
  rw [hm', hleast.unique (mergeBase_isLeast ha h)]

theorem maxCommitterTime_alike (hs : s.Sound) (hs' : s'.Sound)
    (hin' : ∀ p ∈ tips, HistoryIn s' p) {n : Nat} (h : maxCommitterTime s tips = .ok n) :
    maxCommitterTime s' tips = .ok n := by
  refine foldlM_ok_transfer h fun p hp b b' hb => ?_
  obtain ⟨c, hc, hb⟩ := bind_ok.mp hb
  exact bind_ok.mpr ⟨c, (hin' p hp).load_alike hs hs' hc, hb⟩

end Alike

theorem CommitIn.filesOf (h : CommitIn s o) : ∃ m, Csp.filesOf s o = .ok m := by
  obtain ⟨c, hc, htree, -⟩ := h.load
  obtain ⟨m, hm⟩ := htree.treeFiles
  exact ⟨m, filesOf_ok.mpr ⟨c, hc, hm⟩⟩

/-! ### What the tips merge to -/

section Merging
variable [Crates] {files files' : FileMap} {root root' : Oid}

/-- The files that the tips come to, merged from the left, and the tree written for them. -/
inductive Merged (s : Store Oid) : List Oid → FileMap → Oid → Prop
  | tip {o tree : Oid} {files : FileMap} (htree : commitTree s o = .ok tree)
    (hfiles : filesOf s o = .ok files) :
      Merged s [o] files tree
  | merge {pre : List Oid} {tk root m : Oid} {base ours theirs : FileMap}
    (h : Merged s pre ours root)
      (hm : IsLeast (bestBelow s pre tk) m) (hbase : filesOf s m = .ok base)
      (htheirs : filesOf s tk = .ok theirs) :
      Merged s (pre ++ [tk]) (storedFiles (mergeTrees base ours theirs))
        (writeTreeFromFiles (mergeTrees base ours theirs)).2

theorem Merged.ne_nil (h : Merged s pre files root) : pre ≠ [] := by
  cases h with
  | tip => exact List.cons_ne_nil _ _
  | merge => exact List.append_ne_nil_of_right_ne_nil _ (List.cons_ne_nil _ _)

theorem Merged.of_tip (h : Merged s [o] files root) : commitTree s o = .ok root ∧
    filesOf s o = .ok files := by
  generalize hl : [o] = l at h
  cases h with
  | tip htree hfiles =>
    obtain rfl := (List.cons.inj hl).1
    exact ⟨htree, hfiles⟩
  | @merge pre tk _ _ _ _ _ h =>
    have hnil : [] = pre := (List.append_inj' (show [] ++ [o] = pre ++ [tk] from hl) rfl).1
    exact absurd hnil.symm h.ne_nil

theorem Merged.of_merge (h : Merged s (pre ++ [tk]) files root) (hne : pre ≠ []) :
    ∃ ours r m base theirs, Merged s pre ours r ∧ IsLeast (bestBelow s pre tk) m ∧
    filesOf s m = .ok base ∧
      filesOf s tk = .ok theirs ∧ files = storedFiles (mergeTrees base ours theirs) ∧
      root = (writeTreeFromFiles (mergeTrees base ours theirs)).2 := by
  generalize hl : pre ++ [tk] = l at h
  cases h with
  | @tip o =>
    have hnil : pre = [] := (List.append_inj' (show pre ++ [tk] = [] ++ [o] from hl) rfl).1
    exact absurd hnil hne
  | merge h hm hbase htheirs =>
    obtain ⟨rfl, htk⟩ := List.append_inj' hl rfl
    obtain rfl := (List.cons.inj htk).1
    exact ⟨_, _, _, _, _, h, hm, hbase, htheirs, rfl, rfl⟩

theorem Merged.unique (h : Merged s pre files root) (h' : Merged s pre files' root') :
    files' = files ∧ root' = root := by
  induction h generalizing files' root' with
  | tip htree hfiles =>
    obtain ⟨htree', hfiles'⟩ := h'.of_tip
    exact ⟨Except.ok.inj (hfiles'.symm.trans hfiles), Except.ok.inj (htree'.symm.trans htree)⟩
  | merge h hm hbase htheirs ih =>
    obtain ⟨ours, r, m, base, theirs, hours, hm', hbase', htheirs', rfl, rfl⟩ :=
      h'.of_merge h.ne_nil
    obtain rfl := hm'.unique hm
    obtain rfl := Except.ok.inj (hbase'.symm.trans hbase)
    obtain rfl := Except.ok.inj (htheirs'.symm.trans htheirs)
    obtain ⟨rfl, -⟩ := ih hours
    exact ⟨rfl, rfl⟩

theorem Merged.exists_iff (h : Merged s pre files root) (h' : Merged s' pre files' root) (r : Oid) :
    (∃ files, Merged s pre files r) ↔ ∃ files, Merged s' pre files r := by
  constructor
  · rintro ⟨_, hr⟩
    exact ⟨files', (h.unique hr).2 ▸ h'⟩
  · rintro ⟨_, hr⟩
    exact ⟨files, (h'.unique hr).2 ▸ h⟩

/-- The tips, and the merge bases of their fold, read as the same files in both stores. -/
def ReadsAlike (s s' : Store Oid) (tips : List Oid) : Prop :=
  (∀ p ∈ tips, filesOf s' p = filesOf s p) ∧
    ∀ pre tk m, pre ++ [tk] <+: tips → IsLeast (bestBelow s pre tk) m → filesOf s' m = filesOf s m

/-- Each merge in the fold of the tips comes to the same tree in both stores. -/
def MergesAlike (s s' : Store Oid) (tips : List Oid) : Prop :=
  ∀ pre, pre <+: tips → 2 ≤ pre.length → ∀ root, (∃ files, Merged s pre files root) ↔ ∃ files,
    Merged s' pre files root

omit [Crates] in
theorem ReadsAlike.shorter (h : ReadsAlike s s' tips) (hpre : pre <+: tips) : ReadsAlike s s' pre :=
  ⟨fun p hp => h.1 p (hpre.subset hp), fun l tk m hl => h.2 l tk m (hl.trans hpre)⟩

theorem MergesAlike.shorter (h : MergesAlike s s' tips) (hpre : pre <+: tips) :
    MergesAlike s s' pre :=
  fun l hl => h l (hl.trans hpre)

theorem mergesAlike_of_short (h : tips.length < 2) : MergesAlike s s' tips :=
  fun _ hpre hlen => absurd (hlen.trans hpre.length_le) (Nat.not_le.mpr h)

theorem Merged.alike (h : Merged s pre files root) (hread : ReadsAlike s s' pre)
    (htree : ∀ p ∈ pre, ∀ r, commitTree s p = .ok r → commitTree s' p = .ok r)
    (hbest : ∀ l tk, l ++ [tk] <+: pre → bestBelow s' l tk = bestBelow s l tk) :
    Merged s' pre files root := by
  induction h with
  | tip ht hfiles =>
    exact .tip (htree _ List.mem_cons_self _ ht) ((hread.1 _ List.mem_cons_self).trans hfiles)
  | @merge pre tk _ m _ _ _ h hm hbase htheirs ih =>
    have hpre : pre <+: pre ++ [tk] := List.prefix_append _ _
    have hours := ih (hread.shorter hpre) (fun p hp => htree p (hpre.subset hp)) fun l tk hl =>
      hbest l tk (hl.trans hpre)
    exact .merge hours ((hbest pre tk (List.prefix_refl _)).symm ▸ hm)
      ((hread.2 pre tk m (List.prefix_refl _) hm).trans hbase)
      ((hread.1 tk (by simp)).trans htheirs)

section Stores
variable [LawfulObjectId Oid]

omit [Crates] in
theorem bestBelow_alike (hs : s.Sound) (hs' : s'.Sound) (hist : ∀ p ∈ tips, HistoryIn s p)
    (hist' : ∀ p ∈ tips, HistoryIn s' p) (htips : pre ++ [tk] <+: tips) :
    bestBelow s' pre tk = bestBelow s pre tk := by
  have hsame : ∀ p ∈ pre ++ [tk], ∀ x, Descends s p x → SameParents s s' x := fun p hp _ =>
    (hist p (htips.subset hp)).sameParents hs hs' (hist' p (htips.subset hp))
  exact bestBelow_congr (fun p hp => hsame p (List.mem_append_left _ hp)) (hsame tk (by simp))

theorem ReadsAlike.merged_iff (h : ReadsAlike s s' tips) (hs : s.Sound) (hs' : s'.Sound)
    (hist : ∀ p ∈ tips, HistoryIn s p) (hist' : ∀ p ∈ tips, HistoryIn s' p) (hpre : pre <+: tips) :
    Merged s pre files root ↔ Merged s' pre files root := by
  have hbest : ∀ l tk, l ++ [tk] <+: tips → bestBelow s' l tk = bestBelow s l tk := fun _ _ =>
    bestBelow_alike hs hs' hist hist'
  have hload : ∀ {s s' : Store Oid}, s.Sound → s'.Sound → (∀ p ∈ tips, HistoryIn s' p) →
      ∀ p ∈ pre, ∀ r,
      commitTree s p = .ok r → commitTree s' p = .ok r := by
    intro s s' hs hs' hist' p hp r hr
    obtain ⟨c, hc, hr⟩ := bind_ok.mp hr
    exact bind_ok.mpr ⟨c, (hist' p (hpre.subset hp)).load_alike hs hs' hc, hr⟩
  refine ⟨fun hm => hm.alike (h.shorter hpre) (hload hs hs' hist') fun l tk hl =>
    hbest l tk (hl.trans hpre),
    fun hm => hm.alike ?_ (hload hs' hs hist) fun l tk hl => (hbest l tk (hl.trans hpre)).symm⟩
  refine ⟨fun p hp => (h.1 p (hpre.subset hp)).symm, fun l tk m hl hm =>
    (h.2 l tk m (hl.trans hpre) ?_).symm⟩
  rwa [← hbest l tk (hl.trans hpre)]

theorem ReadsAlike.merges (h : 2 ≤ tips.length → ReadsAlike s s' tips) (hs : s.Sound)
    (hs' : s'.Sound) (hist : ∀ p ∈ tips, HistoryIn s p) (hist' : ∀ p ∈ tips, HistoryIn s' p) :
    MergesAlike s s' tips :=
  fun _ hpre hlen _ => exists_congr fun _ => (h (hlen.trans hpre.length_le)).merged_iff hs hs'
    hist hist' hpre

omit [Crates] [LawfulObjectId Oid] in
theorem readsAlike_extends (he : s.Extends t) (hin : ∀ p ∈ tips, CommitIn s p) :
    ReadsAlike s t tips := by
  have hfiles : ∀ {p}, CommitIn s p → filesOf t p = filesOf s p := by
    intro p hp
    obtain ⟨m, hm⟩ := hp.filesOf
    rw [hm, filesOf_extends hm he]
  refine ⟨fun p hp => hfiles (hin p hp), fun l tk m hl hm => hfiles ?_⟩
  exact (hin tk (hl.subset (by simp))).ancestor hm.1.1.2

end Stores

/-! ### Along the fold -/

/-- A store holds what the first tips fold to, and it reads as what they merge to. -/
structure Accumulated (s : Store Oid) (pre : List Oid) (acc : Oid) (files : FileMap)
    (root : Oid) : Prop where
  history : HistoryIn s acc
  covers : ∀ p ∈ pre, Descends s acc p
  below : ∀ x, Descends s acc x → Reaches s pre x ∨ ∃ p ∈ pre, Above s x p
  tree : commitTree s acc = .ok root
  reads : filesOf s acc = .ok files
  merged : Merged s pre files root

theorem accumulated_tip (h : HistoryIn s o) (hfiles : filesOf s o = .ok files) :
    ∃ root, Accumulated s [o] o files root := by
  obtain ⟨c, hc, -⟩ := h.load
  have htree : commitTree s o = .ok c.tree := bind_ok.mpr ⟨c, hc, rfl⟩
  refine ⟨c.tree, h, ?_, fun x hx => .inl ⟨o, List.mem_cons_self, hx⟩, htree, hfiles,
    .tip htree hfiles⟩
  exact List.forall_mem_singleton.mpr .refl

theorem Accumulated.isLeast (h : Accumulated s pre acc files root)
    (hap : ∀ p ∈ pre, ¬ Above s tk p) {m : Oid} (hm : mergeBase s acc tk = .ok m) :
    IsLeast (bestBelow s pre tk) m := by
  have hboth : ∀ q, (Reaches s pre q ∧ Descends s tk q) ↔ Common s acc tk q := by
    intro q
    constructor
    · rintro ⟨⟨p, hp, hpq⟩, hq⟩
      exact ⟨(h.covers p hp).trans hpq, hq⟩
    · rintro ⟨hacc, hq⟩
      rcases h.below q hacc with hreach | ⟨p, hp, hqp⟩
      · exact ⟨hreach, hq⟩
      · -- a commit that the fold made lies below no tip
        exact absurd (Relation.TransGen.trans_right hq hqp) (hap p hp)
  have hbest : bestBelow s pre tk = bestCommon s acc tk := by
    ext q
    exact and_congr (hboth q) (forall_congr' fun x => imp_congr_left (hboth x))
  rw [hbest]
  exact mergeBase_isLeast h.history hm

section Step
variable [LawfulObjectId Oid] [LawfulCrates] {objs : List (GitObject Oid)} {c : CommitObj Oid}

theorem treeFiles_of_root (hs : s.Sound) (hf : ∀ p ∈ files.keys, Framable p)
    (hin : TreeIn s (writeTreeFromFiles files : List (GitObject Oid) × Oid).2) :
    treeFiles s (writeTreeFromFiles files : List (GitObject Oid) × Oid).2 = .ok
    (storedFiles files) := by
  obtain ⟨m, hm⟩ := hin.treeFiles
  have hput := (s.extends_putAll (writeTreeFromFiles files).1).carries.treeFiles
    (fun _ => Tidy.flat) trivial hm
  rw [hm, ← (treeFiles_writeTree hs hf (.refl _)).2, hput]

omit [LawfulObjectId Oid] [LawfulCrates] in
theorem foldObjects_pair (h : foldObjects s [acc, tk] = .ok (objs, c)) :
    ∃ m n, mergedFiles s acc tk = .ok m ∧ maxCommitterTime s [acc, tk] = .ok n ∧
      c = foldCommit (writeTreeFromFiles m).2 [acc, tk] n foldMsg ∧
      objs = (writeTreeFromFiles m).1 := by
  obtain ⟨m, hm, h⟩ := bind_ok.mp h
  obtain ⟨n, hn, h⟩ := bind_ok.mp h
  obtain ⟨rfl, rfl⟩ := Prod.mk.inj (pure_ok.mp h)
  exact ⟨m, n, hm, hn, rfl, rfl⟩

omit [LawfulObjectId Oid] [LawfulCrates] in
theorem Accumulated.merge (h : Accumulated s pre acc files root) (hap : ∀ p ∈ pre, ¬ Above s tk p)
    (hf : foldObjects s [acc, tk] = .ok (objs, c)) :
    ∃ m n, mergedFiles s acc tk = .ok m ∧ c = foldCommit (writeTreeFromFiles m).2
    [acc, tk] n foldMsg ∧
      Merged s (pre ++ [tk]) (storedFiles m) c.tree := by
  obtain ⟨m, n, hm, -, rfl, -⟩ := foldObjects_pair hf
  obtain ⟨b, base, ours, theirs, hb, hbase, hours, htheirs, rfl⟩ := mergedFiles_ok.mp hm
  obtain rfl := Except.ok.inj (h.reads.symm.trans hours)
  exact ⟨_, n, hm, rfl, .merge h.merged (h.isLeast hap hb) hbase htheirs⟩

theorem Accumulated.step (h : Accumulated s pre acc files root) (hs : s.Sound) (hk : HistoryIn s tk)
    (hap : ∀ p ∈ pre, ¬ Above s tk p) (hf : foldObjects s [acc, tk] = .ok (objs, c))
    (hload : loadCommit s o = .ok c) (hin : TreeIn s c.tree) :
    ∃ files', Accumulated s (pre ++ [tk]) o files' c.tree := by
  obtain ⟨m, n, hm, rfl, hmerged⟩ := h.merge hap hf
  have hparents : parentsOf s o = [acc, tk] := parentsOf_of_load hload
  have hacc : acc ∈ parentsOf s o := hparents ▸ List.mem_cons_self
  have htk : tk ∈ parentsOf s o := hparents ▸ List.mem_cons_of_mem _ List.mem_cons_self
  refine ⟨storedFiles m, ?_, ?_, ?_, ?_, ?_, hmerged⟩
  · refine .mk hload fun p hp => ?_
    rcases List.mem_pair.mp hp with rfl | rfl
    · exact h.history
    · exact hk
  · intro p hp
    rcases List.mem_append.mp hp with hp | hp
    · exact .head hacc (h.covers p hp)
    · rw [List.mem_singleton.mp hp]
      exact .single htk
  · intro x hx
    rcases Relation.ReflTransGen.cases_head hx with rfl | ⟨p, hp, hx⟩
    · exact .inr ⟨tk, by simp, .single htk⟩
    rcases List.mem_pair.mp (hparents ▸ hp) with rfl | rfl
    · rcases h.below x hx with ⟨q, hq, hqx⟩ | ⟨q, hq, hxq⟩
      · exact .inl ⟨q, List.mem_append_left _ hq, hqx⟩
      · exact .inr ⟨q, List.mem_append_left _ hq, hxq⟩
    · exact .inl ⟨p, by simp, hx⟩
  · exact bind_ok.mpr ⟨_, hload, rfl⟩
  · exact filesOf_ok.mpr ⟨_, hload, treeFiles_of_root hs (framable_mergedFiles hs hm) hin⟩

omit [LawfulObjectId Oid] [LawfulCrates] in
theorem foldObjects_extends (he : s.Extends t) {ps : List Oid}
    {r : List (GitObject Oid) × CommitObj Oid} (h : foldObjects s ps = .ok r) :
    foldObjects t ps = .ok r :=
  he.carries.foldObjects (fun _ => Tidy.flat) (fun _ _ => trivial) h

theorem Store.Sound.foldlM (hs : s.Sound) {rest : List Oid}
    (h : rest.foldlM foldStep acc s = (.ok o, t)) :
    t.Sound ∧ s.Extends t := by
  have hrun := run_foldlM_induction (f := foldStep) (fun s t : Store Oid => s.Sound → t.Sound ∧
      s.Extends t)
    (fun s hs => ⟨hs, .refl s⟩) (fun s t u hst htu hs =>
      ⟨(htu (hst hs).1).1, (hst hs).2.trans (htu (hst hs).1).2⟩)
    (fun a b s hs => ⟨hs.refold [a, b], extends_refold [a, b] s⟩) rest acc s hs
  rwa [h] at hrun

omit [LawfulObjectId Oid] [LawfulCrates] in
theorem foldlM_concat {rest : List Oid} {first : Oid} :
    (rest ++ [tk]).foldlM foldStep first s = (.ok o, t) ↔
      ∃ a u objs c, rest.foldlM foldStep first s = (.ok a, u) ∧
      foldObjects u [a, tk] = .ok (objs, c) ∧
        o = (GitObject.commit c).oid ∧ t = u.putAll (objs ++ [.commit c]) := by
  rw [List.foldlM_append]
  constructor
  · intro h
    obtain ⟨a, u, hrest, hstep⟩ := run_bind_ok.mp h
    have hstep : foldStep a tk u = (.ok o, t) := by simpa using hstep
    obtain ⟨objs, c, hf, ho, ht⟩ := refold_ok (show refold [a, tk] u = (.ok o, t) from hstep)
    exact ⟨a, u, objs, c, hrest, hf, ho, ht⟩
  · rintro ⟨a, u, objs, c, hrest, hf, rfl, rfl⟩
    refine run_bind_ok.mpr ⟨a, u, hrest, ?_⟩
    rw [List.foldlM_cons, run_bind_of_ok ((foldStep_run a tk).trans (by rw [hf]))]
    rfl

theorem holds_foldObjects (hs : s.Sound) (hf : foldObjects s [acc, tk] = .ok (objs, c)) :
    loadCommit (s.putAll (objs ++ [.commit c])) (GitObject.commit c).oid = .ok c ∧
      TreeIn (s.putAll (objs ++ [.commit c])) c.tree := by
  refine ⟨(hs.load_foldObjects hf).2, ?_⟩
  obtain ⟨m, n, hm, -, rfl, rfl⟩ := foldObjects_pair hf
  refine (treeFiles_writeTree hs (framable_mergedFiles hs hm) ?_).1
  rw [Store.putAll_append]
  exact Store.extends_putAll _ _

/-- Run lemma: whatever store comes after the fold of the tips holds what they come to. -/
theorem accumulated_foldlM {w : Store Oid} (hw : w.Sound) (hs : s.Sound) {rest : List Oid}
    {first : Oid} (hist : ∀ p ∈ first :: rest, HistoryIn s p)
    (hap : ∀ p ∈ first :: rest, ∀ q ∈ first :: rest, ¬ Above s p q)
    (hfirst : filesOf w first = .ok files) (h : rest.foldlM foldStep first s = (.ok o, t))
    (he : t.Extends w) :
    ∃ files root, Accumulated w (first :: rest) o files root := by
  induction rest using List.reverseRecOn generalizing o t with
  | nil =>
    obtain ⟨rfl, rfl⟩ : first = o ∧ s = t := by simpa using h
    exact ⟨files, accumulated_tip ((hist first List.mem_cons_self).extends he) hfirst⟩
  | append_singleton rest tk ih =>
    obtain ⟨a, u, objs, c, hrest, hf, rfl, rfl⟩ := foldlM_concat.mp h
    obtain ⟨hu, hsu⟩ := hs.foldlM hrest
    obtain ⟨hload, hin⟩ := holds_foldObjects hu hf
    have huw : u.Extends w := (u.extends_putAll _).trans he
    have hpre : first :: rest ⊆ first :: (rest ++ [tk]) :=
        (List.prefix_append (first :: rest) [tk]).subset
    have htk : tk ∈ first :: (rest ++ [tk]) := by simp
    obtain ⟨files', root', hacc⟩ := ih (fun p hp => hist p (hpre hp))
      (fun p hp q hq => hap p (hpre hp) q (hpre hq))
      hrest huw
    obtain ⟨hkw, hapw⟩ := apart_extends (hist tk htk) (hsu.trans huw) fun p hp =>
      hap tk htk p (hpre hp)
    obtain ⟨files'', hstep⟩ := hacc.step hw hkw hapw (foldObjects_extends huw hf)
      (loadCommit_extends he hload) (hin.extends he)
    exact ⟨files'', c.tree, hstep⟩

omit [LawfulCrates] in
theorem foldObjects_alike (hs : s.Sound) (hs' : s'.Sound) (ha : HistoryIn s acc)
    (hk : HistoryIn s tk) (ha' : CommitIn s' acc) (hk' : CommitIn s' tk)
    (hf : foldObjects s [acc, tk] = .ok (objs, c)) :
    ∃ objs' c', foldObjects s' [acc, tk] = .ok (objs', c') ∧ (c'.tree = c.tree → c' = c) := by
  obtain ⟨m, n, hm, hn, rfl, -⟩ := foldObjects_pair hf
  obtain ⟨b, -, -, -, hb, -⟩ := mergedFiles_ok.mp hm
  have hb' := mergeBase_alike hs hs' ha hk ha'.history hk'.history hb
  obtain ⟨base, hbase⟩ := (ha'.ancestor (mergeBase_above hb').1).filesOf
  obtain ⟨ours, hours⟩ := ha'.filesOf
  obtain ⟨theirs, htheirs⟩ := hk'.filesOf
  have hm' : mergedFiles s' acc tk = .ok (mergeTrees base ours theirs) :=
    mergedFiles_ok.mpr ⟨b, base, ours, theirs, hb', hbase, hours, htheirs, rfl⟩
  have hboth : ∀ p ∈ [acc, tk], HistoryIn s' p := by
    intro p hp
    rcases List.mem_pair.mp hp with rfl | rfl
    · exact ha'.history
    · exact hk'.history
  refine ⟨_, foldCommit _ [acc, tk] n foldMsg,
    bind_ok.mpr ⟨_, hm', bind_ok.mpr ⟨n, maxCommitterTime_alike hs hs' hboth hn, rfl⟩⟩,
    fun htree => ?_⟩
  exact congrArg (fun tree => foldCommit tree [acc, tk] n foldMsg) htree

omit [LawfulCrates] in
theorem held_of_foldObjects (hs : s.Sound) (hs' : s'.Sound) {ps : List Oid}
    (hf : foldObjects s ps = .ok (objs, c)) (hin : CommitIn s' (GitObject.commit c).oid) :
    loadCommit s' (GitObject.commit c).oid = .ok c ∧ TreeIn s' c.tree ∧ ∀ p ∈ ps,
    CommitIn s' p := by
  obtain ⟨c', hload, htree, hparents⟩ := hin.load
  have henc : (GitObject.commit c).Encodable :=
    (written_foldObjects hs hf).encodable _ (List.mem_append_right _ List.mem_cons_self)
  obtain rfl := eq_of_oid hs' henc hload
  obtain ⟨⟨tree, n, -, hc⟩, -⟩ := foldObjects_commit hf
  exact ⟨hload, htree, fun p hp => hparents p (hc ▸ hp)⟩

omit [LawfulCrates] in
/-- Step lemma: two stores make one commit of an accumulated fold and the next tip exactly if
the merges come out alike. -/
theorem foldObjects_alike_iff (hs : s.Sound) (hs' : s'.Sound) (h : Accumulated s pre acc files root)
    (h' : Accumulated s' pre acc files' root') (hk : HistoryIn s tk) (ha' : CommitIn s' acc)
    (hk' : CommitIn s' tk) (hap : ∀ p ∈ pre, ¬ Above s tk p)
    (hf : foldObjects s [acc, tk] = .ok (objs, c)) :
    ∃ objs' c', foldObjects s' [acc, tk] = .ok (objs', c') ∧ (c' = c ↔
      ∀ r, (∃ f, Merged s (pre ++ [tk]) f r) ↔ ∃ f, Merged s' (pre ++ [tk]) f r) := by
  obtain ⟨objs', c', hf', hcc⟩ := foldObjects_alike hs hs' h.history hk ha' hk' hf
  have hap' : ∀ p ∈ pre, ¬ Above s' tk p := fun p hp habove =>
    hap p hp ((Above.congr fun _ => hk.sameParents hs hs' hk'.history).mp habove)
  obtain ⟨m, -, -, -, hmerged⟩ := h.merge hap hf
  obtain ⟨m', -, -, -, hmerged'⟩ := h'.merge hap' hf'
  refine ⟨objs', c', hf', ?_, fun hiff => ?_⟩
  · rintro rfl
    exact hmerged.exists_iff hmerged'
  · obtain ⟨_, hm⟩ := (hiff c.tree).mp ⟨_, hmerged⟩
    exact hcc (hmerged'.unique hm).2.symm

/-! ### Two folds of one list -/

omit [LawfulObjectId Oid] [LawfulCrates] in
theorem frontier_tips {known f : List Oid} (h : frontier s known = .ok f) :
    (∀ p ∈ f, ∃ l, ancestors s p = .ok l) ∧ ∀ p ∈ f, ∀ q ∈ f, p ≠ q → ¬ Above s p q := by
  obtain ⟨eff, table, keyed, -, htable, hkeyed, rfl⟩ := frontier_ok h
  have hmem : ∀ p ∈ (keyed.insertionSort (· ≤ ·)).map (·.sha),
      p ∈ eff.filter (isPrimitiveOid s) ∧ dominated table p = false := by
    intro p hp
    have hsort : p ∈ keyed.map (·.sha) := by
      obtain ⟨k, hk, rfl⟩ := List.mem_map.mp hp
      exact List.mem_map_of_mem ((List.mem_insertionSort _).mp hk)
    rw [map_sha_of_mapM hkeyed, List.mem_filter, Bool.not_eq_true'] at hsort
    exact hsort
  refine ⟨fun p hp => ?_, fun p hp q hq hne habove => ?_⟩
  · obtain ⟨aq, -, haq⟩ := mapM_ok_mem htable (hmem p hp).1
    obtain ⟨l, hl, -⟩ := bind_ok.mp haq
    exact ⟨l, hl⟩
  · have hdom := (dominated_iff htable).mpr ⟨p, (hmem p hp).1, hne.symm, habove⟩
    rw [(hmem q hq).2] at hdom
    cases hdom

omit [LawfulObjectId Oid] [LawfulCrates] in
theorem frontier_apart {known f : List Oid} (h : frontier s known = .ok f) (hsub : tips ⊆ f)
    (hist : ∀ p ∈ tips, HistoryIn s p) : ∀ p ∈ tips, ∀ q ∈ tips, ¬ Above s p q := by
  intro p hp q hq habove
  by_cases hpq : p = q
  · subst hpq
    exact (hist p hp).acyclic habove
  · exact (frontier_tips h).2 p (hsub hp) q (hsub hq) hpq habove

omit [LawfulCrates] in
theorem foldObjects_tip_alike (hs : s.Sound) (hs' : s'.Sound) (h' : HistoryIn s' tk)
    (hf : foldObjects s [tk] = .ok (objs, c)) : foldObjects s' [tk] = .ok (objs, c) := by
  obtain ⟨tree, htree, hf⟩ := bind_ok.mp hf
  obtain ⟨n, hn, hf⟩ := bind_ok.mp hf
  obtain ⟨d, hd, htree⟩ := bind_ok.mp htree
  exact bind_ok.mpr ⟨tree, bind_ok.mpr ⟨d, h'.load_alike hs hs' hd, htree⟩,
    bind_ok.mpr ⟨n, maxCommitterTime_alike hs hs' (List.forall_mem_singleton.mpr h') hn, hf⟩⟩

end Step

end Merging

end Csp

/-! ### The clashing tree in one order -/

namespace Csp.Small

end Csp.Small
