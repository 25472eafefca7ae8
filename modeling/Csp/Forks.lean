import Csp.Edits
import Csp.Materializable
import Csp.MergeBase

/-! Branches off one commit. Each merge of their fold has that commit for its base, so a path of
`main` follows from what the commit and the branches have there, taken in the order of the tips. -/

namespace Csp
open Result

/-! ### One path -/

section Choice
variable [Crates]

/-- The values of one path on some branches, merged one after the other against the base's. -/
def mergeAll (b : Option Bytes) (l : List (Option Bytes)) : Option Bytes :=
  l.foldl (mergeChoice b) b

def lastChanged (b : Option Bytes) (l : List (Option Bytes)) : Option Bytes :=
  (l.filter (· ≠ b)).getLast?.getD b

theorem mergeChoice_base_left (b t : Option Bytes) : mergeChoice b b t = t := by
  unfold mergeChoice
  by_cases h : b = t
  · rw [if_pos h, h]
  · rw [if_neg h, if_pos rfl]

theorem mergeChoice_base_right (b o : Option Bytes) : mergeChoice b o b = o := by
  unfold mergeChoice
  by_cases h : o = b
  · rw [if_pos h]
  · rw [if_neg h, if_neg h, if_pos rfl]

theorem mergeChoice_self (b o : Option Bytes) : mergeChoice b o o = o := if_pos rfl

theorem mergeChoice_of_binary {b o t : Option Bytes} (hb : b.all isBinary = true) (ht : t ≠ b) :
    mergeChoice b o t = t := by
  unfold mergeChoice
  split_ifs with h₁ h₂
  · exact h₁
  · rfl
  · cases b with
    | none => rfl
    | some bb =>
      cases o <;> cases t <;> try rfl
      rename_i oo tt
      have hbin : isBinary bb = true := hb
      simp only [mergeBlob, hbin, Bool.true_or, if_true]

theorem foldl_mergeChoice_agree {b v acc : Option Bytes} {l : List (Option Bytes)}
    (hacc : acc = b ∨ acc = v) (hl : ∀ x ∈ l, x = b ∨ x = v) (hsome : acc = v ∨ v ∈ l) :
    l.foldl (mergeChoice b) acc = v := by
  induction l generalizing acc with
  | nil => exact hsome.resolve_right List.not_mem_nil
  | cons x l ih =>
    rw [List.forall_mem_cons] at hl
    rw [List.foldl_cons]
    -- the base's value gives way to the other, whichever side has it
    rcases hl.1 with rfl | rfl
    · rw [mergeChoice_base_right]
      refine ih hacc hl.2 ?_
      rcases hsome with h | h
      · exact .inl h
      · rcases List.mem_cons.mp h with rfl | h
        · exact .inl (hacc.elim id id)
        · exact .inr h
    · have hstep : mergeChoice b acc x = x := by
        rcases hacc with rfl | rfl
        · exact mergeChoice_base_left _ x
        · exact mergeChoice_self b _
      rw [hstep]
      exact ih (.inr rfl) hl.2 (.inl rfl)

theorem mergeAll_agree {b v : Option Bytes} {l : List (Option Bytes)} (hl : ∀ x ∈ l, x = b ∨ x = v)
    (hv : v ∈ l) :
    mergeAll b l = v := foldl_mergeChoice_agree (.inl rfl) hl (.inr hv)

theorem mergeAll_of_binary {b : Option Bytes} (hb : b.all isBinary = true)
    (l : List (Option Bytes)) :
    mergeAll b l = lastChanged b l := by
  unfold mergeAll lastChanged
  induction l using List.reverseRecOn with
  | nil => rfl
  | append_singleton l x ih =>
    rw [List.foldl_append, List.foldl_cons, List.foldl_nil, ih, List.filter_append]
    by_cases hx : x = b
    · rw [hx, mergeChoice_base_right]
      simp
    · rw [mergeChoice_of_binary hb hx]
      simp [hx]

end Choice

/-! ### The fold -/

section Fold
variable {Oid : Type} [ObjectId Oid] {s t : Store Oid} {m : Oid}

/-- The commits are all above the given one, and two of them share what it descends from, no
more. -/
structure Forks (s : Store Oid) (m : Oid) (tips : List Oid) : Prop where
  above : ∀ p ∈ tips, Above s p m
  apart : tips.Pairwise fun p q => ∀ o, Descends s p o → Descends s q o → Descends s m o

theorem mergeBase_of_meet {a b : Oid} (ha : HistoryIn s a) (hb : HistoryIn s b)
    (hmeet : ∀ o, Common s a b o ↔ Descends s m o) : mergeBase s a b = .ok m := by
  obtain ⟨ham, hbm⟩ := (hmeet m).mpr .refl
  obtain ⟨m', hm'⟩ := mergeBase_total ha hb ham hbm
  obtain ⟨⟨hcommon, hbest⟩, -⟩ := mergeBase_isLeast ha hm'
  rcases Relation.reflTransGen_iff_eq_or_transGen.mp ((hmeet m').mp hcommon) with rfl | habove
  · exact hm'
  · exact absurd habove (hbest m ⟨ham, hbm⟩)

variable [Crates] [LawfulObjectId Oid] [LawfulCrates]

theorem foldStep_files (hs : s.Sound) {acc tk o : Oid} (hacc : CommitIn s acc) (htk : CommitIn s tk)
    {b f g : FileMap} (hbase : mergeBase s acc tk = .ok m) (hb : filesOf s m = .ok b)
    (hf : filesOf s acc = .ok f) (hg : filesOf s tk = .ok g) (h : foldStep acc tk s = (.ok o, t)) :
    t.Sound ∧ s.Extends t ∧ CommitIn t o ∧ parentsOf t o = [acc, tk] ∧
      filesOf t o = .ok (storedFiles (mergeTrees b f g)) := by
  obtain ⟨objs, c, hobjs, rfl, rfl⟩ := refold_ok (show refold [acc, tk] s = _ from h)
  have hpair : ∀ p ∈ [acc, tk], CommitIn s p := by simpa using ⟨hacc, htk⟩
  obtain ⟨hsound, hload, hin⟩ := hs.foldObjects hpair hobjs
  obtain ⟨⟨tree, time, -, rfl⟩, ⟨tip, htip, -⟩ | ⟨acc', tk', merged, heq, hm, rfl, hroot⟩⟩ :=
    foldObjects_commit hobjs
  · cases htip
  · obtain ⟨rfl, rfl⟩ : acc = acc' ∧ tk = tk' := by simpa using heq
    obtain rfl : mergeTrees b f g = merged :=
      Except.ok.inj ((mergedFiles_ok.mpr ⟨m, b, f, g, hbase, hb, hf, hg, rfl⟩).symm.trans hm)
    refine ⟨hsound, s.extends_putAll _, hin, parentsOf_of_load hload, filesOf_ok.mpr ⟨_, hload, ?_⟩⟩
    rw [hroot]
    refine (treeFiles_writeTree hs (framable_mergedFiles hs hm) ?_).2
    rw [Store.putAll_append]
    exact Store.extends_putAll _ _

/-- The fold from one branch over others that share nothing with it or with each other but what is
at or below `m`. -/
theorem foldlM_files {rest : List Oid} {acc o : Oid} {b g : FileMap} {f : Oid → FileMap}
    (hs : s.Sound) (hacc : CommitIn s acc) (hrest : ∀ p ∈ rest, CommitIn s p) (hm : CommitIn s m)
    (haccm : Descends s acc m) (habove : ∀ p ∈ rest, Above s p m)
    (hmeet : ∀ p ∈ rest, ∀ x, Descends s acc x → Descends s p x → Descends s m x)
    (hapart : rest.Pairwise fun p q => ∀ x, Descends s p x → Descends s q x → Descends s m x)
    (hb : filesOf s m = .ok b) (hg : filesOf s acc = .ok g)
    (hf : ∀ p ∈ rest, filesOf s p = .ok (f p)) (h : rest.foldlM foldStep acc s = (.ok o, t)) :
    ∃ files, filesOf t o = .ok files ∧
      ∀ p : Path, Storable p → files[p]? = (rest.map fun q => (f q)[p]?).foldl
      (mergeChoice b[p]?) g[p]? := by
  induction rest generalizing s acc g with
  | nil =>
    obtain ⟨rfl, rfl⟩ : acc = o ∧ s = t := by simpa using h
    exact ⟨g, hg, fun p _ => rfl⟩
  | cons tk rest ih =>
    rw [List.foldlM_cons] at h
    obtain ⟨acc', u, hstep, hfold⟩ := run_bind_ok.mp h
    rw [List.forall_mem_cons] at hrest habove hmeet hf
    rw [List.pairwise_cons] at hapart
    have hcommon : ∀ x, Common s acc tk x ↔ Descends s m x := fun x =>
      ⟨fun hx => hmeet.1 x hx.1 hx.2, fun hx => ⟨haccm.trans hx, habove.1.to_reflTransGen.trans hx⟩⟩
    have hbase := mergeBase_of_meet hacc.history hrest.1.history hcommon
    obtain ⟨hu, hext, hacc', hparents, hfiles⟩ :=
      foldStep_files hs hacc hrest.1 hbase hb hg hf.1 hstep
    have hdown : ∀ x, Descends u acc' x → x = acc' ∨ Descends s acc x ∨ Descends s tk x := by
      intro x hx
      rcases Relation.ReflTransGen.cases_head hx with rfl | ⟨p, hp, hpx⟩
      · exact .inl rfl
      · rw [hparents] at hp
        rcases List.mem_pair.mp hp with rfl | rfl
        · exact .inr (.inl (Descends.of_extends hext hacc hpx))
        · exact .inr (.inr (Descends.of_extends hext hrest.1 hpx))
    -- no branch left is above the merge: it would be above both sides, which are above `m`
    have hnew : ∀ p ∈ rest, ∀ x, Descends u acc' x → Descends u p x → Descends u m x := by
      intro p hp x hx hpx
      have hpx : Descends s p x := hpx.of_extends hext (hrest.2 p hp)
      rcases hdown x hx with rfl | hx | hx
      · have htk : Descends s p tk := (Descends.of_extends hext (hrest.2 p hp)
          ((hpx.extends hext).tail (by rw [hparents]; exact List.mem_cons_of_mem _ List.mem_cons_self)))
        exact absurd (habove.1.trans_left (hapart.1 p hp tk .refl htk)) hrest.1.history.acyclic
      · exact (hmeet.2 p hp x hx hpx).extends hext
      · exact (hapart.1 p hp x hx hpx).extends hext
    have hstill : rest.Pairwise fun p q => ∀ x, Descends u p x → Descends u q x →
        Descends u m x := by
      refine hapart.2.imp_of_mem fun {p q} hp hq hpq x hpx hqx => ?_
      have hpx : Descends s p x := Descends.of_extends hext (hrest.2 p hp) hpx
      have hqx : Descends s q x := Descends.of_extends hext (hrest.2 q hq) hqx
      exact (hpq x hpx hqx).extends hext
    have hdesc : Descends u acc' m :=
      .head (by rw [hparents]; exact List.mem_cons_self) (haccm.extends hext)
    obtain ⟨files, hfiles', hat⟩ := ih hu hacc' (fun p hp => (hrest.2 p hp).extends hext)
      (hm.extends hext) hdesc
      (fun p hp => (habove.2 p hp).extends hext) hnew hstill (filesOf_extends hb hext) hfiles
      (fun p hp => filesOf_extends (hf.2 p hp) hext) hfold
    refine ⟨files, hfiles', fun p hp => ?_⟩
    have hmerged : (storedFiles (mergeTrees b g (f tk)))[p]? = mergeChoice b[p]? g[p]?
        (f tk)[p]? := by
      apply Option.ext
      intro c
      rw [getElem?_storedFiles, getElem?_mergeTrees, and_iff_right hp]
    rw [hat p hp, hmerged]
    rfl

theorem foldTips_files (hs : s.Sound) {tips : List Oid} (hne : tips ≠ [])
    (hin : ∀ p ∈ tips, CommitIn s p) (hforks : Forks s m tips) {b : FileMap} {f : Oid → FileMap}
    (hb : filesOf s m = .ok b) (hf : ∀ p ∈ tips, filesOf s p = .ok (f p)) {o : Oid}
    (h : foldTips tips s = (.ok o, t)) :
    ∃ files, filesOf t o = .ok files ∧
      ∀ p : Path, Storable p → files[p]? = mergeAll b[p]? (tips.map fun q => (f q)[p]?) := by
  match tips with
  | [] => exact absurd rfl hne
  | [tip] =>
    obtain ⟨d, hd, hfiles⟩ := filesOf_ok.mp (hf tip List.mem_cons_self)
    obtain ⟨objs, c, hobjs, rfl, rfl⟩ := refold_ok (show refold [tip] s = _ from h)
    obtain ⟨-, hload⟩ := hs.load_foldObjects hobjs
    obtain ⟨-, ⟨tip', htip, -, htree⟩ | ⟨_, _, _, htip, -⟩⟩ := foldObjects_commit hobjs
    · obtain rfl := List.singleton_inj.mp htip
      rw [commitTree, hd, ok_bind] at htree
      rw [pure_ok.mp htree] at hfiles
      refine ⟨f tip, filesOf_ok.mpr ⟨c, hload, ?_⟩, fun p _ => (mergeChoice_base_left _ _).symm⟩
      exact (s.extends_putAll _).carries.treeFiles (fun _ => Tidy.flat) trivial hfiles
    · cases htip
  | acc :: tk :: rest =>
    have hapart := List.pairwise_cons.mp hforks.apart
    rw [List.forall_mem_cons] at hin hf
    have habove := List.forall_mem_cons.mp hforks.above
    obtain ⟨files, hfiles, hat⟩ := foldlM_files hs hin.1 hin.2
      (hin.1.ancestor habove.1.to_reflTransGen)
      habove.1.to_reflTransGen habove.2 hapart.1 hapart.2 hb hf.1 hf.2 h
    refine ⟨files, hfiles, fun p hp => ?_⟩
    rw [hat p hp]
    show _ = List.foldl _ (mergeChoice b[p]? b[p]? (f acc)[p]?) _
    rw [mergeChoice_base_left]

end Fold

/-! ### Devices apart -/

section Strand
variable {Oid : Type} [ObjectId Oid] [Crates] {s t : Store Oid} {node node' : NodeId} {m o : Oid}

/-- The primitives of one node that stand on the commit: the first on it, each other one on a
synthetic commit over the one before. -/
inductive Strand (s : Store Oid) (node : NodeId) (m : Oid) : Oid → Prop
  | first {o : Oid} {c : CommitObj Oid} {counter : Nat} (load : loadCommit s o = .ok c)
      (meta_eq : parsePrimitiveMeta c = some (counter, node)) (parents : c.parents = [m]) :
      Strand s node m o
  | next {o w q : Oid} {c d : CommitObj Oid} {counter : Nat} (below : Strand s node m q)
    (load_wrapper : loadCommit s w = .ok d)
      (synthetic : isPrimitive d = false) (wraps : d.parents = [q]) (load : loadCommit s o = .ok c)
      (meta_eq : parsePrimitiveMeta c = some (counter, node)) (parents : c.parents = [w]) :
      Strand s node m o

theorem Strand.above (h : Strand s node m o) : Above s o m := by
  induction h with
  | first hc _ hp => exact .single (by rw [parentsOf_of_load hc, hp]; exact List.mem_singleton.mpr rfl)
  | @next o w q c d _ _ hd _ hq hc _ hp ih =>
    have hw : w ∈ parentsOf s o := by
      rw [parentsOf_of_load hc, hp]
      exact List.mem_singleton.mpr rfl
    have hq : q ∈ parentsOf s w := by
      rw [parentsOf_of_load hd, hq]
      exact List.mem_singleton.mpr rfl
    exact .head hw (.head hq ih)

theorem Strand.load (h : Strand s node m o) :
    ∃ c counter, loadCommit s o = .ok c ∧ parsePrimitiveMeta c = some (counter, node) := by
  cases h with
  | first hc hmeta _ => exact ⟨_, _, hc, hmeta⟩
  | next _ _ _ _ hc hmeta _ => exact ⟨_, _, hc, hmeta⟩

def Wraps (s : Store Oid) (node : NodeId) (m x : Oid) : Prop :=
  ∃ d q, loadCommit s x = .ok d ∧ isPrimitive d = false ∧ d.parents = [q] ∧ Strand s node m q

theorem Strand.descends (h : Strand s node m o) {x : Oid} (hx : Descends s o x) :
    Strand s node m x ∨ Wraps s node m x ∨ Descends s m x := by
  induction h with
  | first hc hmeta hp =>
    rcases Relation.ReflTransGen.cases_head hx with rfl | ⟨p, hpo, hpx⟩
    · exact .inl (.first hc hmeta hp)
    · rw [parentsOf_of_load hc, hp] at hpo
      obtain rfl := List.mem_singleton.mp hpo
      exact .inr (.inr hpx)
  | @next o w q c d counter hq hd hsyn hwraps hc hmeta hp ih =>
    rcases Relation.ReflTransGen.cases_head hx with rfl | ⟨p, hpo, hpx⟩
    · exact .inl (.next hq hd hsyn hwraps hc hmeta hp)
    rw [parentsOf_of_load hc, hp] at hpo
    obtain rfl := List.mem_singleton.mp hpo
    rcases Relation.ReflTransGen.cases_head hpx with rfl | ⟨q', hqw, hqx⟩
    · exact .inr (.inl ⟨d, q, hd, hsyn, hwraps, hq⟩)
    · rw [parentsOf_of_load hd, hwraps] at hqw
      obtain rfl := List.mem_singleton.mp hqw
      exact ih hqx

theorem Strand.node_eq (h : Strand s node m o) (h' : Strand s node' m o) : node = node' := by
  obtain ⟨c, counter, hc, hmeta⟩ := h.load
  obtain ⟨c', counter', hc', hmeta'⟩ := h'.load
  obtain rfl := Except.ok.inj (hc.symm.trans hc')
  exact (Prod.mk.inj (Option.some.inj (hmeta.symm.trans hmeta'))).2

theorem Strand.not_wraps (h : Strand s node m o) : ¬ Wraps s node' m o := by
  rintro ⟨d, q, hd, hsyn, -⟩
  obtain ⟨c, counter, hc, hmeta⟩ := h.load
  obtain rfl := Except.ok.inj (hc.symm.trans hd)
  rw [isPrimitive, hmeta] at hsyn
  cases hsyn

theorem Strand.apart {o' x : Oid} (h : Strand s node m o) (h' : Strand s node' m o')
    (hne : node ≠ node') (hx : Descends s o x) (hx' : Descends s o' x) : Descends s m x := by
  rcases h.descends hx with hown | hwrap | hm
  · rcases h'.descends hx' with hown' | hwrap' | hm
    · exact absurd (hown.node_eq hown') hne
    · exact absurd hwrap' hown.not_wraps
    · exact hm
  · rcases h'.descends hx' with hown' | ⟨d', q', hd', -, hq', hstrand'⟩ | hm
    · exact absurd hwrap hown'.not_wraps
    · obtain ⟨d, q, hd, -, hq, hstrand⟩ := hwrap
      obtain rfl := Except.ok.inj (hd.symm.trans hd')
      obtain rfl := List.singleton_inj.mp (hq.symm.trans hq')
      exact absurd (hstrand.node_eq hstrand') hne
    · exact hm
  · exact hm

theorem Strand.extends (h : Strand s node m o) (he : s.Extends t) : Strand t node m o := by
  induction h with
  | first hc hmeta hp => exact .first (loadCommit_extends he hc) hmeta hp
  | next _ hd hsyn hq hc hmeta hp ih =>
    exact .next ih (loadCommit_extends he hd) hsyn hq (loadCommit_extends he hc) hmeta hp

theorem Strand.sound [LawfulObjectId Oid] (h : Strand s node m o) (hs : s.Sound) (ht : t.Sound)
    (hin : CommitIn t o) :
    Strand t node m o := by
  induction h with
  | first hc hmeta hp =>
    obtain ⟨c', hc', -⟩ := hin.load
    obtain rfl := load_eq_of_sound hs ht hc hc'
    exact .first hc' hmeta hp
  | next _ hd hsyn hq hc hmeta hp ih =>
    obtain ⟨c', hc', -, hparents⟩ := hin.load
    obtain rfl := load_eq_of_sound hs ht hc hc'
    obtain ⟨d', hd', -, hparents'⟩ :=
      (hparents _ (by rw [hp]; exact List.mem_singleton.mpr rfl)).load
    obtain rfl := load_eq_of_sound hs ht hd hd'
    exact .next (ih (hparents' _ (by rw [hq]; exact List.mem_singleton.mpr rfl))) hd' hsyn hq
      hc' hmeta hp

end Strand

section Devices
variable {Oid : Type} [ObjectId Oid] [Crates] {m : Oid} {node : NodeId}

/-- The engine of a node that has taken nothing in since its `main` was `m` and has authored, last
`o`. -/
inductive Offline (m : Oid) (node : NodeId) : MemEngine Oid → Oid → Prop
  | save {e e' : MemEngine Oid} {now : Nat} {o : Oid} (honest : Honest e) (main : e.main = some m)
      (signer : e.identity.nodeId = node) (names : ∀ p ∈ e.working.keys, Framable p)
      (clock : now < 2 ^ 64)
      (run : MemEngine.commitStaged now e = (.ok (some o), e')) : Offline m node e' o
  | again {e e' : MemEngine Oid} {now : Nat} {o o' : Oid} (before : Offline m node e o)
      (signer : e.identity.nodeId = node) (names : ∀ p ∈ e.working.keys, Framable p)
      (clock : now < 2 ^ 64)
      (run : MemEngine.commitStaged now e = (.ok (some o'), e')) : Offline m node e' o'
  | quiet {e e' : MemEngine Oid} {o : Oid} (before : Offline m node e o) (same : Quiet e e') :
    Offline m node e' o

/-- What an engine has that worked alone: its last primitive is all its frontier, and `main` wraps
it. -/
structure Ahead (m : Oid) (node : NodeId) (e : MemEngine Oid) (o : Oid) : Prop where
  honest : Honest e
  strand : Strand e.store node m o
  known : o ∈ e.state.known
  effective : Effective e.store o
  main : ∃ w c time, e.main = some w ∧ loadCommit e.store o = .ok c ∧
    loadCommit e.store w = .ok (foldCommit c.tree [o] time foldMsg)

theorem Ahead.quiet {e e' : MemEngine Oid} {o : Oid} (h : Ahead m node e o) (hq : Quiet e e') :
    Ahead m node e' o := by
  obtain ⟨hhonest, hstrand, hknown, heff, hmain⟩ := h
  rw [← hq.store] at hstrand heff hmain
  rw [← hq.main] at hmain
  rw [← hq.known] at hknown
  exact ⟨hhonest.quiet hq, hstrand, hknown, heff, hmain⟩

variable [LawfulObjectId Oid] [LawfulCrates]

theorem ahead_of_commit {e e' : MemEngine Oid} {m' o : Oid} {now : Nat} (h : Honest e)
    (hm : e.main = some m') (hnames : ∀ p ∈ e.working.keys, Framable p) (hnow : now < 2 ^ 64)
    (hstrand : ∀ c counter, loadCommit e'.store o = .ok c →
      parsePrimitiveMeta c = some (counter, e.identity.nodeId) → c.parents = [m'] →
      e.store.Extends e'.store →
        Strand e'.store node m o)
    (hrun : MemEngine.commitStaged now e = (.ok (some o), e')) : Ahead m node e' o := by
  obtain ⟨r, e₂, hrun', hpub⟩ := h.commitStaged hnames hnow
  obtain ⟨-, rfl⟩ := Prod.mk.inj (hrun'.symm.trans hrun)
  obtain ⟨-, -, hauthored⟩ := h.linear.commitStaged hnames hnow hrun
  obtain ⟨m₁, mc, l, e₁, hm₁, -, -, rfl, -, -, rfl, hlines⟩ := hauthored o rfl
  obtain rfl := Option.some.inj (hm.symm.trans hm₁)
  obtain ⟨w, hw, hload⟩ := hlines.wrapper
  have hfrontier := List.mem_singleton.mpr (rfl :
      (GitObject.commit (authored e.identity e.state m' l now)).oid = _)
  have hin : ∀ q ∈ e₂.state.known, CommitIn e₂.store q := fun q => hpub.honest.history.commitIn
  obtain ⟨⟨hknown, heff⟩, -⟩ :=
    (mem_frontier hin hpub.honest.history.primitive hlines.frontier _).mp hfrontier
  refine ⟨hpub.honest, ?_, hknown, heff, w, _, now, hw, hlines.held.load, hload⟩
  exact hstrand _ _ hlines.held.load (parsePrimitiveMeta_signed _ _ _ (counter_lt _) _ _ _)
    rfl hpub.ext

theorem Offline.ahead {e : MemEngine Oid} {o : Oid} (h : Offline m node e o) :
    Ahead m node e o := by
  induction h with
  | save hhonest hm hid hnames hnow hrun =>
    subst hid
    exact ahead_of_commit hhonest hm hnames hnow (fun c counter hc hmeta hp _ =>
        .first hc hmeta hp) hrun
  | @again e e' now o o' _ hid hnames hnow hrun ih =>
    subst hid
    obtain ⟨w, c, time, hw, -, hload⟩ := ih.main
    refine ahead_of_commit ih.honest hw hnames hnow (fun c counter hc hmeta hp hext => ?_) hrun
    exact .next (ih.strand.extends hext) (loadCommit_extends hext hload)
      (isPrimitive_foldCommit _ _ _) rfl hc hmeta hp
  | quiet _ hq ih => exact ih.quiet hq

/-- A device apart: its engine, its node, its last primitive and the files that it shows. -/
structure Device (Oid : Type) [ObjectId Oid] where
  engine : MemEngine Oid
  node : NodeId
  tip : Oid
  files : FileMap

/-- The device left at `m`. -/
structure Device.Left (d : Device Oid) (m : Oid) : Prop where
  offline : Offline m d.node d.engine d.tip
  wants : d.engine.Wants d.files

omit [Crates] [LawfulCrates] in
theorem filesOf_tidy {s t : Store Oid} (hs : s.Tidy) (ht : t.Tidy) {o : Oid} (hin : CommitIn s o)
    (hin' : CommitIn t o) {f : FileMap} (hf : filesOf s o = .ok f) : filesOf t o = .ok f := by
  obtain ⟨c, hc, hfiles⟩ := filesOf_ok.mp hf
  have hcar := carries_tidy hs ht (fun p (hp : p ∈ [o]) => List.mem_singleton.mp hp ▸ hin)
    fun p hp => List.mem_singleton.mp hp ▸ hin'
  obtain ⟨hc', htree, -⟩ := hcar.loadCommit (below_self (List.mem_singleton.mpr rfl)) hc
  exact filesOf_ok.mpr ⟨c, hc', hcar.treeFiles (fun _ => Tidy.flat) htree hfiles⟩

theorem Device.Left.filesOf {d : Device Oid} (h : d.Left m) :
    Csp.filesOf d.engine.store d.tip = .ok d.files := by
  obtain ⟨w, c, time, hw, hc, hload⟩ := h.offline.ahead.main
  obtain ⟨w', tree, hw', htree, hfiles⟩ := h.wants
  obtain rfl := Option.some.inj (hw.symm.trans hw')
  obtain ⟨d', hd', rfl⟩ := MemEngine.mainTree_ok.mp htree
  obtain rfl := Except.ok.inj (hload.symm.trans hd')
  exact filesOf_ok.mpr ⟨c, hc, hfiles⟩

/-- An honest engine that knows the last primitives of devices which left at `m`, and nothing that
is not below them or `m`, has them for its frontier. -/
theorem frontier_devices {r : MemEngine Oid} (hr : Honest r) {devices : List (Device Oid)}
    (hne : devices ≠ []) (hleft : ∀ d ∈ devices, d.Left m) (hnodes : (devices.map (·.node)).Nodup)
    (hhas : ∀ d ∈ devices, d.tip ∈ r.state.known)
    (honly : ∀ o ∈ r.state.known, Descends r.store m o ∨ ∃ d ∈ devices, Descends r.store d.tip o) :
    ∃ order : List (Device Oid), order.Perm devices ∧ r.frontierTips = .ok (order.map (·.tip)) ∧
    Forks r.store m (order.map (·.tip)) ∧
      ∀ d ∈ order, CommitIn r.store d.tip ∧ filesOf r.store d.tip = .ok d.files := by
  have hin : ∀ o ∈ r.state.known, CommitIn r.store o := fun o => hr.history.commitIn
  have hstrand : ∀ d ∈ devices, Strand r.store d.node m d.tip := by
    intro d hd
    have hahead := (hleft d hd).offline.ahead
    exact hahead.strand.sound hahead.honest.history.store.sound hr.history.store.sound
      (hin _ (hhas d hd))
  have heff : ∀ d ∈ devices, Effective r.store d.tip := by
    intro d hd
    have hahead := (hleft d hd).offline.ahead
    exact (effective_tidy hahead.honest.history.store hr.history.store
        (hahead.honest.history.commitIn hahead.known)
      (hin _ (hhas d hd))).mpr hahead.effective
  have hacyclic : ∀ d ∈ devices, ¬ Descends r.store m d.tip := fun d hd hdown =>
    (hin _ (hhas d hd)).history.acyclic ((hstrand d hd).above.trans_left hdown)
  have happart : ∀ d ∈ devices, ∀ d' ∈ devices, d.node ≠ d'.node → ∀ x, Descends r.store d.tip x →
      Descends r.store d'.tip x → Descends r.store m x := fun d hd d' hd' hne x =>
    (hstrand d hd).apart (hstrand d' hd') hne
  have hnode : ∀ d ∈ devices, ∀ d' ∈ devices, d.node = d'.node → d = d' := fun d hd d' hd' =>
    List.inj_on_of_nodup_map hnodes hd hd'
  have hf := frontier_eq hin
  have hmem := mem_frontier hin hr.history.primitive hf
  have htips : ∀ o, o ∈ (viewOf r.store).frontier r.state.known ↔ o ∈ devices.map (·.tip) := by
    intro o
    rw [hmem, List.mem_map]
    constructor
    · rintro ⟨⟨hknown, -⟩, hmax⟩
      rcases honly o hknown with hdown | ⟨d, hd, hdown⟩
      · obtain ⟨d, hd⟩ := List.exists_mem_of_ne_nil _ hne
        exact absurd ((hstrand d hd).above.trans_left hdown) (hmax _ (hhas d hd) (heff d hd))
      · rcases Relation.reflTransGen_iff_eq_or_transGen.mp hdown with rfl | habove
        · exact ⟨d, hd, rfl⟩
        · exact absurd habove (hmax _ (hhas d hd) (heff d hd))
    · rintro ⟨d, hd, rfl⟩
      refine ⟨⟨hhas d hd, heff d hd⟩, fun q hq _ habove => ?_⟩
      -- whatever is above the tip of one device is below no other, nor below `m`
      rcases honly q hq with hdown | ⟨d', hd', hdown⟩
      · exact hacyclic d hd (hdown.trans habove.to_reflTransGen)
      · by_cases hsame : d.node = d'.node
        · obtain rfl := hnode d hd d' hd' hsame
          exact (hin _ (hhas d hd)).history.acyclic (Relation.TransGen.trans_right hdown habove)
        · exact hacyclic d hd (happart d hd d' hd' hsame _ .refl
              (hdown.trans habove.to_reflTransGen))
  have htipsne : devices.Pairwise fun d d' => d.tip ≠ d'.tip := by
    refine (List.pairwise_map.mp hnodes).imp_of_mem fun {d d'} hd hd' hne htip => hacyclic d hd ?_
    exact happart d hd d' hd' hne _ .refl (htip ▸ .refl)
  have hperm : ((viewOf r.store).frontier r.state.known).Perm (devices.map (·.tip)) :=
    (List.perm_ext_iff_of_nodup (nodup_frontier hr.history.nodup hin hf)
      (List.pairwise_map.mpr htipsne)).mpr htips
  have hmatch : List.Forall₂ (fun o (d : Device Oid) => o = d.tip) (devices.map (·.tip)) devices :=
    List.forall₂_map_left_iff.mpr (List.forall₂_same.mpr fun _ _ => rfl)
  obtain ⟨order, hforall, horder⟩ := List.perm_comp_forall₂ hperm hmatch
  have heq : (viewOf r.store).frontier r.state.known = order.map (·.tip) := by
    have hequal : List.Forall₂ (· = ·) ((viewOf r.store).frontier r.state.known)
        (order.map (·.tip)) :=
      List.forall₂_map_right_iff.mpr hforall
    rwa [List.forall₂_eq_eq_eq] at hequal
  refine ⟨order, horder, ?_, ⟨?_, ?_⟩, ?_⟩
  · rw [← heq]
    exact hf
  · intro p hp
    obtain ⟨d, hd, rfl⟩ := List.mem_map.mp hp
    exact (hstrand d (horder.mem_iff.mp hd)).above
  · rw [List.pairwise_map]
    have hpair : (order.map (·.node)).Nodup := (horder.map _).nodup_iff.mpr hnodes
    exact (List.pairwise_map.mp hpair).imp_of_mem fun hd hd' hne =>
      happart _ (horder.mem_iff.mp hd) _ (horder.mem_iff.mp hd') hne
  · intro d hd
    have hd := horder.mem_iff.mp hd
    have hhonest := (hleft d hd).offline.ahead.honest
    have hknown := (hleft d hd).offline.ahead.known
    exact ⟨hin _ (hhas d hd), filesOf_tidy hhonest.history.store hr.history.store
      (hhonest.history.commitIn hknown)
      (hin _ (hhas d hd)) (hleft d hd).filesOf⟩

/-- Devices that saved any number of times since they shared `main`, and then met: path by path,
`main` is the merge of what each of them shows against what they shared, in the order of the
frontier. If all who changed the path agree, their bytes stay, whatever the order; if it had no
text, the last change does. -/
theorem offline_edits_merge {r : MemEngine Oid} (hr : Honest r) {devices : List (Device Oid)}
    (hne : devices ≠ []) (hleft : ∀ d ∈ devices, d.Left m) (hnodes : (devices.map (·.node)).Nodup)
    (hhas : ∀ d ∈ devices, d.tip ∈ r.state.known)
    (honly : ∀ o ∈ r.state.known, Descends r.store m o ∨ ∃ d ∈ devices, Descends r.store d.tip o) :
    ∃ (order : List (Device Oid)) (base files : FileMap), order.Perm devices ∧
      r.frontierTips = .ok (order.map (·.tip)) ∧ filesOf r.store m = .ok base ∧ r.Wants files ∧
      ∀ p : Path, Storable p →
        files[p]? = mergeAll base[p]? (order.map fun d => d.files[p]?) ∧
        (∀ v, (∀ d ∈ devices, d.files[p]? = base[p]? ∨ d.files[p]? = v) →
          (∃ d ∈ devices, d.files[p]? = v) →
          files[p]? = v) ∧
        (base[p]?.all isBinary = true → files[p]? = lastChanged base[p]?
          (order.map fun d => d.files[p]?)) := by
  obtain ⟨order, horder, hfrontier, hforks, hheld⟩ :=
    frontier_devices hr hne hleft hnodes hhas honly
  have hne' : order ≠ [] := fun h => hne (List.nil_perm.mp (h ▸ horder))
  have hin : ∀ p ∈ order.map (·.tip), CommitIn r.store p := by
    intro p hp
    obtain ⟨d, hd, rfl⟩ := List.mem_map.mp hp
    exact (hheld d hd).1
  have hm : CommitIn r.store m := by
    obtain ⟨d, hd⟩ := List.exists_mem_of_ne_nil _ hne'
    exact (hheld d hd).1.ancestor (hforks.above _ (List.mem_map_of_mem hd)).to_reflTransGen
  obtain ⟨mc, hmc, hmtree, -⟩ := hm.load
  obtain ⟨base, hbase⟩ := hmtree.treeFiles
  have hbase : filesOf r.store m = .ok base := filesOf_ok.mpr ⟨mc, hmc, hbase⟩
  -- `main` is what the tips fold to, and the store has it already
  obtain ⟨main, hmain, hrun, hgen, -⟩ := hr.main
  obtain ⟨f, hf, hfold⟩ := computeMain_ok.mp (Prod.ext hrun rfl)
  obtain rfl := Except.ok.inj (hfrontier.symm.trans hf)
  obtain ⟨files, hfiles, hat⟩ := foldTips_files hr.history.store.sound
    (by simpa using hne') hin hforks hbase
    (f := fun o => (filesOf r.store o).toOption.getD ∅) (fun p hp => by
      obtain ⟨d, hd, rfl⟩ := List.mem_map.mp hp
      rw [(hheld d hd).2]
      rfl) hfold
  obtain ⟨c, hc, htree, -⟩ := hgen.commitIn.load
  obtain ⟨shown, hshown⟩ := htree.treeFiles
  have hsame := filesOf_extends (filesOf_ok.mpr ⟨c, hc, hshown⟩)
    (extends_computeMain r.state.known r.store)
  obtain rfl := Except.ok.inj (hsame.symm.trans hfiles)
  refine ⟨order, base, shown, horder, hfrontier, hbase,
    ⟨main, c.tree, hmain, MemEngine.mainTree_ok.mpr ⟨c, hc, rfl⟩, hshown⟩, fun p hp => ?_⟩
  have hvalues : (order.map (·.tip)).map (fun q => ((filesOf r.store q).toOption.getD ∅)[p]?) =
      order.map fun d => d.files[p]? := by
    rw [List.map_map]
    apply List.map_congr_left
    intro d hd
    rw [Function.comp, (hheld d hd).2]
    rfl
  have hmerged : shown[p]? = mergeAll base[p]? (order.map fun d => d.files[p]?) := by
    rw [hat p hp, hvalues]
  refine ⟨hmerged, fun v hv hsome => ?_, fun hbin => ?_⟩
  · rw [hmerged]
    refine mergeAll_agree (fun x hx => ?_) ?_
    · obtain ⟨d, hd, rfl⟩ := List.mem_map.mp hx
      exact hv d (horder.mem_iff.mp hd)
    · obtain ⟨d, hd, hdv⟩ := hsome
      exact List.mem_map.mpr ⟨d, horder.mem_iff.mpr hd, hdv⟩
  · rw [hmerged, mergeAll_of_binary hbin]

end Devices

namespace Small
open MemEngine

def draftedToo : MemEngine Shadow :=
  { (create sender [] [] : MemEngine Shadow) with working := nested }

theorem draftedToo_spec : owner.nodeId ≠ sender.nodeId ∧
    (commitStaged 0 draftedToo).1.toOption.join.isSome = true := by
  decide +kernel

theorem left_of_commit {e : MemEngine Shadow} {m : Shadow} (h : Honest e) (hk : e.state.known = [])
    (hm : e.main = some m) (hnames : ∀ p ∈ e.working.keys, Framable p)
    (hsome : (commitStaged 0 e).1.toOption.join.isSome = true) :
    ∃ d : Device Shadow, d.Left m ∧ d.node = e.identity.nodeId ∧ Honest d.engine ∧
      ∀ q, q ∈ d.engine.state.known ↔ q = d.tip := by
  obtain ⟨r, e', hrun, hpub⟩ := h.commitStaged hnames (show 0 < 2 ^ 64 by decide)
  rw [hrun] at hsome
  obtain ⟨o, rfl⟩ := Option.isSome_iff_exists.mp (show r.isSome = true from hsome)
  obtain ⟨want, hwant⟩ := wants_of_linear hpub.honest.linear
  refine ⟨⟨e', e.identity.nodeId, o, want⟩, ⟨.save h hm rfl hnames (by decide) hrun, hwant⟩, rfl,
    hpub.honest, ?_⟩
  intro q
  rw [hpub.known, hk]
  exact mem_addNew.trans (or_iff_right List.not_mem_nil)

/-- Two devices that saved alone, and one of them was given what the other has. -/
theorem offline_edits_merge_pair : ∃ (r : MemEngine Shadow) (d d' : Device Shadow) (order :
      List (Device Shadow))
    (base files : FileMap), d.node ≠ d'.node ∧ order.Perm [d, d'] ∧ r.Wants files ∧
      ∀ p : Path, Storable p → files[p]? = mergeAll base[p]? (order.map fun d => d.files[p]?) := by
  obtain ⟨hnode, hsome'⟩ := draftedToo_spec
  obtain ⟨o, e, hrun⟩ := committed_drafted
  have hsome : (commitStaged 0 drafted).1.toOption.join.isSome = true := by
    rw [hrun]
    rfl
  have honest : Honest drafted := (honest_create owner [] [] : Honest fresh).quiet quiet_drafted
  have honest' : Honest draftedToo := (honest_create sender [] []).quiet (quiet_stage _ nested)
  obtain ⟨d, hleft, hd, hde, hknown⟩ := left_of_commit honest rfl rfl framable_nested hsome
  obtain ⟨d', hleft', hd', hde', hknown'⟩ := left_of_commit honest' rfl rfl framable_nested hsome'
  obtain ⟨raws, -, hgathered, haccepted⟩ :=
    hde'.exportClosure fun o (ho : o ∈ d'.engine.state.known) => ho
  obtain ⟨n, r, -, htook⟩ := hde.integrate_gathered hgathered
  have hmem : ∀ q, q ∈ r.state.known ↔ q = d.tip ∨ q = d'.tip := by
    intro q
    rw [htook.known, mem_foldl_addNew, hknown, haccepted]
    refine or_congr_right ⟨?_, ?_⟩
    · rintro ⟨hprim, k, hk, hdown⟩
      exact (hknown' q).mp (hde'.history.covered k hk q hdown hprim)
    · rintro rfl
      have hin := (hknown' d'.tip).mpr rfl
      exact ⟨hde'.history.primitive _ hin, _, hin, .refl⟩
  have hne : d.node ≠ d'.node := by
    rw [hd, hd']
    exact hnode
  have hnodes : ([d, d'].map (·.node)).Nodup := by simpa using hne
  obtain ⟨order, base, files, horder, -, -, hwants, hat⟩ := offline_edits_merge htook.honest
    (List.cons_ne_nil d [d'])
    (by simpa using ⟨hleft, hleft'⟩) hnodes (by simp [hmem]) (fun q hq => .inr (by
      rcases (hmem q).mp hq with rfl | rfl
      · exact ⟨d, List.mem_cons_self, .refl⟩
      · exact ⟨d', List.mem_cons_of_mem _ List.mem_cons_self, .refl⟩))
  exact ⟨r, d, d', order, base, files, hne, horder, hwants, fun p hp => (hat p hp).1⟩

end Small

end Csp
