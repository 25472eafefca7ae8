import Csp.GhostFacts

/-! Complete closures. On the history of a commit that a store holds in full, every walk
of the fold ends with a result, except that two commits may have no common ancestor. -/

namespace Csp
open Result
variable {Oid : Type} [ObjectId Oid] [Crates] {s s' : Store Oid} {R : Oid → Prop}
  {Q : List (TreeEntry Oid) → Prop}

/-- The store holds the tree: its files are blobs, its directories trees it holds too. -/
inductive TreeIn (s : Store Oid) : Oid → Prop
  | mk {t : Oid} {es : List (TreeEntry Oid)} (ht : s.get t = .ok (.tree es))
      (hdir : ∀ e ∈ es, e.mode = treeMode → TreeIn s e.oid)
      (hfile : ∀ e ∈ es, e.mode ≠ treeMode → ∃ b, s.get e.oid = .ok (.blob b)) : TreeIn s t

/-- The store holds the commit, its tree, and all its ancestors with theirs. -/
inductive CommitIn (s : Store Oid) : Oid → Prop
  | mk {o : Oid} {c : CommitObj Oid} (hc : loadCommit s o = .ok c) (htree : TreeIn s c.tree)
      (hparents : ∀ p ∈ c.parents, CommitIn s p) : CommitIn s o

/-- The store holds the commit and all its ancestors. -/
inductive HistoryIn (s : Store Oid) : Oid → Prop
  | mk {o : Oid} {c : CommitObj Oid} (hc : loadCommit s o = .ok c) (hparents : ∀ p ∈ c.parents,
      HistoryIn s p) :
      HistoryIn s o

def holdsTree (s : Store Oid) : Nat → Oid → Bool
  | 0, _ => false
  | n + 1, t =>
    match s.get t with
    | .ok (.tree es) => es.all fun e =>
      if e.mode = treeMode then holdsTree s n e.oid
      else match s.get e.oid with
        | .ok (.blob _) => true
        | _ => false
    | _ => false

def holdsCommit (s : Store Oid) : Nat → Oid → Bool
  | 0, _ => false
  | n + 1, o =>
    match loadCommit s o with
    | .ok c => holdsTree s (n + 1) c.tree && c.parents.all (holdsCommit s n)
    | .error _ => false

omit [Crates] in
theorem treeIn_of_holdsTree {n : Nat} {t : Oid} (h : holdsTree s n t = true) : TreeIn s t := by
  induction n generalizing t with
  | zero => cases h
  | succ n ih =>
    rw [holdsTree] at h
    split at h
    · rename_i es hes
      rw [List.all_eq_true] at h
      refine .mk hes (fun e he hm => ?_) fun e he hm => ?_
      · have he := h e he
        rw [if_pos hm] at he
        exact ih he
      · have he := h e he
        rw [if_neg hm] at he
        split at he
        · exact ⟨_, by assumption⟩
        · cases he
    · cases h

omit [Crates] in
theorem commitIn_of_holdsCommit {n : Nat} {o : Oid} (h : holdsCommit s n o = true) :
    CommitIn s o := by
  induction n generalizing o with
  | zero => cases h
  | succ n ih =>
    rw [holdsCommit] at h
    split at h
    · rename_i c hc
      rw [Bool.and_eq_true, List.all_eq_true] at h
      exact .mk hc (treeIn_of_holdsTree h.1) fun p hp => ih (h.2 p hp)
    · cases h

omit [Crates] in
theorem grounded_blob {o : Oid} {b : Bytes} (h : s.get o = .ok (.blob b)) : Grounded s o :=
  .mk h (by simp [GitObject.refs])

omit [Crates] in
theorem TreeIn.grounded {t : Oid} (h : TreeIn s t) : Grounded s t := by
  induction h with
  | mk ht _ hfile ih =>
    refine .mk ht fun r hr => ?_
    obtain ⟨e, he, rfl⟩ := List.mem_map.mp hr
    by_cases hm : e.mode = treeMode
    · exact ih e he hm
    · obtain ⟨b, hb⟩ := hfile e he hm
      exact grounded_blob hb

omit [Crates] in
theorem CommitIn.grounded {o : Oid} (h : CommitIn s o) : Grounded s o := by
  induction h with
  | mk hc htree _ ih =>
    refine .mk (loadCommit_ok.mp hc) fun r hr => ?_
    rcases List.mem_cons.mp hr with rfl | hr
    · exact htree.grounded
    · exact ih r hr

omit [Crates] in
theorem TreeIn.extends {t : Oid} (h : TreeIn s t) (he : s.Extends s') : TreeIn s' t := by
  induction h with
  | mk ht _ hfile ih =>
    exact .mk (he.get ht) ih fun e hm hf => (hfile e hm hf).imp fun b hb => he.get hb

omit [Crates] in
theorem loadCommit_extends (he : s.Extends s') {o : Oid} {c : CommitObj Oid}
    (h : loadCommit s o = .ok c) : loadCommit s' o = .ok c :=
  loadCommit_ok.mpr (he.get (loadCommit_ok.mp h))

omit [Crates] in
theorem CommitIn.extends {o : Oid} (h : CommitIn s o) (he : s.Extends s') : CommitIn s' o := by
  induction h with
  | mk hc htree _ ih => exact .mk (loadCommit_extends he hc) (htree.extends he) ih

omit [Crates] in
theorem Carries.treeIn (h : Carries Q R s s') {t : Oid} (hR : R t) (ht : TreeIn s t) :
    TreeIn s' t := by
  induction ht with
  | @mk t es ht _ hfile ih =>
    obtain ⟨y, hy, ha⟩ := h.alike t _ hR ht
    obtain ⟨es', rfl, hp⟩ : ∃ es', y = .tree es' ∧ es.Perm es' := by
      cases ha with
      | same => exact ⟨es, rfl, .refl _⟩
      | tree hp => exact ⟨_, rfl, hp⟩
    have hRe : ∀ e ∈ es, R e.oid := fun e he => h.refs t _ hR ht _ (List.mem_map_of_mem he)
    refine .mk hy (fun e he hm => ?_) fun e he hm => ?_
    · have he := hp.mem_iff.mpr he
      exact ih e he hm (hRe e he)
    · have he := hp.mem_iff.mpr he
      obtain ⟨b, hb⟩ := hfile e he hm
      obtain ⟨y, hy, ha⟩ := h.alike _ _ (hRe e he) hb
      exact ⟨b, ha.blob ▸ hy⟩

omit [Crates] in
theorem Carries.commitIn (h : Carries Q R s s') {o : Oid} (hR : R o) (ho : CommitIn s o) :
    CommitIn s' o := by
  induction ho with
  | mk hc htree _ ih =>
    obtain ⟨hc', hRt, hRp⟩ := h.loadCommit hR hc
    exact .mk hc' (h.treeIn hRt htree) fun p hp => ih p hp (hRp p hp)

omit [Crates] in
theorem CommitIn.load {o : Oid} (h : CommitIn s o) :
    ∃ c, loadCommit s o = .ok c ∧ TreeIn s c.tree ∧ ∀ p ∈ c.parents, CommitIn s p := by
  cases h with
  | mk hc htree hparents => exact ⟨_, hc, htree, hparents⟩

omit [Crates] in
theorem CommitIn.parentsOf {o p : Oid} (h : CommitIn s o) (hp : p ∈ parentsOf s o) :
    CommitIn s p := by
  obtain ⟨c, hc, -, hparents⟩ := h.load
  rw [parentsOf_of_load hc] at hp
  exact hparents p hp

omit [Crates] in
theorem CommitIn.ancestor {o p : Oid} (h : CommitIn s o)
    (hp : Relation.ReflTransGen (fun a b => b ∈ Csp.parentsOf s a) o p) : CommitIn s p := by
  induction hp with
  | refl => exact h
  | tail _ hbc ih => exact ih.parentsOf hbc

omit [Crates] in
theorem CommitIn.history {o : Oid} (h : CommitIn s o) : HistoryIn s o := by
  induction h with
  | mk hc _ _ ih => exact .mk hc ih

omit [Crates] in
theorem HistoryIn.load {o : Oid} (h : HistoryIn s o) :
    ∃ c, loadCommit s o = .ok c ∧ ∀ p ∈ c.parents, HistoryIn s p := by
  cases h with
  | mk hc hparents => exact ⟨_, hc, hparents⟩

omit [Crates] in
theorem HistoryIn.ancestor {o p : Oid} (h : HistoryIn s o)
    (hp : Relation.ReflTransGen (fun a b => b ∈ Csp.parentsOf s a) o p) : HistoryIn s p := by
  induction hp with
  | refl => exact h
  | tail _ hbc ih =>
    obtain ⟨c, hc, hparents⟩ := ih.load
    exact hparents _ (parentsOf_of_load hc ▸ hbc)

omit [Crates] in
theorem HistoryIn.acyclic {o : Oid} (h : HistoryIn s o) :
    ¬ Relation.TransGen (fun a b => b ∈ Csp.parentsOf s a) o o := by
  induction h with
  | mk hc _ ih =>
    intro hcyc
    obtain ⟨p, hop, hpo⟩ := Relation.TransGen.head'_iff.mp hcyc
    rw [parentsOf_of_load hc] at hop
    refine ih p hop (.tail' hpo ?_)
    rwa [parentsOf_of_load hc]

/-! ### Ancestors -/

noncomputable def heldCommits (s : Store Oid) : List Oid :=
  open Classical in s.objs.keys.filter fun o => CommitIn s o

omit [Crates] in
theorem mem_heldCommits {o : Oid} : o ∈ heldCommits s ↔ CommitIn s o := by
  classical
  rw [heldCommits, List.mem_filter, decide_eq_true_eq, and_iff_right_iff_imp]
  intro h
  obtain ⟨x, hx⟩ := h.grounded.get
  exact s.mem_keys_of_get hx

omit [Crates] in
theorem nodup_heldCommits : (heldCommits s).Nodup := by
  classical exact s.nodup_keys.filter _

omit [Crates] in
theorem sum_heldCommits_le : ((heldCommits s).map fun o => (s.refsOf o).length).sum ≤
    s.linkCount := by
  classical
  exact s.sum_refsOf_le nodup_heldCommits fun o ho => (List.mem_filter.mp ho).1

noncomputable def heldHistories (s : Store Oid) : List Oid :=
  open Classical in s.objs.keys.filter fun o => HistoryIn s o

omit [Crates] in
theorem mem_heldHistories {o : Oid} : o ∈ heldHistories s ↔ HistoryIn s o := by
  classical
  rw [heldHistories, List.mem_filter, decide_eq_true_eq, and_iff_right_iff_imp]
  intro h
  obtain ⟨c, hc, -⟩ := h.load
  exact s.mem_keys_of_get (loadCommit_ok.mp hc)

omit [Crates] in
theorem sum_heldHistories_le : ((heldHistories s).map fun o => (s.refsOf o).length).sum ≤
    s.linkCount := by
  classical
  exact s.sum_refsOf_le (s.nodup_keys.filter _) fun o ho => (List.mem_filter.mp ho).1

omit [Crates] in
theorem ancestors_total {o : Oid} (h : HistoryIn s o) : ∃ l, ancestors s o = .ok l := by
  obtain ⟨c, hc, hparents⟩ := h.load
  obtain ⟨⟨l, u⟩, hr⟩ : ∃ r, Worklist.explore (visitParents s) .abort
    (c.parents.length + s.linkCount)
      [] () c.parents.reverse = .ok r := Worklist.explore_complete (heldHistories s)
      (fun o => (s.refsOf o).length)
    (fun acc x hx => by
      obtain ⟨d, hd, hp⟩ := (mem_heldHistories.mp hx).load
      exact ⟨(), d.parents, visitParents_ok.mpr ⟨d, hd, rfl⟩, length_parents_le hd,
        fun y hy => mem_heldHistories.mpr (hp y hy)⟩)
    (fun x hx => mem_heldHistories.mpr (hparents x (List.mem_reverse.mp hx)))
    (by classical exact s.nodup_keys.filter _)
    (by simpa using sum_heldHistories_le)
  exact ⟨l, ancestors_ok.mpr ⟨c, hc, hr⟩⟩

omit [Crates] in
theorem ancestors_spec {o : Oid} {l : List Oid} (h : ancestors s o = .ok l) :
    l.Nodup ∧ ∀ x, x ∈ l ↔ Relation.TransGen (fun a b => b ∈ parentsOf s a) o x := by
  obtain ⟨c, hc, he⟩ := ancestors_ok.mp h
  have hnext : ∀ (acc : Unit) x acc' next, visitParents s acc x = .ok (acc', next) →
      next = parentsOf s x := by
    intro acc x acc' next hv
    obtain ⟨d, hd, hr⟩ := visitParents_ok.mp hv
    rw [parentsOf_of_load hd]
    exact congrArg Prod.snd hr
  obtain ⟨-, hstack, hclosed⟩ := Worklist.explore_closed (parentsOf s) hnext he
  obtain ⟨vis, hvis, hnd, -⟩ := Worklist.explore_transfer (visitParents s) (fun _ => True)
    (fun x => (parentsOf s x).length)
    (fun acc x acc' next _ hv => ⟨hv, by rw [hnext _ _ _ _ hv], fun _ _ => trivial⟩) he (by simp)
  rw [List.append_nil] at hvis
  subst hvis
  refine ⟨hnd, fun x => ⟨fun hx => ?_, fun hx => ?_⟩⟩
  · obtain ⟨-, r, hr, hrx⟩ := hclosed x hx (by simp)
    refine .head' ?_ hrx
    rw [parentsOf_of_load hc]
    exact List.mem_reverse.mp hr
  · induction hx with
    | single hop =>
      rw [parentsOf_of_load hc] at hop
      exact hstack _ (List.mem_reverse.mpr hop)
    | tail _ hbc ih => exact (hclosed _ ih (by simp)).1 _ hbc

omit [Crates] in
theorem mem_ancestors_iff {o x : Oid} {l : List Oid} (h : ancestors s o = .ok l) :
    x = o ∨ x ∈ l ↔ Relation.ReflTransGen (fun a b => b ∈ parentsOf s a) o x := by
  rw [(ancestors_spec h).2, Relation.reflTransGen_iff_eq_or_transGen]

omit [Crates] in
theorem load_of_mem_ancestors {o p : Oid} {l : List Oid} (h : ancestors s o = .ok l) (hp : p ∈ l) :
    ∃ d, loadCommit s p = .ok d := by
  obtain ⟨c, -, he⟩ := ancestors_ok.mp h
  obtain ⟨vis, hvis, -, hmem, -⟩ := Worklist.explore_transfer (visitParents s) (fun _ => True)
    (fun x => (parentsOf s x).length) (fun acc x acc' next _ hv => by
      obtain ⟨d, hd, hr⟩ := visitParents_ok.mp hv
      obtain ⟨-, rfl⟩ := Prod.mk.inj hr
      exact ⟨hv, by rw [parentsOf_of_load hd], fun _ _ => trivial⟩) he (by simp)
  rw [List.append_nil] at hvis
  obtain ⟨-, -, acc, r, hv⟩ := hmem p (hvis ▸ hp)
  obtain ⟨d, hd, -⟩ := visitParents_ok.mp hv
  exact ⟨d, hd⟩

omit [Crates] in
theorem mem_ancestorTable {os : List Oid} {table : List (Oid × List Oid)}
    (h : ancestorTable s os = .ok table) {q : Oid} {aq : List Oid} :
    (q, aq) ∈ table ↔ q ∈ os ∧ ancestors s q = .ok aq := by
  induction os generalizing table with
  | nil =>
    obtain rfl := pure_ok.mp h
    simp
  | cons a os ih =>
    obtain ⟨b, hb, h⟩ := bind_ok.mp ((List.mapM_cons ..).symm.trans h)
    obtain ⟨rest, hrest, h⟩ := bind_ok.mp h
    obtain rfl := pure_ok.mp h
    obtain ⟨l, hl, hb⟩ := bind_ok.mp hb
    obtain rfl := pure_ok.mp hb
    rw [List.mem_cons, List.mem_cons, ih hrest, Prod.mk.injEq]
    constructor
    · rintro (⟨rfl, rfl⟩ | ⟨hq, hl⟩)
      · exact ⟨.inl rfl, hl⟩
      · exact ⟨.inr hq, hl⟩
    · rintro ⟨rfl | hq, hq'⟩
      · exact .inl ⟨rfl, Except.ok.inj (hq'.symm.trans hl)⟩
      · exact .inr ⟨hq, hq'⟩

omit [Crates] in
theorem ancestorTable_total {os : List Oid} (h : ∀ o ∈ os, HistoryIn s o) :
    ∃ table, ancestorTable s os = .ok table :=
  mapM_ok_of_forall fun o ho => by
    obtain ⟨l, hl⟩ := ancestors_total (h o ho)
    exact ⟨(o, l), bind_ok.mpr ⟨l, hl, rfl⟩⟩

omit [Crates] in
theorem dominated_iff {os : List Oid} {table : List (Oid × List Oid)}
    (h : ancestorTable s os = .ok table) {p : Oid} :
    dominated table p = true ↔ ∃ q ∈ os, p ≠ q ∧
    Relation.TransGen (fun a b => b ∈ parentsOf s a) q p := by
  simp only [dominated, List.any_eq_true, Prod.exists, mem_ancestorTable h, Bool.and_eq_true,
    decide_eq_true_eq, List.contains_iff_mem]
  constructor
  · rintro ⟨q, aq, ⟨hq, haq⟩, hne, hp⟩
    exact ⟨q, hq, by simpa using hne, ((ancestors_spec haq).2 p).mp hp⟩
  · rintro ⟨q, hq, hne, hp⟩
    obtain ⟨aq, -, haq⟩ := mapM_ok_mem h hq
    obtain ⟨l, hl, -⟩ := bind_ok.mp haq
    exact ⟨q, l, ⟨hq, hl⟩, by simpa using hne, ((ancestors_spec hl).2 p).mpr hp⟩

omit [Crates] in
theorem exists_not_dominated {os : List Oid} (hne : os ≠ []) (h : ∀ o ∈ os, HistoryIn s o) :
    ∃ o ∈ os, ∀ q ∈ os, ¬ Relation.TransGen (fun a b => b ∈ parentsOf s a) q o := by
  induction os with
  | nil => exact absurd rfl hne
  | cons a os ih =>
    by_cases hos : os = []
    · subst hos
      refine ⟨a, List.mem_cons_self, fun q hq => ?_⟩
      rw [List.mem_singleton.mp hq]
      exact (h a List.mem_cons_self).acyclic
    · obtain ⟨o, ho, hmax⟩ := ih hos fun q hq => h q (List.mem_cons_of_mem _ hq)
      by_cases hao : Relation.TransGen (fun a b => b ∈ parentsOf s a) a o
      · refine ⟨a, List.mem_cons_self, fun q hq hqa => ?_⟩
        rcases List.mem_cons.mp hq with rfl | hq
        · exact (h q List.mem_cons_self).acyclic hqa
        · exact hmax q hq (hqa.trans hao)
      · refine ⟨o, List.mem_cons_of_mem _ ho, fun q hq => ?_⟩
        rcases List.mem_cons.mp hq with rfl | hq
        · exact hao
        · exact hmax q hq

omit [Crates] in
theorem mergeBase_total {a b : Oid} (ha : HistoryIn s a) (hb : HistoryIn s b) {r : Oid}
    (hra : Relation.ReflTransGen (fun a b => b ∈ parentsOf s a) a r)
    (hrb : Relation.ReflTransGen (fun a b => b ∈ parentsOf s a) b r) :
    ∃ m, mergeBase s a b = .ok m := by
  obtain ⟨ancA, hA⟩ := ancestors_total ha
  obtain ⟨ancB, hB⟩ := ancestors_total hb
  have hcommon : ∀ o ∈ commonAncestors a b ancA ancB, HistoryIn s o := fun o ho =>
    ha.ancestor ((mem_ancestors_iff hA).mp (mem_commonAncestors.mp ho).1)
  have hne : commonAncestors a b ancA ancB ≠ [] :=
    List.ne_nil_of_mem (mem_commonAncestors.mpr ⟨(mem_ancestors_iff hA).mpr hra,
    (mem_ancestors_iff hB).mpr hrb⟩)
  obtain ⟨table, ht⟩ := ancestorTable_total hcommon
  obtain ⟨o, ho, hmax⟩ := exists_not_dominated hne hcommon
  have hmax : o ∈ maximalOf table (commonAncestors a b ancA ancB) := by
    rw [maximalOf, List.mem_insertionSort, List.mem_filter]
    refine ⟨ho, ?_⟩
    rw [Bool.not_eq_true', Bool.eq_false_iff, ne_eq, dominated_iff ht]
    rintro ⟨q, hq, -, hqo⟩
    exact hmax q hq hqo
  obtain ⟨m, l, hml⟩ := List.exists_cons_of_ne_nil (List.ne_nil_of_mem hmax)
  exact ⟨m, mergeBase_ok.mpr ⟨ancA, ancB, table, hA, hB, ht, by rw [hml]; rfl⟩⟩

omit [Crates] in
theorem mergeBase_above {a b m : Oid} (hm : mergeBase s a b = .ok m) :
    Relation.ReflTransGen (fun a b => b ∈ parentsOf s a) a m ∧
      Relation.ReflTransGen (fun a b => b ∈ parentsOf s a) b m := by
  obtain ⟨ancA, ancB, table, hA, hB, -, hm⟩ := mergeBase_ok.mp hm
  have hmem : m ∈ maximalOf table (commonAncestors a b ancA ancB) := List.mem_of_mem_head? hm
  rw [maximalOf, List.mem_insertionSort, List.mem_filter, mem_commonAncestors, mem_ancestors_iff hA,
    mem_ancestors_iff hB] at hmem
  exact hmem.1

/-! ### Trees -/

omit [Crates] in
theorem TreeIn.listing {t : Oid} (h : TreeIn s t) : ∃ l, listing s.get (s.size + 1) t = .ok l := by
  suffices ∀ n t, TreeIn s t → Depth.Within (subtrees s.get) n t → ∃ l,
      Csp.listing s.get n t = .ok l from
    this _ t h h.grounded.within
  intro n
  induction n with
  | zero => exact fun t _ hw => hw.elim
  | succ n ih =>
    rintro t ⟨ht, hdir, hfile⟩ hw
    rename_i es
    obtain ⟨segs, hsegs⟩ :=
      mapM_ok_of_forall (f := entryListing s.get (Csp.listing s.get n)) (l := es)
      fun e he => by
        unfold entryListing
        split_ifs with hm
        · obtain ⟨l, hl⟩ := ih _ (hdir e he hm) (hw _ (by
            simp only [subtrees, ht, List.mem_map, List.mem_filter, decide_eq_true_eq]
            exact ⟨e, ⟨he, hm⟩, rfl⟩))
          exact ⟨_, bind_ok.mpr ⟨l, hl, rfl⟩⟩
        · obtain ⟨b, hb⟩ := hfile e he hm
          exact ⟨_, bind_ok.mpr ⟨_, hb, rfl⟩⟩
    exact ⟨_, (listing_ok _).mpr ⟨es, segs, ht, hsegs, rfl⟩⟩

omit [Crates] in
theorem TreeIn.treeFiles {t : Oid} (h : TreeIn s t) : ∃ m, treeFiles s t = .ok m := by
  obtain ⟨l, hl⟩ := h.listing
  exact ⟨_, treeFiles_of_listing hl⟩

omit [Crates] in
theorem CommitIn.commitTree {o : Oid} (h : CommitIn s o) :
    ∃ t, commitTree s o = .ok t ∧ TreeIn s t := by
  obtain ⟨c, hc, ht, -⟩ := h.load
  exact ⟨c.tree, bind_ok.mpr ⟨c, hc, rfl⟩, ht⟩

theorem mergedFiles_total {a b : Oid} (ha : CommitIn s a) (hb : CommitIn s b) {r : Oid}
    (hra : Relation.ReflTransGen (fun a b => b ∈ parentsOf s a) a r)
    (hrb : Relation.ReflTransGen (fun a b => b ∈ parentsOf s a) b r) :
    ∃ m, mergedFiles s a b = .ok m := by
  obtain ⟨base, hbase⟩ := mergeBase_total ha.history hb.history hra hrb
  have hm : CommitIn s base := ha.ancestor (mergeBase_above hbase).1
  obtain ⟨t1, ht1, h1⟩ := hm.commitTree
  obtain ⟨t2, ht2, h2⟩ := ha.commitTree
  obtain ⟨t3, ht3, h3⟩ := hb.commitTree
  obtain ⟨m1, hm1⟩ := h1.treeFiles
  obtain ⟨m2, hm2⟩ := h2.treeFiles
  obtain ⟨m3, hm3⟩ := h3.treeFiles
  exact ⟨_, bind_ok.mpr ⟨base, hbase, bind_ok.mpr ⟨t1, ht1, bind_ok.mpr ⟨m1, hm1, bind_ok.mpr
    ⟨t2, ht2, bind_ok.mpr ⟨m2, hm2, bind_ok.mpr ⟨t3, ht3, bind_ok.mpr ⟨m3, hm3, rfl⟩⟩⟩⟩⟩⟩⟩⟩

/-! ### The ghost predicate -/

theorem touchOf_total (path : Path) (o : Oid) {c : CommitObj Oid} (ht : TreeIn s c.tree)
    (hp : ∀ p ∈ c.parents, CommitIn s p) : ∃ v, touchOf s path o c = .ok v := by
  unfold touchOf
  split
  · rename_i counter node parentOid _ hparents
    obtain ⟨inP, h1⟩ := presentAt_ok ht.grounded (Split.splitOn '/' path)
    obtain ⟨parent, h2, hpt, -⟩ := (hp parentOid (hparents ▸ List.mem_singleton_self _)).load
    obtain ⟨inParent, h3⟩ := presentAt_ok hpt.grounded (Split.splitOn '/' path)
    simp only [pathPresentInTree, h1, h2, h3, ok_bind]
    cases inParent <;> cases inP <;> exact ⟨_, rfl⟩
  · exact ⟨none, rfl⟩

theorem visitTouch_total (path : Path) {o : Oid} (h : CommitIn s o)
    (acc : Option (OrderKey Oid × TouchKind)) :
    ∃ acc' c, visitTouch s path acc o = .ok (acc', c.parents) ∧ loadCommit s o = .ok c := by
  obtain ⟨c, hc, ht, hp⟩ := h.load
  obtain ⟨v, hv⟩ := touchOf_total path o ht hp
  exact ⟨_, c, visitTouch_ok.mpr ⟨c, v, hc, hv, rfl⟩, hc⟩

theorem mostRecentTouch_total {o : Oid} (h : CommitIn s o) (path : Path) :
    ∃ v, mostRecentTouch s o path = .ok v := by
  obtain ⟨best, c, hv, hc⟩ := visitTouch_total path h none
  have hp : ∀ p ∈ c.parents, CommitIn s p := fun p hp => h.parentsOf (parentsOf_of_load hc ▸ hp)
  obtain ⟨⟨seen, last⟩, hr⟩ : ∃ r, Worklist.explore (visitTouch s path) .abort
      (c.parents.length + s.linkCount) [] best c.parents.reverse = .ok r :=
    Worklist.explore_complete (heldCommits s) (fun o => (s.refsOf o).length)
    (fun acc x hx => by
      have hx := mem_heldCommits.mp hx
      obtain ⟨acc', d, hd, hld⟩ := visitTouch_total path hx acc
      exact ⟨acc', d.parents, hd, length_parents_le hld,
        fun y hy => mem_heldCommits.mpr (hx.parentsOf (parentsOf_of_load hld ▸ hy))⟩)
    (fun x hx => mem_heldCommits.mpr (hp x (List.mem_reverse.mp hx))) nodup_heldCommits
    (by simpa using sum_heldCommits_le)
  exact ⟨_, mostRecentTouch_ok.mpr ⟨best, c.parents, seen, last, hv, hr, rfl⟩⟩

omit [Crates] in
theorem parentEntries_total {pt : Option Oid} (h : ∀ o, pt = some o → Grounded s o) :
    ∃ pes, parentEntries s pt = .ok pes ∧ ∀ e ∈ pes, Grounded s e.oid := by
  cases pt with
  | none => exact ⟨[], rfl, by simp⟩
  | some o =>
    obtain ⟨x, hx⟩ := (h o rfl).get
    rw [parentEntries, treeEntries, hx]
    cases x with
    | blob b => exact ⟨[], rfl, by simp⟩
    | commit c => exact ⟨[], rfl, by simp⟩
    | tree es => exact ⟨es, rfl, fun e he => (h o rfl).ref hx (List.mem_map_of_mem he)⟩

omit [Crates] in
theorem treePathsAdded_total {n : Nat} {pre : Str} {pt : Option Oid} {ct : Oid}
    (hpt : ∀ o, pt = some o → Grounded s o) (hct : Grounded s ct)
    (hw : Depth.Within (subtrees s.get) n ct) : ∃ l, treePathsAdded s n pre pt ct = .ok l := by
  induction n generalizing pre pt ct with
  | zero => exact hw.elim
  | succ n ih =>
    by_cases heq : some ct = pt
    · exact ⟨[], treePathsAdded_ok.mpr (.inl ⟨heq, rfl⟩)⟩
    obtain ⟨x, hx⟩ := hct.get
    -- the fuel is the depth below the child, and the recursion follows the child's subtrees
    by_cases ht : ∃ es, x = .tree es
    · obtain ⟨es, rfl⟩ := ht
      obtain ⟨pes, hpes, hgr⟩ := parentEntries_total hpt
      obtain ⟨added, hadd⟩ := mapM_ok_of_forall
        (f := pathsAddedAt (treePathsAdded s n) pre pes) (l := es) fun e he => by
          unfold pathsAddedAt
          simp only
          split_ifs with hm
          · refine ih (fun o ho => ?_) (hct.ref hx (List.mem_map_of_mem he)) (hw _ ?_)
            · rw [Option.bind_eq_some_iff] at ho
              obtain ⟨pe, hpe, ho⟩ := ho
              split_ifs at ho
              exact Option.some.inj ho ▸ hgr pe (List.mem_of_find?_eq_some hpe)
            · simp only [subtrees, hx, List.mem_map, List.mem_filter, decide_eq_true_eq]
              exact ⟨e, ⟨he, hm⟩, rfl⟩
          · exact ⟨_, rfl⟩
          · exact ⟨_, rfl⟩
      exact ⟨_, treePathsAdded_ok.mpr (.inr ⟨heq, _, hx,
        .inl ⟨es, pes, added, rfl, hpes, hadd, rfl⟩⟩)⟩
    · exact ⟨[], treePathsAdded_ok.mpr (.inr ⟨heq, x, hx, .inr ⟨fun es h => ht ⟨es, h⟩, rfl⟩⟩)⟩

/-- Is the most recent touch of the path a deletion that no trailer names? -/
def ghostAt (s : Store Oid) (parentOid : Oid) (readds : List Oid) (path : Path) : Bool :=
  match mostRecentTouch s parentOid path with
  | .ok (some (deleteOid, .delete)) => decide (deleteOid ∉ readds)
  | _ => false

theorem someGhost_eq {parentOid : Oid} (h : CommitIn s parentOid) (readds : List Oid)
    (paths : List Path) :
    someGhost s parentOid readds paths = .ok (paths.any (ghostAt s parentOid readds)) := by
  induction paths with
  | nil => rfl
  | cons p paths ih =>
    obtain ⟨v, hv⟩ := mostRecentTouch_total h p
    rw [someGhost, hv, ok_bind, List.any_cons, ghostAt, hv]
    rcases v with _ | ⟨o, _ | _⟩
    · simpa using ih
    · simpa using ih
    · by_cases ho : o ∈ readds
      · simpa [ho] using ih
      · simp [ho, pure, Except.pure]

end Csp
