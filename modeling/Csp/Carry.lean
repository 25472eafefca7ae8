import Csp.StoreFacts
import Csp.Fold

/-! Reading one store as another. If every object in some region of one store is in
another store too, the same or with its tree entries in another order that does not show,
then whatever reading the first store yields, reading the second one yields. -/

namespace Csp
open Result
variable {Oid : Type}

/-- Entries whose order does not show in the flat file map: no name holds a `/`, and two
entries share a name only if one is a file and the other a directory. -/
def Flat (es : List (TreeEntry Oid)) : Prop :=
  (∀ e ∈ es, '/' ∉ e.name) ∧
    es.Pairwise fun a b => a.name = b.name → (a.mode = treeMode ↔ b.mode ≠ treeMode)

/-- Flat entries, and where a file and a directory share a name the file comes first. -/
def Tidy (es : List (TreeEntry Oid)) : Prop :=
  (∀ e ∈ es, '/' ∉ e.name) ∧
    es.Pairwise fun a b => a.name = b.name → a.mode ≠ treeMode ∧ b.mode = treeMode

theorem Tidy.flat {es : List (TreeEntry Oid)} (h : Tidy es) : Flat es :=
  ⟨h.1, h.2.imp fun hab hn => ⟨fun ha => absurd ha (hab hn).1, fun hb => absurd (hab hn).2 hb⟩⟩

theorem Flat.perm {es es' : List (TreeEntry Oid)} (h : Flat es) (hp : es.Perm es') : Flat es' := by
  refine ⟨fun e he => h.1 e (hp.mem_iff.mpr he), hp.pairwise h.2 ?_⟩
  intro a b hab hn
  have := hab hn.symm
  tauto

/-- Objects that are the same, or trees with the same entries whose order both have the
given property. -/
inductive Alike (Q : List (TreeEntry Oid) → Prop) : GitObject Oid → GitObject Oid → Prop
  | same (x : GitObject Oid) : Alike Q x x
  | tree {es es' : List (TreeEntry Oid)} (hp : es.Perm es') (h : Q es) (h' : Q es') :
      Alike Q (.tree es) (.tree es')

variable {Q : List (TreeEntry Oid) → Prop} {x y : GitObject Oid}

theorem Alike.mono {Q' : List (TreeEntry Oid) → Prop} (hQ : ∀ es, Q es → Q' es) (h : Alike Q x y) :
    Alike Q' x y := by
  cases h with
  | same => exact .same x
  | tree hp h h' => exact .tree hp (hQ _ h) (hQ _ h')

theorem Alike.commit {c : CommitObj Oid} (h : Alike Q (.commit c) y) : y = .commit c := by
  cases h with
  | same => rfl

theorem Alike.blob {b : Bytes} (h : Alike Q (.blob b) y) : y = .blob b := by
  cases h with
  | same => rfl

variable [ObjectId Oid]

/-- Every object of the region of the first store is in the second store, and the region
is closed under references. -/
structure Carries (Q : List (TreeEntry Oid) → Prop) (R : Oid → Prop) (s s' : Store Oid) : Prop where
  alike : ∀ o x, R o → s.get o = .ok x → ∃ y, s'.get o = .ok y ∧ Alike Q x y
  refs : ∀ o x, R o → s.get o = .ok x → ∀ r ∈ x.refs, R r

theorem Carries.mono {R : Oid → Prop} {s s' : Store Oid} (h : Carries Q R s s')
    {Q' : List (TreeEntry Oid) → Prop} (hQ : ∀ es, Q es → Q' es) : Carries Q' R s s' := by
  refine ⟨fun o x hR hx => ?_, h.refs⟩
  obtain ⟨y, hy, ha⟩ := h.alike o x hR hx
  exact ⟨y, hy, ha.mono hQ⟩

theorem Store.Extends.carries {s s' : Store Oid} (h : s.Extends s') :
    Carries Tidy (fun _ => True) s s' :=
  ⟨fun _ x _ hx => ⟨x, h.get hx, .same x⟩, fun _ _ _ _ _ _ => trivial⟩

theorem loadCommit_ok {s : Store Oid} {o : Oid} {c : CommitObj Oid} :
    loadCommit s o = .ok c ↔ s.get o = .ok (.commit c) := by
  unfold loadCommit
  cases hg : s.get o with
  | error e => simp
  | ok x => cases x <;> simp

def parentsOf (s : Store Oid) (o : Oid) : List Oid :=
  match loadCommit s o with
  | .ok c => c.parents
  | .error _ => []

theorem parentsOf_of_load {s : Store Oid} {o : Oid} {c : CommitObj Oid}
    (h : loadCommit s o = .ok c) :
    parentsOf s o = c.parents := by
  rw [parentsOf, h]

theorem length_parents_le {s : Store Oid} {o : Oid} {c : CommitObj Oid}
    (h : loadCommit s o = .ok c) :
    c.parents.length ≤ (s.refsOf o).length := by
  rw [s.refsOf_of_get (loadCommit_ok.mp h)]
  simp [GitObject.refs]

theorem visitParents_ok {s : Store Oid} {u : Unit} {o : Oid} {r : Unit × List Oid} :
    visitParents s u o = .ok r ↔ ∃ c, loadCommit s o = .ok c ∧ r = ((), c.parents) := by
  simp only [visitParents, bind_ok, pure_ok, @eq_comm _ r]

section Ancestry
variable {s s' : Store Oid} {R : Oid → Prop}

theorem Carries.loadCommit (h : Carries Q R s s') {o : Oid} (hR : R o) {c : CommitObj Oid}
    (hc : loadCommit s o = .ok c) :
    Csp.loadCommit s' o = .ok c ∧ R c.tree ∧ ∀ p ∈ c.parents, R p := by
  rw [loadCommit_ok] at hc
  obtain ⟨y, hy, ha⟩ := h.alike o _ hR hc
  have hrefs := h.refs o _ hR hc
  exact ⟨loadCommit_ok.mpr (ha.commit ▸ hy), hrefs _ List.mem_cons_self,
    fun p hp => hrefs p (List.mem_cons_of_mem _ hp)⟩

theorem ancestors_ok {start : Oid} {l : List Oid} :
    ancestors s start = .ok l ↔ ∃ c, loadCommit s start = .ok c ∧
      Worklist.explore (visitParents s) .abort (c.parents.length + s.linkCount) [] ()
        c.parents.reverse = .ok (l, ()) := by
  simp only [ancestors, bind_ok]
  constructor
  · rintro ⟨c, hc, ⟨seen, u⟩, he, hl⟩
    obtain rfl := pure_ok.mp hl
    exact ⟨c, hc, he⟩
  · rintro ⟨c, hc, he⟩
    exact ⟨c, hc, _, he, rfl⟩

theorem Carries.ancestors (h : Carries Q R s s') {o : Oid} (hR : R o) {l : List Oid}
    (hl : ancestors s o = .ok l) : Csp.ancestors s' o = .ok l ∧ ∀ x ∈ l, R x := by
  obtain ⟨c, hc, he⟩ := ancestors_ok.mp hl
  obtain ⟨hc', -, hparents⟩ := h.loadCommit hR hc
  have hvisit : ∀ (acc : Unit) x acc' next, R x → visitParents s acc x = .ok (acc', next) →
      visitParents s' acc x = .ok (acc', next) ∧ next.length ≤ (s'.refsOf x).length ∧
        ∀ y ∈ next, R y := by
    rintro acc x acc' next hx hv
    obtain ⟨d, hd, hr⟩ := visitParents_ok.mp hv
    obtain ⟨hd', -, hp⟩ := h.loadCommit hx hd
    simp only [Prod.mk.injEq] at hr
    obtain ⟨-, rfl⟩ := hr
    exact ⟨visitParents_ok.mpr ⟨d, hd', rfl⟩, length_parents_le hd', hp⟩
  obtain ⟨vis, hvis, hnd, hmem, hfuel⟩ :=
    Worklist.explore_transfer _ R _ hvisit he fun x hx => hparents x (List.mem_reverse.mp hx)
  rw [List.append_nil] at hvis
  subst hvis
  refine ⟨ancestors_ok.mpr ⟨c, hc', hfuel _ ?_⟩, fun x hx => (hmem x hx).2.1⟩
  rw [List.length_reverse]
  refine Nat.add_le_add_left (s'.sum_refsOf_le hnd fun x hx => ?_) _
  obtain ⟨-, hRx, acc, r, hv⟩ := hmem x hx
  obtain ⟨d, hd, -⟩ := visitParents_ok.mp hv
  exact s'.mem_keys_of_get (loadCommit_ok.mp (h.loadCommit hRx hd).1)

theorem Carries.isPrimitiveOid [Crates] (h : Carries Q R s s') {o : Oid} (hR : R o) {c : CommitObj Oid}
    (hc : Csp.loadCommit s o = .ok c) : isPrimitiveOid s' o = Csp.isPrimitiveOid s o := by
  rw [Csp.isPrimitiveOid, Csp.isPrimitiveOid, hc, (h.loadCommit hR hc).1]

theorem Carries.orderKey [Crates] (h : Carries Q R s s') {o : Oid} (hR : R o) {k : OrderKey Oid}
    (hk : orderKey s o = .ok k) : Csp.orderKey s' o = .ok k := by
  simp only [Csp.orderKey, bind_ok] at hk ⊢
  obtain ⟨c, hc, hk⟩ := hk
  exact ⟨c, (h.loadCommit hR hc).1, hk⟩

theorem Carries.ancestorTable (h : Carries Q R s s') {os : List Oid} (hR : ∀ o ∈ os, R o)
    {t : List (Oid × List Oid)} (ht : ancestorTable s os = .ok t) :
    Csp.ancestorTable s' os = .ok t := by
  refine mapM_ok_transfer ht fun o ho p hp => ?_
  obtain ⟨a, ha, hp⟩ := bind_ok.mp hp
  exact bind_ok.mpr ⟨a, (h.ancestors (hR o ho) ha).1, hp⟩

theorem Carries.commitTree (h : Carries Q R s s') {o t : Oid} (hR : R o)
    (ht : commitTree s o = .ok t) : Csp.commitTree s' o = .ok t ∧ R t := by
  obtain ⟨c, hc, ht⟩ := bind_ok.mp ht
  obtain rfl := pure_ok.mp ht
  obtain ⟨hc', hRt, -⟩ := h.loadCommit hR hc
  exact ⟨bind_ok.mpr ⟨c, hc', rfl⟩, hRt⟩

theorem Carries.maxCommitterTime (h : Carries Q R s s') {ps : List Oid}
    (hR : ∀ p ∈ ps, R p) {t : Nat} (ht : maxCommitterTime s ps = .ok t) :
    Csp.maxCommitterTime s' ps = .ok t := by
  refine foldlM_ok_transfer ht fun p hp b b' hb => ?_
  obtain ⟨c, hc, hb⟩ := bind_ok.mp hb
  exact bind_ok.mpr ⟨c, (h.loadCommit (hR p hp) hc).1, hb⟩

def commonAncestors (a b : Oid) (ancA ancB : List Oid) : List Oid :=
  (a :: ancA.filter (· ≠ a)).filter fun o => decide (o ∈ b :: ancB)

/-- The candidates no other candidate descends from, least id first. -/
def maximalOf (table : List (Oid × List Oid)) (common : List Oid) : List Oid :=
  (common.filter fun c => !dominated table c).insertionSort (· ≤ ·)

theorem mergeBase_ok {a b m : Oid} :
    mergeBase s a b = .ok m ↔ ∃ ancA ancB table, ancestors s a = .ok ancA ∧
      ancestors s b = .ok ancB ∧ ancestorTable s (commonAncestors a b ancA ancB) = .ok table ∧
      (maximalOf table (commonAncestors a b ancA ancB)).head? = some m := by
  unfold mergeBase
  simp only [bind_ok]
  constructor
  · rintro ⟨ancA, hA, ancB, hB, h⟩
    split_ifs at h with he
    obtain ⟨table, ht, h⟩ := bind_ok.mp h
    refine ⟨ancA, ancB, table, hA, hB, ht, ?_⟩
    split at h
    · simp at h
    · rename_i m' l hm
      rw [maximalOf, commonAncestors, hm, List.head?_cons, pure_ok.mp h]
  · rintro ⟨ancA, ancB, table, hA, hB, ht, hm⟩
    refine ⟨ancA, hA, ancB, hB, ?_⟩
    rw [commonAncestors] at ht hm
    rw [if_neg ?_, bind_ok]
    · refine ⟨table, ht, ?_⟩
      simp only [maximalOf] at hm
      split
      · rename_i hnil
        rw [hnil] at hm
        cases hm
      · rename_i m' l hl
        rw [hl, List.head?_cons, Option.some.injEq] at hm
        rw [hm]
        rfl
    · intro he
      rw [maximalOf, he] at hm
      cases hm

theorem mem_commonAncestors {a b : Oid} {ancA ancB : List Oid} {o : Oid} :
    o ∈ commonAncestors a b ancA ancB ↔ (o = a ∨ o ∈ ancA) ∧ (o = b ∨ o ∈ ancB) := by
  simp only [commonAncestors, List.mem_filter, List.mem_cons, decide_eq_true_eq]
  by_cases h : o = a <;> simp [h]

theorem Carries.mergeBase (h : Carries Q R s s') {a b m : Oid} (ha : R a) (hb : R b)
    (hm : mergeBase s a b = .ok m) : Csp.mergeBase s' a b = .ok m ∧ R m := by
  obtain ⟨ancA, ancB, table, hA, hB, ht, hm⟩ := mergeBase_ok.mp hm
  obtain ⟨hA', hRA⟩ := h.ancestors ha hA
  have hR : ∀ o ∈ commonAncestors a b ancA ancB, R o := by
    intro o ho
    rcases (mem_commonAncestors.mp ho).1 with rfl | ho
    · exact ha
    · exact hRA o ho
  refine ⟨mergeBase_ok.mpr ⟨ancA, ancB, table, hA', (h.ancestors hb hB).1,
    h.ancestorTable hR ht, hm⟩, hR m ?_⟩
  have : m ∈ maximalOf table (commonAncestors a b ancA ancB) := List.mem_of_mem_head? hm
  rw [maximalOf, List.mem_insertionSort, List.mem_filter] at this
  exact this.1

end Ancestry

end Csp
