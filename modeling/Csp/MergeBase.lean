import Csp.Coverage
import Mathlib.Data.Fintype.Order
import Mathlib.Order.Bounds.Basic

/-! Merge bases. What `merge_base` picks depends on the ancestry of its two commits only:
it is the least id of the common ancestors that no other common ancestor descends from. -/

namespace Csp
open Result
variable {Oid : Type} [ObjectId Oid] {s s' : Store Oid} {a b m : Oid}

/-- A common ancestor of two commits, which may be one of them. -/
def Common (s : Store Oid) (a b m : Oid) : Prop := Descends s a m ∧ Descends s b m

/-- The common ancestors that are no proper ancestor of another one. -/
def bestCommon (s : Store Oid) (a b : Oid) : Set Oid :=
  {m | Common s a b m ∧ ∀ q, Common s a b q → ¬ Above s q m}

theorem bestCommon_comm : bestCommon s a b = bestCommon s b a := by
  ext m
  have hcomm : ∀ q, Common s a b q ↔ Common s b a q := fun _ => and_comm
  exact and_congr (hcomm m) (forall_congr' fun q => imp_congr_left (hcomm q))

/-- A commit loads from both stores, with the same parents. -/
def SameParents (s s' : Store Oid) (o : Oid) : Prop :=
  ∃ c c', loadCommit s o = .ok c ∧ loadCommit s' o = .ok c' ∧ c'.parents = c.parents

theorem historyIn_of_complete (hcomplete : ∀ x, Descends s a x → ∃ c, loadCommit s x = .ok c)
    (hacyclic : ∀ x, Descends s a x → ¬ Above s x x) : HistoryIn s a := by
  have hkeys : {x | Descends s a x} ⊆ {x | x ∈ s.objs.keys} := by
    intro x hx
    obtain ⟨c, hc⟩ := hcomplete x hx
    exact s.mem_keys_of_get (loadCommit_ok.mp hc)
  have : Finite {x // Descends s a x} := (s.objs.keys.finite_toSet.subset hkeys).to_subtype
  have : IsTrans {x // Descends s a x} (fun x y => Above s y.1 x.1) :=
      ⟨fun _ _ _ h h' => h'.trans h⟩
  have : Std.Irrefl (fun x y : {x // Descends s a x} => Above s y.1 x.1) :=
      ⟨fun x => hacyclic x.1 x.2⟩
  have hwf := Finite.wellFounded_of_trans_of_irrefl (fun x y : {x // Descends s a x} =>
      Above s y.1 x.1)
  suffices ∀ x : {x // Descends s a x}, HistoryIn s x.1 from this ⟨a, .refl⟩
  intro x
  induction x using hwf.induction with
  | _ x ih =>
    obtain ⟨c, hc⟩ := hcomplete x.1 x.2
    refine .mk hc fun p hp => ?_
    have hstep : p ∈ parentsOf s x.1 := parentsOf_of_load hc ▸ hp
    exact ih ⟨p, x.2.tail hstep⟩ (.single hstep)

theorem mem_maximalOf (ha : HistoryIn s a) {ancA ancB : List Oid} {table : List (Oid × List Oid)}
    (hA : ancestors s a = .ok ancA) (hB : ancestors s b = .ok ancB)
    (ht : ancestorTable s (commonAncestors a b ancA ancB) = .ok table) {o : Oid} :
    o ∈ maximalOf table (commonAncestors a b ancA ancB) ↔ o ∈ bestCommon s a b := by
  have hcommon : ∀ o, o ∈ commonAncestors a b ancA ancB ↔ Common s a b o := by
    intro o
    rw [mem_commonAncestors, mem_ancestors_iff hA, mem_ancestors_iff hB]
    rfl
  rw [maximalOf, List.mem_insertionSort, List.mem_filter, hcommon, Bool.not_eq_true',
    Bool.eq_false_iff, ne_eq,
    dominated_iff ht]
  refine and_congr_right fun ho => ⟨fun h q hq habove => ?_, ?_⟩
  · refine h ⟨q, (hcommon q).mpr hq, ?_, habove⟩
    -- a commit of a complete history is not above itself
    rintro rfl
    exact (ha.ancestor ho.1).acyclic habove
  · rintro h ⟨q, hq, -, habove⟩
    exact h q ((hcommon q).mp hq) habove

theorem mergeBase_isLeast (ha : HistoryIn s a) (h : mergeBase s a b = .ok m) :
    IsLeast (bestCommon s a b) m := by
  obtain ⟨ancA, ancB, table, hA, hB, ht, hm⟩ := mergeBase_ok.mp h
  have hmem := fun o => mem_maximalOf ha hA hB ht (o := o)
  obtain ⟨l, hl⟩ : ∃ l, maximalOf table (commonAncestors a b ancA ancB) = m :: l :=
    List.head?_eq_some_iff.mp hm
  have hsorted : (m :: l).Pairwise (· ≤ ·) := hl ▸ List.pairwise_insertionSort _ _
  refine ⟨(hmem m).mp (hl ▸ List.mem_cons_self), fun q hq => ?_⟩
  have hq := (hmem q).mpr hq
  rw [hl, List.mem_cons] at hq
  rcases hq with rfl | hq
  · exact le_rfl
  · exact (List.pairwise_cons.mp hsorted).1 q hq

/-! ### Other stores -/

theorem Descends.congr {o : Oid} (hsame : ∀ x, Descends s o x → SameParents s s' x) {x : Oid} :
    Descends s' o x ↔ Descends s o x := by
  have hparents : ∀ x, Descends s o x → parentsOf s' x = parentsOf s x := by
    intro x hx
    obtain ⟨c, c', hc, hc', hp⟩ := hsame x hx
    rw [parentsOf_of_load hc, parentsOf_of_load hc', hp]
  constructor
  · intro h
    induction h with
    | refl => exact .refl
    | tail _ hstep ih => exact ih.tail (hparents _ ih ▸ hstep)
  · intro h
    induction h with
    | refl => exact .refl
    | tail hx hstep ih => exact ih.tail (hparents _ hx ▸ hstep)

theorem Above.congr {o : Oid} (hsame : ∀ x, Descends s o x → SameParents s s' x) {x : Oid} :
    Above s' o x ↔ Above s o x := by
  obtain ⟨c, c', hc, hc', hp⟩ := hsame o .refl
  have hfirst : ∀ p, p ∈ parentsOf s' o ↔ p ∈ parentsOf s o := by
    intro p
    rw [parentsOf_of_load hc, parentsOf_of_load hc', hp]
  unfold Above
  rw [Relation.TransGen.head'_iff, Relation.TransGen.head'_iff]
  refine exists_congr fun p => ?_
  rw [hfirst]
  exact and_congr_right fun h => Descends.congr fun x hx => hsame x (.head h hx)

theorem HistoryIn.congr {o : Oid} (h : HistoryIn s o)
    (hsame : ∀ x, Descends s o x → SameParents s s' x) :
    HistoryIn s' o := by
  induction h with
  | @mk o c hc _ ih =>
    obtain ⟨d, c', hd, hc', hp⟩ := hsame o .refl
    obtain rfl : c = d := Except.ok.inj (hc.symm.trans hd)
    refine .mk hc' fun p hp' => ?_
    have hp' : p ∈ c.parents := hp ▸ hp'
    exact ih p hp' fun x hx => hsame x (.head (parentsOf_of_load hc ▸ hp') hx)

theorem bestCommon_congr (ha : ∀ x, Descends s a x → SameParents s s' x)
    (hb : ∀ x, Descends s b x → SameParents s s' x) : bestCommon s' a b = bestCommon s a b := by
  have hcommon : ∀ q, Common s' a b q ↔ Common s a b q := fun q => and_congr (Descends.congr ha)
      (Descends.congr hb)
  ext m
  refine and_congr (hcommon m) (forall_congr' fun q => ?_)
  rw [hcommon]
  refine imp_congr_right fun hq => not_congr (Above.congr fun x hx => ha x (hq.1.trans hx))

/-- Of two commits with a common ancestor, in a store where every ancestor loads and none is
its own: the merge base is, in either order of the two, the least of the common ancestors
that no other descends from, and it is the same in every store that gives their ancestors
the same parents, whatever times these carry and whatever else it holds. -/
theorem mergeBase_canonical {r : Oid}
    (hcomplete : ∀ x, Descends s a x ∨ Descends s b x → ∃ c, loadCommit s x = .ok c)
    (hacyclic : ∀ x, Descends s a x ∨ Descends s b x → ¬ Above s x x)
    (ha : Descends s a r) (hb : Descends s b r) :
    ∃ m, mergeBase s a b = .ok m ∧ mergeBase s b a = .ok m ∧ Descends s a m ∧ Descends s b m ∧
      (∀ q, Descends s a q → Descends s b q → ¬ Above s q m) ∧
      (∀ q, Descends s a q → Descends s b q → (∀ p, Descends s a p → Descends s b p →
        ¬ Above s p q) → m ≤ q) ∧
      ∀ s', (∀ x, Descends s a x ∨ Descends s b x → SameParents s s' x) →
      mergeBase s' a b = .ok m := by
  have hHa : HistoryIn s a :=
    historyIn_of_complete (fun x hx => hcomplete x (.inl hx)) fun x hx => hacyclic x (.inl hx)
  have hHb : HistoryIn s b :=
    historyIn_of_complete (fun x hx => hcomplete x (.inr hx)) fun x hx => hacyclic x (.inr hx)
  obtain ⟨m, hm⟩ := mergeBase_total hHa hHb ha hb
  obtain ⟨m', hm'⟩ := mergeBase_total hHb hHa hb ha
  have hleast := mergeBase_isLeast hHa hm
  have hsymm : m' = m := by
    have hleast' := mergeBase_isLeast hHb hm'
    rw [bestCommon_comm] at hleast'
    exact hleast'.unique hleast
  subst hsymm
  refine ⟨m', hm, hm', hleast.1.1.1, hleast.1.1.2, fun q hqa hqb => hleast.1.2 q ⟨hqa, hqb⟩,
    fun q hqa hqb hq => hleast.2 ⟨⟨hqa, hqb⟩, fun p hp => hq p hp.1 hp.2⟩, fun s' hsame => ?_⟩
  have hsa : ∀ x, Descends s a x → SameParents s s' x := fun x hx => hsame x (.inl hx)
  have hsb : ∀ x, Descends s b x → SameParents s s' x := fun x hx => hsame x (.inr hx)
  obtain ⟨m, hm⟩ := mergeBase_total (hHa.congr hsa) (hHb.congr hsb) ((Descends.congr hsa).mpr ha)
    ((Descends.congr hsb).mpr hb)
  have hleast' := mergeBase_isLeast (hHa.congr hsa) hm
  rw [bestCommon_congr hsa hsb] at hleast'
  rw [hm, hleast'.unique hleast]

end Csp

/-! ### A criss-cross -/

namespace Csp.Small

def leafTree : GitObject Digest :=
  .tree [⟨fileMode, ['a'], (GitObject.blob [49] : GitObject Digest).oid⟩]

def crossRoot : CommitObj Digest := foldCommit (emptyTree : GitObject Digest).oid [] 1 []

def crossBase (late : Bool) : CommitObj Digest :=
  foldCommit (if late then (emptyTree : GitObject Digest).oid else leafTree.oid)
    [(GitObject.commit crossRoot).oid]
    (if late then 9 else 1) []

def crossHead (time : Nat) : CommitObj Digest :=
  foldCommit leafTree.oid [(GitObject.commit (crossBase true)).oid,
    (GitObject.commit (crossBase false)).oid] time []

def crossStore : Store Digest :=
  (Store.empty .mem).putAll [emptyTree, .blob [49], leafTree, .commit crossRoot,
    .commit (crossBase true),
    .commit (crossBase false), .commit (crossHead 2), .commit (crossHead 3)]

theorem holds_crossHead : holdsCommit crossStore 4 (GitObject.commit (crossHead 2)).oid = true ∧
    holdsCommit crossStore 4 (GitObject.commit (crossHead 3)).oid = true := by
  decide +kernel

theorem mergeBase_canonical_cross :
    ∃ m, mergeBase crossStore (GitObject.commit (crossHead 2)).oid
    (GitObject.commit (crossHead 3)).oid = .ok m ∧
      mergeBase crossStore (GitObject.commit (crossHead 3)).oid
      (GitObject.commit (crossHead 2)).oid = .ok m := by
  have h2 : HistoryIn crossStore (GitObject.commit (crossHead 2)).oid :=
    (commitIn_of_holdsCommit holds_crossHead.1).history
  have h3 : HistoryIn crossStore (GitObject.commit (crossHead 3)).oid :=
    (commitIn_of_holdsCommit holds_crossHead.2).history
  have hup : ∀ x, Descends crossStore (GitObject.commit (crossHead 2)).oid x ∨
      Descends crossStore (GitObject.commit (crossHead 3)).oid x → HistoryIn crossStore x := by
    rintro x (hx | hx)
    · exact h2.ancestor hx
    · exact h3.ancestor hx
  have hparent : ∀ time ∈ [2, 3], (GitObject.commit (crossBase true)).oid ∈
      parentsOf crossStore (GitObject.commit (crossHead time)).oid := by
    decide +kernel
  obtain ⟨m, hm, hm', -⟩ := mergeBase_canonical
    (fun x hx => (hup x hx).load.imp fun c hc => hc.1) (fun x hx => (hup x hx).acyclic)
    (.single (hparent 2 (by decide))) (.single (hparent 3 (by decide)))
  exact ⟨m, hm, hm'⟩

end Csp.Small
