import Mathlib.Algebra.Order.BigOperators.Group.List
import Mathlib.Algebra.Order.Ring.Nat
import Csp.Codec
import Csp.Lib.Worklist
import Csp.Lib.Depth
import Csp.Store

/-! What puts do to a store: nothing is lost, an object put can be read back up to the
order of tree entries, and the two counts bound what walks over the store can meet. -/

namespace Csp
open Result
variable {Oid : Type} [ObjectId Oid]

namespace Store

structure Extends (s s' : Store Oid) : Prop where
  backend : s'.backend = s.backend
  objs : ∀ (o : Oid) r, s.objs[o]? = some r → s'.objs[o]? = some r

variable {s s' t : Store Oid} {o : Oid} {x : GitObject Oid}

theorem get_eq_ok : s.get o = .ok x ↔ s.objs[o]? = some (.ok x) := by
  unfold get
  cases h : s.objs[o]? with
  | none => simp
  | some r => simp

theorem Extends.refl (s : Store Oid) : s.Extends s := ⟨rfl, fun _ _ => id⟩

theorem Extends.trans (h : s.Extends s') (h' : s'.Extends t) : s.Extends t :=
  ⟨h'.backend.trans h.backend, fun o r hr => h'.objs o r (h.objs o r hr)⟩

theorem Extends.get (h : s.Extends s') (hg : s.get o = .ok x) : s'.get o = .ok x :=
  get_eq_ok.mpr (h.objs _ _ (get_eq_ok.mp hg))

section Put
variable [Crates]

theorem getElem?_put (s : Store Oid) (x : GitObject Oid) (o : Oid) :
    (s.put x).objs[o]? =
      if x.oid = o ∧ s.objs[o]? = none then some (s.backend.reread x) else s.objs[o]? := by
  simp only [put, Std.ExtTreeMap.getElem?_insertIfNew, Std.LawfulEqCmp.compare_eq_iff_eq]
  by_cases h : x.oid = o
  · subst h
    by_cases hm : x.oid ∈ s.objs
    · simp [hm]
    · simp [hm]
  · simp [h]

theorem extends_put (s : Store Oid) (x : GitObject Oid) : s.Extends (s.put x) := by
  refine ⟨rfl, fun o r hr => ?_⟩
  rw [getElem?_put, if_neg (by simp [hr]), hr]

theorem extends_putAll (s : Store Oid) (xs : List (GitObject Oid)) : s.Extends (s.putAll xs) := by
  induction xs generalizing s with
  | nil => exact .refl s
  | cons x xs ih => exact (extends_put s x).trans (ih (s.put x))

theorem putAll_cons (s : Store Oid) (x : GitObject Oid) (xs : List (GitObject Oid)) :
    s.putAll (x :: xs) = (s.put x).putAll xs := rfl

theorem putAll_append (s : Store Oid) (xs ys : List (GitObject Oid)) :
    s.putAll (xs ++ ys) = (s.putAll xs).putAll ys := List.foldl_append

theorem put_of_mem (h : s.objs[x.oid]? ≠ none) : s.put x = s := by
  have : (s.put x).objs = s.objs := by
    apply Std.ExtTreeMap.ext_getElem?
    intro o
    rw [getElem?_put]
    split_ifs with ho
    · exact absurd ho.2 (ho.1 ▸ h)
    · rfl
  cases s
  simp only [put] at this ⊢
  rw [this]

theorem getElem?_putAll {xs : List (GitObject Oid)} {r : CspResult (GitObject Oid)}
    (h : (s.putAll xs).objs[o]? = some r) :
    s.objs[o]? = some r ∨ ∃ x ∈ xs, x.oid = o ∧ r = s.backend.reread x := by
  induction xs generalizing s with
  | nil => exact .inl h
  | cons x xs ih =>
    rcases ih h with h | ⟨y, hy, ho, hr⟩
    · rw [getElem?_put] at h
      split_ifs at h with hx
      · exact .inr ⟨x, List.mem_cons_self, hx.1, (Option.some.inj h).symm⟩
      · exact .inl h
    · exact .inr ⟨y, List.mem_cons_of_mem _ hy, ho, hr⟩

end Put

/-- Every id of the store leads to an object that has this id and can be encoded. -/
def Sound (s : Store Oid) : Prop :=
  ∀ o r, s.objs[o]? = some r → ∃ x : GitObject Oid, r = .ok x ∧ x.oid = o ∧ x.Encodable

theorem Sound.get (h : s.Sound) (hg : s.get o = .ok x) : x.oid = o ∧ x.Encodable := by
  obtain ⟨y, hy, ho, he⟩ := h _ _ (get_eq_ok.mp hg)
  obtain rfl := Except.ok.inj hy
  exact ⟨ho, he⟩

theorem sound_empty (b : Backend) : (empty b : Store Oid).Sound := by
  intro o r h
  simp [empty] at h

variable [Crates] [LawfulObjectId Oid] [LawfulCrates]

/-- What is read back is the object that was put, up to the order of tree entries. -/
theorem reread_eq (b : Backend) (hx : x.Encodable) :
    ∃ y : GitObject Oid, b.reread x = .ok y ∧ y.canon = x.canon ∧ y.Encodable := by
  cases b with
  | mem => exact ⟨x, rfl, rfl, hx⟩
  | disk =>
    refine ⟨x.canon, decompressAndParse_compress hx, ?_, hx.canon⟩
    cases x with
    | blob b => rfl
    | tree es => simp only [GitObject.canon, sortEntries_sortEntries]
    | commit c => rfl

theorem Sound.put (h : s.Sound) (hx : x.Encodable) : (s.put x).Sound := by
  intro o r hr
  rw [getElem?_put] at hr
  split_ifs at hr with ho
  · obtain ⟨y, hy, hc, he⟩ := reread_eq s.backend hx
    refine ⟨y, by rw [← Option.some.inj hr, hy], ?_, he⟩
    rw [← y.oid_canon, hc, x.oid_canon, ho.1]
  · exact h o r hr

theorem Sound.putAll (h : s.Sound) {xs : List (GitObject Oid)} (hxs : ∀ x ∈ xs, x.Encodable) :
    (s.putAll xs).Sound := by
  induction xs generalizing s with
  | nil => exact h
  | cons x xs ih =>
    exact ih (h.put (hxs x List.mem_cons_self)) fun y hy => hxs y (List.mem_cons_of_mem _ hy)

theorem Sound.get_put (h : s.Sound) (hx : x.Encodable) :
    ∃ y, (s.put x).get x.oid = .ok y ∧ y.canon = x.canon := by
  cases hs : s.objs[x.oid]? with
  | none =>
    obtain ⟨y, hy, hc, -⟩ := reread_eq s.backend hx
    refine ⟨y, get_eq_ok.mpr ?_, hc⟩
    rw [getElem?_put, if_pos ⟨rfl, hs⟩, hy]
  | some r =>
    obtain ⟨y, rfl, ho, hy⟩ := h _ _ hs
    refine ⟨y, get_eq_ok.mpr ?_, canon_eq_of_oid_eq hy hx ho⟩
    rw [getElem?_put, if_neg (by simp [hs]), hs]

theorem Sound.get_putAll (h : s.Sound) {xs : List (GitObject Oid)} (hxs : ∀ x ∈ xs, x.Encodable)
    (hx : x ∈ xs) : ∃ y, (s.putAll xs).get x.oid = .ok y ∧ y.canon = x.canon := by
  induction xs generalizing s with
  | nil => simp at hx
  | cons z xs ih =>
    rcases List.mem_cons.mp hx with rfl | hx
    · obtain ⟨y, hy, hc⟩ := h.get_put (hxs x List.mem_cons_self)
      exact ⟨y, (extends_putAll _ xs).get hy, hc⟩
    · exact ih (h.put (hxs z List.mem_cons_self)) (fun y hy => hxs y (List.mem_cons_of_mem _ hy)) hx

end Store

/-! ### Counting -/

namespace Store
variable (s : Store Oid)

def refsOf (o : Oid) : List Oid :=
  match s.get o with
  | .ok x => x.refs
  | .error _ => []

theorem refsOf_of_get {o : Oid} {x : GitObject Oid} (h : s.get o = .ok x) :
    s.refsOf o = x.refs := by
  rw [refsOf, h]

theorem mem_keys_of_get {o : Oid} {x : GitObject Oid} (h : s.get o = .ok x) : o ∈ s.objs.keys := by
  rw [Std.ExtTreeMap.mem_keys, Std.ExtTreeMap.mem_iff_isSome_getElem?, get_eq_ok.mp h]
  rfl

theorem nodup_keys : s.objs.keys.Nodup := by
  simpa [List.Nodup] using s.objs.distinct_keys

theorem linkCount_eq : s.linkCount = (s.objs.keys.map fun o => (s.refsOf o).length).sum := by
  rw [linkCount, ← Std.ExtTreeMap.map_fst_toList_eq_keys, List.map_map]
  refine congrArg List.sum (List.map_congr_left fun p hp => ?_)
  obtain ⟨o, r⟩ := p
  have ho : s.objs[o]? = some r := Std.ExtTreeMap.mem_toList_iff_getElem?_eq_some.mp hp
  cases r with
  | error e => simp [refsOf, get, ho]
  | ok x => simp [refsOf, get, ho]

theorem sum_refsOf_le {vis : List Oid} (hnd : vis.Nodup) (hvis : ∀ o ∈ vis, o ∈ s.objs.keys) :
    (vis.map fun o => (s.refsOf o).length).sum ≤ s.linkCount := by
  rw [linkCount_eq]
  obtain ⟨l, hperm, hsub⟩ := List.subperm_of_subset hnd hvis
  rw [← (hperm.map _).sum_nat]
  exact (hsub.map _).sum_le_sum (by simp)

end Store

end Csp
