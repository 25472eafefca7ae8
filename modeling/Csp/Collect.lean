import Csp.Honest
import Csp.Recovery
import Csp.Stable
import Csp.Times

/-! Collecting garbage. The loose objects that no ref reaches are removed. The tags that the
snapshots hold are an argument. -/

namespace Csp
open Result
variable {Oid : Type} [ObjectId Oid] [Crates] {s t : Store Oid}

def Store.prune (s : Store Oid) (live : List Oid) : Store Oid :=
  { s with objs := s.objs.filter fun o _ => live.contains o }

namespace Vault

def exportAll (v : Vault Oid) : CspResult (List Bytes) := v.exportClosure v.state.known

end Vault

/-! ### What is left -/

omit [Crates] in
theorem getElem?_prune (s : Store Oid) (live : List Oid) (o : Oid) :
    (s.prune live).objs[o]? = if o ∈ live then s.objs[o]? else none := by
  rw [Store.prune, Std.ExtTreeMap.getElem?_filter']
  split_ifs with h
  · cases s.objs[o]? <;> simp [h]
  · cases s.objs[o]? <;> simp [h]

omit [Crates] in
theorem Store.OnDisk.prune (h : s.OnDisk) (live : List Oid) : (s.prune live).OnDisk := by
  refine ⟨h.backend, fun o r hr => ?_⟩
  rw [getElem?_prune] at hr
  split_ifs at hr
  exact h.objs o r hr

omit [Crates] in
theorem Below.ref {roots : List Oid} {o r : Oid} (h : Below s roots o) {x : GitObject Oid}
    (hx : s.get o = .ok x) (hr : r ∈ x.refs) : Below s roots r := by
  obtain ⟨k, hk, hpath⟩ := h
  exact ⟨k, hk, hpath.tail (by rwa [s.refsOf_of_get hx])⟩

omit [Crates] in
theorem Same.reachable {roots : List Oid} (h : ∀ o ∈ roots, Same s t o) :
    Csp.reachable t roots = Csp.reachable s roots := by
  have hvisit : ∀ {u : Store Oid} (acc : Unit) x acc' next, visitRefs u acc x = .ok (acc', next) →
      ∃ y, u.get x = .ok y ∧ next.Sublist y.refs := by
    intro u acc x acc' next hv
    obtain ⟨y, hy, heq⟩ := visitRefs_ok.mp hv
    obtain ⟨-, rfl⟩ := Prod.mk.inj heq
    exact ⟨y, hy, List.Sublist.refl _⟩
  have hsearch := @explore_same Oid _ s t Unit (visitRefs s) (visitRefs t) roots.reverse
    (fun acc x hx => by rw [visitRefs, visitRefs, hx.get]) hvisit hvisit
    (fun x hx => h x (List.mem_reverse.mp hx)) ()
  rw [List.length_reverse] at hsearch
  rw [Csp.reachable, Csp.reachable, hsearch]

namespace Vault
variable {v w : Vault Oid} {tags : List Oid}

end Vault

/-! ### What is read off the rest -/

section Spec
variable [LawfulObjectId Oid] [LawfulCrates] [AcyclicObjectId Oid]

omit [LawfulObjectId Oid] [LawfulCrates] [AcyclicObjectId Oid] in
theorem Same.closureOf {tips : List Oid} (h : ∀ o ∈ tips, Same s t o) :
    Csp.closureOf t tips = Csp.closureOf s tips := by
  unfold Csp.closureOf
  rw [Same.reachable h]
  refine bind_congr_ok fun live hlive => mapM_congr fun o ho => ?_
  obtain ⟨k, hk, hpath⟩ := (mem_reachable hlive).mp ho
  rw [Store.getRaw, Store.getRaw, h k hk o hpath]

omit [AcyclicObjectId Oid] [Crates] [LawfulObjectId Oid] [LawfulCrates] in
theorem Same.authoredBy {known : List Oid} (h : ∀ o ∈ known, Same s t o) (time : Nat) :
    Csp.authoredBy t time known = Csp.authoredBy s time known := by
  unfold Csp.authoredBy
  exact foldlM_congr (fun subset o ho => by rw [(h o ho).get]) []

namespace Vault
variable {v w : Vault Oid} {tags : List Oid}

def treeAt (v : Vault Oid) (time : Nat) : CspResult FileMap := do
  let subset ← authoredBy v.store time v.state.known
  (foldSubset subset v.store).1

/-- The tips are the same, and so is what they fold to. -/
structure FoldsAlike (v w : Vault Oid) : Prop where
  tips : w.frontierTips = v.frontierTips
  main : (computeMain w.state.known w.store).1 = (computeMain v.state.known v.store).1

/-- All that is read off the history is the same: the fold, the whole closure, and the tree of
every snapshot and of every time. -/
structure ReadsAlike (v w : Vault Oid) : Prop extends FoldsAlike v w where
  closure : w.exportAll = v.exportAll
  snapshots : ∀ (name : Str) (snap : Snapshot Oid), v.state.snapshots[name]? = some snap →
    (foldSubset snap.frontier w.store).1 = (foldSubset snap.frontier v.store).1
  times : ∀ time, w.treeAt time = v.treeAt time

end Vault

end Spec

end Csp

/-! ### A small vault -/

namespace Csp.Small

theorem length_le_flatMap {α β : Type} {f : α → List β} {l : List α} {a : α} (h : a ∈ l) :
    (f a).length ≤ (l.flatMap f).length := by
  obtain ⟨l₁, l₂, rfl⟩ := List.append_of_mem h
  rw [List.flatMap_append, List.flatMap_cons, List.length_append, List.length_append]
  omega

theorem lt_code {n : Nat} {b : Bytes} (h : (decimal n).length ≤ b.length) (hne : b ≠ []) :
    n < code b := by
  have hcode : ∀ (b : Bytes) (acc : Nat), acc * 256 ^ b.length ≤ b.foldl
      (fun n x => n * 256 + x.toNat) acc := by
    intro b
    induction b with
    | nil => intro acc; simp
    | cons x b ih =>
      intro acc
      calc acc * 256 ^ (x :: b).length = acc * 256 * 256 ^ b.length := by
            rw [List.length_cons, pow_succ', mul_assoc]
        _ ≤ (acc * 256 + x.toNat) * 256 ^ b.length := Nat.mul_le_mul_right _ (Nat.le_add_right _ _)
        _ ≤ _ := ih _
  have hdigits : n < 10 ^ b.length :=
    (Nat.length_toDigits_le_iff (by decide) (List.length_pos_of_ne_nil hne)).mp h
  have hone := hcode b 1
  rw [one_mul] at hone
  exact lt_of_lt_of_le (lt_of_lt_of_le hdigits (Nat.pow_le_pow_left (by decide) _)) hone

theorem length_raw_le {Oid : Type} [ObjectId Oid] {es : List (TreeEntry Oid)} {e : TreeEntry Oid}
    (he : e ∈ es) :
    (ObjectId.raw e.oid).length ≤ (GitObject.tree es).payload.length := by
  have hentry : (ObjectId.raw e.oid).length ≤ (entryPayload e).length := by
    rw [entryPayload]
    simp only [List.length_append, List.length_cons]
    omega
  exact hentry.trans (length_le_flatMap (f := entryPayload) ((List.mem_insertionSort _).mpr he))

theorem length_toHex_le {Oid : Type} [ObjectId Oid] {c : CommitObj Oid} {r : Oid}
    (h : r ∈ c.tree :: c.parents) :
    (toHex r).length ≤ (GitObject.commit c).payload.length := by
  have htext : (toHex r).length ≤ (commitText c).length := by
    rcases List.mem_cons.mp h with rfl | hp
    · rw [commitText]
      simp only [List.length_append, List.length_cons]
      omega
    · have hline : (toHex r).length ≤ (parentLine r).length := by
        unfold parentLine
        rw [List.append_assoc, List.length_append, List.length_append]
        exact (Nat.le_add_right _ _).trans (Nat.le_add_left _ _)
      have hlines := hline.trans (length_le_flatMap (f := parentLine) hp)
      rw [commitText]
      generalize c.parents.flatMap parentLine = lines at hlines
      simp only [List.length_append, List.length_cons]
      omega
  exact htext.trans (length_le_utf8 _)

theorem length_ref_le {x : GitObject Digest} {r : Digest} (h : r ∈ x.refs) :
    (decimal r).length ≤ x.payload.length := by
  cases x with
  | blob b => cases h
  | tree es =>
    obtain ⟨e, he, rfl⟩ := List.mem_map.mp h
    have hraw : (decimal e.oid).length ≤ (ObjectId.raw e.oid).length := by
      have hutf8 := length_le_utf8 (decimal e.oid)
      have happ : (ObjectId.raw e.oid).length = (utf8 (decimal e.oid) ++ [0]).length := rfl
      rw [happ, List.length_append]
      omega
    exact hraw.trans (length_raw_le he)
  | commit c => exact length_toHex_le h

instance acyclicDigest : AcyclicObjectId Digest where
  acyclic := by
    have hlt : ∀ a b : Digest, (∃ x : GitObject Digest, x.Encodable ∧ x.oid = a ∧ b ∈ x.refs) →
        (b : Nat) < (a : Nat) := by
      rintro a b ⟨x, -, rfl, hb⟩
      have hframed : x.framed ≠ [] := by simp [GitObject.framed]
      refine lt_code ((length_ref_le hb).trans ?_) hframed
      rw [GitObject.framed, List.length_append, List.length_cons]
      omega
    have hall : ∀ a b : Digest, Relation.TransGen
        (fun a b => ∃ x : GitObject Digest, x.Encodable ∧ x.oid = a ∧ b ∈ x.refs) a b →
        (b : Nat) < (a : Nat) := by
      intro a b h
      induction h with
      | single h => exact hlt _ _ h
      | tail _ h ih => exact lt_trans (hlt _ _ h) ih
    exact fun o h => lt_irrefl (o : Nat) (hall o o h)

end Csp.Small
