import Csp.Integrate
import Csp.Lib.Cells

/-! What materializing does to the engine, path by path. -/

namespace Csp
open Result
variable {Oid : Type} [ObjectId Oid]

def MaterializeOp.path : MaterializeOp → Path
  | .write p _ => p
  | .remove p => p
  | .defer p => p
  | .quarantine p _ => p

def MaterializeOp.apply : Option Bytes → MaterializeOp → Option Bytes
  | _, .write _ c => some c
  | _, .remove _ => none
  | f, .defer _ => f
  | _, .quarantine _ _ => none

namespace MemEngine

theorem materializePlan_run [Crates] (onDisk : FileMap) (e : MemEngine Oid) :
    materializePlan onDisk e = match e.main with
      | none => (.ok e.pendingQuarantines, { e with pendingQuarantines := [] })
      | some m =>
        match mainTree e.store m with
        | .error err => (.error err, { e with pendingQuarantines := [] })
        | .ok tree =>
          match treeFiles e.store tree with
          | .error err => (.error err, { e with pendingQuarantines := [] })
          | .ok want =>
            let r := plan onDisk want (e.pendingQuarantines, e.state.materialized)
            (.ok r.1, { e with
              pendingQuarantines := []
              state := { e.state with materialized := r.2 } }) := by
  rw [materializePlan, run_bind_of_ok (run_get e), run_bind_of_ok (run_set _ _)]
  cases e.main with
  | none => rfl
  | some m =>
    simp only
    rw [run_bind, withStore, StoreM.read]
    cases mainTree e.store m with
    | error err => rfl
    | ok tree =>
      simp only
      rw [run_bind, withStore, StoreM.read]
      cases treeFiles e.store tree with
      | error err => rfl
      | ok want => rfl

/-! ### One path of a plan -/

/-- A path that `main` does not have: the file goes if it is as recorded, the record always. -/
def removalAt (p : Path) (disk : Option Bytes) (recorded : Option Oid) :
    List MaterializeOp × Option Oid :=
  (if recorded ≠ none ∧ disk.map blobHash = recorded then [.remove p] else [], none)

/-- A path that `main` has: bytes that are neither recorded nor wanted stay. -/
def writeAt (p : Path) (wanted : Bytes) (disk : Option Bytes) (recorded : Option Oid) :
    List MaterializeOp × Option Oid :=
  if disk = some wanted then ([], some (blobHash wanted))
  else if disk ≠ none ∧ disk.map blobHash ≠ recorded then ([.defer p], recorded)
  else ([.write p wanted], some (blobHash wanted))

/-- What a plan says at one path, and the record that it leaves there. -/
def planAt (p : Path) (wanted disk : Option Bytes) (recorded : Option Oid) :
    List MaterializeOp × Option Oid :=
  match wanted with
  | none => removalAt p disk recorded
  | some c => writeAt p c disk recorded

variable {onDisk want : FileMap}

def lookPlan (acc : List MaterializeOp × Std.ExtTreeMap Path Oid compare) (p : Path) :
    List MaterializeOp × Option Oid := (acc.1.filter fun op => op.path = p, acc.2[p]?)

theorem lookPlan_removal (acc : List MaterializeOp × Std.ExtTreeMap Path Oid compare) (q p : Path) :
    lookPlan (planRemoval onDisk want acc q) p =
      if q = p then
        if want.contains q then lookPlan acc p
        else ((lookPlan acc p).1 ++ (removalAt q onDisk[q]? (lookPlan acc p).2).1, none)
      else lookPlan acc p := by
  obtain ⟨ops, mat⟩ := acc
  unfold planRemoval lookPlan removalAt
  dsimp only
  by_cases hw : want.contains q = true
  · simp only [hw, if_true, ite_self]
  · simp only [hw, Bool.false_eq_true, if_false]
    by_cases hqp : q = p
    · subst hqp
      rw [if_pos rfl, Std.ExtTreeMap.getElem?_erase_self]
      cases hd : onDisk[q]? with
      | none => simp
      | some d =>
        by_cases hm : some (blobHash d) = mat[q]?
        · simp [← hm, MaterializeOp.path]
        · simp [hm]
    · rw [if_neg hqp, Std.ExtTreeMap.getElem?_erase, if_neg (by simpa using hqp)]
      cases hd : onDisk[q]? with
      | none => rfl
      | some d =>
        dsimp only
        split_ifs
        · simp [MaterializeOp.path, hqp]
        · rfl

theorem lookPlan_write (acc : List MaterializeOp × Std.ExtTreeMap Path Oid compare)
    (f : Path × Bytes) (p : Path) :
    lookPlan (planWrite onDisk acc f) p =
      if f.1 = p then ((lookPlan acc p).1 ++ (writeAt f.1 f.2 onDisk[f.1]? (lookPlan acc p).2).1,
        (writeAt f.1 f.2 onDisk[f.1]? (lookPlan acc p).2).2)
      else lookPlan acc p := by
  obtain ⟨ops, mat⟩ := acc
  obtain ⟨q, c⟩ := f
  unfold planWrite lookPlan writeAt
  dsimp only
  by_cases hqp : q = p
  · subst hqp
    rw [if_pos rfl]
    cases hd : onDisk[q]? with
    | none => simp [MaterializeOp.path]
    | some d =>
      by_cases hdc : d = c
      · simp [hdc]
      · by_cases hm : some (blobHash d) = mat[q]?
        · simp [hdc, ← hm, MaterializeOp.path]
        · simp [hdc, hm, MaterializeOp.path]
  · rw [if_neg hqp]
    cases hd : onDisk[q]? with
    | none => simp [Std.ExtTreeMap.getElem?_insert, MaterializeOp.path, hqp]
    | some d =>
      dsimp only
      split_ifs
      · simp [MaterializeOp.path, hqp]
      · simp [Std.ExtTreeMap.getElem?_insert, hqp]
      · simp [Std.ExtTreeMap.getElem?_insert, MaterializeOp.path, hqp]

theorem filter_toList (files : FileMap) (p : Path) :
    (files.toList.filter fun f => f.1 = p) = (files[p]?.map fun c => (p, c)).toList := by
  cases hp : files[p]? with
  | none =>
    apply List.filter_eq_nil_iff.mpr
    intro f hf hfp
    rw [show p = f.1 by simpa using (of_decide_eq_true hfp).symm, mem_toList.mp hf] at hp
    cases hp
  | some c =>
    apply Cells.filter_key_of_mem Prod.fst ?_ (mem_toList.mpr hp)
    rw [Std.ExtTreeMap.map_fst_toList_eq_keys]
    exact nodup_keys_of_map files

theorem filter_keys {β : Type} (m : Std.ExtTreeMap Path β compare) (p : Path) :
    (m.keys.filter fun q => q = p) = if m.contains p then [p] else [] := by
  split_ifs with hp
  · apply Cells.filter_key_of_mem id ?_ (Std.ExtTreeMap.mem_keys.mpr hp)
    rw [List.map_id]
    exact nodup_keys_of_map m
  · apply List.filter_eq_nil_iff.mpr
    intro q hq hqp
    rw [show q = p by simpa using hqp, Std.ExtTreeMap.mem_keys] at hq
    exact hp hq

/-- A plan, path by path: what it says at a path depends on the bytes, the record and the wanted
bytes there. -/
theorem lookPlan_plan (ops : List MaterializeOp) (mat : Std.ExtTreeMap Path Oid compare)
    (p : Path) :
    lookPlan (plan onDisk want (ops, mat)) p =
      ((ops.filter fun op => op.path = p) ++ (planAt p want[p]? onDisk[p]? mat[p]?).1,
        (planAt p want[p]? onDisk[p]? mat[p]?).2) := by
  unfold plan
  rw [Cells.look_foldl Prod.fst (fun b f => (b.1 ++ (writeAt f.1 f.2 onDisk[f.1]? b.2).1,
      (writeAt f.1 f.2 onDisk[f.1]? b.2).2)) lookPlan_write,
    Cells.look_foldl id (fun b q =>
      if want.contains q then b else (b.1 ++ (removalAt q onDisk[q]? b.2).1, none))
      lookPlan_removal]
  simp only [id]
  rw [filter_toList, filter_keys, lookPlan]
  have hin : p ∈ want ↔ want[p]?.isSome := Std.ExtTreeMap.isSome_getElem?_iff_mem.symm
  have hrec : mat.contains p = mat[p]?.isSome := Std.ExtTreeMap.contains_eq_isSome_getElem?
  cases hw : want[p]? with
  | none =>
    cases hm : mat[p]? with
    | none => simp [hrec, hm, planAt, removalAt]
    | some h => simp [hrec, hm, hin, hw, planAt, removalAt]
  | some c =>
    cases hm : mat[p]? with
    | none => simp [hrec, hm, planAt]
    | some h => simp [hrec, hm, hin, hw, planAt]

theorem getElem?_applyOps (ops : List MaterializeOp) (working : FileMap) (p : Path) :
    (ops.foldl applyOp working)[p]? = (ops.filter fun op => op.path = p).foldl MaterializeOp.apply
    working[p]? := by
  apply Cells.look_foldl MaterializeOp.path MaterializeOp.apply
  intro w op q
  cases op with
  | write r c =>
    unfold applyOp MaterializeOp.path MaterializeOp.apply
    rw [Std.ExtTreeMap.getElem?_insert]
    by_cases hr : r = q <;> simp [hr]
  | remove r =>
    unfold applyOp MaterializeOp.path MaterializeOp.apply
    rw [Std.ExtTreeMap.getElem?_erase]
    by_cases hr : r = q <;> simp [hr]
  | defer r => exact (ite_self _).symm
  | quarantine r t =>
    unfold applyOp MaterializeOp.path MaterializeOp.apply
    rw [Std.ExtTreeMap.getElem?_erase]
    by_cases hr : r = q <;> simp [hr]

def Wants (e : MemEngine Oid) (want : FileMap) : Prop :=
  ∃ m tree, e.main = some m ∧ mainTree e.store m = .ok tree ∧ treeFiles e.store tree = .ok want

theorem Wants.unique {e : MemEngine Oid} {want want' : FileMap} (h : e.Wants want)
    (h' : e.Wants want') : want = want' := by
  obtain ⟨m, tree, hm, htree, hfiles⟩ := h
  obtain ⟨m', tree', hm', htree', hfiles'⟩ := h'
  obtain rfl := Option.some.inj (hm.symm.trans hm')
  obtain rfl := Except.ok.inj (htree.symm.trans htree')
  exact Except.ok.inj (hfiles.symm.trans hfiles')

variable [Crates]

theorem materializeStaged_run {e : MemEngine Oid} {want : FileMap} (h : e.Wants want) :
    materializeStaged e =
      let r := plan e.working want (e.pendingQuarantines, e.state.materialized)
      (.ok r.1, { e with
        pendingQuarantines := []
        state := { e.state with materialized := r.2 }
        working := r.1.foldl applyOp e.working }) := by
  obtain ⟨m, tree, hm, htree, hfiles⟩ := h
  have hplan := materializePlan_run e.working e
  rw [hm] at hplan
  dsimp only at hplan
  rw [htree] at hplan
  dsimp only at hplan
  rw [hfiles] at hplan
  dsimp only at hplan
  rw [materializeStaged, run_bind_of_ok (run_get e), run_bind_of_ok hplan,
    run_bind_of_ok (run_modify _ _), hm]
  rfl

end MemEngine

end Csp
