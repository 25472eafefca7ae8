import Csp.Atomic
import Csp.Lib.Memo

/-! The two thread-local caches of the fold: the verdicts on ghost-adds and the most recent
touches. A store that grows keeps every result that it has given without an error, so a
cached one is what the computation yields now; a missing object is an error and is not kept. -/

namespace Csp
open Result Memo
variable {Oid : Type} [ObjectId Oid] [Crates] {s t : Store Oid}

/-! ### The functions as they run -/

structure FoldCaches (Oid : Type) where
  ghostAddVerdict : Table Oid Bool := .empty
  mostRecentTouch : Table (Oid × Path) (Option (Oid × TouchKind)) := .empty

abbrev CacheM (Oid : Type) := StM CspError (FoldCaches Oid)

def mostRecentTouchCached (s : Store Oid) (start : Oid) (path : Path) :
    CacheM Oid (Option (Oid × TouchKind)) :=
  memo FoldCaches.mostRecentTouch (fun k v c =>
      { c with mostRecentTouch := c.mostRecentTouch.store k v }) (start, path)
    (lift (mostRecentTouch s start path))

def someGhostCached (s : Store Oid) (parentOid : Oid) (readds : List Oid) : List Path →
    CacheM Oid Bool
  | [] => pure false
  | path :: paths => do
    match ← mostRecentTouchCached s parentOid path with
    | some (deleteOid, .delete) =>
      if deleteOid ∈ readds then someGhostCached s parentOid readds paths else pure true
    | _ => someGhostCached s parentOid readds paths

/-- The predicate without its own cache; the touches come from theirs. -/
def ghostAddVerdict (s : Store Oid) (primOid : Oid) : CacheM Oid Bool := do
  match ← lift (s.get primOid) with
  | .commit c =>
    if !isPrimitive c then pure false
    else match c.parents with
      | [parentOid] => do
        let parent ← lift (loadCommit s parentOid)
        let added ← lift (treePathsAdded s (s.size + 1) [] (some parent.tree) c.tree)
        someGhostCached s parentOid (parsePrimitiveReadds c) added
      | _ => pure false
  | _ => pure false

def failOpen : CspResult Bool → CspResult Bool
  | .error (.objectNotFound _) => .ok false
  | r => r

def isGhostAddClosureOnlyCached (s : Store Oid) (primOid : Oid) : CacheM Oid Bool :=
  mapResult failOpen
    (memo FoldCaches.ghostAddVerdict (fun k v c =>
      { c with ghostAddVerdict := c.ghostAddVerdict.store k v }) primOid
      (ghostAddVerdict s primOid))

/-! ### What a growing store keeps -/

theorem mostRecentTouch_extends (he : s.Extends t) {start : Oid} {path : Path}
    {v : Option (Oid × TouchKind)} (h : mostRecentTouch s start path = .ok v) :
    mostRecentTouch t start path = .ok v :=
  he.carries.mostRecentTouch (fun _ h => h) trivial h

theorem someGhost_extends (he : s.Extends t) {parentOid : Oid} {readds : List Oid}
    {paths : List Path} {b : Bool} (h : someGhost s parentOid readds paths = .ok b) :
    someGhost t parentOid readds paths = .ok b := by
  induction paths with
  | nil => exact h
  | cons path paths ih =>
    rw [someGhost] at h ⊢
    obtain ⟨v, hv, h⟩ := bind_ok.mp h
    rw [mostRecentTouch_extends he hv, ok_bind]
    rcases v with _ | ⟨o, _ | _⟩
    · exact ih h
    · exact ih h
    · dsimp only at h ⊢
      split_ifs at h ⊢ with ho
      · exact ih h
      · exact h

omit [Crates] in
theorem parentEntries_extends (he : s.Extends t) {pt : Option Oid} {pes : List (TreeEntry Oid)}
    (h : parentEntries s pt = .ok pes) : parentEntries t pt = .ok pes := by
  cases pt with
  | none => exact h
  | some o =>
    obtain ⟨x, hx, h⟩ := bind_ok.mp (show treeEntries s o = .ok pes from h)
    exact bind_ok.mpr ⟨x, he.get hx, h⟩

omit [Crates] in
theorem treePathsAdded_extends (he : s.Extends t) {n m : Nat} (hnm : n ≤ m) {pre : Str}
    {pt : Option Oid} {ct : Oid} {l : List Path} (h : treePathsAdded s n pre pt ct = .ok l) :
    treePathsAdded t m pre pt ct = .ok l := by
  induction n generalizing m pre pt ct l with
  | zero => cases h
  | succ n ih =>
    obtain ⟨m, rfl⟩ : ∃ m', m = m' + 1 := ⟨m - 1, by omega⟩
    rw [treePathsAdded_ok] at h ⊢
    refine h.imp_right fun ⟨hne, x, hx, h⟩ => ⟨hne, x, he.get hx, h.imp_left ?_⟩
    rintro ⟨es, pes, added, rfl, hpes, hadded, rfl⟩
    refine ⟨es, pes, added, rfl, parentEntries_extends he hpes,
      mapM_ok_transfer hadded fun e _ ps hps => ?_, rfl⟩
    unfold pathsAddedAt at hps ⊢
    dsimp only at hps ⊢
    split_ifs at hps ⊢ with hmode
    · exact ih (by omega) hps
    · exact hps
    · exact hps

omit [Crates] in
theorem Store.Extends.size_le (he : s.Extends t) : s.size ≤ t.size := by
  have hsub : s.objs.keys ⊆ t.objs.keys := by
    intro o ho
    rw [Std.ExtTreeMap.mem_keys, Std.ExtTreeMap.mem_iff_isSome_getElem?,
      Option.isSome_iff_exists] at ho ⊢
    exact ho.imp fun r hr => he.objs o r hr
  have hle := (s.nodup_keys.subperm hsub).length_le
  rwa [Std.ExtTreeMap.length_keys, Std.ExtTreeMap.length_keys] at hle

/-- A verdict that needed no missing object stands, whatever is added. -/
theorem verdict_extends (he : s.Extends t) {primOid : Oid} {b : Bool}
    (h : isGhostAddClosureOnlyUncached s primOid = .ok b) :
    isGhostAddClosureOnlyUncached t primOid = .ok b := by
  unfold isGhostAddClosureOnlyUncached at h ⊢
  obtain ⟨x, hx, h⟩ := bind_ok.mp h
  rw [he.get hx, ok_bind]
  cases x with
  | blob _ => exact h
  | tree _ => exact h
  | commit c =>
    dsimp only at h ⊢
    split_ifs at h ⊢ with hprim
    · exact h
    · split at h
      · obtain ⟨parent, hparent, h⟩ := bind_ok.mp h
        obtain ⟨added, hadded, h⟩ := bind_ok.mp h
        -- the larger store gives the recursion more fuel, which it does not need
        have hsize := he.size_le
        rw [loadCommit_extends he hparent, ok_bind, treePathsAdded_extends he
          (by omega) hadded, ok_bind]
        exact someGhost_extends he h
      · exact h

/-! ### Transparency -/

/-- The caches hold what the computations yield on the store. -/
structure FoldCaches.Valid (s : Store Oid) (c : FoldCaches Oid) : Prop where
  verdicts : c.ghostAddVerdict.Agrees (isGhostAddClosureOnlyUncached s)
  touches : c.mostRecentTouch.Agrees fun k => Csp.mostRecentTouch s k.1 k.2

theorem FoldCaches.valid_empty (s : Store Oid) : FoldCaches.Valid s {} :=
  ⟨Table.agrees_empty _, Table.agrees_empty _⟩

theorem FoldCaches.Valid.extends {c : FoldCaches Oid} (h : c.Valid s) (he : s.Extends t) :
    c.Valid t :=
  ⟨h.verdicts.mono fun _ _ => verdict_extends he, h.touches.mono fun _ _ =>
    mostRecentTouch_extends he⟩

theorem transparent_mostRecentTouch (s : Store Oid) (start : Oid) (path : Path) :
    Transparent (FoldCaches.Valid s) (mostRecentTouchCached s start path)
    (mostRecentTouch s start path) := by
  apply Transparent.memo
  · exact fun c hc v hv => hc.touches (start, path) v hv
  · exact fun c hc v hv => ⟨hc.verdicts, hc.touches.store hv⟩
  · exact transparent_lift _

theorem transparent_someGhost (s : Store Oid) (parentOid : Oid) (readds : List Oid)
    (paths : List Path) :
    Transparent (FoldCaches.Valid s) (someGhostCached s parentOid readds paths)
    (someGhost s parentOid readds paths) := by
  induction paths with
  | nil => exact transparent_pure false
  | cons path paths ih =>
    unfold someGhostCached someGhost
    apply (transparent_mostRecentTouch s parentOid path).bind
    rintro (_ | ⟨o, _ | _⟩) -
    · exact ih
    · exact ih
    · dsimp only
      split_ifs
      · exact ih
      · exact transparent_pure true

theorem transparent_ghostAddVerdict (s : Store Oid) (primOid : Oid) :
    Transparent (FoldCaches.Valid s) (ghostAddVerdict s primOid)
    (isGhostAddClosureOnlyUncached s primOid) := by
  unfold ghostAddVerdict isGhostAddClosureOnlyUncached
  apply (transparent_lift (s.get primOid)).bind
  rintro (b | es | c) -
  · exact transparent_pure false
  · exact transparent_pure false
  · dsimp only
    split_ifs
    · exact transparent_pure false
    · rcases c.parents with _ | ⟨parentOid, _ | ⟨_, _⟩⟩
      · exact transparent_pure false
      · apply (transparent_lift (loadCommit s parentOid)).bind
        intro parent _
        apply (transparent_lift _).bind
        intro added _
        exact transparent_someGhost s parentOid _ added
      · exact transparent_pure false

theorem isGhostAddClosureOnly_eq (s : Store Oid) (primOid : Oid) :
    isGhostAddClosureOnly s primOid = failOpen (isGhostAddClosureOnlyUncached s primOid) := by
  unfold isGhostAddClosureOnly failOpen
  rfl

theorem transparent_isGhostAddClosureOnly (s : Store Oid) (primOid : Oid) :
    Transparent (FoldCaches.Valid s) (isGhostAddClosureOnlyCached s primOid)
    (isGhostAddClosureOnly s primOid) := by
  rw [isGhostAddClosureOnly_eq]
  apply Transparent.mapResult
  apply Transparent.memo
  · exact fun c hc v hv => hc.verdicts primOid v hv
  · exact fun c hc v hv => ⟨hc.verdicts.store hv, hc.touches⟩
  · exact transparent_ghostAddVerdict s primOid

/-! ### Runs -/

section Runs

inductive CacheOp (Oid : Type)
  | put (x : GitObject Oid)
  | isGhostAddClosureOnly (primOid : Oid)
  | mostRecentTouch (start : Oid) (path : Path)

inductive CacheAnswer (Oid : Type)
  | stored
  | verdict (r : CspResult Bool)
  | touch (r : CspResult (Option (Oid × TouchKind)))

namespace CacheOp

def after (s : Store Oid) : CacheOp Oid → Store Oid
  | .put x => s.put x
  | _ => s

def answer (s : Store Oid) : CacheOp Oid → CacheAnswer Oid
  | .put _ => .stored
  | .isGhostAddClosureOnly primOid => .verdict (Csp.isGhostAddClosureOnly s primOid)
  | .mostRecentTouch start path => .touch (Csp.mostRecentTouch s start path)

def answerCached (s : Store Oid) (c : FoldCaches Oid) : CacheOp Oid →
    CacheAnswer Oid × FoldCaches Oid
  | .put _ => (.stored, c)
  | .isGhostAddClosureOnly primOid =>
    let (r, c) := isGhostAddClosureOnlyCached s primOid c
    (.verdict r, c)
  | .mostRecentTouch start path =>
    let (r, c) := mostRecentTouchCached s start path c
    (.touch r, c)

end CacheOp

def uncachedAnswers (s : Store Oid) : List (CacheOp Oid) → List (CacheAnswer Oid)
  | [] => []
  | op :: ops => op.answer s :: uncachedAnswers (op.after s) ops

/-- The answers with the caches, and the store and the caches at the end. -/
def cachedAnswers (s : Store Oid) (c : FoldCaches Oid) :
    List (CacheOp Oid) → List (CacheAnswer Oid) × Store Oid × FoldCaches Oid
  | [] => ([], s, c)
  | op :: ops =>
    let (a, c) := op.answerCached s c
    let (as, r) := cachedAnswers (op.after s) c ops
    (a :: as, r)

/-- Step lemma: an operation answers as without caches, and they stay valid. -/
theorem answerCached_valid {c : FoldCaches Oid} (h : c.Valid s) (op : CacheOp Oid) :
    (op.answerCached s c).1 = op.answer s ∧ (op.answerCached s c).2.Valid (op.after s) := by
  cases op with
  | put x => exact ⟨rfl, h.extends (s.extends_put x)⟩
  | isGhostAddClosureOnly primOid =>
    obtain ⟨hres, hvalid⟩ := transparent_isGhostAddClosureOnly s primOid c h
    exact ⟨congrArg CacheAnswer.verdict hres, hvalid⟩
  | mostRecentTouch start path =>
    obtain ⟨hres, hvalid⟩ := transparent_mostRecentTouch s start path c h
    exact ⟨congrArg CacheAnswer.touch hres, hvalid⟩

/-- Run lemma. -/
theorem cachedAnswers_valid {c : FoldCaches Oid} (h : c.Valid s) (ops : List (CacheOp Oid)) :
    (cachedAnswers s c ops).1 = uncachedAnswers s ops ∧ (cachedAnswers s c ops).2.2.Valid
    (cachedAnswers s c ops).2.1 := by
  induction ops generalizing s c with
  | nil => exact ⟨rfl, h⟩
  | cons op ops ih =>
    obtain ⟨hres, hvalid⟩ := answerCached_valid h op
    obtain ⟨hrest, hend⟩ := ih hvalid
    exact ⟨congrArg₂ List.cons hres hrest, hend⟩

theorem verdict_open {c : FoldCaches Oid} (h : c.Valid s) {primOid : Oid} {missing : Str}
    (hmissing : isGhostAddClosureOnlyUncached s primOid = .error (.objectNotFound missing)) :
    c.ghostAddVerdict primOid = none ∧ (isGhostAddClosureOnlyCached s primOid c).1 = .ok false ∧
      (isGhostAddClosureOnlyCached s primOid c).2.ghostAddVerdict primOid = none := by
  have hnone : ∀ c : FoldCaches Oid, c.Valid s → c.ghostAddVerdict primOid = none := by
    intro c hc
    cases hv : c.ghostAddVerdict primOid with
    | none => rfl
    | some v =>
      have hok := hc.verdicts primOid v hv
      rw [hmissing] at hok
      cases hok
  obtain ⟨hres, hvalid⟩ := transparent_isGhostAddClosureOnly s primOid c h
  refine ⟨hnone c h, ?_, hnone _ hvalid⟩
  rw [hres, isGhostAddClosureOnly_eq, hmissing]
  rfl

/-- From any store and empty caches, through insertions and queries in any order: each answer
is the one without caches; a verdict or a touch that was found without an error is the same
on every later store; and where an object is missing nothing is cached. -/
theorem caches_transparent (s : Store Oid) (ops : List (CacheOp Oid)) :
    (cachedAnswers s {} ops).1 = uncachedAnswers s ops ∧
      (∀ t u : Store Oid, t.Extends u →
        (∀ primOid b, isGhostAddClosureOnlyUncached t primOid = .ok b →
          isGhostAddClosureOnlyUncached u primOid = .ok b) ∧
        ∀ start path v, mostRecentTouch t start path = .ok v →
        mostRecentTouch u start path = .ok v) ∧
      ∀ primOid missing,
        isGhostAddClosureOnlyUncached (cachedAnswers s {} ops).2.1 primOid = .error
        (.objectNotFound missing) →
        (cachedAnswers s {} ops).2.2.ghostAddVerdict primOid = none ∧
          (isGhostAddClosureOnlyCached (cachedAnswers s {} ops).2.1 primOid
            (cachedAnswers s {} ops).2.2).1 = .ok false ∧
          (isGhostAddClosureOnlyCached (cachedAnswers s {} ops).2.1 primOid
            (cachedAnswers s {} ops).2.2).2.ghostAddVerdict primOid = none := by
  obtain ⟨hres, hvalid⟩ := cachedAnswers_valid (FoldCaches.valid_empty s) ops
  refine ⟨hres, fun t u he => ⟨fun primOid b => verdict_extends he, fun start path v =>
    mostRecentTouch_extends he⟩, ?_⟩
  exact fun primOid missing hmissing => verdict_open hvalid hmissing

end Runs

end Csp
