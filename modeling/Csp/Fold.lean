import Csp.Lib.Worklist
import Csp.Store
import Csp.Merge
import Csp.Primitive

/-! The deterministic fold. The frontier of the known primitives, ghost-adds left out, is
folded from the left into synthetic fold commits; the last one is `main`. The two
thread-local caches are left out: a cached verdict is the one computed here. -/

namespace Csp
open Worklist
variable {Oid : Type} [ObjectId Oid] [Crates]

def foldName : Str := "csp".toList
def foldEmail : Str := "csp@localhost".toList
def genesisMsg : Str := "csp: genesis\n".toList
def foldMsg : Str := "csp: fold\n".toList

def loadCommit (s : Store Oid) (o : Oid) : CspResult (CommitObj Oid) := do
  match ← s.get o with
  | .commit c => pure c
  | _ => .error (.malformed (toHex o ++ " is not a commit".toList))

/-! ### Ancestry -/

/-- One visit of the ancestor walk: the commit must load; its parents are pushed. -/
def visitParents (s : Store Oid) (_ : Unit) (o : Oid) : CspResult (Unit × List Oid) := do
  let c ← loadCommit s o
  pure ((), c.parents)

/-- Transitive ancestors of `start`. The first iteration of the loop, which does not mark
`start` as seen, is unrolled. -/
def ancestors (s : Store Oid) (start : Oid) : CspResult (List Oid) := do
  let c ← loadCommit s start
  let (seen, _) ← explore (visitParents s) .abort (c.parents.length + s.linkCount) []
      () c.parents.reverse
  pure seen

def orderKey (s : Store Oid) (o : Oid) : CspResult (OrderKey Oid) := do
  let c ← loadCommit s o
  match parsePrimitiveMeta c with
  | some (counter, node) => pure { counter, node, sha := o }
  | none => .error (.foldVerify (toHex o ++ " is not a primitive".toList))

/-! ### Ghost-adds -/

inductive TouchKind
  | add
  | delete
  deriving DecidableEq

def presentAt (s : Store Oid) : Oid → List Str → CspResult Bool
  | _, [] => .ok false
  | cur, seg :: segs => do
    match ← s.get cur with
    | .tree entries =>
      match entries.find? (fun e => e.name = seg) with
      | none => pure false
      | some e =>
        if segs = [] then pure (e.mode ≠ treeMode)
        else if e.mode ≠ treeMode then pure false
        else presentAt s e.oid segs
    | _ => pure false

/-- Is the path a file of the tree? Of entries with the segment's name the first is taken. -/
def pathPresentInTree (s : Store Oid) (treeOid : Oid) (path : Path) : CspResult Bool :=
  presentAt s treeOid (Split.splitOn '/' path)

/-- How a commit with one parent toggled the presence of a path, if it is a primitive and
did. -/
def touchOf (s : Store Oid) (path : Path) (o : Oid) (c : CommitObj Oid) :
    CspResult (Option (OrderKey Oid × TouchKind)) :=
  match parsePrimitiveMeta c, c.parents with
  | some (counter, node), [parentOid] => do
    let inP ← pathPresentInTree s c.tree path
    let parent ← loadCommit s parentOid
    let inParent ← pathPresentInTree s parent.tree path
    let key : OrderKey Oid := { counter, node, sha := o }
    match inParent, inP with
    | false, true => pure (some (key, .add))
    | true, false => pure (some (key, .delete))
    | _, _ => pure none
  -- a merge, a fold commit and genesis toggle nothing
  | _, _ => .ok none

/-- The later of two touches; the one held is kept unless the new key is greater. -/
def laterTouch (best new : Option (OrderKey Oid × TouchKind)) : Option (OrderKey Oid × TouchKind) :=
  match best, new with
  | best, none => best
  | none, some t => some t
  | some (bk, k), some (key, k') => if key ≤ bk then some (bk, k) else some (key, k')

def visitTouch (s : Store Oid) (path : Path) (best : Option (OrderKey Oid × TouchKind)) (o : Oid) :
    CspResult (Option (OrderKey Oid × TouchKind) × List Oid) := do
  let c ← loadCommit s o
  let touch ← touchOf s path o c
  pure (laterTouch best touch, c.parents)

/-- The most recent primitive at or above `start` that toggled the presence of `path`. As
in `ancestors`, the iteration for `start` itself is unrolled. -/
def mostRecentTouch (s : Store Oid) (start : Oid) (path : Path) :
    CspResult (Option (Oid × TouchKind)) := do
  let (best, next) ← visitTouch s path none start
  let (_, best) ← explore (visitTouch s path) .abort (next.length + s.linkCount)
      [] best next.reverse
  pure (best.map fun (key, kind) => (key.sha, kind))

def treeEntries (s : Store Oid) (o : Oid) : CspResult (List (TreeEntry Oid)) := do
  match ← s.get o with
  | .tree es => pure es
  | _ => pure []

/-- The entries of the parent's tree, if the parent has a tree here. -/
def parentEntries (s : Store Oid) : Option Oid → CspResult (List (TreeEntry Oid))
  | some o => treeEntries s o
  | none => .ok []

/-- One entry of the child tree. A file counts as added unless the parent has a file there. -/
def pathsAddedAt (below : Str → Option Oid → Oid → CspResult (List Path)) (pre : Str)
    (parent : List (TreeEntry Oid)) (ce : TreeEntry Oid) : CspResult (List Path) :=
  let path := pre ++ ce.name
  let pe := parent.find? fun e => e.name = ce.name
  if ce.mode = treeMode then
    below (path ++ ['/']) (pe.bind fun e => if e.mode = treeMode then some e.oid else none) ce.oid
  else
    let parentHasFile := pe.any fun e => e.mode ≠ treeMode
    .ok (if parentHasFile then [] else [path])

/-- Paths that appear under `childTree` but not under `parentTree`; equal subtrees are
pruned. -/
def treePathsAdded (s : Store Oid) : Nat → Str → Option Oid → Oid → CspResult (List Path)
  -- the recursion of the source has no bound; a tree is never deeper than the store is large
  | 0, _, _, _ => .error .abort
  | n + 1, pre, parentTree, childTree =>
    if some childTree = parentTree then .ok []
    else do
      match ← s.get childTree with
      | .tree childEntries =>
        let parent ← parentEntries s parentTree
        let added ← childEntries.mapM (pathsAddedAt (treePathsAdded s n) pre parent)
        pure added.flatten
      | _ => pure []

/-- Does some added path have a deletion as its most recent touch that no trailer names? -/
def someGhost (s : Store Oid) (parentOid : Oid) (readds : List Oid) : List Path → CspResult Bool
  | [] => .ok false
  | path :: paths => do
    match ← mostRecentTouch s parentOid path with
    | some (deleteOid, .delete) =>
      -- a trailer clears one path, the others are still looked at
      if deleteOid ∈ readds then someGhost s parentOid readds paths else pure true
    | _ => someGhost s parentOid readds paths

def isGhostAddClosureOnlyUncached (s : Store Oid) (primOid : Oid) : CspResult Bool := do
  match ← s.get primOid with
  | .commit c =>
    if !isPrimitive c then pure false
    else match c.parents with
      | [parentOid] => do
        let parent ← loadCommit s parentOid
        let added ← treePathsAdded s (s.size + 1) [] (some parent.tree) c.tree
        someGhost s parentOid (parsePrimitiveReadds c) added
      | _ => pure false
  | _ => pure false

/-- The verdict fails open: a missing object keeps the primitive. -/
def isGhostAddClosureOnly (s : Store Oid) (primOid : Oid) : CspResult Bool :=
  match isGhostAddClosureOnlyUncached s primOid with
  | .error (.objectNotFound _) => .ok false
  | r => r

def effectiveKnown (s : Store Oid) : List Oid → CspResult (List Oid)
  | [] => .ok []
  | o :: os => do
    let ghost ← isGhostAddClosureOnly s o
    let rest ← effectiveKnown s os
    pure (if ghost then rest else o :: rest)

/-! ### The frontier and merge bases -/

def isPrimitiveOid (s : Store Oid) (o : Oid) : Bool :=
  match loadCommit s o with
  | .ok c => isPrimitive c
  | .error _ => false

def ancestorTable (s : Store Oid) (os : List Oid) : CspResult (List (Oid × List Oid)) :=
  os.mapM fun q => do
    let a ← ancestors s q
    pure (q, a)

def dominated (table : List (Oid × List Oid)) (p : Oid) : Bool :=
  table.any fun (q, aq) => p ≠ q && aq.contains p

/-- The known primitives that are not an ancestor of any other, in the strict order. -/
def frontier (s : Store Oid) (known : List Oid) : CspResult (List Oid) := do
  let known ← effectiveKnown s known
  -- what does not load is left out here, but what does not load below one is an error
  let prims := known.filter (isPrimitiveOid s)
  let table ← ancestorTable s prims
  let keyed ← (prims.filter fun o => !dominated table o).mapM (orderKey s)
  pure ((keyed.insertionSort (· ≤ ·)).map (·.sha))

/-- The least id among the maximal common ancestors. The common ancestors are a hash set in
the source; the order they are listed in here does not show in the result. -/
def mergeBase (s : Store Oid) (a b : Oid) : CspResult Oid := do
  let ancA ← ancestors s a
  let ancB ← ancestors s b
  let common := (a :: ancA.filter (· ≠ a)).filter fun o => decide (o ∈ b :: ancB)
  if common = [] then
    .error (.foldVerify ("no merge base for ".toList ++ toHex a ++ " and ".toList ++ toHex b))
  else
    let ancOf ← ancestorTable s common
    let maximal := (common.filter fun c => !dominated ancOf c).insertionSort (· ≤ ·)
    match maximal with
    -- the source indexes without a check
    | [] => .error .abort
    | m :: _ => pure m

/-! ### Fold commits -/

def commitTree (s : Store Oid) (o : Oid) : CspResult Oid := do
  let c ← loadCommit s o
  pure c.tree

def treeFiles (s : Store Oid) (tree : Oid) : CspResult FileMap :=
  readTreeToFiles (s.size + 1) s.get tree

def maxCommitterTime (s : Store Oid) (parents : List Oid) : CspResult Nat :=
  parents.foldlM (fun t p => do
    let c ← loadCommit s p
    pure (max t c.committerTime)) 0

def foldCommit (tree : Oid) (parents : List Oid) (time : Nat) (msg : Str) : CommitObj Oid :=
  { tree, parents, author := foldName, authorEmail := foldEmail, authorTime := time,
    committer := foldName, committerEmail := foldEmail, committerTime := time, message := msg }

def makeFoldCommit (tree : Oid) (parents : List Oid) (msg : Str) : StoreM Oid Oid := do
  let t ← StoreM.read fun s => maxCommitterTime s parents
  StoreM.put (.commit (foldCommit tree parents t msg))

def emptyTree : GitObject Oid := .tree []

def genesisCommit : CommitObj Oid := foldCommit (emptyTree : GitObject Oid).oid [] 0 genesisMsg

def genesis : StoreM Oid Oid := do
  let _ ← StoreM.put emptyTree
  StoreM.put (.commit genesisCommit)

def thinWrapper (tip : Oid) : StoreM Oid Oid := do
  let tree ← StoreM.read fun s => commitTree s tip
  makeFoldCommit tree [tip] foldMsg

def mergedFiles (s : Store Oid) (acc tk : Oid) : CspResult FileMap := do
  let base ← mergeBase s acc tk
  let baseTree ← treeFiles s (← commitTree s base)
  let oursTree ← treeFiles s (← commitTree s acc)
  let theirsTree ← treeFiles s (← commitTree s tk)
  pure (mergeTrees baseTree oursTree theirsTree)

/-- One step of the fold: merge, write the tree, commit it on both operands. -/
def foldStep (acc tk : Oid) : StoreM Oid Oid := do
  let merged ← StoreM.read fun s => mergedFiles s acc tk
  let (put, root) := writeTreeFromFiles merged
  StoreM.putAll put
  makeFoldCommit root [acc, tk] foldMsg

def computeMain (known : List Oid) : StoreM Oid Oid := do
  let f ← StoreM.read fun s => frontier s known
  match f with
  | [] => genesis
  | [tip] => thinWrapper tip
  | acc :: rest => rest.foldlM foldStep acc

/-! ### Verification on receipt -/

def refold (parents : List Oid) : StoreM Oid Oid :=
  match parents with
  | [tip] => thinWrapper tip
  | [acc, tk] => foldStep acc tk
  | _ => throw (.foldVerify "fold commit parents (expected 1 or 2)".toList)

/-- Recompute-verify a synthetic commit and the synthetic commits below it, down to
primitives and genesis; `seen` is shared by the whole recursion. -/
def verifyInner : Nat → Oid → List Oid → StoreM Oid (List Oid)
  | 0, _, _ => throw .abort
  | n + 1, o, seen => do
    if o ∈ seen then pure seen
    else
      let c ← StoreM.read fun s => loadCommit s o
      -- marked before it has verified: the error of a commit below ends the whole recursion
      let seen := o :: seen
      if isPrimitive c then pure seen
      else if c.parents = [] then
        if (GitObject.commit (genesisCommit : CommitObj Oid)).oid = o then pure seen
        else throw (.foldVerify "genesis mismatch".toList)
      else
        let seen ← c.parents.foldlM (fun seen p => verifyInner n p seen) seen
        let recomputed ← refold c.parents
        if recomputed = o then pure seen
        else throw (.foldVerify ("fold commit ".toList ++ toHex o ++ " does not reproduce".toList))

def verifyFoldCommit (o : Oid) : StoreM Oid Unit := do
  let n ← StoreM.read fun s => .ok s.size
  let _ ← verifyInner (n + 1) o []
  pure ()

/-! ### Replication -/

def visitRefs (s : Store Oid) (_ : Unit) (o : Oid) : CspResult (Unit × List Oid) := do
  let x ← s.get o
  pure ((), x.refs)

def reachable (s : Store Oid) (roots : List Oid) : CspResult (List Oid) := do
  let (seen, _) ← explore (visitRefs s) .abort (roots.length + s.linkCount) [] () roots.reverse
  pure (seen.insertionSort (· ≤ ·))

end Csp
