import Csp.State

/-! The sans-IO engine. Working files are handed in, materialize operations are handed
out; the clock is an argument. -/

namespace Csp
variable {Oid : Type} [ObjectId Oid] [Crates]

inductive MaterializeOp
  | write (path : Path) (content : Bytes)
  | remove (path : Path)
  | defer (path : Path)
  | quarantine (source target : Path)
  deriving DecidableEq

structure MemEngine (Oid : Type) [ObjectId Oid] where
  store : Store Oid
  state : EngineState Oid
  scope : Scope
  identity : Identity
  authorized : Str
  main : Option Oid
  config : VaultConfig
  working : FileMap
  pendingQuarantines : List MaterializeOp

/-- An engine method: what it changed before an error stays changed. -/
abbrev EngineM (Oid : Type) [ObjectId Oid] := Result.StM CspError (MemEngine Oid)

namespace MemEngine

def rebuildScope (config : VaultConfig) (ignore : List Str) : Scope :=
  { includes := config.includes, ignore, allowBinary := config.allowBinary }

def create (identity : Identity) (vaultId name : Str) : MemEngine Oid :=
  let store := (genesis (Store.empty .mem)).2
  let config : VaultConfig := { vaultId, name }
  { store, state := { vaultId }, scope := rebuildScope config [], identity, authorized := [],
    main := some (GitObject.commit genesisCommit).oid, config, working := ∅,
    pendingQuarantines := [] }

def withStore {α : Type} (x : StoreM Oid α) : EngineM Oid α := fun e =>
  let (r, s) := x e.store
  (r, { e with store := s })

def stageWrite (e : MemEngine Oid) (path : Path) (content : Bytes) : MemEngine Oid :=
  { e with working := e.working.insert path content }

def stageRemove (e : MemEngine Oid) (path : Path) : MemEngine Oid :=
  { e with working := e.working.erase path }

def markBootstrapPending (e : MemEngine Oid) : MemEngine Oid :=
  { e with state := { e.state with bootstrapPending := true } }

def markBootstrapComplete (e : MemEngine Oid) : MemEngine Oid :=
  { e with state := { e.state with bootstrapPending := false } }

def setIgnore (e : MemEngine Oid) (ignore : List Str) : MemEngine Oid :=
  { e with scope := rebuildScope e.config ignore }

def writeTree (files : FileMap) : EngineM Oid Oid := do
  let (put, root) := writeTreeFromFiles files
  withStore (StoreM.putAll put)
  pure root

def recompute : EngineM Oid Unit := do
  let e ← get
  let m ← withStore (computeMain e.state.known)
  modify fun e => { e with main := some m }

/-- Local intent forgets the quarantined paths; the moves wait for the next plan. -/
def dropQuarantined (e : MemEngine Oid) (ts : Str) (paths : List Path) : MemEngine Oid :=
  { e with
    working := paths.foldl (fun w p => w.erase p) e.working
    state := { e.state with
      materialized := paths.foldl (fun m p => m.erase p) e.state.materialized }
    pendingQuarantines := e.pendingQuarantines ++
      paths.map fun p => .quarantine p (orphanPath ts p) }

/-- The new primitive is put, known, and counted; `main` follows; the record is what was
committed. -/
def author (parent : Oid) (l : Layer1 Oid) (now : Nat) : EngineM Oid Oid := do
  let tree ← writeTree l.filtered
  let e ← get
  let (counter, st) := e.state.nextCounter
  set { e with state := st }
  let prim := buildPrimitiveWithReadd e.identity tree parent counter now "ctx edit".toList l.readds
  let oid ← withStore (StoreM.put prim)
  modify fun e => { e with state := e.state.addKnown oid }
  recompute
  modify fun e => { e with state := { e.state with materialized := recordOf l.filtered } }
  pure oid

def commitScoped (scopedFiles : FileMap) (now : Nat) : EngineM Oid (Option Oid) := do
  let e ← get
  if e.state.bootstrapPending then pure none
  else
    let parent ← match e.main with
      | some m => pure m
      | none => withStore genesis
    let parentTree ← withStore (StoreM.read fun s => mainTree s parent)
    let l ← withStore (StoreM.read fun s => layer1 s parent parentTree e.state.materialized
          scopedFiles)
    modify fun e => e.dropQuarantined (orphansBucket now) l.quarantines
    -- the record is compared after the quarantined paths have left it
    let e ← get
    if genuineChange e.state.materialized l.filtered then
      let oid ← author parent l now
      pure (some oid)
    else pure none

def commitStaged (now : Nat) : EngineM Oid (Option Oid) := do
  let e ← get
  commitScoped (canonicalizeKeeps e.working e.scope) now

def commitFromFiles (files : FileMap) (now : Nat) : EngineM Oid (Option Oid) := do
  modify fun e => { e with working := files }
  commitStaged now

/-- Integrate received raw objects: store them all, verify the synthetic commits among
them, admit the primitives that verify, and recompute `main` if one is new. -/
def integrate (raws : List Bytes) : EngineM Oid Nat := do
  withStore (putRaws raws)
  let ok ← withStore (verifyBatch raws)
  if !ok then pure 0
  else
    let e ← get
    let (st, admitted) := raws.foldl admitOne (e.state, 0)
    set { e with state := st }
    -- an error of the fold leaves the batch known
    if admitted > 0 then recompute
    pure admitted

/-! ### Materialization -/

/-- One path the engine materialized and `main` no longer has. -/
def planRemoval (onDisk want : FileMap)
    (acc : List MaterializeOp × Std.ExtTreeMap Path Oid compare) (p : Path) :
    List MaterializeOp × Std.ExtTreeMap Path Oid compare :=
  let (ops, mat) := acc
  if want.contains p then acc
  else
    let ops := match onDisk[p]? with
      | some disk => if some (blobHash disk) = mat[p]? then ops ++ [.remove p] else ops
      | none => ops
    (ops, mat.erase p)

def planWrite (onDisk : FileMap)
    (acc : List MaterializeOp × Std.ExtTreeMap Path Oid compare) (f : Path × Bytes) :
    List MaterializeOp × Std.ExtTreeMap Path Oid compare :=
  let (ops, mat) := acc
  let (p, content) := f
  let write := (ops ++ [.write p content], mat.insert p (blobHash content))
  match onDisk[p]? with
  | some d =>
    let contended := some (blobHash d) ≠ mat[p]?
    -- bytes that nobody recorded are the user's
    if contended && d ≠ content then (ops ++ [.defer p], mat)
    else if d = content then (ops, mat.insert p (blobHash content))
    else write
  | none => write

/-- The no-clobber plan for a wanted file map: removals first, then the wanted files. -/
def plan (onDisk want : FileMap)
    (acc : List MaterializeOp × Std.ExtTreeMap Path Oid compare) :
    List MaterializeOp × Std.ExtTreeMap Path Oid compare :=
  want.toList.foldl (planWrite onDisk) (acc.2.keys.foldl (planRemoval onDisk want) acc)

def materializePlan (onDisk : FileMap) : EngineM Oid (List MaterializeOp) := do
  let e ← get
  -- taken out at once: a plan that fails loses them
  set { e with pendingQuarantines := [] }
  match e.main with
  | none => pure e.pendingQuarantines
  | some main =>
    let tree ← withStore (StoreM.read fun s => mainTree s main)
    let want ← withStore (StoreM.read fun s => treeFiles s tree)
    let (ops, mat) := plan onDisk want (e.pendingQuarantines, e.state.materialized)
    modify fun e => { e with state := { e.state with materialized := mat } }
    pure ops

/-- What the host is about to do to its files, done to the staged set. -/
def applyOp (working : FileMap) : MaterializeOp → FileMap
  | .write path content => working.insert path content
  | .remove path => working.erase path
  | .defer _ => working
  | .quarantine source _ => working.erase source

def materializeStaged : EngineM Oid (List MaterializeOp) := do
  let e ← get
  let ops ← materializePlan e.working
  modify fun e => { e with working := ops.foldl applyOp e.working }
  pure ops

/-! ### Export -/

def frontierTips (e : MemEngine Oid) : CspResult (List Oid) := frontier e.store e.state.known

def exportClosure (e : MemEngine Oid) (tips : List Oid) : CspResult (List Bytes) := do
  let set ← reachable e.store tips
  set.mapM e.store.getRaw

/-- Every tree and blob id reachable from a tree, added to a set. -/
def collectTreeObjects (s : Store Oid) : Nat → Oid → List Oid → CspResult (List Oid)
  | 0, _, _ => .error .abort
  | n + 1, treeOid, out =>
    if treeOid ∈ out then .ok out
    else do
      let out := treeOid :: out
      match ← s.get treeOid with
      | .tree entries =>
        entries.foldlM (fun out e => do
          match ← s.get e.oid with
          | .blob _ => pure (if e.oid ∈ out then out else e.oid :: out)
          | .tree _ => collectTreeObjects s n e.oid out
          | .commit _ => pure out) out
      | _ => pure out

/-- The primitive and the objects of its tree that its parent's tree does not have. -/
def exportPrimitive (e : MemEngine Oid) (primOid : Oid) : CspResult (List Bytes) := do
  match ← e.store.get primOid with
  | .commit c =>
    let parentOids ← match c.parents.head? with
      | none => pure []
      | some parentOid => do
        match ← e.store.get parentOid with
        | .commit pc => collectTreeObjects e.store (e.store.size + 1) pc.tree []
        | _ => pure []
    let primSet ← collectTreeObjects e.store (e.store.size + 1) c.tree []
    let primRaw ← e.store.getRaw primOid
    let rest ← ((primSet.filter (· ∉ parentOids)).insertionSort (· ≤ ·)).mapM e.store.getRaw
    pure (primRaw :: rest)
  | _ => .error (.malformed "export_primitive: not a commit".toList)

end MemEngine

end Csp
