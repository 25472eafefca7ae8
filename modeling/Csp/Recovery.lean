import Csp.Engine
import Csp.Vault
import Csp.Session

/-! Point-in-time recovery. A snapshot is the frontier under a name; a restore folds a set
of known primitives again, and the tree it finds becomes an ordinary edit. The clock is an
argument, and the tag that the native vault sets beside the record is left out. -/

namespace Csp
variable {Oid : Type} [ObjectId Oid]

def EngineState.addSnapshot (st : EngineState Oid) (name : Str) (tips : List Oid) (now : Nat) :
    EngineState Oid :=
  { st with
    snapshots :=
      st.snapshots.insert name { label := name, frontier := tips, createdUnix := now } }

def subsetTree (s : Store Oid) (main : Oid) : CspResult Oid := do
  match ← s.get main with
  | .commit c => pure c.tree
  | _ => .error (.malformed "subset main not a commit".toList)

def noSnapshot (name : Str) : CspError := .other ("no snapshot ".toList ++ name)

def authoredBy (s : Store Oid) (time : Nat) (known : List Oid) : CspResult (List Oid) :=
  known.foldlM (fun subset o => do
    match ← s.get o with
    | .commit c => pure (if c.authorTime ≤ time then subset ++ [o] else subset)
    | _ => pure subset) []

variable [Crates]

def foldSubset (subset : List Oid) : StoreM Oid FileMap := do
  let m ← computeMain subset
  let tree ← StoreM.read fun s => subsetTree s m
  StoreM.read fun s => treeFiles s tree

namespace MemEngine

def snapshot (name : Str) (now : Nat) : EngineM Oid Unit := do
  let tips ← fun e => (e.frontierTips, e)
  modify fun e => { e with state := e.state.addSnapshot name tips now }

def restoreSnapshot (name : Str) : EngineM Oid FileMap := do
  let e ← get
  match e.state.snapshots[name]? with
  | none => throw (noSnapshot name)
  | some snap => withStore (foldSubset snap.frontier)

def restoreTime (time : Nat) : EngineM Oid FileMap := do
  let e ← get
  let subset ← withStore (StoreM.read fun s => authoredBy s time e.state.known)
  withStore (foldSubset subset)

end MemEngine

namespace Vault

def snapshot (name : Str) (now : Nat) : VaultM Oid Unit := do
  let tips ← fun v => (v.frontierTips, v)
  let v ← get
  match v.mainRef with
  | none => throw (.other "no main".toList)
  | some _ =>
    modify fun v => { v with state := v.state.addSnapshot name tips now }
    save

/-- One file of the restored tree: written over whatever is there, its record forgotten. -/
def restoreFile (f : Path × Bytes) : VaultM Oid Unit := do
  let (p, content) := f
  let v ← get
  withDisk (DiskM.createDirAll (components v.root p).dropLast)
  withDisk do
    let d ← get
    DiskM.write (d.fileKey v.root p) content
  modify fun v => { v with state := { v.state with materialized := v.state.materialized.erase p } }

/-- One in-scope file of the working tree that the restored tree may lack. -/
def restoreRemoval (tree : FileMap) (v : Vault Oid) (p : Path) : Vault Oid :=
  if tree.contains p then v
  else
    let parent := (components v.root p).dropLast
    let disk := v.disk.removePath v.root p
    { v with disk := Disk.pruneEmptyDirs v.root.path parent.length parent disk }

/-- Write the tree into the working files, remove the others, and commit. -/
def applyRestore (tree : FileMap) (bucketTime now : Nat) : VaultM Oid Unit := do
  tree.toList.forM restoreFile
  let cur ← fun v => (v.scan, v)
  modify fun v => cur.keys.foldl (restoreRemoval tree) v
  let _ ← commitLocalChanges bucketTime now

def restoreSnapshot (name : Str) (bucketTime now : Nat) : VaultM Oid Unit := do
  let v ← get
  match v.state.snapshots[name]? with
  | none => throw (noSnapshot name)
  | some snap =>
    let tree ← withPuts .putFold (foldSubset snap.frontier)
    applyRestore tree bucketTime now

def restoreTime (time bucketTime now : Nat) : VaultM Oid Unit := do
  let v ← get
  let subset ← withStore (StoreM.read fun s => authoredBy s time v.state.known)
  let tree ← withPuts .putFold (foldSubset subset)
  applyRestore tree bucketTime now

end Vault

end Csp
