import Csp.Disk
import Csp.State

/-! The native vault: the engine of a full node over a repository on disk, a working tree,
and a state file. The files below `.context/` other than `exclude` and the quarantine are
not on the modelled disk: the object store, the refs and the state file are fields, and the disk
says which of their writes it refuses. -/

namespace Csp
open Result
variable {Oid : Type} [ObjectId Oid] [Crates]

structure Vault (Oid : Type) [ObjectId Oid] where
  root : Key
  disk : Disk
  store : Store Oid
  /-- `refs/heads/main`. -/
  mainRef : Option Oid
  /-- `refs/heads/node/<NodeId>`. -/
  nodeTips : Std.ExtTreeMap NodeId Oid compare
  state : EngineState Oid
  /-- What `.context/state` holds. -/
  saved : EngineState Oid
  scope : Scope
  identity : Identity
  config : VaultConfig

abbrev VaultM (Oid : Type) [ObjectId Oid] := StM CspError (Vault Oid)

namespace Vault

def contextIgnore : Str := ".contextignore".toList

def globsOf (d : Disk) (k : Key) : List Str :=
  match (d.read k).bind fromUtf8 with
  | some s => lines s
  | none => []

def loadIgnore (root : Key) (d : Disk) : List Str :=
  globsOf d (root ++ [contextIgnore]) ++ globsOf d (root ++ [contextDir, "exclude".toList])

/-- The merge on save: what is in the file and only grows is kept. -/
def mergeSaved (st saved : EngineState Oid) : EngineState Oid :=
  { st with
    snapshots := saved.snapshots.foldl (fun m k v => m.insertIfNew k v) st.snapshots
    known := saved.known.foldl (fun known o => if o ∈ known then known else known ++ [o]) st.known
    observed := max st.observed saved.observed
    counter := max st.counter saved.counter }

/-- What a save makes of the file: nothing is merged in that cannot be read. -/
def savedState (v : Vault Oid) : EngineState Oid :=
  if v.disk.refuses .loadState then v.state else mergeSaved v.state v.saved

/-- The file is locked, written aside and renamed; if that fails it is as it was. -/
def save : VaultM Oid Unit := fun v =>
  if v.disk.refuses .saveState then (.error ioError, v)
  else (.ok (), { v with saved := v.savedState })

def withStore {α : Type} (x : StoreM Oid α) : VaultM Oid α := fun v =>
  let (r, s) := x v.store
  (r, { v with store := s })

/-- A computation that puts objects. It ends with its first new object if the system refuses
to write that; an object that is there already is not written. -/
def withPuts {α : Type} (call : Call) (x : StoreM Oid α) : VaultM Oid α := fun v =>
  let (r, s) := x v.store
  if s.size ≠ v.store.size && v.disk.refuses call then (.error ioError, v)
  else (r, { v with store := s })

/-- `Repo::set_main`. -/
def setMain (m : Oid) : VaultM Oid Unit := fun v =>
  if v.disk.refuses .setMain then (.error ioError, v) else (.ok (), { v with mainRef := some m })

/-- `Repo::set_node_tip`. -/
def setNodeTip (node : NodeId) (o : Oid) : VaultM Oid Unit := fun v =>
  if v.disk.refuses .setNodeTip then (.error ioError, v)
  else (.ok (), { v with nodeTips := v.nodeTips.insert node o })

def withDisk {α : Type} (x : DiskM α) : VaultM Oid α := fun v =>
  let (r, d) := x v.disk
  (r, { v with disk := d })

/-- A new vault over a working tree; nothing but its own directory is written. A call that fails
leaves no vault. -/
def create (root : Key) (disk : Disk) (identity : Identity) (vaultId : Str) :
    CspResult (Vault Oid) :=
  match DiskM.createDirAll (root ++ [contextDir]).path disk with
  | (.error e, _) => .error e
  | (.ok (), disk) =>
    if [Call.putFold, .setMain, .saveState].any disk.refuses then .error ioError else
    let config : VaultConfig := { vaultId, name := [] }
    let state : EngineState Oid := { vaultId }
    .ok { root, disk, store := (genesis (Store.empty .disk)).2,
          mainRef := some (GitObject.commit genesisCommit).oid, nodeTips := ∅, state,
          saved := state,
          scope := { includes := config.includes, ignore := [], allowBinary := config.allowBinary },
          identity, config }

def scanPrimitives (s : Store Oid) : List Oid := s.objs.keys.filter (isPrimitiveOid s)

def rescan (s : Store Oid) (st : EngineState Oid) (o : Oid) : EngineState Oid :=
  let st := st.addKnown o
  match loadCommit s o with
  | .ok c =>
    match parsePrimitiveMeta c with
    | some (counter, _) => st.observe counter
    | none => st
  | .error _ => st

/-- `Vault::open` on what a vault left on disk: its memory is rebuilt from the state file
and a scan of the object store. A call that fails leaves what is on disk. -/
def reopen (v : Vault Oid) (identity : Identity) : Vault Oid :=
  let state := (scanPrimitives v.store).foldl (rescan v.store) v.saved
  { v with
    state, identity
    saved := mergeSaved state v.saved
    scope := { includes := v.config.includes, ignore := loadIgnore v.root v.disk,
               allowBinary := v.config.allowBinary } }

def refreshScope (v : Vault Oid) : Vault Oid :=
  { v with scope := { includes := v.config.includes, ignore := loadIgnore v.root v.disk,
                      allowBinary := v.config.allowBinary } }

def scan (v : Vault Oid) : CspResult FileMap :=
  (v.disk.walkFiles v.root).foldlM (fun out (rel, k) =>
    match v.disk.read k with
    | none => .error ioError
    | some content =>
      .ok (if v.scope.contentInScope rel content then out.insert rel content else out)) ∅

def injectEmptyDirKeeps (v : Vault Oid) (files : FileMap) : FileMap :=
  (v.disk.walkDirs v.root).foldl (fun files (rel, k) =>
    if rel = [] || !v.scope.pathInScope rel then files
    else if v.disk.isEmptyDir k then files.insert (rel ++ '/' :: keep) [] else files) files

/-! ### Materialization -/

/-- One path that was materialized and that `main` no longer has. Failing to remove the
file, or an emptied directory, is no error. -/
def materializeRemoval (want : FileMap) (v : Vault Oid) (p : Path) : Vault Oid :=
  if want.contains p then v
  else
    let disk := match v.disk.readPath v.root p with
      | some d =>
        if some (blobHash d) = v.state.materialized[p]? then
          let parent := (components v.root p).dropLast
          Disk.pruneEmptyDirs v.root.path parent.length parent (v.disk.removePath v.root p)
        else v.disk
      | none => v.disk
    { v with disk, state := { v.state with materialized := v.state.materialized.erase p } }

def record (p : Path) (content : Bytes) (v : Vault Oid) : Vault Oid :=
  { v with state := { v.state with
      materialized := v.state.materialized.insert p (blobHash content) } }

def materializeWrite (f : Path × Bytes) : VaultM Oid Unit := do
  let (p, content) := f
  let v ← get
  let write : VaultM Oid Unit := do
    withDisk (DiskM.writeAtomic v.root p content)
    modify (record p content)
  match v.disk.readPath v.root p with
  | some d =>
    let contended := some (blobHash d) ≠ v.state.materialized[p]?
    -- bytes that nobody recorded are the user's, and stay
    if contended && d ≠ content then pure ()
    else if d = content then modify (record p content)
    else write
  | none => write

def materialize : VaultM Oid Unit := do
  let v ← get
  match v.mainRef with
  | none => pure ()
  | some main =>
    let tree ← withStore (StoreM.read fun s => mainTree s main)
    let want ← withStore (StoreM.read fun s => treeFiles s tree)
    modify fun v => v.state.materialized.keys.foldl (materializeRemoval want) v
    -- the first write that fails ends the pass before its record is saved
    want.toList.forM materializeWrite
    save

def recomputeAndMaterialize : VaultM Oid Unit := do
  let v ← get
  let m ← withPuts .putFold (computeMain v.state.known)
  setMain m
  materialize

/-! ### Commit -/

/-- Move one stale file away. If the move fails the file stays, and so does its record. -/
def quarantineFile (ts : Str) (v : Vault Oid) (p : Path) : Vault Oid :=
  match DiskM.moveFile v.root p (orphanPath ts p) v.disk with
  | (.ok (), disk) =>
    { v with disk, state := { v.state with materialized := v.state.materialized.erase p } }
  | (.error _, disk) => { v with disk }

def writeTree (files : FileMap) : VaultM Oid Oid := do
  let (put, root) := writeTreeFromFiles files
  withPuts .putTree (StoreM.putAll put)
  pure root

def author (parent : Oid) (l : Layer1 Oid) (now : Nat) : VaultM Oid Oid := do
  let tree ← writeTree l.filtered
  let v ← get
  let (counter, st) := v.state.nextCounter
  set { v with state := st }
  let prim := buildPrimitiveWithReadd v.identity tree parent counter now "ctx edit".toList l.readds
  let oid ← withPuts .putPrimitive (StoreM.put prim)
  modify fun v => { v with state := v.state.addKnown oid }
  setNodeTip v.identity.nodeId oid
  recomputeAndMaterialize
  save
  pure oid

/-- The in-scope files of the working tree, with a sentinel for each empty directory. -/
def workingFiles (v : Vault Oid) : CspResult FileMap := do
  let files ← v.scan
  pure (canonicalizeKeeps (v.injectEmptyDirKeeps files) v.scope)

/-- The clock is read twice, for the name of the quarantine bucket and for the commit. -/
def commitLocalChanges (bucketTime now : Nat) : VaultM Oid (Option Oid) := do
  let v ← get
  if v.state.bootstrapPending then pure none
  else
    modify refreshScope
    let v ← get
    let files ← fun v => (v.workingFiles, v)
    let parent ← match v.mainRef with
      | some m => pure m
      | none => withPuts .putFold genesis
    let parentTree ← withStore (StoreM.read fun s => mainTree s parent)
    let l ← withStore (StoreM.read fun s => layer1 s parent parentTree v.state.materialized files)
    modify fun v => l.quarantines.foldl (quarantineFile (orphansBucket bucketTime)) v
    let v ← get
    if genuineChange v.state.materialized l.filtered then
      let oid ← author parent l now
      pure (some oid)
    else
      -- the moves alone are worth a save
      if l.quarantines ≠ [] then save
      pure none

def markBootstrapPending : VaultM Oid Unit := do
  modify fun v => { v with state := { v.state with bootstrapPending := true } }
  save

def markBootstrapComplete : VaultM Oid Unit := fun v =>
  if v.state.bootstrapPending then
    -- `let _ = self.save()`
    (.ok (), (save { v with state := { v.state with bootstrapPending := false } }).2)
  else (.ok (), v)

/-! ### Integration -/

def putEach : Nat → List Bytes → VaultM Oid Unit
  | _, [] => pure ()
  | n, raw :: raws => do
    let _ ← withPuts (.putRaw n) (StoreM.putRaw raw)
    putEach (n + 1) raws

/-- Of what verification puts nothing is asked afterwards; that the system could refuse it, which
would be a verdict against the batch, is left out. -/
def integrate (raws : List Bytes) : VaultM Oid Nat := do
  putEach 0 raws
  let ok ← withStore (verifyBatch raws)
  if !ok then pure 0
  else
    let v ← get
    let (st, admitted) := raws.foldl admitOne (v.state, 0)
    set { v with state := st }
    -- what has been admitted is known in memory whether or not the rest succeeds
    if admitted > 0 then recomputeAndMaterialize
    save
    pure admitted

end Vault

end Csp
