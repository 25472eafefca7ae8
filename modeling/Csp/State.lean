import Csp.Fold
import Csp.Scope

/-! Durable engine state, the vault configuration, and the parts of a commit that the
in-memory engine and the native vault share word for word. Object ids and blob hashes are
kept as hex in the source; here they are ids. -/

namespace Csp
variable {Oid : Type}

structure Snapshot (Oid : Type) where
  label : Str
  frontier : List Oid
  createdUnix : Nat
  deriving DecidableEq

structure EngineState (Oid : Type) where
  vaultId : Str := []
  /-- This node's own last counter. -/
  counter : Nat := 0
  /-- The greatest counter seen in any commit. -/
  observed : Nat := 0
  known : List Oid := []
  /-- The hash last materialized at each path. -/
  materialized : Std.ExtTreeMap Path Oid compare := ∅
  snapshots : Std.ExtTreeMap Str (Snapshot Oid) compare := ∅
  bootstrapPending : Bool := false

structure VaultConfig where
  vaultId : Str
  name : Str
  peers : List Str := []
  listen : Option Str := none
  noTofu : Bool := false
  noTls : Bool := false
  log : Option Str := none
  debounceMs : Nat := 1000
  allowBinary : Bool := false
  includes : List Str := ["**".toList]
  authKeys : List Str := []
  defaultKeyTtlDays : Option Nat := none

namespace EngineState
variable [DecidableEq Oid]

def addKnown (st : EngineState Oid) (o : Oid) : EngineState Oid :=
  if o ∈ st.known then st else { st with known := st.known ++ [o] }

/-- The counter of this node's next primitive. The addition is on 64 bits. -/
def nextCounter (st : EngineState Oid) : Nat × EngineState Oid :=
  let c := (st.observed + 1) % 2 ^ 64
  (c, { st with counter := c, observed := max st.observed c })

def observe (st : EngineState Oid) (counter : Nat) : EngineState Oid :=
  { st with observed := max st.observed counter }

end EngineState

/-! ### Names of quarantine buckets -/

def padded (width n : Nat) : Str := List.replicate (width - (decimal n).length) '0' ++ decimal n

def civilFromDays (days : Nat) : Nat × Nat × Nat :=
  let z := days + 719468
  let era := z / 146097
  let doe := z - era * 146097
  let yoe := (doe - doe / 1460 + doe / 36524 - doe / 146096) / 365
  let y := yoe + era * 400
  let doy := doe - (365 * yoe + yoe / 4 - yoe / 100)
  let mp := (5 * doy + 2) / 153
  let d := doy - (153 * mp + 2) / 5 + 1
  let m := if mp < 10 then mp + 3 else mp - 9
  (if m ≤ 2 then y + 1 else y, m, d)

/-- `YYYY-MM-DDThh-mm-ssZ`. -/
def orphansBucket (t : Nat) : Str :=
  let (y, m, d) := civilFromDays (t / 86400)
  let secs := t % 86400
  padded 4 y ++ '-' :: padded 2 m ++ '-' :: padded 2 d ++ 'T' :: padded 2 (secs / 3600) ++
    '-' :: padded 2 (secs % 3600 / 60) ++ '-' :: padded 2 (secs % 60) ++ ['Z']

def orphanPath (ts : Str) (path : Path) : Path :=
  contextDir ++ "/orphans/".toList ++ ts ++ '/' :: path

/-! ### The commit body -/

section Commit
variable [ObjectId Oid] [Crates]

def blobHash (content : Bytes) : Oid := (GitObject.blob content).oid

/-- The guard's sorting of the working paths: what is published, which deletions are
named as re-added, and which paths are quarantined. -/
structure Layer1 (Oid : Type) where
  filtered : FileMap := ∅
  readds : List Oid := []
  quarantines : List Path := []

def classify (s : Store Oid) (parent parentTree : Oid)
    (materialized : Std.ExtTreeMap Path Oid compare) (l : Layer1 Oid) (path : Path)
    (content : Bytes) : CspResult (Layer1 Oid) := do
  if ← pathPresentInTree s parentTree path then
    pure { l with filtered := l.filtered.insert path content }
  else
    match ← mostRecentTouch s parent path with
    | some (deleteOid, .delete) =>
      -- the host still shows what the engine wrote before the deletion
      if materialized.contains path then
        pure { l with quarantines := l.quarantines ++ [path] }
      else
        pure { l with
          filtered := l.filtered.insert path content
          readds := if deleteOid ∈ l.readds then l.readds else l.readds ++ [deleteOid] }
    | _ => pure { l with filtered := l.filtered.insert path content }

def layer1 (s : Store Oid) (parent parentTree : Oid)
    (materialized : Std.ExtTreeMap Path Oid compare) (scopedFiles : FileMap) :
    CspResult (Layer1 Oid) :=
  scopedFiles.toList.foldlM (fun l (path, content) =>
      classify s parent parentTree materialized l path content) {}

/-- Does the published set differ from the last-materialized record? -/
def genuineChange (materialized : Std.ExtTreeMap Path Oid compare) (filtered : FileMap) : Bool :=
  filtered.toList.any (fun (p, c) => materialized[p]? ≠ some (blobHash c)) ||
    materialized.keys.any fun p => !filtered.contains p

def recordOf (files : FileMap) : Std.ExtTreeMap Path Oid compare := files.map fun _ c => blobHash c

def mainTree (s : Store Oid) (main : Oid) : CspResult Oid := do
  match ← s.get main with
  | .commit c => pure c.tree
  | _ => .error (.malformed "main is not a commit".toList)

/-- The verification pass over a received batch: every synthetic commit in it must
reproduce. It ends at the first that does not. -/
def verifyBatch : List Bytes → StoreM Oid Bool
  | [] => pure true
  | r :: rs =>
    match (decompressAndParse r : CspResult (GitObject Oid)) with
    | .ok (.commit c) =>
      if (parsePrimitiveMeta c).isNone then fun s =>
        match verifyFoldCommit (GitObject.commit c).oid s with
        | (.ok _, s') => verifyBatch rs s'
        | (.error _, s') => (.ok false, s')
      else verifyBatch rs
    | _ => verifyBatch rs

/-- Admission of one received object: a primitive whose signature verifies is known from
now on, and its counter observed. The second component counts new ones. -/
def admitOne (p : EngineState Oid × Nat) (r : Bytes) : EngineState Oid × Nat :=
  match (decompressAndParse r : CspResult (GitObject Oid)) with
  | .ok (.commit c) =>
    match parsePrimitiveMeta c with
    | some (counter, _) =>
      match verifyPrimitive c with
      | .error _ => p
      | .ok _ =>
        let oid := (GitObject.commit c).oid
        -- a counter is observed again with every delivery
        let (st, n) := if oid ∈ p.1.known then p else (p.1.addKnown oid, p.2 + 1)
        (st.observe counter, n)
    | none => p
  | _ => p

def putRaws : List Bytes → StoreM Oid Unit
  | [] => pure ()
  | r :: rs => do
    let _ ← StoreM.putRaw r
    putRaws rs

end Commit

end Csp
