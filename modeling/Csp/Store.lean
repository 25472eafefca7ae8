import Mathlib.Data.Finset.Basic
import Csp.Lib.Result
import Csp.Object

/-! Object stores. `MemStore` keeps each object as it was first put; `DiskStore` keeps its
compressed frame, so what comes back is what the parser makes of it. -/

namespace Csp

inductive Backend
  | mem
  | disk
  deriving DecidableEq

variable {Oid : Type} [ObjectId Oid] [Crates]

def Backend.reread : Backend → GitObject Oid → CspResult (GitObject Oid)
  | .mem, x => .ok x
  | .disk, x => decompressAndParse x.compress

/-- A store: for each id in it, what `get` yields. -/
structure Store (Oid : Type) [ObjectId Oid] where
  backend : Backend
  objs : Std.ExtTreeMap Oid (CspResult (GitObject Oid)) compare

namespace Store

def empty (b : Backend) : Store Oid := ⟨b, ∅⟩

def get (s : Store Oid) (o : Oid) : CspResult (GitObject Oid) :=
  match s.objs[o]? with
  | some r => r
  | none => .error (.objectNotFound (toHex o))

def has (s : Store Oid) (o : Oid) : Bool := s.objs.contains o

/-- The number of objects. No chain of distinct ids in the store is longer. -/
def size (s : Store Oid) : Nat := s.objs.size

/-- The number of references the stored objects hold between them. -/
def linkCount (s : Store Oid) : Nat :=
  (s.objs.toList.map fun (_, r) => match r with
    | .ok x => x.refs.length
    | .error _ => 0).sum

/-- `put` keeps what is already stored under the id. -/
def put (s : Store Oid) (x : GitObject Oid) : Store Oid :=
  { s with objs := s.objs.insertIfNew x.oid (s.backend.reread x) }

def getRaw (s : Store Oid) (o : Oid) : CspResult Bytes := do
  let x ← s.get o
  pure x.compress

def putAll (s : Store Oid) (xs : List (GitObject Oid)) : Store Oid := xs.foldl put s

end Store

abbrev StoreM (Oid : Type) [ObjectId Oid] := Result.StM CspError (Store Oid)

namespace StoreM

def read {α : Type} (f : Store Oid → CspResult α) : StoreM Oid α := fun s => (f s, s)

def put (x : GitObject Oid) : StoreM Oid Oid := fun s => (.ok x.oid, s.put x)

def putAll (xs : List (GitObject Oid)) : StoreM Oid Unit := fun s => (.ok (), s.putAll xs)

/-- `put_raw`: the peer's bytes, inflated and parsed, stored under the id of the object. -/
def putRaw (compressed : Bytes) : StoreM Oid Oid :=
  match decompressAndParse compressed with
  | .ok x => put x
  | .error e => throw e

end StoreM

end Csp
