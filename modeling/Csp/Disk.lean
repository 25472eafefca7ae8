import Csp.Lib.Result
import Csp.Lib.Split
import Csp.Scope

/-! The files under a native vault. A path is joined as `Path::join` does it and walked as the
system does it, except that there are no symbolic links; every call may be refused. -/

namespace Csp
open Result

/-- A file or directory, by its names from the root of the file system. -/
abbrev Key := List Str

/-- What the vault asks of the system. The state file, the refs and the object store are not on
the modelled disk, but their writes can fail too; `putRaw n` is that of the `n`-th of a batch. -/
inductive Call
  | readFile (k : Key)
  | createDir (k : Key)
  | createFile (k : Key)
  | writeAt (k : Key) (offset : Nat)
  | rename (source target : Key)
  | removeFile (k : Key)
  | removeDir (k : Key)
  | putRaw (n : Nat)
  | putFold
  | putTree
  | putPrimitive
  | setMain
  | setNodeTip
  | loadState
  | saveState
  deriving DecidableEq

structure Disk where
  files : Std.ExtTreeMap Key Bytes compare
  dirs : Std.ExtTreeMap Key Unit compare
  /-- The calls the system refuses for reasons of its own. -/
  refuses : Call → Bool

/-- The system has no file name with a NUL. -/
def Disk.NulFree (d : Disk) : Prop :=
  ∀ k, k ∈ d.files.keys ∨ k ∈ d.dirs.keys → ∀ seg ∈ k, Char.ofNat 0 ∉ seg

instance (d : Disk) : Decidable d.NulFree :=
  decidable_of_iff (∀ k ∈ d.files.keys ++ d.dirs.keys, ∀ seg ∈ k, Char.ofNat 0 ∉ seg)
    (by simp [Disk.NulFree])

abbrev DiskM := StM CspError Disk

def ioError : CspError := .io "os error".toList

/-! ### Paths -/

/-- `std::path::Component`, of a path from the root of the file system. -/
inductive Component
  | normal (name : Str)
  | parentDir
  deriving DecidableEq

abbrev PathBuf := List Component

def component (seg : Str) : Component := if seg = ['.', '.'] then .parentDir else .normal seg

def Key.path (k : Key) : PathBuf := k.map .normal

/-- The components of `root.join(p)`; an absolute `p` replaces the root. -/
def components (root : Key) (p : Path) : PathBuf :=
  (if p.head? = some '/' then [] else root.path) ++
    ((Split.splitOn '/' p).filter fun seg => seg ≠ [] && seg ≠ ['.']).map component

/-- Does a path name an entry by its last segment? One that ends in `/`, `.` or `..` does not. -/
def namesEntry (p : Path) : Bool :=
  (Split.splitOn '/' p).getLast?.any fun seg => seg ≠ [] && seg ≠ ['.'] && seg ≠ ['.', '.']

/-- `Path::file_stem`: up to the last dot, unless the name starts with it. -/
def fileStem (name : Str) : Str :=
  match Split.cut '.' name.reverse with
  | none => name
  | some (_, stem) => if stem = [] then name else stem.reverse

/-- `Path::with_extension`; `..` has no file name to change. -/
def withExtension (ext : Str) (path : PathBuf) : PathBuf :=
  match path.getLast? with
  | some (.normal name) => path.dropLast ++ [.normal (fileStem name ++ '.' :: ext)]
  | _ => path

def placeStep (k : Key) : Component → Key
  | .normal name => k ++ [name]
  | .parentDir => k.dropLast

def place (path : PathBuf) : Key := path.foldl placeStep []

/-- The entry that a path names as a file, once all of its directories are there. -/
def placeOf (root : Key) (p : Path) : Option Key :=
  if namesEntry p then some (place (components root p)) else none

/-- A path below the root, with `/` between its components whatever the platform. -/
def relPath (comps : Key) : Path := (Split.join '/' comps).map fun c => if c = '\\' then '/' else c

/-! ### Calls -/

namespace Disk

def isDir (d : Disk) (k : Key) : Bool := k = [] || d.dirs.contains k

/-- One component of a walk: `..` leads out of directories only. -/
def walkStep (d : Disk) (k : Key) : Component → Option Key
  | .normal name => some (k ++ [name])
  | .parentDir => if d.isDir k then some k.dropLast else none

def walk (d : Disk) (path : PathBuf) : Option Key := path.foldlM d.walkStep []

def fileKey (d : Disk) (root : Key) (p : Path) : Option Key :=
  if namesEntry p then d.walk (components root p) else none

/-- `fs::read`, an error being `none`. -/
def read (d : Disk) (k : Key) : Option Bytes :=
  if d.refuses (.readFile k) then none else d.files[k]?

/-- `fs::read` of a path. -/
def readPath (d : Disk) (root : Key) (p : Path) : Option Bytes := (d.fileKey root p).bind d.read

def isEmptyDir (d : Disk) (k : Key) : Bool :=
  d.isDir k && !(d.files.keys ++ d.dirs.keys).any fun e => k.isPrefixOf e && e ≠ k

/-- The files below the root that the walk reaches, by their relative path. -/
def walkFiles (d : Disk) (root : Key) : List (Path × Key) :=
  (d.files.keys.filter fun k => root.isPrefixOf k && k ≠ root).filterMap fun k =>
    let rel := relPath (k.drop root.length)
    if underContext rel then none else some (rel, k)

def walkDirs (d : Disk) (root : Key) : List (Path × Key) :=
  (d.dirs.keys.filter fun k => root.isPrefixOf k && k ≠ root).filterMap fun k =>
    let rel := relPath (k.drop root.length)
    if underContext rel then none else some (rel, k)

def removeFile (d : Disk) (k : Key) : Disk :=
  if d.refuses (.removeFile k) then d else { d with files := d.files.erase k }

/-- `fs::remove_file` of a path, its error ignored. -/
def removePath (d : Disk) (root : Key) (p : Path) : Disk :=
  match d.fileKey root p with
  | some k => d.removeFile k
  | none => d

/-- Remove the emptied directories from `cur` upwards, stopping below the root. -/
def pruneEmptyDirs (root : PathBuf) : Nat → PathBuf → Disk → Disk
  | 0, _, d => d
  | n + 1, cur, d =>
    if cur = root || !root.isPrefixOf cur then d
    else match d.walk cur with
      | some k =>
        if d.isEmptyDir k && !d.refuses (.removeDir k) then
          pruneEmptyDirs root n cur.dropLast { d with dirs := d.dirs.erase k }
        else d
      | none => d

end Disk

namespace DiskM

def createDir (path : PathBuf) : DiskM Unit := fun d =>
  match d.walk path with
  | none => (.error ioError, d)
  | some k =>
    if d.isDir k then (.ok (), d)
    else if d.files.contains k || !d.isDir k.dropLast || d.refuses (.createDir k) then
      (.error ioError, d)
    else (.ok (), { d with dirs := d.dirs.insert k () })

def createDirAll (path : PathBuf) : DiskM Unit := path.inits.forM createDir

/-- `fs::write`: the file is created, or emptied, and written from the start. What is there when
the system refuses to go on stays. -/
def write (target : Option Key) (c : Bytes) : DiskM Unit := fun d =>
  match target with
  | none => (.error ioError, d)
  | some k =>
    if d.isDir k || !d.isDir k.dropLast || d.refuses (.createFile k) then (.error ioError, d)
    else match (List.range c.length).find? fun n => d.refuses (.writeAt k n) with
      | some n => (.error ioError, { d with files := d.files.insert k (c.take n) })
      | none => (.ok (), { d with files := d.files.insert k c })

/-- `fs::rename` of a file. -/
def rename (source target : Option Key) : DiskM Unit := fun d =>
  match source, target with
  | some source, some target =>
    match d.files[source]? with
    | none => (.error ioError, d)
    | some c =>
      if d.isDir target || !d.isDir target.dropLast || d.refuses (.rename source target) then
        (.error ioError, d)
      else (.ok (), { d with files := (d.files.erase source).insert target c })
  | _, _ => (.error ioError, d)

/-- The writer of `materialize`: the parent directories, a temporary file, a rename. -/
def writeAtomic (root : Key) (p : Path) (content : Bytes) : DiskM Unit := do
  let abs := components root p
  createDirAll abs.dropLast
  -- the name is derived from the target's, whatever may be there
  let tmp := withExtension "ctx-tmp".toList abs
  let d ← get
  write (d.walk tmp) content
  let d ← get
  rename (d.walk tmp) (d.fileKey root p)

def moveFile (root : Key) (source target : Path) : DiskM Unit := do
  createDirAll (components root target).dropLast
  let d ← get
  rename (d.fileKey root source) (d.fileKey root target)

end DiskM

end Csp
