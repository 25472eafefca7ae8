import Mathlib.Data.List.Sort
import Std.Data.ExtTreeMap
import Csp.Crates

/-! Git objects: their framed encoding, the parser that reads a frame back, and the flat
`path -> bytes` view of a tree. -/

namespace Csp

abbrev Path := Str
abbrev FileMap := Std.ExtTreeMap Path Bytes compare

def fileMode : Str := "100644".toList
def treeMode : Str := "40000".toList

structure TreeEntry (Oid : Type) where
  mode : Str
  name : Str
  oid : Oid
  deriving DecidableEq

structure CommitObj (Oid : Type) where
  tree : Oid
  parents : List Oid
  author : Str
  authorEmail : Str
  authorTime : Nat
  committer : Str
  committerEmail : Str
  committerTime : Nat
  message : Str
  deriving DecidableEq

inductive GitObject (Oid : Type)
  | blob (b : Bytes)
  | tree (entries : List (TreeEntry Oid))
  | commit (c : CommitObj Oid)
  deriving DecidableEq

variable {Oid : Type}

/-- The ids an object holds, in the order `reachable` pushes them. -/
def GitObject.refs : GitObject Oid → List Oid
  | .blob _ => []
  | .tree es => es.map (·.oid)
  | .commit c => c.tree :: c.parents

def GitObject.kind : GitObject Oid → Str
  | .blob _ => "blob".toList
  | .tree _ => "tree".toList
  | .commit _ => "commit".toList

/-! ### Encoding -/

/-- Git orders tree entries by name bytes, a directory as if its name ended in `/`. -/
def treeSortKey (e : TreeEntry Oid) : Bytes :=
  if e.mode = treeMode then utf8 e.name ++ utf8 ['/'] else utf8 e.name

def sortEntries (es : List (TreeEntry Oid)) : List (TreeEntry Oid) :=
  es.insertionSort fun a b => treeSortKey a ≤ treeSortKey b

section Encoding
variable [ObjectId Oid]

def entryPayload (e : TreeEntry Oid) : Bytes :=
  utf8 e.mode ++ utf8 [' '] ++ utf8 e.name ++ 0 :: raw e.oid

def identLine (role name email : Str) (time : Nat) : Str :=
  role ++ ' ' :: name ++ " <".toList ++ email ++ "> ".toList ++ decimal time ++ " +0000\n".toList

def parentLine (p : Oid) : Str := "parent ".toList ++ toHex p ++ ['\n']

def commitText (c : CommitObj Oid) : Str :=
  "tree ".toList ++ (toHex c.tree ++ '\n' :: (c.parents.flatMap parentLine ++
    (identLine "author".toList c.author c.authorEmail c.authorTime ++
      (identLine "committer".toList c.committer c.committerEmail c.committerTime ++
        '\n' :: c.message))))

def GitObject.payload : GitObject Oid → Bytes
  | .blob b => b
  | .tree es => (sortEntries es).flatMap entryPayload
  | .commit c => utf8 (commitText c)

/-- `"<type> <len>\0<payload>"`. -/
def GitObject.framed (x : GitObject Oid) : Bytes :=
  utf8 (x.kind ++ ' ' :: decimal x.payload.length) ++ 0 :: x.payload

def GitObject.oid (x : GitObject Oid) : Oid := sha1 x.framed

end Encoding

/-! ### Parsing -/

section Parsing
variable [ObjectId Oid]

def parseTreeAux : Nat → Bytes → CspResult (List (TreeEntry Oid))
  | _, [] => .ok []
  -- not reached from `parseTree`
  | 0, _ :: _ => .error .abort
  | n + 1, payload@(_ :: _) =>
    match Split.cut 32 payload with
    | none => .error (.malformed "tree entry missing space".toList)
    | some (modeBytes, rest) =>
      match fromUtf8 modeBytes with
      | none => .error (.malformed "tree mode utf8".toList)
      | some mode =>
        match Split.cut 0 rest with
        | none => .error (.malformed "tree entry missing NUL".toList)
        | some (nameBytes, rest) =>
          match fromUtf8 nameBytes with
          | none => .error (.malformed "tree name utf8".toList)
          | some name =>
            match takeRaw rest with
            | none => .error (.malformed "tree entry truncated oid".toList)
            -- the entries are taken in the order they come in
            | some (oid, rest) => do
              let es ← parseTreeAux n rest
              pure ({ mode, name, oid } :: es)

/-- An entry takes at least two bytes, so the payload's length bounds the iterations. -/
def parseTree (payload : Bytes) : CspResult (List (TreeEntry Oid)) :=
  parseTreeAux payload.length payload

/-- The email is sliced between the first `<` and the first `>`, which must come later. -/
def parseIdent (s : Str) : CspResult (Str × Str × Nat) :=
  match Split.cut '<' s, Split.cut '>' s with
  | none, _ => .error (.malformed "ident missing <".toList)
  | _, none => .error (.malformed "ident missing >".toList)
  | some (name, _), some (upToGt, rest) =>
    -- slicing a string backwards panics
    if upToGt.length ≤ name.length then .error .abort
    else
      let email := upToGt.drop (name.length + 1)
      let time := ((firstWord (trim rest)).bind parseU64).getD 0
      .ok (trim name, email, time)

structure CommitHeader (Oid : Type) where
  tree : Option Oid := none
  parents : List Oid := []
  author : Str := []
  authorEmail : Str := []
  authorTime : Nat := 0
  committer : Str := []
  committerEmail : Str := []
  committerTime : Nat := 0

def headerLine (h : CommitHeader Oid) (line : Str) : CspResult (CommitHeader Oid) :=
  match stripPrefix "tree ".toList line with
  | some rest => do
    let t ← fromHex (trim rest)
    pure { h with tree := some t }
  | none =>
    match stripPrefix "parent ".toList line with
    | some rest => do
      let p ← fromHex (trim rest)
      pure { h with parents := h.parents ++ [p] }
    | none =>
      match stripPrefix "author ".toList line with
      | some rest => do
        let (n, e, t) ← parseIdent rest
        pure { h with author := n, authorEmail := e, authorTime := t }
      | none =>
        match stripPrefix "committer ".toList line with
        | some rest => do
          let (n, e, t) ← parseIdent rest
          pure { h with committer := n, committerEmail := e, committerTime := t }
        | none => .ok h

/-- The header ends at the first empty line; the lines after it are the message. -/
def parseHeader (h : CommitHeader Oid) : List Str → CspResult (CommitHeader Oid × List Str)
  | [] => .ok (h, [])
  | l :: ls =>
    if l = [] then .ok (h, ls)
    else do
      let h ← headerLine h l
      parseHeader h ls

def parseCommit (payload : Bytes) : CspResult (CommitObj Oid) := do
  let (h, rest) ← parseHeader {} (Split.splitOn '\n' (fromUtf8Lossy payload))
  match h.tree with
  | none => .error (.malformed "commit missing tree".toList)
  | some tree =>
    pure { tree, parents := h.parents, author := h.author, authorEmail := h.authorEmail,
           authorTime := h.authorTime, committer := h.committer,
           committerEmail := h.committerEmail, committerTime := h.committerTime,
           message := Split.join '\n' rest }

/-- The declared length is a `usize`, and the length of every payload is one. -/
def parseFramed (framed : Bytes) : CspResult (GitObject Oid) :=
  match Split.cut 0 framed with
  | none => .error (.malformed "missing header NUL".toList)
  | some (headerBytes, payload) =>
    match fromUtf8 headerBytes with
    | none => .error (.malformed "non-utf8 header".toList)
    | some header =>
      match Split.cut ' ' header with
      | none => .error (.malformed "bad header".toList)
      | some (kind, len) =>
        match parseUnsigned (max (2 ^ 64) (payload.length + 1)) len with
        | none => .error (.malformed "bad header length".toList)
        | some declared =>
          if declared ≠ payload.length then
            .error (.malformed ("framed length ".toList ++ decimal declared ++ " != payload ".toList
              ++ decimal payload.length))
          else if kind = "blob".toList then .ok (.blob payload)
          else if kind = "tree".toList then do
            let es ← parseTree payload
            pure (.tree es)
          else if kind = "commit".toList then do
            let c ← parseCommit payload
            pure (.commit c)
          else .error (.malformed ("unknown object kind ".toList ++ kind))

variable [Crates]

def GitObject.compress (x : GitObject Oid) : Bytes := Crates.deflate x.framed

def decompressAndParse (compressed : Bytes) : CspResult (GitObject Oid) :=
  match Crates.inflate compressed with
  | none => .error (.malformed "zlib inflate".toList)
  | some framed => parseFramed framed

end Parsing

/-! ### Trees and flat file maps -/

/-- The files of a map below a prefix, by what follows it; a path equal to the prefix is
skipped. -/
def relFiles (pre : Str) (files : FileMap) : List (Str × Bytes) :=
  files.toList.filterMap fun (path, content) =>
    match stripPrefix pre path with
    | none => none
    | some rel => if rel = [] then none else some (rel, content)

def addDirect (m : FileMap) (f : Str × Bytes) : FileMap :=
  if '/' ∈ f.1 then m else m.insert f.1 f.2

def directFiles (pre : Str) (files : FileMap) : FileMap := (relFiles pre files).foldl addDirect ∅

def addSubdir (m : Std.ExtTreeMap Str Unit compare) (f : Str × Bytes) :
    Std.ExtTreeMap Str Unit compare :=
  match Split.cut '/' f.1 with
  | none => m
  | some (dir, _) => m.insert dir ()

def subdirs (pre : Str) (files : FileMap) : Std.ExtTreeMap Str Unit compare :=
  (relFiles pre files).foldl addSubdir ∅

def depthBound (files : FileMap) : Nat := (files.keys.map List.length).foldr max 0 + 1

section Trees
variable [ObjectId Oid]

/-- The objects `build_tree` puts, in order, and the id of the tree: the blobs of the
direct files, the subtrees, then the tree itself. -/
def buildTree : Nat → Str → FileMap → List (GitObject Oid) × Oid
  | 0, _, _ => ([], (GitObject.tree []).oid)
  | n + 1, pre, files =>
    let direct := directFiles pre files
    let blobs : List (GitObject Oid) := direct.toList.map fun (_, content) => .blob content
    let fileEntries := direct.toList.map fun (name, content) =>
      { mode := fileMode, name, oid := (GitObject.blob content).oid : TreeEntry Oid }
    let subs := (subdirs pre files).keys.map fun name =>
      (name, buildTree n (pre ++ name ++ ['/']) files)
    let dirEntries := subs.map fun (name, _, oid) => { mode := treeMode, name, oid : TreeEntry Oid }
    let tree := GitObject.tree (fileEntries ++ dirEntries)
    (blobs ++ subs.flatMap (fun (_, put, _) => put) ++ [tree], tree.oid)

def writeTreeFromFiles (files : FileMap) : List (GitObject Oid) × Oid :=
  buildTree (depthBound files) [] files

/-- Recursion deeper than `fuel` trees stands for recursion without bound. -/
def walkTree (get : Oid → CspResult (GitObject Oid)) :
    Nat → Str → Oid → FileMap → CspResult FileMap
  | 0, _, _, _ => .error .abort
  | n + 1, pre, treeOid, out => do
    match ← get treeOid with
    | .tree entries =>
      entries.foldlM (fun out e =>
        let path := pre ++ e.name
        if e.mode = treeMode then walkTree get n (path ++ ['/']) e.oid out
        else do
          match ← get e.oid with
          | .blob b => .ok (out.insert path b)
          | _ => .error (.malformed (toHex e.oid ++ " is not a blob".toList))) out
    | _ => .error (.malformed (toHex treeOid ++ " is not a tree".toList))

def readTreeToFiles (fuel : Nat) (get : Oid → CspResult (GitObject Oid)) (root : Oid) :
    CspResult FileMap :=
  walkTree get fuel [] root ∅

end Trees

end Csp
