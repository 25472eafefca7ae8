import Mathlib.Data.List.AList
import Csp.Object

/-! The bridge of the plugin between the editor's vault and the engine's working files. Every
`await` of its source is a point at which the user, the engine and the host may act. What the
host answers is an argument of the step: whether a call succeeds, and whether its index knows
a path. A lookup and the call that follows it may be two steps here. -/

namespace Csp.Bridge

abbrev Content := Str

/-- A file object of the host. It outlives the file, and its `path` follows a rename. -/
abbrev FileId := Nat

abbrev EditorFiles := AList fun _ : Path => FileId × Content
abbrev EngineFiles := AList fun _ : Path => Content

inductive Kind
  | wrote
  | deleted
  | renamed (oldPath : Path)
  deriving DecidableEq

/-- An event of the host. `own` is the path at which the bridge caused it. -/
inductive Event
  | file (id : FileId) (kind : Kind) (own : Option Path)
  | folderMade (dir : Path)
  | folderGone (dir : Path)
  deriving DecidableEq

/-- The path of the file whose event the bridge suppresses. It takes no token for a folder
that it makes. -/
def Event.own : Event → Option Path
  | .file _ _ own => own
  | .folderMade _ => none
  | .folderGone dir => some dir

inductive Op
  | event (e : Event)
  | applyTreeChanges (changes : List (Path × Option Content))
  | applyRemoteState
  deriving DecidableEq

def Op.event? : Op → Option Event
  | .event e => some e
  | _ => none

/-- What an apply awaits of the host for one path. -/
inductive Act
  | read (file : FileId) (path : Path) (content : Content)
  | modify (file : FileId) (path : Path) (content : Content)
  | ensureFolder (path : Path) (content : Content) (folders : List Path)
  | create (path : Path) (content : Content)
  | delete (file : FileId) (path : Path)
  | prune (dir : Path)
  | rmdir (dir : Path)
  deriving DecidableEq

/-- What is left of an apply: the rest of a change set, or of one of the two loops of
`runApplyRemoteState` with its `currentPaths`. -/
inductive Rest
  | changes (changes : List (Path × Option Content))
  | files (files current : List Path)
  | tombstones (paths current : List Path)
  deriving DecidableEq

/-- The operation at the head of the queue, at one of its `await`s. -/
inductive Running
  | write (file : FileId)
  | compare (file : FileId) (content remote : Content)
  | afterDelete (path : Path)
  | deleteChildren (paths : List Path)
  | moved (file : FileId)
  | apply (act : Option Act) (rest : Rest)
  deriving DecidableEq

structure State where
  editor : EditorFiles
  shown : FileId → Path
  nextFile : FileId
  engine : EngineFiles
  suppressed : Path → Nat
  knownSdkPaths : List Path
  opQueue : List Op
  inflight : List Event
  running : Option Running
  applyTimer : Bool
  applyPending : Bool
  applyInFlight : Bool

/-- How the host answers. To a lookup, `cold` is a miss of its index. To a failed creation,
`cold` is `already exists` from a host whose index then misses the file. -/
inductive Reply
  | done
  | cold
  | alreadyExists
  | notFound
  | fails
  deriving DecidableEq

/-! ### Paths -/

def parentDir (path : Path) : Path :=
  path.take (path.length - (path.reverse.takeWhile (· ≠ '/')).length - 1)

def inFolder (folder path : Path) : Bool := path = folder || (folder ++ ['/']).isPrefixOf path

def keepOf (folder : Path) : Path := folder ++ "/.keep".toList

def isKeepSentinel (path : Path) : Bool := path = ".keep".toList || "/.keep".toList.isSuffixOf path

def isContextInternal (path : Path) : Bool :=
  path = ".context".toList || ".context/".toList.isPrefixOf path

def textExts : List Str :=
  ["md", "mdx", "txt", "canvas", "json", "css", "yaml", "yml", "csv"].map String.toList

/-- What follows the last dot of a name, unless that is its first character. Only two characters
past ASCII have ASCII letters in their lower case, `k` and `i`, and no extension of the list has
these. -/
def extOf (path : Path) : Str :=
  let base := (path.reverse.takeWhile (· ≠ '/')).reverse
  let ext := (base.reverse.takeWhile (· ≠ '.')).reverse
  if base.length ≤ ext.length + 1 then [] else ext.map Char.toLower

/-- The filter of the plugin. `ignored` is what the user's globs match. -/
def shouldSync (ignored : Path → Bool) (path : Path) : Bool :=
  if path = [] || isContextInternal path || ignored path then false
  else path = ".contextignore".toList || isKeepSentinel path || textExts.contains (extOf path)

def folders (path : Path) : List Path :=
  (((Split.splitOn '/' (parentDir path)).filter (· ≠ [])).inits.drop 1).map (Split.join '/')

namespace State

def textAt (s : State) (path : Path) : Option Content := (s.editor.lookup path).map Prod.snd

/-- `vault.read`. -/
def read (s : State) (file : FileId) : Option Content :=
  match s.editor.lookup (s.shown file) with
  | some (id, text) => if id = file then some text else none
  | none => none

def engineChildren (s : State) (folder : Path) : List Path := s.engine.keys.filter (inFolder folder)

/-- The events that the bridge has not handled yet, the oldest first. -/
def waiting (s : State) : List Event :=
  s.opQueue.filterMap Op.event? ++ s.inflight

def suppress (s : State) (path : Path) : State :=
  { s with suppressed := Function.update s.suppressed path (s.suppressed path + 1) }

def consumeSuppression (s : State) (path : Path) : Option State :=
  if s.suppressed path = 0 then none
  else some { s with suppressed := Function.update s.suppressed path (s.suppressed path - 1) }

def writeTextFile (s : State) (path : Path) (content : Content) : State :=
  { s with engine := s.engine.insert path content }

def deleteFile (s : State) (path : Path) : State := { s with engine := s.engine.erase path }

def renameFile (s : State) (old new : Path) : State :=
  match s.engine.lookup old with
  -- nothing to move is no error
  | none => s
  | some text => { s with engine := (s.engine.insert new text).erase old }

/-! ### The host -/

def emit (s : State) (e : Event) : State := { s with inflight := s.inflight ++ [e] }

def createFile (s : State) (path : Path) (text : Content) (own : Option Path) : State :=
  { s with
    editor := s.editor.insert path (s.nextFile, text)
    shown := Function.update s.shown s.nextFile path
    nextFile := s.nextFile + 1
    inflight := s.inflight ++ [.file s.nextFile .wrote own] }

def modifyFile (s : State) (file : FileId) (text : Content) (own : Option Path) : State :=
  { s with
    editor := s.editor.insert (s.shown file) (file, text)
    inflight := s.inflight ++ [.file file .wrote own] }

def removeFile (s : State) (file : FileId) (own : Option Path) : State :=
  { s with
    editor := s.editor.erase (s.shown file)
    inflight := s.inflight ++ [.file file .deleted own] }

def moveFile (s : State) (file : FileId) (text : Content) (new : Path) : State :=
  { s with
    editor := (s.editor.erase (s.shown file)).insert new (file, text)
    shown := Function.update s.shown file new
    inflight := s.inflight ++ [.file file (.renamed (s.shown file)) none] }

/-- `vault.delete(folder, true)`, which takes what is in the folder with it. -/
def removeFolder (s : State) (folder : Path) : State :=
  let inside := s.editor.keys.filter (inFolder folder)
  { s with
    editor := inside.foldl (fun files p => files.erase p) s.editor
    inflight := s.inflight ++ inside.filterMap (fun p =>
      (s.editor.lookup p).map fun f => .file f.1 .deleted (some p)) ++ [.folderGone folder] }

/-! ### From the editor to the engine -/

variable (filter : Path → Bool)

def runHandleObsidianWrite (s : State) (file : FileId) : State :=
  match s.consumeSuppression (s.shown file) with
  | some s => s
  | none => if filter (s.shown file) then { s with running := some (.write file) } else s

def runHandleFolder (s : State) (dir : Path) : State :=
  if filter (keepOf dir) && (s.engineChildren dir).isEmpty then s.writeTextFile (keepOf dir) []
  else s

def runHandleObsidianDelete (s : State) (file : FileId) : State :=
  match s.consumeSuppression (s.shown file) with
  | some s => s
  | none =>
    if (s.engine.lookup (s.shown file)).isSome then
      { s.deleteFile (s.shown file) with running := some (.afterDelete (s.shown file)) }
    else s

def runHandleFolderDelete (s : State) (dir : Path) : State :=
  match s.consumeSuppression dir with
  | some s => s
  | none => { s with running := some (.deleteChildren (s.engineChildren dir)) }

def runHandleObsidianRename (s : State) (file : FileId) (oldPath : Path) : State :=
  match s.consumeSuppression (s.shown file) with
  | some s => s
  | none =>
    match filter oldPath, filter (s.shown file) with
    | true, true =>
      if (s.engine.lookup oldPath).isSome then s.renameFile oldPath (s.shown file)
      else { s with running := some (.moved file) }
    | true, false => s.deleteFile oldPath
    | false, true => { s with running := some (.moved file) }
    | false, false => s

/-! ### From the engine to the editor -/

def scheduleApplyRemoteState (s : State) : State :=
  if s.applyInFlight || s.applyTimer then { s with applyPending := true }
  else { s with applyTimer := true }

/-- The end of an operation. After a pass over the engine's state that did not throw, the next
one is scheduled if it was asked for meanwhile. -/
def finish (s : State) (rest : Rest) (thrown : Bool) : State :=
  match rest with
  | .changes _ => { s with running := none }
  | _ =>
    if s.applyPending && !thrown then
      scheduleApplyRemoteState
        { s with running := none, applyInFlight := false, applyPending := false }
    else { s with running := none, applyInFlight := false }

def await (s : State) (act : Option Act) (rest : Rest) : State :=
  { s with running := some (.apply act rest) }

def applyContent (s : State) (warm : Bool) (path : Path) (content : Content)
    (rest : Rest) : State :=
  match s.editor.lookup path, warm with
  | some (file, _), true => s.await (some (.read file path content)) rest
  | _, _ => s.await (some (.ensureFolder path content (folders path))) rest

/-- `resolveVaultFile` reaches past the index. -/
def applyRemoval (s : State) (path : Path) (rest : Rest) : State :=
  match s.editor.lookup path with
  | some (file, _) => (s.suppress path).await (some (.delete file path)) rest
  | none => s.await none rest

def advance (s : State) (warm : Bool) : Rest → State
  | .changes [] => s.finish (.changes []) false
  | .changes ((path, change) :: cs) =>
    if !filter path then s.await none (.changes cs)
    else
      match change with
      | none =>
        { s with knownSdkPaths := s.knownSdkPaths.filter (· ≠ path) }.applyRemoval path
          (.changes cs)
      | some content =>
        { s with knownSdkPaths := s.knownSdkPaths.insert path }.applyContent warm path content
          (.changes cs)
  | .files [] current => s.await none (.tombstones s.knownSdkPaths current)
  | .files (path :: ps) current =>
    if !filter path then s.await none (.files ps current)
    else
      let s := { s with knownSdkPaths := s.knownSdkPaths.insert path }
      match s.engine.lookup path with
      -- the read of a file that is gone throws, which ends the pass
      | none => s.finish (.files ps current) true
      | some content => s.applyContent warm path content (.files ps (current.insert path))
  | .tombstones [] current =>
    { s with knownSdkPaths := current }.finish (.tombstones [] current) false
  | .tombstones (path :: ps) current =>
    if path ∈ current || !filter path then s.await none (.tombstones ps current)
    else s.applyRemoval path (.tombstones ps current)

def pruneEmptyFolders (path : Path) : Option Act :=
  if parentDir path = [] then none else some (.prune (parentDir path))

/-- Whether the folder still holds a file of the editor or of the engine. -/
def stillUsed (s : State) (dir : Path) : Bool :=
  s.editor.keys.any (inFolder dir) || s.engine.keys.any (inFolder dir)

def answer (s : State) (rest : Rest) : Act → Reply → Option State
  | .read file path content, .done =>
    (s.read file).map fun cur =>
      if cur = content then s.await none rest
      else (s.suppress path).await (some (.modify file path content)) rest
  | .modify file path content, .done =>
    (s.read file).map fun _ => (s.modifyFile file content (some path)).await none rest
  | .ensureFolder path content [], .done =>
    some ((s.suppress path).await (some (.create path content)) rest)
  -- the folder is in the index
  | .ensureFolder path content (_ :: dirs), .done =>
    some (s.await (some (.ensureFolder path content dirs)) rest)
  | .ensureFolder path content (_ :: dirs), .alreadyExists =>
    some (s.await (some (.ensureFolder path content dirs)) rest)
  | .ensureFolder path content (dir :: dirs), .cold =>
    some ((s.emit (.folderMade dir)).await (some (.ensureFolder path content dirs)) rest)
  | .create path content, .done =>
    if (s.editor.lookup path).isNone then
      some ((s.createFile path content (some path)).await none rest)
    else none
  -- the token of the creation is left for the event of the modification
  | .create path content, .alreadyExists =>
    some (s.await ((s.editor.lookup path).map fun f => .modify f.1 path content) rest)
  | .create path content, .cold =>
    match rest with
    | .changes _ => some (s.await none rest)
    | _ => some (s.await ((s.editor.lookup path).map fun f => .modify f.1 path content) rest)
  | .delete file path, .done =>
    (s.read file).map fun _ => (s.removeFile file (some path)).await (pruneEmptyFolders path) rest
  | .delete _ _, .notFound => some (s.await none rest)
  | .delete _ path, .fails =>
    match rest with
    -- kept among the current paths, so that the next pass tries again
    | .tombstones ps current => some (s.await none (.tombstones ps (current.insert path)))
    | _ => some (s.await none rest)
  | .prune _, .cold => some (s.await none rest)
  | .prune dir, .done =>
    if s.stillUsed dir then some (s.await none rest)
    else some ((s.suppress dir).await (some (.rmdir dir)) rest)
  | .rmdir dir, .done => some ((s.removeFolder dir).await (pruneEmptyFolders dir) rest)
  | .rmdir _, .fails => some (s.await none rest)
  | .read .., .fails | .modify .., .fails | .ensureFolder _ _ (_ :: _), .fails
  | .create .., .fails =>
    some (s.finish rest true)
  | _, _ => none

/-! ### The steps -/

def start (s : State) : Op → State
  | .event (.file file .wrote _) => s.runHandleObsidianWrite filter file
  | .event (.file file .deleted _) => s.runHandleObsidianDelete file
  | .event (.file file (.renamed old) _) => s.runHandleObsidianRename filter file old
  | .event (.folderMade dir) => s.runHandleFolder filter dir
  | .event (.folderGone dir) => s.runHandleFolderDelete dir
  | .applyTreeChanges changes => s.await none (.changes changes)
  | .applyRemoteState => s.await none (.files s.engine.keys [])

def resume (s : State) : Running → Reply → Option State
  | .write file, .done =>
    (s.read file).map fun content =>
      match s.engine.lookup (s.shown file) with
      | some remote => { s with running := some (.compare file content remote) }
      | none => { s.writeTextFile (s.shown file) content with running := none }
  | .compare file content remote, .done =>
    some (if remote = content then { s with running := none }
      else { s.writeTextFile (s.shown file) content with running := none })
  | .afterDelete path, .done =>
    let keep := keepOf (parentDir path)
    some (if parentDir path ≠ [] && (s.engineChildren (parentDir path)).isEmpty && filter keep then
      { s.writeTextFile keep [] with running := none } else { s with running := none })
  | .afterDelete _, .cold => some { s with running := none }
  | .deleteChildren [], .done => some { s with running := none }
  | .deleteChildren (p :: ps), .done =>
    some { s.deleteFile p with running := some (.deleteChildren ps) }
  | .moved file, .done =>
    (s.read file).map fun content => { s.writeTextFile (s.shown file) content with running := none }
  | .write _, .fails | .moved _, .fails => some { s with running := none }
  | .apply none rest, .done => some (s.advance filter true rest)
  | .apply none rest, .cold => some (s.advance filter false rest)
  | .apply (some act) rest, reply => s.answer rest act reply
  | _, _ => none

end State

inductive Action
  | userCreate (path : Path) (text : Content)
  | userModify (path : Path) (text : Content)
  | userDelete (path : Path)
  | userRename (path new : Path)
  | materialize (changes : List (Path × Option Content))
  | restore (tree : EngineFiles)
  | deliver
  | timerFires
  | start
  | resume (reply : Reply)

/-- `materializeFromMain`, one change of its plan. -/
def materializeOne (engine : EngineFiles) : Path × Option Content → EngineFiles
  | (path, some content) => engine.insert path content
  | (path, none) => engine.erase path

def step (filter : Path → Bool) (s : State) : Action → Option State
  | .userCreate path text =>
    if (s.editor.lookup path).isNone then some (s.createFile path text none) else none
  | .userModify path text => (s.editor.lookup path).map fun f => s.modifyFile f.1 text none
  | .userDelete path => (s.editor.lookup path).map fun f => s.removeFile f.1 none
  | .userRename path new =>
    if (s.editor.lookup new).isSome then none
    else (s.editor.lookup path).map fun f => s.moveFile f.1 f.2 new
  | .materialize changes =>
    some { s with
      engine := changes.foldl materializeOne s.engine
      opQueue := if changes.isEmpty then s.opQueue else s.opQueue ++ [.applyTreeChanges changes] }
  | .restore tree => some { s with engine := tree }.scheduleApplyRemoteState
  | .deliver =>
    match s.inflight with
    | [] => none
    | e :: rest => some { s with opQueue := s.opQueue ++ [.event e], inflight := rest }
  | .timerFires =>
    if s.applyTimer then
      some { s with applyTimer := false, applyInFlight := true,
                    opQueue := s.opQueue ++ [.applyRemoteState] }
    else none
  | .start =>
    match s.running, s.opQueue with
    | none, op :: rest => some ({ s with opQueue := rest }.start filter op)
    | _, _ => none
  | .resume reply => s.running.bind fun r => s.resume filter r reply

end Csp.Bridge
