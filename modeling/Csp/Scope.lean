import Csp.Merge

/-! Scope: the gitignore-style matcher, the path and content rules, and the canonical form
of directory-preservation sentinels. -/

namespace Csp

def contextDir : Str := ".context".toList

structure Scope where
  includes : List Str
  ignore : List Str
  allowBinary : Bool
  deriving DecidableEq

inductive Tok
  | lit (c : Char)
  | any
  | star
  | dstar
  deriving DecidableEq

structure Glob where
  negated : Bool
  anchored : Bool
  toks : List Tok
  deriving DecidableEq

/-- Tokens of a pattern body; `**` swallows one following `/`. -/
def tokens : Str → List Tok
  | [] => []
  | '*' :: '*' :: '/' :: s => .dstar :: tokens s
  | '*' :: '*' :: s => .dstar :: tokens s
  | '*' :: s => .star :: tokens s
  | '?' :: s => .any :: tokens s
  | c :: s => .lit c :: tokens s

def trimEndMatches (c : Char) (s : Str) : Str := (s.reverse.dropWhile (· = c)).reverse
def trimStartMatches (c : Char) (s : Str) : Str := s.dropWhile (· = c)

/-- Compile one pattern; a blank line and a comment compile to nothing. Whether it is
anchored is decided after a trailing `/` is dropped and before leading ones are. -/
def compile (pat : Str) : Option Glob :=
  let p := trimEndMatches '\r' pat
  if trim p = [] || (trimStart p).head? = some '#' then none
  else
    let negated := p.head? = some '!'
    let p := if negated then p.tail else p
    let p := if p.getLast? = some '/' then p.dropLast else p
    some { negated, anchored := '/' ∈ p, toks := tokens (trimStartMatches '/' p) }

/-- Some tail of the text, reached over characters that `ok` allows, satisfies `f`. -/
def afterRun (ok : Char → Bool) (f : Str → Bool) : Str → Bool
  | [] => f []
  | c :: t => f (c :: t) || (ok c && afterRun ok f t)

/-- Match the tokens at the head of the text; what is left must be empty or start a new
path segment. -/
def bodyMatch : List Tok → Str → Bool
  | [], t => t = [] || t.head? = some '/'
  | .lit c :: toks, t =>
    match t with
    | d :: t => d = c && bodyMatch toks t
    | [] => false
  | .any :: toks, t =>
    match t with
    | d :: t => d ≠ '/' && bodyMatch toks t
    | [] => false
  | .star :: toks, t => afterRun (· ≠ '/') (bodyMatch toks) t
  | .dstar :: toks, t => afterRun (fun _ => true) (bodyMatch toks) t

/-- A pattern that is not anchored may start at the beginning or after any `/`. -/
def Glob.isMatch (g : Glob) (text : Str) : Bool :=
  if g.anchored then bodyMatch g.toks text
  else bodyMatch g.toks text ||
    text.tails.any fun t =>
      match t with
      | '/' :: t => bodyMatch g.toks t
      | _ => false

def matchesAny (globs : List Str) (rel : Path) : Bool :=
  globs.foldl (fun decision g =>
    match compile g with
    | some gl => if gl.isMatch rel then !gl.negated else decision
    | none => decision) false

def underContext (rel : Path) : Bool :=
  rel = contextDir || (contextDir ++ ['/']).isPrefixOf rel

def Scope.pathInScope (sc : Scope) (rel : Path) : Bool :=
  if underContext rel then false
  else if !(sc.includes.any fun g => (compile g).any fun gl => gl.isMatch rel) then false
  else !matchesAny sc.ignore rel

def Scope.contentInScope (sc : Scope) (rel : Path) (content : Bytes) : Bool :=
  if !sc.pathInScope rel then false
  else !(!sc.allowBinary && isBinary content)

def keep : Str := ".keep".toList

def isKeep (p : Path) : Bool := p = keep || ('/' :: keep).isSuffixOf p

def keepDir (p : Path) : Str := if p = keep then [] else p.take (p.length - ('/' :: keep).length)

def occupied (out : FileMap) (dir : Str) : Bool :=
  if dir = [] then !out.isEmpty
  else out.keys.any fun r => (dir ++ ['/']).isPrefixOf r

/-- The in-scope real files, then an empty sentinel for each supplied in-scope sentinel
whose directory is not occupied by what is in the map so far. -/
def canonicalizeKeeps (files : FileMap) (sc : Scope) : FileMap :=
  let real := files.filter fun p c => !isKeep p && sc.contentInScope p c
  files.keys.foldl (fun out p =>
    if !isKeep p || !sc.pathInScope p then out
    -- the sentinels placed so far count as files of their directories
    else if occupied out (keepDir p) then out
    else out.insert p []) real

end Csp
