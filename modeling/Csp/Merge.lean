import Csp.Object

/-! The 3-way merge: `diff3` on the lines of one file, whole-file selection where a file
is not text, and the path-by-path merge of two file maps against their base. -/

namespace Csp

def isBinary (b : Bytes) : Bool := (fromUtf8 b).isNone || b.contains 0

/-- Lines keep their terminator, so that concatenating them gives the text back. -/
def splitLines : Bytes → List Bytes
  | [] => []
  | b :: t =>
    if b = 10 then [b] :: splitLines t
    else match splitLines t with
      | [] => [[b]]
      | l :: ls => (b :: l) :: ls

section Diff
variable [Crates]

/-- Pairs of indices at which the line diff says the two sides are equal. -/
def equalPairs (base x : List Bytes) : List (Nat × Nat) :=
  (Crates.captureDiffSlices base x).flatMap fun op =>
    match op with
    | .equal oldIndex newIndex len =>
      (List.range len).map fun k => (oldIndex + k, newIndex + k)
    | _ => []

def pairMap (ps : List (Nat × Nat)) : Std.ExtTreeMap Nat Nat compare :=
  ps.foldl (fun m (i, j) => m.insert i j) ∅

/-- The base lines matched on both sides, ascending, with where they are matched. -/
def anchors (b o t : List Bytes) : List (Nat × Nat × Nat) :=
  let mb := pairMap (equalPairs b t)
  (pairMap (equalPairs b o)).toList.filterMap fun (bi, oi) => mb[bi]?.map fun ti => (bi, oi, ti)

/-- What a chunk between anchors resolves to: the side that changed it, and theirs if both
did. -/
def resolveChunk (bc oc tc : List Bytes) : Bytes :=
  let bs := bc.flatten
  let os := oc.flatten
  let ts := tc.flatten
  if os = ts then os
  else if os = bs then ts
  else if ts = bs then os
  else ts

def slice {α : Type*} (l : List α) (i j : Nat) : List α := (l.take j).drop i

/-- The chunks up to each anchor with the anchor's line, from the given positions on, and
the tail chunk. -/
def diff3Aux (b o t : List Bytes) (pb po pt : Nat) : List (Nat × Nat × Nat) → Bytes
  -- no anchor is left: the three tails are one chunk
  | [] => resolveChunk (b.drop pb) (o.drop po) (t.drop pt)
  | (bi, oi, ti) :: rest =>
    resolveChunk (slice b pb bi) (slice o po oi) (slice t pt ti) ++ b.getD bi [] ++
      diff3Aux b o t (bi + 1) (oi + 1) (ti + 1) rest

def diff3 (base ours theirs : Bytes) : Bytes :=
  let b := splitLines base
  let o := splitLines ours
  let t := splitLines theirs
  diff3Aux b o t 0 0 0 (anchors b o t)

def mergeBlob (base ours theirs : Bytes) : Bytes :=
  if isBinary base || isBinary ours || isBinary theirs then theirs
  else diff3 base ours theirs

def mergeChoice (b o t : Option Bytes) : Option Bytes :=
  if o = t then o
  else if o = b then t
  else if t = b then o
  else match b, o, t with
    | some bb, some oo, some tt => some (mergeBlob bb oo tt)
    -- added on both sides, or deleted on one and changed on the other
    | _, _, t => t

def mergeInto (base ours theirs out : FileMap) (p : Path) : FileMap :=
  match mergeChoice base[p]? ours[p]? theirs[p]? with
  | some c => out.insert p c
  | none => out

/-- Every path of the three maps is visited; a second visit inserts the same bytes. -/
def mergeTrees (base ours theirs : FileMap) : FileMap :=
  (base.keys ++ ours.keys ++ theirs.keys).foldl (mergeInto base ours theirs) ∅

end Diff

end Csp
