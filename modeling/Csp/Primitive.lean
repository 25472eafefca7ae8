import Mathlib.Data.Prod.Lex
import Csp.Object

/-! Primitive commits: the strict total order on them, the trailers that make a commit a
primitive, and how one is built, signed and verified. -/

namespace Csp
variable {Oid : Type}

/-- The strict-total-order key `(counter, NodeId, commitSHA)`. -/
structure OrderKey (Oid : Type) where
  counter : Nat
  node : NodeId
  sha : Oid
  deriving DecidableEq

def OrderKey.lex (k : OrderKey Oid) : ℕ ×ₗ NodeId ×ₗ Oid := toLex (k.counter, toLex (k.node, k.sha))

theorem OrderKey.lex_injective : Function.Injective (@OrderKey.lex Oid) := by
  rintro ⟨c, n, s⟩ ⟨c', n', s'⟩ h
  simpa [OrderKey.lex] using h

instance [LinearOrder Oid] : LinearOrder (OrderKey Oid) :=
  LinearOrder.lift' OrderKey.lex OrderKey.lex_injective

variable [Crates]

/-- What one message line does to the counter and node read so far. -/
def metaLine (m : Option Nat × Option NodeId) (line : Str) : Option Nat × Option NodeId :=
  match stripPrefix "CSP-Counter: ".toList line with
  | some v => (parseU64 (trim v), m.2)
  | none =>
    match stripPrefix "CSP-Node: ".toList line with
    | some v => (m.1, NodeId.fromHex (trim v))
    | none => m

/-- The `(counter, NodeId)` trailer of a message; the last line of each kind counts. -/
def messageMeta (message : Str) : Option (Nat × NodeId) :=
  match (lines message).foldl metaLine (none, none) with
  | (some counter, some node) => some (counter, node)
  | _ => none

def parsePrimitiveMeta (c : CommitObj Oid) : Option (Nat × NodeId) := messageMeta c.message

def isPrimitive (c : CommitObj Oid) : Bool := (parsePrimitiveMeta c).isSome

def sigTrailer : Str := "CSP-Signature: ".toList
def readdTrailer : Str := "CSP-Readd: ".toList

section Identified
variable [ObjectId Oid]

/-- The ids of the `CSP-Readd:` trailers; a malformed one is skipped. -/
def parsePrimitiveReadds (c : CommitObj Oid) : List Oid :=
  (lines c.message).filterMap fun line =>
    match stripPrefix readdTrailer line with
    | some v => (fromHex (trim v)).toOption
    | none => none

structure Identity where
  seed : Bytes
  deriving DecidableEq

def Identity.nodeId (id : Identity) : NodeId := Crates.verifyingKey id.seed
def Identity.sign (id : Identity) (msg : Bytes) : Bytes := Crates.sign id.seed msg

def primitiveBody (node : NodeId) (counter : Nat) (subject : Str) (readds : List Oid) : Str :=
  subject ++ "\n\nCSP-Counter: ".toList ++ decimal counter ++ "\nCSP-Node: ".toList ++ node.toHex ++
    ['\n'] ++ readds.flatMap fun r => readdTrailer ++ toHex r ++ ['\n']

def unsignedPrimitive (id : Identity) (tree parent : Oid) (counter wallTime : Nat) (subject : Str)
    (readds : List Oid) : CommitObj Oid :=
  let node := id.nodeId
  let email := node.toHex.take 16 ++ "@csp".toList
  { tree, parents := [parent], author := node.toHex, authorEmail := email, authorTime := wallTime,
    committer := node.toHex, committerEmail := email, committerTime := wallTime,
    message := primitiveBody node counter subject readds }

def buildPrimitiveWithReadd (id : Identity) (tree parent : Oid) (counter wallTime : Nat)
    (subject : Str) (readds : List Oid) : GitObject Oid :=
  let unsigned := unsignedPrimitive id tree parent counter wallTime subject readds
  let sig := Crates.base64Encode (id.sign (GitObject.commit unsigned).payload)
  .commit { unsigned with message := unsigned.message ++ sigTrailer ++ sig ++ ['\n'] }

/-- Verify the in-object signature against the `CSP-Node` key. The last line that starts
like a signature must be the end of the message. -/
def verifyPrimitive (c : CommitObj Oid) : CspResult NodeId :=
  match parsePrimitiveMeta c with
  | none => .error (.badSignature "not a primitive (no CSP-Node)".toList)
  | some (_, node) =>
    match (lines c.message).reverse.find? (fun l => sigTrailer.isPrefixOf l) with
    | none => .error (.badSignature "missing CSP-Signature".toList)
    | some sigLine =>
      let sigB64 := sigLine.drop sigTrailer.length
      match Crates.base64Decode (trim sigB64) with
      | none => .error (.badSignature "base64".toList)
      | some sig =>
        match stripSuffix (sigTrailer ++ sigB64 ++ ['\n']) c.message with
        | none => .error (.badSignature "signature not final trailer".toList)
        | some preMsg =>
          if Crates.verify node (GitObject.commit { c with message := preMsg }).payload sig then
            .ok node
          else .error (.badSignature "signature error".toList)

end Identified

end Csp
