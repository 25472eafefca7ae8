import Csp.Authkeys
import Csp.Engine
import Csp.Vault

/-! The replication session: the one protocol state machine. It is fed decoded messages and
answers with messages to send and closures to relay. -/

namespace Csp
open Result

/-! ### Messages -/

def protoVersion : Nat := 5

inductive Msg
  | hello (vaultId name nodeSsh : Str) (nonce cb : Bytes) (proto : Nat)
  | authProof (sig : Bytes)
  | frontierDigest (tips : List Str)
  | wantTips (tips : List Str)
  | objects (raws : List Bytes)
  | objectsBatch (raws : List Bytes) (isLast : Bool)
  | live (raws : List Bytes)
  | ping
  | pong
  deriving DecidableEq

/-! ### The engine behind a session -/

class SessionVault (V : Type) (Oid : outParam Type) where
  vaultId : V → Str
  name : V → Str
  identitySsh : V → Str
  sign : V → Bytes → Bytes
  frontierTips : V → CspResult (List Oid)
  known : V → List Oid
  has : V → Oid → Bool
  exportClosure : V → List Oid → CspResult (List Bytes)
  integrate : List Bytes → StM CspError V Nat
  admitPeer : (peerSsh : Str) → (enrollmentAuthorized : Bool) → (now : Nat) → StM CspError V Bool
  markBootstrapComplete : StM CspError V Unit

section Engines
variable {Oid : Type} [ObjectId Oid] [Crates]

def identitySsh (id : Identity) : Str := sshPubkeyString id.nodeId "csp".toList

def MemEngine.admitPeer (peerSsh : Str) (enrollmentAuthorized : Bool) (now : Nat) :
    EngineM Oid Bool :=
  fun e =>
    let (ok, authorized) := admitDecision e.config e.authorized peerSsh enrollmentAuthorized now
    (.ok ok, { e with authorized })

instance : SessionVault (MemEngine Oid) Oid where
  vaultId e := e.config.vaultId
  name e := e.config.name
  identitySsh e := identitySsh e.identity
  sign e := e.identity.sign
  frontierTips := MemEngine.frontierTips
  known e := e.state.known
  has e := e.store.has
  exportClosure := MemEngine.exportClosure
  integrate := MemEngine.integrate
  admitPeer := MemEngine.admitPeer
  markBootstrapComplete := modify MemEngine.markBootstrapComplete

structure KeyedVault (Oid : Type) [ObjectId Oid] where
  vault : Vault Oid
  authorized : Str

namespace KeyedVault

def withVault {α : Type} (x : VaultM Oid α) : StM CspError (KeyedVault Oid) α := fun v =>
  let (r, vault) := x v.vault
  (r, { v with vault })

def admitPeer (peerSsh : Str) (enrollmentAuthorized : Bool) (now : Nat) :
    StM CspError (KeyedVault Oid) Bool := fun v =>
  let (ok, authorized) := admitDecision v.vault.config v.authorized peerSsh enrollmentAuthorized now
  (.ok ok, { v with authorized })

end KeyedVault

def Vault.frontierTips (v : Vault Oid) : CspResult (List Oid) := frontier v.store v.state.known

def Vault.exportClosure (v : Vault Oid) (tips : List Oid) : CspResult (List Bytes) := do
  let set ← reachable v.store tips
  set.mapM v.store.getRaw

instance : SessionVault (KeyedVault Oid) Oid where
  vaultId v := v.vault.config.vaultId
  name v := v.vault.config.name
  identitySsh v := identitySsh v.vault.identity
  sign v := v.vault.identity.sign
  frontierTips v := v.vault.frontierTips
  known v := v.vault.state.known
  has v := v.vault.store.has
  exportClosure v := v.vault.exportClosure
  integrate raws := KeyedVault.withVault (Vault.integrate raws)
  admitPeer := KeyedVault.admitPeer
  markBootstrapComplete := KeyedVault.withVault Vault.markBootstrapComplete

end Engines

/-! ### The session -/

inductive Role
  | listener
  | connector
  deriving DecidableEq

inductive Phase
  | awaitHello
  | awaitAuth (script : Bytes) (peerSsh : Str)
  | established
  deriving DecidableEq

structure Session where
  role : Role
  channelBinding : Bytes
  myNonce : Bytes
  phase : Phase := .awaitHello
  peerSsh : Option Str := none
  enrollmentAuthorized : Bool := false
  /-- Chunks of a batch whose last one has not come. -/
  pendingBatch : List Bytes := []
  deriving DecidableEq

structure Step where
  out : List Msg := []
  relay : List Bytes := []
  integrated : Nat := 0
  deriving DecidableEq

def authCtx : Bytes := utf8 "csp-auth-v1".toList

def transcript (clientNonce serverNonce channelBinding : Bytes) : Bytes :=
  authCtx ++ clientNonce ++ serverNonce ++ channelBinding

def isBindingDisabled (cb : Bytes) : Bool := cb = [] || cb.all (· = 0)

def catchupChunkBytes : Nat := 256 * 1024

/-- The chunks sent so far, the one being filled, and its size. -/
def chunkObject (limit : Nat) (acc : List (List Bytes) × List Bytes × Nat) (r : Bytes) :
    List (List Bytes) × List Bytes × Nat :=
  let (out, current, size) := acc
  if current ≠ [] && limit < size + r.length then (out ++ [current], [r], r.length)
  else (out, current ++ [r], size + r.length)

def chunkObjects (raws : List Bytes) (limit : Nat) : List (List Bytes) :=
  let (out, current, _) := raws.foldl (chunkObject limit) ([], [], 0)
  if current = [] then out else out ++ [current]

/-- The answer to `WantTips`: the last frame is marked, and an empty closure is one frame. -/
def batchFrames : List (List Bytes) → List Msg
  | [] => [.objectsBatch [] true]
  | [chunk] => [.objectsBatch chunk true]
  | chunk :: c :: cs => .objectsBatch chunk false :: batchFrames (c :: cs)

namespace Session
variable {V Oid : Type} [ObjectId Oid] [Crates] [SessionVault V Oid]

def established (s : Session) : Bool := s.phase = .established

def start (s : Session) (v : V) : Msg :=
  .hello (SessionVault.vaultId v) (SessionVault.name v) (SessionVault.identitySsh v) s.myNonce
    (match s.role with
      | .listener => s.channelBinding
      | .connector => []) protoVersion

def onRelay (raws : List Bytes) : List Msg := [.live raws]

def withVault {α : Type} (x : StM CspError V α) : StM CspError (Session × V) α := fun (s, v) =>
  let (r, v) := x v
  (r, (s, v))

/-- The binding both sides sign: the listener's, which a connector that observed a
certificate compares. -/
def agreedBinding (s : Session) (advertised : Bytes) : CspResult Bytes :=
  match s.role with
  | .listener => .ok s.channelBinding
  | .connector =>
    if isBindingDisabled advertised then .ok advertised
    -- a connector that observed no certificate has nothing to compare
    else if s.channelBinding = [] then .ok advertised
    else if s.channelBinding ≠ advertised then
      .error (.channelBinding ("listener advertised a TLS cert fingerprint (".toList ++
        decimal advertised.length ++ " bytes) that does not match the certificate this connection observed (".toList ++
        decimal s.channelBinding.length ++ " bytes) — a re-terminating proxy or MITM is in the path. If the listener is behind a trusted TLS-terminating proxy, run it with --no-tls / CTX_NO_TLS so it advertises a disabled binding".toList))
    else .ok advertised

def onHello : Msg → StM CspError (Session × V) Step
  | .hello peerVault _ peerSsh peerNonce peerCb peerProto => do
    let (s, v) ← get
    if peerProto ≠ protoVersion then
      throw (.protocol ("protocol version mismatch: peer v".toList ++ decimal peerProto ++
        " != ours v".toList ++ decimal protoVersion))
    if peerVault ≠ SessionVault.vaultId v then
      throw (.protocol ("vault id mismatch: ".toList ++ peerVault ++ " != ".toList ++
        SessionVault.vaultId v))
    match s.agreedBinding peerCb with
    | .error e => throw e
    | .ok binding =>
      let script := match s.role with
        | .connector => transcript s.myNonce peerNonce binding
        | .listener => transcript peerNonce s.myNonce binding
      set ({ s with phase := .awaitAuth script peerSsh }, v)
      pure { out := [.authProof (SessionVault.sign v script)] }
  | _ => throw (.protocol "expected Hello".toList)

def onAuth (script : Bytes) (peerSsh : Str) (now : Nat) : Msg → StM CspError (Session × V) Step
  | .authProof peerSig => do
    match parseSshPubkey peerSsh with
    | none => throw (.badSignature "bad peer ssh key".toList)
    | some peerNode =>
      if !Crates.verify peerNode script peerSig then
        throw (.badSignature "signature error".toList)
      let (s, _) ← get
      let admitted ← match s.role with
        | .listener => withVault (SessionVault.admitPeer peerSsh s.enrollmentAuthorized now)
        -- only the listener looks at its list; the connector takes whoever signs
        | .connector => pure true
      if !admitted then
        throw (.unauthorized ("peer ".toList ++ peerNode.toHex.take 12 ++ " not authorized".toList))
      let (s, v) ← get
      match SessionVault.frontierTips v with
      -- the peer has been admitted all the same, and stays listed
      | .error e => throw e
      | .ok tips =>
        set ({ s with peerSsh := some peerSsh, phase := .established }, v)
        pure { out := [.frontierDigest (tips.map toHex)] }
  | _ => throw (.protocol "expected AuthProof".toList)

/-- The advertised tips that are missing here; one that is no hex id is passed over. -/
def wanted (v : V) (tips : List Str) : List Str :=
  tips.filter fun hex =>
    match (fromHex hex : CspResult Oid) with
    | .ok o => !SessionVault.has v o || decide (o ∉ SessionVault.known v)
    | .error _ => false

/-- A catch-up batch is in full: integrate it, and let commits go on. -/
def finishBatch (raws : List Bytes) : StM CspError (Session × V) Step := do
  let admitted ← withVault (SessionVault.integrate raws)
  withVault SessionVault.markBootstrapComplete
  pure { integrated := admitted, relay := if admitted > 0 then raws else [] }

def onEstablished : Msg → StM CspError (Session × V) Step
  | .frontierDigest tips => do
    let (_, v) ← get
    let want := wanted v tips
    pure { out := if want = [] then [] else [.wantTips want] }
  | .wantTips tips => do
    let (_, v) ← get
    -- what is no id is passed over, as in `wanted`
    let oids := tips.filterMap fun hex => (fromHex hex : CspResult Oid).toOption
    match SessionVault.exportClosure v oids with
    | .error e => throw e
    | .ok raws => pure { out := batchFrames (chunkObjects raws catchupChunkBytes) }
  | .objects raws => finishBatch raws
  | .live raws => do
    let admitted ← withVault (SessionVault.integrate raws)
    pure { integrated := admitted, relay := if admitted > 0 then raws else [] }
  | .objectsBatch raws isLast => do
    let (s, v) ← get
    let batch := s.pendingBatch ++ raws
    if isLast then
      -- the buffer is taken before the batch is looked at, so an error leaves it empty
      set ({ s with pendingBatch := [] }, v)
      finishBatch batch
    else
      set ({ s with pendingBatch := batch }, v)
      pure {}
  | .ping => pure { out := [.pong] }
  | .pong => pure {}
  | .hello .. => throw (.protocol "unexpected handshake msg mid-session".toList)
  | .authProof _ => throw (.protocol "unexpected handshake msg mid-session".toList)

/-- One inbound message; `now` is the clock that admission reads. -/
def onMsg (now : Nat) (m : Msg) : StM CspError (Session × V) Step := do
  let (s, _) ← get
  match s.phase with
  | .awaitHello => onHello m
  | .awaitAuth script peerSsh => onAuth script peerSsh now m
  | .established => onEstablished m

end Session

end Csp
