import Csp.Session

/-! A running node: the vault, the bus that fans closures out to the sessions, and the sessions
with their peers. A session advertises the frontier when its handshake ends, and subscribes to
the bus after that. -/

namespace Csp
open Result
variable {Oid : Type} [ObjectId Oid] [Crates]

def busCapacity : Nat := 4096

/-- A session of the node, its peer, and the messages that are on their way. -/
structure Conn (W : Type) (Oid : Type) [ObjectId Oid] where
  session : Session
  peer : W
  peerSession : Session
  /-- To the node. -/
  inbox : List Msg
  /-- To the peer. -/
  outbox : List Msg
  /-- The place on the bus, once the session has subscribed. -/
  cursor : Option Nat := none
  /-- What the session's task has yet to put on the bus. -/
  relay : List Bytes := []
  /-- What the node knew at the last message of the handshake. -/
  advertised : List Oid := []
  connected : Bool := true

structure Node (ι W Oid : Type) [ObjectId Oid] where
  vault : KeyedVault Oid
  /-- Everything that was sent on the bus. A slow session can read the last of it only. -/
  bus : List (List Bytes) := []
  conns : ι → Option (Conn W Oid) := fun _ => none

def outOf : CspResult Step → List Msg
  | .ok st => st.out
  | .error _ => []

def relayOf : CspResult Step → List Bytes
  | .ok st => st.relay
  | .error _ => []

namespace Conn
variable {W : Type}

/-- The node's session has handled a message. An error ends it. -/
def took (c : Conn W Oid) (rest : List Msg) (r : CspResult Step) (s : Session) (known : List Oid) :
    Conn W Oid :=
  { c with
    session := s, inbox := rest, outbox := c.outbox ++ outOf r, relay := relayOf r
    advertised := if c.session.phase = .established then c.advertised else known
    connected := r.isOk }

def peerTook (c : Conn W Oid) (rest : List Msg) (r : CspResult Step) (s : Session) (p : W) :
    Conn W Oid :=
  { c with
    peerSession := s, peer := p, outbox := rest, inbox := c.inbox ++ outOf r, connected := r.isOk }

def InGap (c : Conn W Oid) : Prop :=
  c.connected = true ∧ c.session.phase = .established ∧ c.cursor = none

end Conn

namespace Node
variable {ι W : Type}

def withVault {α : Type} (x : VaultM Oid α) : StM CspError (Node ι W Oid) α := fun w =>
  let (r, v) := KeyedVault.withVault x w.vault
  (r, { w with vault := v })

def send (raws : List Bytes) (w : Node ι W Oid) : Node ι W Oid := { w with bus := w.bus ++ [raws] }

def commitAndPublish (bucketTime now : Nat) : StM CspError (Node ι W Oid) (Option Str) := do
  match ← withVault (Vault.commitLocalChanges bucketTime now) with
  | some prim =>
    let raws ← withVault fun v => (v.exportClosure [prim], v)
    modify (send raws)
    pure (some (toHex prim))
  | none => pure none

variable [DecidableEq ι]

def setConn (w : Node ι W Oid) (i : ι) (c : Conn W Oid) : Node ι W Oid :=
  { w with conns := Function.update w.conns i (some c) }

inductive Event (ι W : Type)
  | connected (i : ι) (p : W)
  | edited
  | published (r : CspResult (Option Str))
  | taken (i : ι) (m : Msg) (r : CspResult Step)
  | subscribed (i : ι)
  | relayed (i : ι)
  | forwarded (i : ι)
  | lagged (i : ι)
  | peerTook (i : ι)
  | peerChanged (i : ι) (p p' : W)
  | peerSent (i : ι) (m : Msg)
  | closed (i : ι)

variable [SessionVault W Oid]

inductive Step (w : Node ι W Oid) : Event ι W → Node ι W Oid → Prop
  | connected {i : ι} {s t : Session} {p : W} (free : w.conns i = none)
      (fresh : s.phase = .awaitHello) (fresh' : t.phase = .awaitHello) (empty : s.pendingBatch = [])
      (empty' : t.pendingBatch = []) :
      Step w (.connected i p) (w.setConn i
        { session := s, peer := p, peerSession := t, inbox := [t.start p],
          outbox := [s.start w.vault] })
  | edited (disk : Disk) :
      Step w .edited { w with vault := { w.vault with vault := { w.vault.vault with disk } } }
  | published {bucketTime now : Nat} {r : CspResult (Option Str)} {w' : Node ι W Oid}
      (names : w.vault.vault.disk.NulFree) (clock : now < 2 ^ 64) (run : commitAndPublish bucketTime now w = (r, w')) :
      Step w (.published r) w'
  | taken {i : ι} {c : Conn W Oid} {now : Nat} {m : Msg} {rest : List Msg} {r : CspResult Csp.Step}
      {s : Session} {v : KeyedVault Oid} (conn : w.conns i = some c) (up : c.connected = true)
      -- what comes in is read before the subscription only while the handshake lasts
      (subscribed : c.session.phase = .established → c.cursor ≠ none) (idle : c.relay = [])
      (head : c.inbox = m :: rest)
      (run : Session.onMsg now m (c.session, w.vault) = (r, (s, v))) :
      Step w (.taken i m r) ({ w with vault := v }.setConn i (c.took rest r s v.vault.state.known))
  | subscribed {i : ι} {c : Conn W Oid} (conn : w.conns i = some c) (gap : c.InGap) :
      Step w (.subscribed i) (w.setConn i { c with cursor := some w.bus.length })
  | relayed {i : ι} {c : Conn W Oid} (conn : w.conns i = some c) (due : c.relay ≠ []) :
      Step w (.relayed i) ((w.send c.relay).setConn i { c with relay := [] })
  | forwarded {i : ι} {c : Conn W Oid} {k : Nat} {raws : List Bytes} (conn : w.conns i = some c)
      (up : c.connected = true) (idle : c.relay = []) (place : c.cursor = some k)
      (next : w.bus[k]? = some raws)
      (retained : w.bus.length ≤ k + busCapacity) :
      Step w (.forwarded i)
        (w.setConn i { c with cursor := some (k + 1), outbox := c.outbox ++ Session.onRelay raws })
  | lagged {i : ι} {c : Conn W Oid} {k : Nat} (conn : w.conns i = some c) (up : c.connected = true)
      (idle : c.relay = []) (place : c.cursor = some k) (overrun : k + busCapacity < w.bus.length) :
      Step w (.lagged i) (w.setConn i { c with cursor := some (w.bus.length - busCapacity) })
  | peerTook {i : ι} {c : Conn W Oid} {now : Nat} {m : Msg} {rest : List Msg}
      {r : CspResult Csp.Step} {s : Session} {p : W} (conn : w.conns i = some c) (up : c.connected = true) (head : c.outbox = m :: rest)
      (run : Session.onMsg now m (c.peerSession, c.peer) = (r, (s, p))) :
      Step w (.peerTook i) (w.setConn i (c.peerTook rest r s p))
  | peerChanged {i : ι} {c : Conn W Oid} (p : W) (conn : w.conns i = some c) :
      Step w (.peerChanged i c.peer p) (w.setConn i { c with peer := p })
  | peerSent {i : ι} {c : Conn W Oid} (m : Msg) (conn : w.conns i = some c)
      (up : c.connected = true) :
      Step w (.peerSent i m) (w.setConn i { c with inbox := c.inbox ++ [m] })
  | closed {i : ι} {c : Conn W Oid} (conn : w.conns i = some c) :
      Step w (.closed i) (w.setConn i { c with connected := false })

/-- Nothing is left to be handled, and nothing is on its way. -/
def Drained (w : Node ι W Oid) : Prop :=
  ∀ i c, w.conns i = some c → c.relay = [] ∧ (c.connected = true →
    c.inbox = [] ∧ c.outbox = [] ∧ ∀ k, c.cursor = some k → k = w.bus.length)

end Node

end Csp
