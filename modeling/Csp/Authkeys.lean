import Csp.State

/-! The set of admitted peers: lines of `authorized_keys`, their expiry, and the decision
on a peer that connects. Products and sums of days and seconds are on 64 bits. -/

namespace Csp

/-! ### Public keys -/

/-- `str::split_whitespace`. -/
def splitWhitespace (s : Str) : List Str := (s.splitOnP isWhitespace).filter (· ≠ [])

def bigEndian (b : Bytes) : Nat := b.foldl (fun n x => n * 256 + x.toNat) 0

/-- `u32::to_be_bytes`. -/
def bigEndian32 (n : Nat) : Bytes :=
  [UInt8.ofNat (n / 2 ^ 24), UInt8.ofNat (n / 2 ^ 16), UInt8.ofNat (n / 2 ^ 8), UInt8.ofNat n]

def sshAlgorithm : Str := "ssh-ed25519".toList

section Ssh
variable [Crates]

def sshPubkeyString (node : NodeId) (comment : Str) : Str :=
  let algo := utf8 sshAlgorithm
  let blob := bigEndian32 algo.length ++ algo ++ bigEndian32 node.bytes.length ++ node.bytes
  sshAlgorithm ++ ' ' :: Crates.base64Encode blob ++ ' ' :: comment

/-- The key is read at the place the first length field gives; neither the algorithm named
in the blob nor the second length is looked at. -/
def parseSshPubkey (line : Str) : Option NodeId :=
  match splitWhitespace line with
  | algo :: b64 :: _ =>
    if algo ≠ sshAlgorithm then none
    else match Crates.base64Decode b64 with
      | none => none
      | some blob =>
        if blob.length < 4 then none
        else
          let key := (blob.drop (bigEndian (blob.take 4) + 8)).take 32
          if h : key.length = 32 then some ⟨key, h⟩ else none
  | _ => none

end Ssh

/-! ### Dates -/

def secsPerDay : Nat := 86400

def daysFromCivil (y m d : Nat) : Nat :=
  let yy := if m ≤ 2 then y - 1 else y
  let era := yy / 400
  let yoe := yy - era * 400
  let doy := (153 * (if m > 2 then m - 3 else m + 9) + 2) / 5 + d - 1
  let doe := yoe * 365 + yoe / 4 - yoe / 100 + doy
  era * 146097 + doe - 719468

/-- `str::parse::<i64>` of a piece without a `-`. -/
def parseI64 : Str → Option Nat := parseUnsigned (2 ^ 63)

def parseDateYmdUtc (s : Str) : Option Nat :=
  match Split.splitOn '-' s with
  | [y, mo, d] =>
    match parseI64 y, parseI64 mo, parseI64 d with
    | some y, some mo, some d =>
      -- the day is not compared with the length of its month
      if 1 ≤ mo ∧ mo ≤ 12 ∧ 1 ≤ d ∧ d ≤ 31 ∧ 1970 ≤ y ∧ y ≤ 9999 then
        some (daysFromCivil y mo d * secsPerDay)
      else none
    | _, _, _ => none
  | _ => none

def formatDateYmdUtc (t : Nat) : Str :=
  let (y, m, d) := civilFromDays (t / secsPerDay)
  padded 4 y ++ '-' :: padded 2 m ++ '-' :: padded 2 d

def toAsciiLowercase (s : Str) : Str := s.map Char.toLower

def neverWord : Str := "never".toList

def parseDurationDays (s : Str) : Option Nat :=
  let s := toAsciiLowercase (trim s)
  if s = neverWord || s = ['0'] then none
  else match stripSuffix ['d'] s, stripSuffix ['w'] s, stripSuffix ['y'] s with
    | some n, _, _ => parseU64 n
    | none, some n, _ => (parseU64 n).map fun w => w * 7 % 2 ^ 64
    | none, none, some n => (parseU64 n).map fun y => y * 365 % 2 ^ 64
    | none, none, none => parseU64 s

/-! ### Lines -/

inductive Expiry
  | at (t : Nat)
  | never
  | unset
  deriving DecidableEq

def Expiry.isValid (nowUnix : Nat) : Expiry → Bool
  | .at t => nowUnix < t
  | .never => true
  | .unset => true

structure KeyEntry where
  raw : Str
  node : Option NodeId
  expiry : Expiry
  deriving DecidableEq

def KeyEntry.isKey (e : KeyEntry) : Bool := e.node.isSome

def tokExpires : Str := "expires=".toList
def tokTtl : Str := "ttl=".toList
def tokAdded : Str := "added=".toList

structure ExpiryTokens where
  expires : Option Expiry := none
  ttlDays : Option Nat := none
  added : Option Nat := none

def expiryToken (e : ExpiryTokens) (tok : Str) : ExpiryTokens :=
  match stripPrefix tokExpires tok, stripPrefix tokTtl tok, stripPrefix tokAdded tok with
  | some v, _, _ =>
    if v = neverWord then { e with expires := some .never }
    else match parseDateYmdUtc v with
      | some t => { e with expires := some (.at t) }
      | none => e
  | none, some v, _ =>
    match parseDurationDays v with
    | some days => { e with ttlDays := some days }
    | none => e
  | none, none, some v =>
    match parseDateYmdUtc v with
    | some t => { e with added := some t }
    | none => e
  | none, none, none => e

/-- `u64::saturating_add`. -/
def saturatingAdd (a b : Nat) : Nat := min (a + b) (2 ^ 64 - 1)

def parseExpiryTokens (line : Str) : Expiry :=
  let e := ((splitWhitespace line).drop 2).foldl expiryToken {}
  match e.expires, e.ttlDays, e.added with
  | some x, _, _ => x
  -- a lifetime without a start, or a start without a lifetime, is no expiry
  | none, some days, some start => .at (saturatingAdd start (days * secsPerDay % 2 ^ 64))
  | none, _, _ => .unset

def stripExpiryTokens (line : Str) : Str :=
  Split.join ' ' ((splitWhitespace line).filter fun t =>
    !tokExpires.isPrefixOf t && !tokTtl.isPrefixOf t && !tokAdded.isPrefixOf t)

def buildLine (sshLine : Str) (expiry : Expiry) : Str :=
  let head := stripExpiryTokens (trim sshLine)
  match expiry with
  | .at t => head ++ ' ' :: tokExpires ++ formatDateYmdUtc t
  | .never => head ++ ' ' :: tokExpires ++ neverWord
  | .unset => head

def expiryFromTtlDays (nowUnix ttlDays : Nat) : Nat :=
  let target := saturatingAdd nowUnix (ttlDays * secsPerDay % 2 ^ 64)
  (target / secsPerDay + 1) * secsPerDay % 2 ^ 64

section Lines
variable [Crates]

def parseLine (line : Str) : KeyEntry :=
  let raw := trimEndMatches '\r' (trimEndMatches '\n' line)
  let trimmed := trim raw
  if trimmed = [] || trimmed.head? = some '#' then { raw, node := none, expiry := .unset }
  else
    let node := parseSshPubkey trimmed
    { raw, node, expiry := if node.isSome then parseExpiryTokens trimmed else .unset }

def parseFile (s : Str) : List KeyEntry := (lines s).map parseLine

def serialize (entries : List KeyEntry) : Str :=
  let s := Split.join '\n' (entries.map (·.raw))
  if s = [] then [] else s ++ ['\n']

def builtinDefaultTtlDays : Nat := 90

/-- The decision on a peer, and the text of `authorized_keys` after it. A listed key is
admitted while it is valid; an enrolled peer is listed; the first peer of an empty list is
trusted if nothing forbids it. -/
def admitDecision (config : VaultConfig) (authorized sshLine : Str) (enrollmentAuthorized : Bool)
    (now : Nat) : Bool × Str :=
  match parseSshPubkey sshLine with
  | none => (false, authorized)
  | some peerNode =>
    let ttlDays := config.defaultKeyTtlDays.getD builtinDefaultTtlDays
    let enrollExpiry := if ttlDays = 0 then .unset else .at (expiryFromTtlDays now ttlDays)
    let entry := parseLine (buildLine sshLine enrollExpiry)
    let entries := parseFile authorized
    match entries.find? fun e => e.node = some peerNode with
    -- the first line of the key decides, whatever later ones say
    | some e =>
      if e.expiry.isValid now then (true, authorized)
      else if enrollmentAuthorized then
        (true, serialize (entries.set (entries.findIdx fun e => e.node = some peerNode) entry))
      else (false, authorized)
    | none =>
      if enrollmentAuthorized || (!entries.any (·.isKey) && !config.noTofu &&
        config.authKeys = []) then
        (true, serialize (entries ++ [entry]))
      else (false, authorized)

end Lines

end Csp
