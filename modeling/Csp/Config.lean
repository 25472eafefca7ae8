import Csp.PrimitiveFacts
import Csp.State

/-! The text of `.context/config`: a writer and a tolerant reader for one flat table of
strings, booleans, numbers and arrays of strings. What is written is read back as it was. -/

namespace Csp

/-! ### Writing -/

def quote : Char := Char.ofNat 34

/-- `{:04X}`. -/
def upperHex4 (n : Nat) : Str :=
  let digits := (Nat.toDigits 16 n).map Char.toUpper
  List.replicate (4 - digits.length) '0' ++ digits

def escChar (c : Char) : Str :=
  if c = '\\' then ['\\', '\\']
  else if c = quote then ['\\', quote]
  else if c = '\n' then ['\\', 'n']
  else if c = '\t' then ['\\', 't']
  else if c = '\r' then ['\\', 'r']
  else if c.toNat < 0x20 then '\\' :: 'u' :: upperHex4 c.toNat
  else [c]

def esc (s : Str) : Str := s.flatMap escChar

def quoted (s : Str) : Str := quote :: esc s ++ [quote]

def fmtStr (key v : Str) : Str := key ++ " = ".toList ++ quoted v ++ ['\n']

def fmtArr (key : Str) (v : List Str) : Str :=
  match v with
  | [] => key ++ " = []\n".toList
  | [x] => key ++ " = [".toList ++ quoted x ++ "]\n".toList
  | _ => key ++ " = [\n".toList ++ (v.flatMap fun e => "    ".toList ++ quoted e ++ ",\n".toList) ++
    "]\n".toList

def fmtBool (b : Bool) : Str := if b then "true".toList else "false".toList

def fmtPlain (key v : Str) : Str := key ++ " = ".toList ++ v ++ ['\n']

namespace VaultConfig

def toTomlString (cfg : VaultConfig) : Str :=
  fmtStr "vault_id".toList cfg.vaultId ++ fmtStr "name".toList cfg.name ++
    fmtArr "peers".toList cfg.peers ++
    (match cfg.listen with
      | some l => fmtStr "listen".toList l
      | none => []) ++
    fmtPlain "no_tofu".toList (fmtBool cfg.noTofu) ++ fmtPlain "no_tls".toList
    (fmtBool cfg.noTls) ++
    (match cfg.log with
      | some l => fmtStr "log".toList l
      | none => []) ++
    fmtPlain "debounce_ms".toList (decimal cfg.debounceMs) ++
    fmtPlain "allow_binary".toList (fmtBool cfg.allowBinary) ++
    fmtArr "include".toList cfg.includes ++
    (if cfg.authKeys = [] then [] else fmtArr "auth_keys".toList cfg.authKeys) ++
    (match cfg.defaultKeyTtlDays with
      | some d => fmtPlain "default_key_ttl_days".toList (decimal d)
      | none => [])

end VaultConfig

/-! ### Reading -/

def shortEscape (c : Char) : Option Char :=
  if c = 'n' then some '\n'
  else if c = 't' then some '\t'
  else if c = 'r' then some '\r'
  else if c = quote then some quote
  else if c = '\\' then some '\\'
  else if c = 'b' then some (Char.ofNat 8)
  else if c = 'f' then some (Char.ofNat 12)
  else none

/-- `u32::from_str_radix` in base 16. -/
def fromStrRadix16 (s : Str) : Option Nat :=
  let ds := dropPlus s
  if ds = [] then none
  else match ds.mapM hexValue with
    | none => none
    | some vs =>
      let n := vs.foldl (fun n v => 16 * n + v) 0
      if n < 2 ^ 32 then some n else none

def unescScalar (kind : Char) (hex : Str) : Except Str Char :=
  match fromStrRadix16 hex with
  | none => .error ("bad \\".toList ++ kind :: " escape".toList)
  | some n =>
    if n.isValidChar then .ok (Char.ofNat n) else .error
    ("bad \\".toList ++ kind :: " scalar".toList)

def consOk (c : Char) : Except Str Str → Except Str Str
  | .ok s => .ok (c :: s)
  | .error e => .error e

/-- The body of a basic string, unescaped. At the end of the body an escape takes what digits
are left. -/
def unesc : Str → Except Str Str
  | [] => .ok []
  | c :: t =>
    if c ≠ '\\' then consOk c (unesc t)
    else match t with
      | [] => .error "trailing backslash".toList
      | e :: t =>
        if e = 'u' then
          match t with
          | a :: b :: c :: d :: t => do
            let x ← unescScalar 'u' [a, b, c, d]
            consOk x (unesc t)
          | t => do
            let x ← unescScalar 'u' t
            pure [x]
        else if e = 'U' then
          match t with
          | a :: b :: c :: d :: e :: f :: g :: h :: t => do
            let x ← unescScalar 'U' [a, b, c, d, e, f, g, h]
            consOk x (unesc t)
          | t => do
            let x ← unescScalar 'U' t
            pure [x]
        else match shortEscape e with
          | some x => consOk x (unesc t)
          | none => .error ("invalid escape \\".toList ++ [e])

def stripCommentFrom (before : Option Char) (inStr : Bool) : Str → Str
  | [] => []
  | c :: t =>
    if c = quote ∧ before ≠ some '\\' then c :: stripCommentFrom (some c) (!inStr) t
    else if c = '#' ∧ inStr = false then []
    else c :: stripCommentFrom (some c) inStr t

def stripComment (line : Str) : Str := stripCommentFrom none false line

def parseStr (rhs : Str) : Except Str Str :=
  let r := trim rhs
  if 2 ≤ r.length ∧ r.head? = some quote ∧ r.getLast? = some quote then unesc (r.drop 1).dropLast
  else .error ("expected quoted string, got: ".toList ++ rhs)

/-- The scan for the end of an array: the depth of brackets outside strings, whether one was
seen, and whether a string is open. -/
def arrScan (depth : Int) (started : Bool) : Bool → Str → Bool
  | false, [] => started && depth ≤ 0
  | true, [] => false
  | false, c :: t =>
    if c = quote then arrScan depth started true t
    else if c = '[' then arrScan (depth + 1) true false t
    else if c = ']' then arrScan (depth - 1) started false t
    else arrScan depth started false t
  | true, c :: t =>
    if c = '\\' then
      match t with
      | [] => false
      | _ :: t => arrScan depth started true t
    else if c = quote then arrScan depth started false t
    else arrScan depth started true t

def arrComplete (s : Str) : Bool := arrScan 0 false false s

/-- The strings of an array, and the body read so far of the one that is open. -/
def arrItems : Option Str → Str → Except Str (List Str)
  | none, [] => .ok []
  | some _, [] => .error "unterminated string in array".toList
  | none, c :: t => if c = quote then arrItems (some []) t else arrItems none t
  | some body, c :: t =>
    if c = '\\' then
      match t with
      | [] => .error "unterminated string in array".toList
      | d :: t => arrItems (some (body ++ [c, d])) t
    else if c = quote then do
      let x ← unesc body
      let xs ← arrItems none t
      pure (x :: xs)
    else arrItems (some (body ++ [c])) t

def parseArr (rhs : Str) : Except Str (List Str) :=
  match (stripPrefix ['['] (trim rhs)).bind (stripSuffix [']']) with
  | none => .error ("expected array, got: ".toList ++ rhs)
  | some inner => arrItems none inner

structure ConfigDraft where
  vaultId : Option Str := none
  name : Str := []
  peers : List Str := []
  listen : Option Str := none
  noTofu : Bool := false
  noTls : Bool := false
  log : Option Str := none
  debounceMs : Nat := 1000
  allowBinary : Bool := false
  includes : Option (List Str) := none
  authKeys : List Str := []
  defaultKeyTtlDays : Option Nat := none

def configError {α : Type} : Except Str α → CspResult α
  | .ok a => .ok a
  | .error e => .error (.config e)

def parseNumber (key rhs : Str) : CspResult Nat :=
  match parseU64 rhs with
  | some n => .ok n
  | none => .error (.config ("bad ".toList ++ key ++ ": ".toList ++ rhs))

/-- One key with its value; a key that is not known is passed over. -/
def ConfigDraft.setKey (d : ConfigDraft) (key rhs : Str) : CspResult ConfigDraft := do
  if key = "vault_id".toList then pure { d with vaultId := some (← configError (parseStr rhs)) }
  else if key = "name".toList then pure { d with name := ← configError (parseStr rhs) }
  else if key = "peers".toList then pure { d with peers := ← configError (parseArr rhs) }
  else if key = "listen".toList then pure { d with listen := some (← configError (parseStr rhs)) }
  else if key = "no_tofu".toList then pure { d with noTofu := rhs = "true".toList }
  else if key = "no_tls".toList then pure { d with noTls := rhs = "true".toList }
  else if key = "log".toList then pure { d with log := some (← configError (parseStr rhs)) }
  else if key = "debounce_ms".toList then pure { d with debounceMs := ← parseNumber key rhs }
  else if key = "allow_binary".toList then pure { d with allowBinary := rhs = "true".toList }
  else if key = "include".toList then pure { d with includes := some (← configError (parseArr rhs)) }
  else if key = "auth_keys".toList then pure { d with authKeys := ← configError (parseArr rhs) }
  else if key = "default_key_ttl_days".toList then
    pure { d with defaultKeyTtlDays := some (← parseNumber key rhs) }
  else pure d

/-- The lines one after the other; an array that is not complete takes in the next line. -/
def parseLines : Option (Str × Str) → ConfigDraft → List Str → CspResult ConfigDraft
  | none, d, [] => .ok d
  | some _, _, [] => .error (.config "unterminated array".toList)
  | none, d, raw :: ls =>
    let line := trim (stripComment raw)
    if line = [] ∨ (line.head? = some '[' ∧ line.getLast? = some ']') then parseLines none d ls
    else match Split.cut '=' line with
      | none => .error (.config ("malformed: ".toList ++ raw))
      | some (k, r) =>
        let key := trim k
        let rhs := trim r
        if rhs.head? = some '[' ∧ arrComplete rhs = false then parseLines (some (key, rhs)) d ls
        else do
          let d ← d.setKey key rhs
          parseLines none d ls
  | some (key, rhs), d, raw :: ls =>
    let rhs := rhs ++ ' ' :: trim (stripComment raw)
    if arrComplete rhs = false then parseLines (some (key, rhs)) d ls
    else do
      let d ← d.setKey key rhs
      parseLines none d ls

/-- `replace("\r\n", "\n")`. -/
def dropCr : Str → Str
  | [] => []
  | c :: t =>
    match t with
    | [] => [c]
    | d :: t' => if c = '\r' ∧ d = '\n' then '\n' :: dropCr t' else c :: dropCr (d :: t')

def ConfigDraft.finish (d : ConfigDraft) : CspResult VaultConfig :=
  match d.vaultId with
  | none => .error (.config "missing field `vault_id`".toList)
  | some vaultId =>
    .ok { vaultId := vaultId, name := d.name, peers := d.peers, listen := d.listen, noTofu := d.noTofu,
          noTls := d.noTls, log := d.log, debounceMs := d.debounceMs, allowBinary := d.allowBinary,
          includes := d.includes.getD ["**".toList], authKeys := d.authKeys,
          defaultKeyTtlDays := d.defaultKeyTtlDays }

def VaultConfig.fromTomlStr (s : Str) : CspResult VaultConfig := do
  let d ← parseLines none {} (lines (dropCr s))
  d.finish

end Csp
