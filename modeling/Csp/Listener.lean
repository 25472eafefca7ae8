import Csp.Admission
import Csp.Lib.Cells
import Mathlib.Data.List.Find

/-! The gate of a listener: the pre-shared key of an upgrade request, the edits of the key file
while the listener runs, and who is let in after any course of them. -/

namespace Csp
open Result

/-! ### The upgrade request -/

/-- `ct_eq`: every byte is looked at. -/
def ctEq (a b : Bytes) : Bool :=
  if a.length ≠ b.length then false
  else (a.zip b).foldl (fun acc (x, y) => acc ||| (x ^^^ y)) 0 = 0

/-- What the gate reads of a request: two headers, where they are texts, and the query. -/
structure WsRequest where
  authorization : Option Str := none
  protocols : Option Str := none
  query : Option Str := none
  deriving DecidableEq

/-- `u8::from_str_radix` with radix 16, of at most two characters. -/
def parseHexByte (h : Str) : Option Nat :=
  match if h.length = 1 then h else dropPlus h with
  | [a] => hexValue a
  | [a, b] => (hexValue a).bind fun x => (hexValue b).map fun y => 16 * x + y
  | _ => none

def urldecode : Str → Str
  | '+' :: rest => ' ' :: urldecode rest
  | '%' :: a :: b :: rest =>
    match parseHexByte [a, b] with
    | some n => Char.ofNat n :: urldecode rest
    | none => '%' :: a :: b :: urldecode rest
  | '%' :: rest =>
    match parseHexByte rest with
    | some n => [Char.ofNat n]
    | none => '%' :: rest
  | c :: rest => c :: urldecode rest
  | [] => []

/-- The scheme and the token of an `Authorization` header, if it is of the bearer kind. -/
def bearerToken (v : Str) : Option Str :=
  let scheme := v.takeWhile fun c => !isWhitespace c
  let token := trim ((v.dropWhile fun c => !isWhitespace c).drop 1)
  if toAsciiLowercase scheme = "bearer".toList && token ≠ [] then some token else none

def protocolToken (v : Str) : Option Str :=
  ((Split.splitOn ',' v).map trim).findSome? fun p =>
    (stripPrefix "bearer.".toList p).filter (· ≠ [])

def queryToken (q : Str) : Option Str :=
  (Split.splitOn '&' q).findSome? fun p =>
    ((stripPrefix "auth_key=".toList p).filter (· ≠ [])).map urldecode

def extractBearerToken (req : WsRequest) : Option (Str × Str) :=
  match req.authorization.bind bearerToken, req.protocols.bind protocolToken,
    req.query.bind queryToken with
  | some t, _, _ => some (t, "authorization-header".toList)
  | none, some t, _ => some (t, "subprotocol".toList)
  | none, none, some t => some (t, "query-string".toList)
  | none, none, none => none

structure ErrorResponse where
  status : Nat
  body : Str
  wwwAuthenticate : Str
  deriving DecidableEq

def unauthorizedResponse (reason : Str) : ErrorResponse :=
  { status := 401, body := "auth-key check failed: ".toList ++ reason,
    wwwAuthenticate := "Bearer realm=\"csp\"".toList }

/-- The callback of `accept_ws`: refused, or let through with the flag that enrolls. -/
def acceptWs (keys : List Str) (req : WsRequest) : Except ErrorResponse Bool :=
  if keys = [] then .ok false
  else match extractBearerToken req with
    | none => .ok false
    | some (token, _) =>
      if keys.any fun k => ctEq (utf8 token) (utf8 k) then .ok true
      else .error (unauthorizedResponse "invalid auth key".toList)

/-- The request that a client builds, with the query of its URL, as the gate reads it. -/
def buildClientRequest [Crates] (query authKey : Option Str) : CspResult WsRequest :=
  match authKey with
  | none => .ok { query }
  | some k =>
    match Crates.headerValue ("Bearer ".toList ++ k) with
    | .ok v => .ok { authorization := Crates.headerToStr v, query }
    | .error e => .error (.protocol ("auth-key header: ".toList ++ e))

theorem foldl_or_eq_zero {l : List (UInt8 × UInt8)} {acc : UInt8} :
    l.foldl (fun acc (x, y) => acc ||| (x ^^^ y)) acc = 0 ↔ acc = 0 ∧ ∀ p ∈ l, p.1 = p.2 := by
  induction l generalizing acc with
  | nil => simp
  | cons p l ih =>
    rw [List.foldl_cons, ih, List.forall_mem_cons]
    simp only [UInt8.or_eq_zero_iff, UInt8.xor_eq_zero_iff, and_assoc]

theorem ctEq_iff {a b : Bytes} : ctEq a b = true ↔ a = b := by
  rw [ctEq]
  split_ifs with hlen
  · exact iff_of_false not_false fun h => hlen (congrArg List.length h)
  · rw [decide_eq_true_eq, foldl_or_eq_zero, and_iff_right rfl]
    constructor
    · intro h
      apply List.ext_getElem (not_not.mp hlen)
      intro i hi hj
      exact h (a[i], b[i]) (List.mem_iff_getElem.mpr ⟨i, by simpa using ⟨hi, hj⟩, by simp⟩)
    · rintro rfl p hp
      obtain ⟨i, hi, rfl⟩ := List.mem_iff_getElem.mp hp
      rw [List.getElem_zip]

/-- The request presents one of the keys. -/
def Presents (keys : List Str) (req : WsRequest) : Prop :=
  ∃ token source, extractBearerToken req = some (token, source) ∧ token ∈ keys

theorem acceptWs_presents {keys : List Str} {req : WsRequest} (h : Presents keys req) :
    acceptWs keys req = .ok true := by
  obtain ⟨token, source, htoken, hkey⟩ := h
  have hany : (keys.any fun k => ctEq (utf8 token) (utf8 k)) = true :=
    List.any_eq_true.mpr ⟨token, hkey, ctEq_iff.mpr rfl⟩
  rw [acceptWs, if_neg (List.ne_nil_of_mem hkey), htoken]
  exact if_pos hany

theorem acceptWs_not_presents {keys : List Str} {req : WsRequest} (h : ¬ Presents keys req) :
    acceptWs keys req = if keys ≠ [] ∧ (extractBearerToken req).isSome then
      .error (unauthorizedResponse "invalid auth key".toList) else .ok false := by
  by_cases hkeys : keys = []
  · rw [acceptWs, if_pos hkeys, if_neg fun hc => hc.1 hkeys]
  rw [acceptWs, if_neg hkeys]
  cases htoken : extractBearerToken req with
  | none => simp
  | some t =>
    obtain ⟨token, source⟩ := t
    have hany : ¬ (keys.any fun k => ctEq (utf8 token) (utf8 k)) = true := by
      intro hany
      obtain ⟨k, hk, heq⟩ := List.any_eq_true.mp hany
      obtain rfl := utf8_injective (ctEq_iff.mp heq)
      exact h ⟨token, source, htoken, hk⟩
    dsimp only
    rw [if_neg hany, if_pos ⟨hkeys, rfl⟩]

theorem bearerToken_client (k : Str) : bearerToken ("Bearer ".toList ++ k) =
    if trim k ≠ [] then some (trim k) else none := by
  have htake : ("Bearer ".toList ++ k).takeWhile (fun c => !isWhitespace c) = "Bearer".toList := rfl
  have hdrop : (("Bearer ".toList ++ k).dropWhile fun c => !isWhitespace c).drop 1 = k := rfl
  have hscheme : toAsciiLowercase "Bearer".toList = "bearer".toList := by decide
  rw [bearerToken, htake, hdrop, hscheme]
  simp

theorem presents_client [Crates] [LawfulCrates] {k : Str} (hk : ∀ c ∈ k, isVisible c) :
    ∃ req, buildClientRequest none (some k) = .ok req ∧
      ∀ keys, Presents keys req ↔ trim k ∈ keys ∧ trim k ≠ [] := by
  have hvisible : ∀ c ∈ "Bearer ".toList ++ k, isVisible c = true := by
    intro c hc
    rcases List.mem_append.mp hc with hc | hc
    · exact (by decide : ∀ c ∈ "Bearer ".toList, isVisible c = true) c hc
    · exact hk c hc
  obtain ⟨v, hv, htext⟩ := LawfulCrates.headerToStr_headerValue _ hvisible
  refine ⟨{ authorization := some ("Bearer ".toList ++ k), query := none }, ?_, fun keys => ?_⟩
  · simp only [buildClientRequest, hv, htext]
  have hextract :
      extractBearerToken { authorization := some ("Bearer ".toList ++ k), query := none } =
      if trim k ≠ [] then some (trim k, "authorization-header".toList) else none := by
    simp only [extractBearerToken, Option.bind_some, Option.bind_none, bearerToken_client]
    split_ifs <;> rfl
  rw [Presents, hextract]
  split_ifs with hk
  · simp [hk]
  · simp [not_not.mp hk]

/-! ### Expiry edits -/

section Keys
variable [Crates]

/-- Every entry of a key that passes is written again with the given expiry, and they are
counted. -/
def rewriteEntries (pass : KeyEntry → Bool) (expiry : Expiry) (entries : List KeyEntry) :
    List KeyEntry × Nat :=
  (entries.map fun e => if e.isKey && pass e then parseLine (buildLine e.raw expiry) else e,
    entries.countP fun e => e.isKey && pass e)

def rewriteFile (pass : KeyEntry → Bool) (expiry : Expiry) (file : Option Str) : Nat × Option Str :=
  let (entries, n) := rewriteEntries pass expiry (parseFile (file.getD []))
  (n, if n > 0 then some (serialize entries) else file)

namespace Vault

/-- The needle is a key line, the start of a key's hex form, or some text of the line. -/
def extendMatches (sshOrPrefix : Str) (e : KeyEntry) : Bool :=
  let needle := toAsciiLowercase (trim sshOrPrefix)
  e.node.any fun n => parseSshPubkey sshOrPrefix = some n || needle <+: n.toHex ||
    needle <:+: toAsciiLowercase e.raw

def extendExpiry (file : Option Str) (sshOrPrefix : Str) (moreDays : Option Nat) (now : Nat) :
    Nat × Option Str :=
  let newExpiry := match moreDays with
    | none => .never
    | some d => .at (expiryFromTtlDays now d)
  rewriteFile (extendMatches sshOrPrefix) newExpiry file

/-- Run when a listener starts: a line without an expiry is given the default one. -/
def migrateDefaultExpiry (config : VaultConfig) (file : Option Str) (now : Nat) :
    Nat × Option Str :=
  let ttlDays := config.defaultKeyTtlDays.getD builtinDefaultTtlDays
  if ttlDays = 0 then (0, file)
  else rewriteFile (fun e => e.expiry = .unset) (.at (expiryFromTtlDays now ttlDays)) file

end Vault

/-! ### What befalls the file -/

/-- An edit of the operator, or a peer that connects: its request, and the key line that it
proved. -/
inductive Deed
  | authorize (sshLine : Str) (expiry : Expiry)
  | revoke (sshLine : Str)
  | extend (sshOrPrefix : Str) (moreDays : Option Nat) (now : Nat)
  | migrate (now : Nat)
  | connect (request : WsRequest) (sshLine : Str) (now : Nat)

/-- The upgrade, and the admission after it: is the peer let in, and the file. -/
def admitRequest (config : VaultConfig) (file : Option Str) (request : WsRequest) (sshLine : Str)
    (now : Nat) :
    Bool × Option Str :=
  match acceptWs config.authKeys request with
  | .error _ => (false, file)
  | .ok enrolled => Vault.admitPeer config file sshLine enrolled now

def Deed.run (config : VaultConfig) (file : Option Str) : Deed → Option Str
  | .authorize sshLine expiry => Vault.authorizeWithExpiry file sshLine expiry
  | .revoke sshLine => Vault.revoke file sshLine
  | .extend sshOrPrefix moreDays now => (Vault.extendExpiry file sshOrPrefix moreDays now).2
  | .migrate now => (Vault.migrateDefaultExpiry config file now).2
  | .connect request sshLine now => (admitRequest config file request sshLine now).2

def runDeeds (config : VaultConfig) (file : Option Str) (deeds : List Deed) : Option Str :=
  deeds.foldl (Deed.run config) file

/-- The file has a line of the key. -/
def Listed (n : NodeId) (file : Option Str) : Prop :=
  ∃ e ∈ parseFile (file.getD []), e.node = some n

/-- The first peer that comes is trusted: no key is asked for, none is listed, and trust is not
off. -/
def Open (config : VaultConfig) (file : Option Str) : Prop :=
  config.authKeys = [] ∧ config.noTofu = false ∧ ∀ e ∈ parseFile (file.getD []), e.node = none

/-- The deed puts the key on the list. -/
def Deed.Grants (config : VaultConfig) (file : Option Str) (n : NodeId) : Deed → Prop
  | .authorize sshLine _ => parseSshPubkey sshLine = some n
  | .connect request sshLine _ => parseSshPubkey sshLine = some n ∧
    (Presents config.authKeys request ∨ Open config file)
  | _ => False

def Deed.Revokes (n : NodeId) : Deed → Prop
  | .revoke sshLine => parseSshPubkey sshLine = some n
  | _ => False

/-! ### One deed -/

theorem parseFile_serialize_nodes {es : List KeyEntry} (h : ∀ e ∈ es, Clean e) (n : NodeId) :
    (∃ e ∈ parseFile (serialize es), e.node = some n) ↔ ∃ e ∈ es, e.node = some n := by
  rcases parseFile_serialize h with hp | ⟨hblank, hp⟩
  · rw [hp]
  · -- a blank line has no key
    rw [hp]
    obtain ⟨e, rfl, hraw⟩ := List.map_eq_singleton_iff.mp hblank
    have hnode : e.node = none := by
      rw [← (h e List.mem_cons_self).parsed, hraw, parseLine_node]
      rfl
    simp [hnode]

theorem node_of_raw {s : Str} {e : KeyEntry} (h : e ∈ parseFile s) :
    parseSshPubkey e.raw = e.node := by
  rw [← parseLine_node, (clean_parseFile h).parsed]

theorem clean_rewrite (hb : StrictBase64) {s : Str} {e : KeyEntry} (h : e ∈ parseFile s)
    (pass : KeyEntry → Bool) (expiry : Expiry) :
    Clean (if e.isKey && pass e then parseLine (buildLine e.raw expiry) else e) ∧
      (if e.isKey && pass e then parseLine (buildLine e.raw expiry) else e).node = e.node := by
  split_ifs with hpass
  · rw [Bool.and_eq_true, KeyEntry.isKey, Option.isSome_iff_exists] at hpass
    obtain ⟨⟨n, hn⟩, -⟩ := hpass
    refine ⟨clean_parseLine (notMem_buildLine _ _), ?_⟩
    rw [hn]
    exact (parseLine_node _).trans (parseSshPubkey_buildLine hb ((node_of_raw h).trans hn) expiry)
  · exact ⟨clean_parseFile h, rfl⟩

theorem listed_rewriteFile (hb : StrictBase64) (pass : KeyEntry → Bool) (expiry : Expiry)
    (file : Option Str) (n : NodeId) :
    Listed n (rewriteFile pass expiry file).2 ↔ Listed n file := by
  unfold rewriteFile rewriteEntries
  dsimp only
  split_ifs
  · rw [Listed, Option.getD_some, parseFile_serialize_nodes]
    · constructor
      · rintro ⟨e', he', hn⟩
        obtain ⟨e, he, rfl⟩ := List.mem_map.mp he'
        exact ⟨e, he, (clean_rewrite hb he pass expiry).2.symm.trans hn⟩
      · rintro ⟨e, he, hn⟩
        exact ⟨_, List.mem_map_of_mem he, (clean_rewrite hb he pass expiry).2.trans hn⟩
    · intro e' he'
      obtain ⟨e, he, rfl⟩ := List.mem_map.mp he'
      exact (clean_rewrite hb he pass expiry).1
  · rfl

omit [Crates] in
theorem map_node_set {l : List KeyEntry} {i : Nat} {a b : KeyEntry} (hi : l[i]? = some a)
    (hab : b.node = a.node) :
    (l.set i b).map (·.node) = l.map (·.node) := by
  apply List.ext_getElem?
  intro j
  rw [List.getElem?_map, List.getElem?_map, List.getElem?_set]
  split_ifs with hij hlt
  · subst hij
    rw [hi, Option.map_some, Option.map_some, hab]
  · subst hij
    rw [List.getElem?_eq_none (not_lt.mp hlt)]
  · rfl

omit [Crates] in
theorem exists_node_iff {l : List KeyEntry} {n : NodeId} : (∃ e ∈ l, e.node = some n) ↔
    some n ∈ l.map (·.node) :=
  List.mem_map.symm

theorem listed_set {text : Str} {i : Nat} {a b : KeyEntry} (hi : (parseFile text)[i]? = some a)
    (hab : b.node = a.node) (hclean : Clean b) (n : NodeId) :
    Listed n (some (serialize ((parseFile text).set i b))) ↔ Listed n (some text) := by
  rw [Listed, Option.getD_some, parseFile_serialize_nodes, exists_node_iff, map_node_set hi hab,
    ← exists_node_iff]
  · rfl
  · intro e he
    rcases List.mem_or_eq_of_mem_set he with he | rfl
    · exact clean_parseFile he
    · exact hclean

theorem listed_append {text : Str} {b : KeyEntry} {t : NodeId} (hbt : b.node = some t)
    (hclean : Clean b) (n : NodeId) :
    Listed n (some (serialize (parseFile text ++ [b]))) ↔ n = t ∨ Listed n (some text) := by
  rw [Listed, Option.getD_some, parseFile_append hbt hclean, exists_node_iff, List.map_append,
    List.mem_append,
    ← exists_node_iff, List.map_singleton, List.mem_singleton, hbt, Option.some.injEq, or_comm]
  rfl

theorem listed_getD (n : NodeId) (file : Option Str) : Listed n (some (file.getD [])) ↔
    Listed n file := Iff.rfl

/-- The first line of the key is still valid. -/
def Current (file : Option Str) (n : NodeId) (now : Nat) : Prop :=
  ∃ e, (parseFile (file.getD [])).find? (fun e => e.node = some n) = some e ∧
    e.expiry.isValid now = true

theorem open_iff {config : VaultConfig} {file : Option Str} : Open config file ↔
    (!((parseFile (file.getD [])).any fun e => e.isKey) && !config.noTofu && config.authKeys =
      []) = true := by
  have hkeys : ((parseFile (file.getD [])).any fun e => e.isKey) = false ↔
      ∀ e ∈ parseFile (file.getD []), e.node = none := by
    simp [KeyEntry.isKey]
  rw [Bool.and_eq_true, Bool.and_eq_true, Bool.not_eq_true', Bool.not_eq_true', decide_eq_true_eq,
    hkeys, Open]
  tauto

section Line
variable {sshLine : Str} {t : NodeId} (hb : StrictBase64) (h : parseSshPubkey sshLine = some t)
include hb h

theorem listed_authorize (file : Option Str) (expiry : Expiry) (n : NodeId) :
    Listed n (Vault.authorizeWithExpiry file sshLine expiry) ↔ n = t ∨ Listed n file := by
  have hclean := clean_parseLine (notMem_buildLine sshLine expiry)
  have hnode := Vault.node_built hb h expiry
  rw [Vault.authorizeWithExpiry, Vault.parseSshPubkey_trim h]
  rcases findIdx_cases (fun e : KeyEntry => e.node = some t) (parseFile (file.getD [])) with
    ⟨h₁, -⟩ | ⟨i, x, h₁, h₂, h₃, -⟩
  · simp only [h₁]
    rw [listed_append hnode hclean, listed_getD]
  · simp only [h₁]
    have hx : x.node = some t := by simpa using List.find?_some h₃
    rw [listed_set h₂ (hnode.trans hx.symm) hclean, listed_getD]
    refine ⟨.inr, fun hn => hn.elim (fun heq => ?_) id⟩
    rw [heq]
    exact ⟨x, List.mem_of_getElem? h₂, hx⟩

theorem admitPeer_spec (config : VaultConfig) (file : Option Str) (enroll : Bool) (now : Nat) :
    ((Vault.admitPeer config file sshLine enroll now).1 = true ↔ enroll = true ∨ Open config file ∨
      Current file t now) ∧
      ∀ n, Listed n (Vault.admitPeer config file sshLine enroll now).2 ↔
        (n = t ∧ (enroll = true ∨ Open config file)) ∨ Listed n file := by
  have hclean := clean_parseLine (notMem_buildLine sshLine (enrollExpiry config now))
  have hnode := Vault.node_built hb h (enrollExpiry config now)
  rw [Vault.admitPeer, h]
  dsimp only
  rcases findIdx_cases (fun e : KeyEntry => e.node = some t) (parseFile (file.getD [])) with
    ⟨h₁, h₂⟩ | ⟨i, x, h₁, h₂, h₃, -⟩
  · have hcurrent : ¬ Current file t now := by
      rintro ⟨e, he, -⟩
      rw [h₂] at he
      cases he
    rw [h₁]
    dsimp only
    split_ifs with henroll hopen
    · refine ⟨iff_of_true rfl (.inl henroll), fun n => ?_⟩
      rw [listed_append hnode hclean, listed_getD, and_iff_left (.inl henroll)]
    · have hopen := open_iff.mpr hopen
      refine ⟨iff_of_true rfl (.inr (.inl hopen)), fun n => ?_⟩
      rw [listed_append hnode hclean, listed_getD, and_iff_left (.inr hopen)]
    · have hnot : ¬ (enroll = true ∨ Open config file) :=
          not_or.mpr ⟨henroll, fun ho => hopen (open_iff.mp ho)⟩
      refine ⟨iff_of_false not_false ?_, fun n => ?_⟩
      · rw [← or_assoc]
        exact not_or.mpr ⟨hnot, hcurrent⟩
      · rw [or_iff_right fun hn => hnot hn.2]
  · have hx : x.node = some t := by simpa using List.find?_some h₃
    have hlisted : Listed t file := ⟨x, List.mem_of_getElem? h₂, hx⟩
    have hshut : ¬ Open config file := by
      rintro ⟨-, -, hnone⟩
      rw [hnone x (List.mem_of_getElem? h₂)] at hx
      cases hx
    have hcurrent : Current file t now ↔ x.expiry.isValid now = true := by
      rw [Current, h₃]
      simp
    have hsame : ∀ n, (n = t ∧ (enroll = true ∨ Open config file)) ∨ Listed n file ↔
        Listed n file :=
      fun n => or_iff_right_of_imp fun hn => hn.1 ▸ hlisted
    rw [h₁]
    dsimp only
    rw [h₂, Option.any_some, hcurrent, or_iff_right hshut]
    simp only [hsame]
    split_ifs with hvalid henroll
    · exact ⟨iff_of_true rfl (.inr hvalid), fun n => Iff.rfl⟩
    · exact ⟨iff_of_true rfl (.inl henroll), fun n => by
        rw [listed_set h₂ (hnode.trans hx.symm) hclean, listed_getD]⟩
    · exact ⟨iff_of_false not_false (not_or.mpr ⟨henroll, hvalid⟩), fun n => Iff.rfl⟩

end Line

theorem listed_revoke (file : Option Str) (sshLine : Str) (n : NodeId) :
    Listed n (Vault.revoke file sshLine) ↔ Listed n file ∧ parseSshPubkey sshLine ≠ some n := by
  have htrim : ∀ l : Str, parseSshPubkey (trim l) = parseSshPubkey l := fun l =>
    parseSshPubkey_of_words_eq (splitWhitespace_trim l)
  rw [Vault.revoke, Listed, Option.getD_some, parseFile_serialize_nodes fun e he =>
    clean_parseFile (List.mem_filter.mp he).1]
  constructor
  · rintro ⟨e, he, hn⟩
    obtain ⟨hmem, hkeep⟩ := List.mem_filter.mp he
    refine ⟨⟨e, hmem, hn⟩, fun hline => ?_⟩
    rw [hn, htrim, hline] at hkeep
    simp at hkeep
  · rintro ⟨⟨e, hmem, hn⟩, hline⟩
    refine ⟨e, List.mem_filter.mpr ⟨hmem, ?_⟩, hn⟩
    rw [hn, htrim]
    cases ht : parseSshPubkey sshLine with
    | some t =>
      rw [ht] at hline
      simpa using fun heq : n = t => hline (heq ▸ rfl)
    | none =>
      -- a line that reads as the key would be one of the key
      have hne : trim e.raw ≠ trim sshLine := by
        intro heq
        have hraw := node_of_raw hmem
        rw [← htrim, heq, htrim, ht, hn] at hraw
        cases hraw
      simpa using hne

theorem listed_migrate (hb : StrictBase64) (config : VaultConfig) (file : Option Str) (now : Nat)
    (n : NodeId) :
    Listed n (Vault.migrateDefaultExpiry config file now).2 ↔ Listed n file := by
  unfold Vault.migrateDefaultExpiry
  dsimp only
  split_ifs
  · rfl
  · exact listed_rewriteFile hb _ _ file n

theorem admitRequest_spec (hb : StrictBase64) (config : VaultConfig) (file : Option Str)
    (request : WsRequest) {sshLine : Str} {t : NodeId} (h : parseSshPubkey sshLine = some t)
    (now : Nat) :
    ((admitRequest config file request sshLine now).1 = true ↔ Presents config.authKeys request ∨
      Open config file ∨
      (Current file t now ∧ (config.authKeys ≠ [] → extractBearerToken request = none))) ∧
      ∀ n, Listed n (admitRequest config file request sshLine now).2 ↔
        (n = t ∧ (Presents config.authKeys request ∨ Open config file)) ∨ Listed n file := by
  by_cases hkey : Presents config.authKeys request
  · obtain ⟨hok, hlisted⟩ := admitPeer_spec hb h config file true now
    rw [admitRequest, acceptWs_presents hkey]
    refine ⟨iff_of_true (hok.mpr (.inl rfl)) (.inl hkey), fun n => (hlisted n).trans ?_⟩
    rw [and_iff_left (.inl rfl), and_iff_left (.inl hkey)]
  · obtain ⟨hok, hlisted⟩ := admitPeer_spec hb h config file false now
    simp only [Bool.false_eq_true, false_or] at hok hlisted
    rw [admitRequest, acceptWs_not_presents hkey]
    simp only [or_iff_right hkey]
    split_ifs with hrefused
    · have hshut : ¬ Open config file := fun ho => hrefused.1 ho.1
      refine ⟨iff_of_false not_false ?_, fun n => ?_⟩
      · rw [or_iff_right hshut]
        rintro ⟨-, hnone⟩
        rw [hnone hrefused.1] at hrefused
        cases hrefused.2
      · rw [or_iff_right fun hn => hshut hn.2]
    · have hquiet : config.authKeys ≠ [] → extractBearerToken request = none := by
        intro hkeys
        simpa [hkeys] using hrefused
      rw [and_iff_left hquiet]
      exact ⟨hok, hlisted⟩

theorem Deed.listed_run (hb : StrictBase64) (config : VaultConfig) (file : Option Str) (n : NodeId)
    (d : Deed) :
    Listed n (d.run config file) ↔ d.Grants config file n ∨ (Listed n file ∧ ¬ d.Revokes n) := by
  cases d with
  | authorize sshLine expiry =>
    simp only [Deed.run, Deed.Grants, Deed.Revokes, not_false_eq_true, and_true]
    cases ht : parseSshPubkey sshLine with
    | none =>
      rw [Vault.authorizeWithExpiry, parseSshPubkey_of_words_eq (splitWhitespace_trim sshLine), ht]
      simp
    | some t => rw [listed_authorize hb ht, Option.some.injEq, eq_comm]
  | revoke sshLine => simp only [Deed.run, listed_revoke, Deed.Grants, Deed.Revokes,
    false_or, ne_eq]
  | extend sshOrPrefix moreDays now =>
    simp only [Deed.run, Deed.Grants, Deed.Revokes, false_or, not_false_eq_true, and_true]
    exact listed_rewriteFile hb _ _ file n
  | migrate now =>
    simp only [Deed.run, Deed.Grants, Deed.Revokes, false_or, not_false_eq_true, and_true]
    exact listed_migrate hb config file now n
  | connect request sshLine now =>
    simp only [Deed.run, Deed.Grants, Deed.Revokes, not_false_eq_true, and_true]
    cases ht : parseSshPubkey sshLine with
    | none =>
      have hkept : (admitRequest config file request sshLine now).2 = file := by
        unfold admitRequest Vault.admitPeer
        rw [ht]
        split <;> rfl
      rw [hkept]
      simp
    | some t => rw [(admitRequest_spec hb config file request ht now).2, Option.some.injEq, eq_comm]

/-- After any course of deeds a key is listed if and only if it was at first, or some deed granted
it, and nothing revoked it since. -/
theorem listed_runDeeds (hb : StrictBase64) (config : VaultConfig) (file : Option Str) (n : NodeId)
    (deeds : List Deed) :
    Listed n (runDeeds config file deeds) ↔ (Listed n file ∧ ∀ d ∈ deeds, ¬ d.Revokes n) ∨
      ∃ before d after, deeds = before ++ d :: after ∧
      d.Grants config (runDeeds config file before) n ∧
        ∀ d' ∈ after, ¬ d'.Revokes n :=
  Cells.holds_foldl (fun file d => d.listed_run hb config file n) deeds file

/-- The gate of a listener, whatever befell its key file: the listed keys are those that were
listed or granted and not revoked since, and a peer is let in if it presents a configured key, or
while nobody is listed and the first one is trusted, or on a valid line, unless it presents a key
that is not configured. A client presents a key of visible characters without the blanks around
it. -/
theorem gate_exact [LawfulCrates] (hb : StrictBase64) (config : VaultConfig) (file : Option Str)
    (deeds : List Deed) :
    (∀ n, Listed n (runDeeds config file deeds) ↔ (Listed n file ∧ ∀ d ∈ deeds, ¬ d.Revokes n) ∨
      ∃ before d after, deeds = before ++ d :: after ∧
      d.Grants config (runDeeds config file before) n ∧
        ∀ d' ∈ after, ¬ d'.Revokes n) ∧
    (∀ request sshLine now, (admitRequest config (runDeeds config file deeds) request sshLine
      now).1 = true ↔
      ∃ n, parseSshPubkey sshLine = some n ∧ (Presents config.authKeys request ∨
        Open config (runDeeds config file deeds) ∨
        (Current (runDeeds config file deeds) n now ∧
          (config.authKeys ≠ [] → extractBearerToken request = none)))) ∧
    ∀ k, (∀ c ∈ k, isVisible c) → ∃ request, buildClientRequest none (some k) = .ok request ∧
      (Presents config.authKeys request ↔ trim k ∈ config.authKeys ∧ trim k ≠ []) := by
  refine ⟨fun n => listed_runDeeds hb config file n deeds, fun request sshLine now => ?_,
    fun k hk => ?_⟩
  rotate_left
  · obtain ⟨request, hrequest, hpresents⟩ := presents_client hk
    exact ⟨request, hrequest, hpresents config.authKeys⟩
  cases ht : parseSshPubkey sshLine with
  | none =>
    have hrefused : (admitRequest config (runDeeds config file deeds) request sshLine now).1 =
        false := by
      unfold admitRequest Vault.admitPeer
      rw [ht]
      split <;> rfl
    rw [hrefused]
    simp
  | some t =>
    rw [(admitRequest_spec hb config _ request ht now).1]
    simp

/-! ### Lines written again -/

/-- The lines of keys that pass have the expiry, and no other line was touched. -/
structure Rewrote (pass : KeyEntry → Bool) (expiry : Expiry) (file : Option Str)
    (r : Nat × Option Str) : Prop where
  count : r.1 = (parseFile (file.getD [])).countP fun e => e.isKey && pass e
  lines : List.Forall₂ (fun e e' => if e.isKey && pass e then e'.node = e.node ∧
      e'.expiry = expiry else e' = e)
    (parseFile (file.getD [])) (parseFile (r.2.getD []))
  idle : r.1 = 0 → r.2 = file

theorem parseFile_rewriteFile (hb : StrictBase64) (pass : KeyEntry → Bool) (expiry : Expiry)
    (file : Option Str) :
    parseFile ((rewriteFile pass expiry file).2.getD []) =
      (parseFile (file.getD [])).map fun e => if e.isKey && pass e then parseLine
      (buildLine e.raw expiry) else e := by
  unfold rewriteFile rewriteEntries
  dsimp only
  split_ifs with hpos
  · have hclean : ∀ e' ∈ (parseFile (file.getD [])).map fun e =>
        if e.isKey && pass e then parseLine (buildLine e.raw expiry) else e, Clean e' := by
      intro e' he'
      obtain ⟨e, he, rfl⟩ := List.mem_map.mp he'
      exact (clean_rewrite hb he pass expiry).1
    rcases parseFile_serialize hclean with h | ⟨hblank, -⟩
    · exact h
    · -- a lone blank line is no hit
      obtain ⟨e, he, hpass⟩ := List.countP_pos_iff.mp hpos
      have hnode := (clean_rewrite hb he pass expiry).2
      have hraw := List.mem_map_of_mem (f := KeyEntry.raw) (List.mem_map_of_mem
        (f := fun e => if e.isKey && pass e then parseLine (buildLine e.raw expiry) else e) he)
      rw [hblank, List.mem_singleton] at hraw
      rw [← (hclean _ (List.mem_map_of_mem he)).parsed, hraw, parseLine_node] at hnode
      rw [Bool.and_eq_true, KeyEntry.isKey, ← hnode] at hpass
      cases hpass.1
  · have hzero := Nat.eq_zero_of_not_pos hpos
    rw [List.countP_eq_zero] at hzero
    symm
    refine (List.map_congr_left fun e he => ?_).trans (List.map_id _)
    rw [if_neg (hzero e he)]
    rfl

theorem rewrote_rewriteFile (hb : StrictBase64) {pass : KeyEntry → Bool} {expiry : Expiry}
    (file : Option Str) (hread : ∀ {l : Str} {n : NodeId}, parseSshPubkey l = some n →
      (parseLine (buildLine l expiry)).expiry = expiry) :
    Rewrote pass expiry file (rewriteFile pass expiry file) := by
  refine ⟨rfl, ?_, fun hzero => if_neg (Nat.not_lt.mpr (Nat.le_of_eq hzero))⟩
  rw [parseFile_rewriteFile hb, List.forall₂_map_right_iff, List.forall₂_same]
  intro e he
  have hnode := (clean_rewrite hb he pass expiry).2
  split_ifs at hnode ⊢ with hpass
  · rw [Bool.and_eq_true, KeyEntry.isKey, Option.isSome_iff_exists] at hpass
    obtain ⟨⟨n, hn⟩, -⟩ := hpass
    exact ⟨hnode, hread ((node_of_raw he).trans hn)⟩
  · rfl

theorem rewriteFile_none {pass : KeyEntry → Bool} (expiry : Expiry) {file : Option Str}
    (h : ∀ e ∈ parseFile (file.getD []), (e.isKey && pass e) = false) :
    rewriteFile pass expiry file = (0, file) := by
  have hzero : (parseFile (file.getD [])).countP (fun e => e.isKey && pass e) = 0 :=
    List.countP_eq_zero.mpr fun e he => by rw [h e he]; exact Bool.false_ne_true
  unfold rewriteFile rewriteEntries
  dsimp only
  rw [hzero]
  rfl

omit [Crates] in
theorem dated {now days : Nat} (hdate : now / secsPerDay + days + 1 ≤ lastDay) :
    now + days * secsPerDay < expiryFromTtlDays now days ∧
      (Expiry.at (expiryFromTtlDays now days)).reread = .at (expiryFromTtlDays now days) := by
  have heq := (expiryFromTtlDays_eq (noOverflow_of_le hdate)).1
  rw [heq, Expiry.reread, Nat.mul_div_cancel _ (by decide : 0 < secsPerDay), if_pos hdate]
  refine ⟨?_, rfl⟩
  unfold secsPerDay
  omega

theorem current_rewriteFile (hb : StrictBase64) {pass : KeyEntry → Bool} {expiry : Expiry}
    (file : Option Str) (hread : ∀ {l : Str} {n : NodeId}, parseSshPubkey l = some n →
      (parseLine (buildLine l expiry)).expiry = expiry)
    (n : NodeId) (now : Nat) : Current (rewriteFile pass expiry file).2 n now ↔
      ∃ e, (parseFile (file.getD [])).find? (fun e => e.node = some n) = some e ∧
        (if pass e then expiry else e.expiry).isValid now = true := by
  have hfind : ((parseFile (file.getD [])).find? ((fun e : KeyEntry => decide (e.node = some n)) ∘
      fun e => if e.isKey && pass e then parseLine (buildLine e.raw expiry) else e)) =
        (parseFile (file.getD [])).find? fun e => e.node = some n := by
    refine List.find?_congr fun e he => ?_
    rw [Function.comp, (clean_rewrite hb he pass expiry).2]
  rw [Current, parseFile_rewriteFile hb, List.find?_map, hfind]
  cases hf : (parseFile (file.getD [])).find? fun e => e.node = some n with
  | none => simp
  | some e =>
    have hnode : e.node = some n := by simpa using List.find?_some hf
    have hexpiry : (if e.isKey && pass e then parseLine (buildLine e.raw expiry) else e).expiry =
        if pass e then expiry else e.expiry := by
      rw [KeyEntry.isKey, hnode, Option.isSome_some, Bool.true_and]
      split_ifs
      · exact hread ((node_of_raw (List.mem_of_find?_eq_some hf)).trans hnode)
      · rfl
    rw [Option.map_some]
    simp only [Option.some.injEq, exists_eq_left', hexpiry]

/-- Extending an expiry, and the migration when a listener starts, touch the lines that they name
and no other, as long as the date can be written. The migration turns nobody away within the time
that it gives, and there is nothing to do a second time. -/
theorem expiry_edits_exact (hb : StrictBase64) (config : VaultConfig) (file : Option Str)
    (sshOrPrefix : Str) (now : Nat) :
    Rewrote (Vault.extendMatches sshOrPrefix) .never file
    (Vault.extendExpiry file sshOrPrefix none now) ∧
    (∀ d, now / secsPerDay + d + 1 ≤ lastDay → now + d * secsPerDay < expiryFromTtlDays now d ∧
      Rewrote (Vault.extendMatches sshOrPrefix) (.at (expiryFromTtlDays now d)) file
        (Vault.extendExpiry file sshOrPrefix (some d) now)) ∧
    ∀ ttl, config.defaultKeyTtlDays.getD builtinDefaultTtlDays = ttl → ttl ≠ 0 →
    now / secsPerDay + ttl + 1 ≤ lastDay →
      Rewrote (fun e => e.expiry = .unset) (.at (expiryFromTtlDays now ttl)) file
      (Vault.migrateDefaultExpiry config file now) ∧
      (∀ n t, t ≤ now + ttl * secsPerDay →
        (Current (Vault.migrateDefaultExpiry config file now).2 n t ↔ Current file n t)) ∧
      ∀ later, Vault.migrateDefaultExpiry config
      (Vault.migrateDefaultExpiry config file now).2 later =
        (0, (Vault.migrateDefaultExpiry config file now).2) := by
  have hread : ∀ {expiry : Expiry}, expiry.reread = expiry → (∀ t, expiry = .at t → t < 2 ^ 64) →
      ∀ {l : Str} {n : NodeId},
      parseSshPubkey l = some n → (parseLine (buildLine l expiry)).expiry = expiry :=
      fun hsame hlt _ _ h =>
    (parseLine_buildLine hb h hlt).2.trans hsame
  have hdays : ∀ {d}, now / secsPerDay + d + 1 ≤ lastDay → ∀ {l : Str} {n : NodeId},
      parseSshPubkey l = some n →
      (parseLine (buildLine l (.at (expiryFromTtlDays now d)))).expiry = .at
      (expiryFromTtlDays now d) := fun hdate =>
    hread (dated hdate).2 fun t ht => Expiry.at.inj ht ▸ Nat.mod_lt _ (by decide)
  refine ⟨rewrote_rewriteFile hb file (hread rfl (by rintro t ⟨⟩)), fun d hdate =>
    ⟨(dated hdate).1, rewrote_rewriteFile hb file (hdays hdate)⟩, fun ttl hconfig httl hdate => ?_⟩
  have hmigrate : ∀ file now, Vault.migrateDefaultExpiry config file now =
      rewriteFile (fun e => e.expiry = .unset) (.at (expiryFromTtlDays now ttl)) file := by
    intro file now
    rw [Vault.migrateDefaultExpiry, hconfig]
    exact if_neg httl
  have hrewrote : Rewrote (fun e => decide (e.expiry = .unset))
      (.at (expiryFromTtlDays now ttl)) file
      (rewriteFile (fun e => decide (e.expiry = .unset)) (.at (expiryFromTtlDays now ttl)) file) :=
    rewrote_rewriteFile hb file (hdays hdate)
  simp only [hmigrate]
  refine ⟨hrewrote, fun n t ht => ?_, fun later => ?_⟩
  · rw [current_rewriteFile hb file (hdays hdate), Current]
    refine exists_congr fun e => and_congr_right fun _ => ?_
    by_cases hunset : e.expiry = .unset
    · -- such a line is valid now, and it stays so up to the date
      have hlate := (dated hdate).1
      simp only [hunset, decide_true, if_true, Expiry.isValid, decide_eq_true_eq, iff_true]
      omega
    · rw [if_neg (by simpa using hunset)]
  · refine rewriteFile_none _ fun e' he' => ?_
    rw [parseFile_rewriteFile hb] at he'
    obtain ⟨e, he, rfl⟩ := List.mem_map.mp he'
    split_ifs with hpass
    · rw [Bool.and_eq_true, KeyEntry.isKey, Option.isSome_iff_exists] at hpass
      obtain ⟨⟨n, hn⟩, -⟩ := hpass
      rw [hdays hdate ((node_of_raw he).trans hn)]
      exact Bool.and_false _
    · exact Bool.eq_false_iff.mpr hpass

end Keys

namespace Small

theorem parseSshPubkey_peerLine : parseSshPubkey peerLine = some (key [7]) := by decide

def revoked : List Deed := [.connect {} peerLine 0, .revoke peerLine]

/-- Nobody is left on the list, so the next one to come is trusted, and that may be the same
peer. -/
theorem gate_exact_revoked : ¬ Listed (key [7]) (runDeeds listener none revoked) ∧
    (admitRequest listener (runDeeds listener none revoked) {} peerLine 0).1 = true := by
  obtain ⟨hlisted, hin, -⟩ := gate_exact strictBase64 listener none revoked
  constructor
  · rw [hlisted]
    rintro (⟨⟨e, he, -⟩, -⟩ | ⟨before, d, after, heq, hgrants, hkept⟩)
    · cases he
    · rcases before with _ | ⟨c, _ | ⟨c', before⟩⟩
      · obtain ⟨-, rfl⟩ := List.cons.inj heq
        exact hkept (.revoke peerLine) List.mem_cons_self parseSshPubkey_peerLine
      · obtain ⟨rfl, -⟩ := List.cons.inj (List.cons.inj heq).2
        exact hgrants
      · have hlen := congrArg List.length heq
        simp [revoked] at hlen
  · refine (hin {} peerLine 0).mpr ⟨key [7], parseSshPubkey_peerLine, .inr (.inl ⟨rfl, rfl, ?_⟩)⟩
    decide +kernel

def undated : Str := peerLine ++ "\n# peers\n".toList ++ buildLine
    (sshPubkeyString (key [8]) "friend".toList) .never ++ ['\n']

theorem expiry_edits_exact_undated : (Vault.migrateDefaultExpiry listener
      (some undated) 1750000000).1 = 1 ∧
    (∀ n, Current (Vault.migrateDefaultExpiry listener (some undated) 1750000000).2 n 1750000000 ↔
      Current (some undated) n 1750000000) ∧
    ∀ later, Vault.migrateDefaultExpiry listener
    (Vault.migrateDefaultExpiry listener (some undated) 1750000000).2 later =
      (0, (Vault.migrateDefaultExpiry listener (some undated) 1750000000).2) := by
  obtain ⟨-, -, hmigrate⟩ := expiry_edits_exact strictBase64 listener (some undated) [] 1750000000
  obtain ⟨hrewrote, hcurrent, hagain⟩ := hmigrate 90 rfl (by decide) (by decide)
  refine ⟨hrewrote.count.trans (by decide +kernel), fun n =>
    hcurrent n _ (Nat.le_add_right _ _), hagain⟩

end Small

end Csp
