import Csp.Expiry
import Csp.Session

/-! The edits of `authorized_keys`, and the admission of a peer as it is written twice: once
over the text an engine holds, once over the file of a vault. An edit touches the lines of
one key. -/

namespace Csp
open Result
section Keys
variable [Crates]

/-! ### The file of a vault -/

def enrollExpiry (config : VaultConfig) (now : Nat) : Expiry :=
  let ttlDays := config.defaultKeyTtlDays.getD builtinDefaultTtlDays
  if ttlDays = 0 then .unset else .at (expiryFromTtlDays now ttlDays)

namespace Vault

def authorizedNodeIds (file : Option Str) (now : Nat) : List NodeId :=
  match file with
  | none => []
  | some s => (parseFile s).filterMap fun e => if e.expiry.isValid now then e.node else none

def authorizeWithExpiry (file : Option Str) (sshLine : Str) (expiry : Expiry) : Option Str :=
  let entries := parseFile (file.getD [])
  let newLine := buildLine sshLine expiry
  match parseSshPubkey (trim sshLine) with
  | none => file
  | some t =>
    match entries.findIdx? fun e => e.node = some t with
    | some i => some (serialize (entries.set i (parseLine newLine)))
    | none => some (serialize (entries ++ [parseLine newLine]))

def authorize (file : Option Str) (sshLine : Str) : Option Str :=
  authorizeWithExpiry file sshLine .unset

def revoke (file : Option Str) (sshLine : Str) : Option Str :=
  let target := parseSshPubkey (trim sshLine)
  let kept := (parseFile (file.getD [])).filter fun e =>
    match e.node, target with
    | some a, some b => a ≠ b
    | _, _ => trim e.raw ≠ trim sshLine
  some (serialize kept)

def admitPeer (config : VaultConfig) (file : Option Str) (sshLine : Str)
    (enrollmentAuthorized : Bool) (now : Nat) :
    Bool × Option Str :=
  match parseSshPubkey sshLine with
  | none => (false, file)
  | some peerNode =>
    let entries := parseFile (file.getD [])
    match entries.findIdx? fun e => e.node = some peerNode with
    | some i =>
      if entries[i]?.any fun e => e.expiry.isValid now then (true, file)
      else if enrollmentAuthorized then
        (true, some (serialize (entries.set i (parseLine
          (buildLine sshLine (enrollExpiry config now))))))
      else (false, file)
    | none =>
      if enrollmentAuthorized then
        (true, some (serialize (entries ++ [parseLine
        (buildLine sshLine (enrollExpiry config now))])))
      else if !(entries.any fun e => e.isKey) && !config.noTofu && config.authKeys = [] then
        (true, some (serialize (entries ++ [parseLine
        (buildLine sshLine (enrollExpiry config now))])))
      else (false, file)

end Vault

def MemEngine.authorizedNodeIds {Oid : Type} [ObjectId Oid] (e : MemEngine Oid) (now : Nat) :
    List NodeId :=
  (parseFile e.authorized).filterMap fun e => if e.expiry.isValid now then e.node else none

/-! ### One decision -/

omit [Crates] in
theorem findIdx_cases {α : Type} (p : α → Bool) (l : List α) :
    (l.findIdx? p = none ∧ l.find? p = none) ∨
      ∃ i a, l.findIdx? p = some i ∧ l[i]? = some a ∧ l.find? p = some a ∧ l.findIdx p = i := by
  induction l with
  | nil => exact .inl ⟨rfl, rfl⟩
  | cons b l ih =>
    cases hb : p b with
    | true => exact .inr ⟨0, b, by simp [List.findIdx?_cons, hb], rfl, by simp [hb],
      by simp [List.findIdx_cons, hb]⟩
    | false =>
      rcases ih with ⟨h₁, h₂⟩ | ⟨i, a, h₁, h₂, h₃, h₄⟩
      · exact .inl ⟨by simp [List.findIdx?_cons, hb, h₁], by simp [hb, h₂]⟩
      · exact .inr ⟨i + 1, a, by simp [List.findIdx?_cons, hb, h₁], h₂, by simp [hb, h₃],
          by simp [List.findIdx_cons, hb, h₄]⟩

/-- The vault decides on the text of its file as the engine does on its own. -/
theorem Vault.admitPeer_eq (config : VaultConfig) (text sshLine : Str) (enroll : Bool) (now : Nat) :
    Vault.admitPeer config (some text) sshLine enroll now =
      ((admitDecision config text sshLine enroll now).1,
        some (admitDecision config text sshLine enroll now).2) := by
  unfold Vault.admitPeer admitDecision
  cases parseSshPubkey sshLine with
  | none => rfl
  | some n =>
    dsimp only [Option.getD_some]
    rcases findIdx_cases (fun e : KeyEntry => e.node = some n) (parseFile text) with ⟨h₁, h₂⟩ | ⟨i,
      e, h₁, h₂, h₃, h₄⟩
    · simp only [h₁, h₂, enrollExpiry]
      cases enroll with
      | true => simp only [Bool.true_or, if_true]
      | false =>
        simp only [Bool.false_or, Bool.false_eq_true, if_false]
        split_ifs <;> rfl
    · simp only [h₁, h₂, h₃, h₄, Option.any_some, enrollExpiry]
      split_ifs <;> rfl

theorem admitDecision_listed {config : VaultConfig} {text sshLine : Str} {n : NodeId}
    (h : parseSshPubkey sshLine = some n) (hkey : ((parseFile text).any fun e => e.isKey) = true)
    (now : Nat) :
    (admitDecision config text sshLine false now).1 = true ↔
      ∃ e, (parseFile text).find? (fun e => e.node = some n) = some e ∧
      e.expiry.isValid now = true := by
  unfold admitDecision
  simp only [h, hkey]
  cases (parseFile text).find? fun e => e.node = some n with
  | none => simp
  | some e => by_cases hv : e.expiry.isValid now = true <;> simp [hv]

omit [Crates] in
theorem mem_validNodes {entries : List KeyEntry} {n : NodeId} {now : Nat} :
    n ∈ (entries.filterMap fun e => if e.expiry.isValid now then e.node else none) ↔
      ∃ e ∈ entries, e.node = some n ∧ e.expiry.isValid now = true := by
  rw [List.mem_filterMap]
  refine exists_congr fun e => and_congr_right fun _ => ?_
  split_ifs with hv <;> simp [hv]

section Agreement
variable {Oid : Type} [ObjectId Oid]

/-- With a key listed and enrollment off both versions of admission accept whom the matching
list of keys names, and in all cases the two decide alike and leave one text. -/
def AdmissionAgrees (e : MemEngine Oid) (now : Nat) (sshLine : Str) : Prop :=
  (((parseFile e.authorized).any fun x => x.isKey) = true →
    ((MemEngine.admitPeer sshLine false now e).1 = .ok true ↔
      ∃ n, parseSshPubkey sshLine = some n ∧ n ∈ e.authorizedNodeIds now) ∧
    ((Vault.admitPeer e.config (some e.authorized) sshLine false now).1 = true ↔
      ∃ n, parseSshPubkey sshLine = some n ∧ n ∈ Vault.authorizedNodeIds (some e.authorized) now)) ∧
  ∀ enroll, (MemEngine.admitPeer sshLine enroll now e).1 =
      .ok (Vault.admitPeer e.config (some e.authorized) sshLine enroll now).1 ∧
    some (MemEngine.admitPeer sshLine enroll now e).2.authorized =
      (Vault.admitPeer e.config (some e.authorized) sshLine enroll now).2

/-- If the first line of the peer's key has expired, so have all its lines. -/
def FirstLineDecides (text : Str) (now : Nat) (sshLine : Str) : Prop :=
  ∀ n x, parseSshPubkey sshLine = some n → (parseFile text).find?
    (fun e => e.node = some n) = some x →
    x.expiry.isValid now = false → ∀ y ∈ parseFile text, y.node = some n →
    y.expiry.isValid now = false

/-- Admission looks at the first line of a key, the list of keys at all of them. -/
theorem admissionAgrees_iff (e : MemEngine Oid) (now : Nat) (sshLine : Str) :
    AdmissionAgrees e now sshLine ↔ FirstLineDecides e.authorized now sshLine := by
  have hsame : ∀ enroll, (MemEngine.admitPeer sshLine enroll now e).1 =
        .ok (Vault.admitPeer e.config (some e.authorized) sshLine enroll now).1 ∧
      some (MemEngine.admitPeer sshLine enroll now e).2.authorized =
        (Vault.admitPeer e.config (some e.authorized) sshLine enroll now).2 := by
    intro enroll
    rw [Vault.admitPeer_eq]
    exact ⟨rfl, rfl⟩
  have hids : ∀ n, n ∈ e.authorizedNodeIds now ↔ ∃ y ∈ parseFile e.authorized, y.node = some n ∧
      y.expiry.isValid now = true :=
    fun n => mem_validNodes
  -- both versions accept by the first line, and the lists name every valid line
  have hone : ((MemEngine.admitPeer sshLine false now e).1 = .ok true ↔
        ∃ n, parseSshPubkey sshLine = some n ∧ n ∈ e.authorizedNodeIds now) ↔
      ((admitDecision e.config e.authorized sshLine false now).1 = true ↔
        ∃ n, parseSshPubkey sshLine = some n ∧ n ∈ e.authorizedNodeIds now) := by
    rw [show (MemEngine.admitPeer sshLine false now e).1 = .ok
      (admitDecision e.config e.authorized sshLine false now).1
      from rfl, Except.ok.injEq]
  have htwo : ((Vault.admitPeer e.config (some e.authorized) sshLine false now).1 = true ↔
        ∃ n, parseSshPubkey sshLine = some n ∧ n ∈ Vault.authorizedNodeIds
        (some e.authorized) now) ↔
      ((admitDecision e.config e.authorized sshLine false now).1 = true ↔
        ∃ n, parseSshPubkey sshLine = some n ∧ n ∈ e.authorizedNodeIds now) := by
    rw [Vault.admitPeer_eq]
    rfl
  have hmem : ∀ {n x}, (parseFile e.authorized).find? (fun e => e.node = some n) = some x →
      x ∈ parseFile e.authorized ∧ x.node = some n := fun hx =>
    ⟨List.mem_of_find?_eq_some hx, by simpa using List.find?_some hx⟩
  rw [AdmissionAgrees, hone, htwo, and_self, and_iff_left hsame]
  constructor
  · intro hagree n x hn hx hexp y hy hyn
    by_contra hvalid
    have hkey : ((parseFile e.authorized).any fun x => x.isKey) = true :=
      List.any_eq_true.mpr ⟨y, hy, by rw [KeyEntry.isKey, hyn]; rfl⟩
    have hlisted := (hagree hkey).mpr ⟨n, hn, (hids n).mpr ⟨y, hy, hyn, by simpa using hvalid⟩⟩
    obtain ⟨x', hx', hv⟩ := (admitDecision_listed hn hkey now).mp hlisted
    rw [hx] at hx'
    rw [← Option.some.inj hx', hexp] at hv
    cases hv
  · intro hfirst hkey
    cases hn : parseSshPubkey sshLine with
    | none =>
      refine ⟨fun h => ?_, fun ⟨n, h, _⟩ => by cases h⟩
      simp [admitDecision, hn] at h
    | some n =>
      rw [admitDecision_listed hn hkey]
      constructor
      · rintro ⟨x, hx, hv⟩
        exact ⟨n, rfl, (hids n).mpr ⟨x, (hmem hx).1, (hmem hx).2, hv⟩⟩
      · rintro ⟨_, hnn, hid⟩
        obtain rfl := Option.some.inj hnn
        obtain ⟨y, hy, hyn, hv⟩ := (hids n).mp hid
        cases hx : (parseFile e.authorized).find? fun e => e.node = some n with
        | none => exact absurd hyn (by simpa using List.find?_eq_none.mp hx y hy)
        | some x =>
          refine ⟨x, rfl, ?_⟩
          by_contra hexp
          rw [hfirst n x hn hx (by simpa using hexp) y hy hyn] at hv
          cases hv

end Agreement

/-! ### Entries and their text -/

/-- An entry as the parser makes it of a line. -/
structure Clean (e : KeyEntry) : Prop where
  parsed : parseLine e.raw = e
  newline : '\n' ∉ e.raw
  cr : e.raw.getLast? ≠ some '\r'

omit [Crates] in
theorem trimEndMatches_eq_self {c : Char} {s : Str} (h : s.getLast? ≠ some c) :
    trimEndMatches c s = s := by
  refine List.rdropWhile_eq_self_iff.mpr fun hne hlast => h ?_
  rw [List.getLast?_eq_some_getLast hne, of_decide_eq_true hlast]

omit [Crates] in
theorem getLast?_trimEndMatches (c : Char) (s : Str) : (trimEndMatches c s).getLast? ≠ some c := by
  intro h
  have hne : trimEndMatches c s ≠ [] := by
    rintro hnil
    rw [hnil] at h
    cases h
  rw [List.getLast?_eq_some_getLast hne, Option.some.injEq] at h
  exact List.rdropWhile_last_not (fun a => decide (a = c)) s hne (decide_eq_true h)

omit [Crates] in
theorem notMem_trimEndMatches {a c : Char} {s : Str} (h : a ∉ s) : a ∉ trimEndMatches c s :=
  fun hm =>
  h ((List.rdropWhile_prefix (fun a => decide (a = c)) s).mem hm)

theorem raw_parseLine {l : Str} (h : '\n' ∉ l) : (parseLine l).raw = trimEndMatches '\r' l := by
  have hraw : (parseLine l).raw = trimEndMatches '\r' (trimEndMatches '\n' l) := by
    unfold parseLine
    dsimp only
    split_ifs <;> rfl
  rw [hraw, trimEndMatches_eq_self fun hl => h (List.mem_of_getLast? hl)]

theorem clean_parseLine {l : Str} (h : '\n' ∉ l) : Clean (parseLine l) := by
  have hraw := raw_parseLine h
  have hnl : '\n' ∉ (parseLine l).raw := hraw ▸ notMem_trimEndMatches h
  have hcr : (parseLine l).raw.getLast? ≠ some '\r' := hraw ▸ getLast?_trimEndMatches _ _
  refine ⟨?_, hnl, hcr⟩
  have hsame : trimEndMatches '\r' (trimEndMatches '\n' (parseLine l).raw) = trimEndMatches '\r'
      (trimEndMatches '\n' l) := by
    rw [trimEndMatches_eq_self fun hl => hnl (List.mem_of_getLast? hl),
      trimEndMatches_eq_self hcr, hraw,
      trimEndMatches_eq_self fun hl => h (List.mem_of_getLast? hl)]
  conv_lhs => rw [parseLine, hsame]
  rw [parseLine]

theorem clean_parseFile {s : Str} {e : KeyEntry} (h : e ∈ parseFile s) : Clean e := by
  obtain ⟨l, hl, rfl⟩ := List.mem_map.mp h
  exact clean_parseLine (notMem_lines hl)

omit [Crates] in
theorem notMem_join {c sep : Char} (hc : c ≠ sep) {ws : List Str} (h : ∀ w ∈ ws, c ∉ w) :
    c ∉ Split.join sep ws := by
  induction ws with
  | nil => simp [Split.join]
  | cons w ws ih =>
    have hws := ih fun w hw => h w (List.mem_cons_of_mem _ hw)
    cases ws with
    | nil => exact h w List.mem_cons_self
    | cons v vs =>
      rw [Split.join_cons sep w (by simp), List.mem_append, List.mem_cons]
      rintro (hm | hm | hm)
      · exact h w List.mem_cons_self hm
      · exact hc hm
      · exact hws hm

omit [Crates] in
theorem notMem_buildLine (l : Str) (e : Expiry) : '\n' ∉ buildLine l e := by
  have hhead : '\n' ∉ stripExpiryTokens (trim l) := by
    rw [stripExpiryTokens_eq]
    refine notMem_join (by decide) fun w hw hm => ?_
    have := (word_of_mem (List.mem_filter.mp hw).1).2 _ hm
    exact absurd this (by decide)
  have hdate : ∀ t, '\n' ∉ formatDateYmdUtc t := by
    intro t hm
    rcases mem_formatDateYmdUtc hm with h | h
    · exact absurd h (by decide)
    · exact absurd h (by decide)
  cases e with
  | «at» t =>
    simp only [buildLine, List.append_assoc, List.mem_append, List.mem_cons, not_or]
    exact ⟨hhead, by decide, hdate t⟩
  | never =>
    simp only [buildLine, List.append_assoc, List.mem_append, List.mem_cons, not_or]
    exact ⟨hhead, by decide, by decide⟩
  | unset => exact hhead

omit [Crates] in
theorem join_terminated {ls : List Str} (h : ls ≠ []) :
    Split.join '\n' ls ++ ['\n'] = ls.flatMap fun l => l ++ ['\n'] := by
  induction ls with
  | nil => exact absurd rfl h
  | cons l ls ih =>
    cases ls with
    | nil => simp [Split.join]
    | cons k ks => rw [Split.join_cons '\n' l (by simp), List.append_assoc, List.cons_append,
      ih (by simp)]; simp

theorem parseFile_serialize {es : List KeyEntry} (h : ∀ e ∈ es, Clean e) :
    parseFile (serialize es) = es ∨ es.map (·.raw) = [[]] ∧ parseFile (serialize es) = [] := by
  unfold serialize
  dsimp only
  cases hes : es.map (·.raw) with
  | nil =>
    rw [List.map_eq_nil_iff.mp hes]
    exact .inl rfl
  | cons r rs =>
    by_cases hjoin : Split.join '\n' (r :: rs) = []
    · rw [if_pos hjoin]
      cases rs with
      | nil => exact .inr ⟨by rw [show r = [] from hjoin], rfl⟩
      | cons k ks => simp [Split.join] at hjoin
    · rw [if_neg hjoin, join_terminated (by simp), ← hes, parseFile, lines_terminated, List.map_map]
      · exact .inl ((List.map_congr_left fun e he => (h e he).parsed).trans (List.map_id' es))
      · intro l hl
        obtain ⟨e, he, rfl⟩ := List.mem_map.mp hl
        exact ⟨(h e he).newline, (h e he).cr⟩

/-! ### The frame -/

/-- The lines of a text that are not of the given key, without the carriage returns at their
ends. -/
def otherLines (n : NodeId) (text : Str) : List Str :=
  ((lines text).map (trimEndMatches '\r')).filter fun l => parseSshPubkey l ≠ some n

/-- Two lists of lines differ at most in a final newline: a lone blank line is one. -/
def UpToFinalNewline (ls ls' : List Str) : Prop := ls' = ls ∨ ls = [[]] ∧ ls' = []

theorem otherLines_eq (n : NodeId) (text : Str) :
    otherLines n text = ((parseFile text).filter fun e => e.node ≠ some n).map (·.raw) := by
  have hline : ∀ l ∈ lines text, trimEndMatches '\r' l = (parseLine l).raw ∧
      (parseSshPubkey (trimEndMatches '\r' l) ≠ some n ↔ (parseLine l).node ≠ some n) := by
    intro l hl
    refine ⟨(raw_parseLine (notMem_lines hl)).symm, ?_⟩
    rw [parseLine_node, parseSshPubkey_of_words_eq (splitWhitespace_trimEndMatches (by decide) l)]
  unfold otherLines parseFile
  generalize lines text = ls at hline
  induction ls with
  | nil => rfl
  | cons l ls ih =>
    obtain ⟨hraw, hnode⟩ := hline l List.mem_cons_self
    have hrest := ih fun l hl => hline l (List.mem_cons_of_mem _ hl)
    rw [List.map_cons, List.map_cons, List.filter_cons, List.filter_cons, hrest]
    by_cases hn : (parseLine l).node = some n
    · rw [if_neg (by simpa using fun h => (hnode.mp h) hn), if_neg (by simp [hn])]
    · rw [if_pos (by simpa using hnode.mpr hn), if_pos (by simpa using hn), List.map_cons, hraw]

/-- An edit of the entries that keeps those of the other keys keeps their lines. -/
theorem framed_of_entries {n : NodeId} {text : Str} {es : List KeyEntry}
    (hclean : ∀ e ∈ es, Clean e) (hothers : es.filter (fun e => e.node ≠ some n) =
      (parseFile text).filter fun e => e.node ≠ some n) :
    UpToFinalNewline (otherLines n text) (otherLines n (serialize es)) := by
  rw [otherLines_eq, otherLines_eq, ← hothers]
  rcases parseFile_serialize hclean with h | ⟨hblank, h⟩
  · exact .inl (by rw [h])
  · rw [h]
    obtain ⟨e, rfl, hraw⟩ := List.map_eq_singleton_iff.mp hblank
    refine .inr ⟨?_, rfl⟩
    have hnode : e.node = none := by
      rw [← (hclean e List.mem_cons_self).parsed, hraw, parseLine_node]
      rfl
    rw [List.filter_cons_of_pos (by simp [hnode]), List.filter_nil, List.map_singleton, hraw]

omit [Crates] in
theorem filter_set {α : Type} {p : α → Bool} {l : List α} {i : Nat} {a b : α} (hl : l[i]? = some a)
    (ha : p a = false) (hb : p b = false) : (l.set i b).filter p = l.filter p := by
  induction l generalizing i with
  | nil => rfl
  | cons c l ih =>
    cases i with
    | zero =>
      obtain rfl := Option.some.inj hl
      rw [List.set_cons_zero, List.filter_cons_of_neg (by simp [hb]), List.filter_cons_of_neg
        (by simp [ha])]
    | succ i => rw [List.set_cons_succ, List.filter_cons, List.filter_cons, ih hl]

theorem framed_set {n : NodeId} {text : Str} {i : Nat} {a b : KeyEntry}
    (hi : (parseFile text)[i]? = some a) (ha : a.node = some n) (hb : b.node = some n)
    (hclean : Clean b) :
    UpToFinalNewline (otherLines n text) (otherLines n (serialize ((parseFile text).set i b))) := by
  refine framed_of_entries (fun e he => ?_) (filter_set hi (by simp [ha]) (by simp [hb]))
  rcases List.mem_or_eq_of_mem_set he with he | rfl
  · exact clean_parseFile he
  · exact hclean

theorem framed_append {n : NodeId} {text : Str} {b : KeyEntry} (hb : b.node = some n)
    (hclean : Clean b) :
    UpToFinalNewline (otherLines n text) (otherLines n (serialize (parseFile text ++ [b]))) := by
  refine framed_of_entries (fun e he => ?_) ?_
  · rcases List.mem_append.mp he with he | he
    · exact clean_parseFile he
    · exact List.mem_singleton.mp he ▸ hclean
  · rw [List.filter_append, List.filter_cons_of_neg (by simp [hb]), List.filter_nil,
      List.append_nil]

theorem parseFile_append {text : Str} {b : KeyEntry} {n : NodeId} (hb : b.node = some n)
    (hclean : Clean b) :
    parseFile (serialize (parseFile text ++ [b])) = parseFile text ++ [b] := by
  have hall : ∀ e ∈ parseFile text ++ [b], Clean e := by
    intro e he
    rcases List.mem_append.mp he with he | he
    · exact clean_parseFile he
    · exact List.mem_singleton.mp he ▸ hclean
  rcases parseFile_serialize hall with h | ⟨hblank, -⟩
  · exact h
  · -- the entry that is added is not blank
    have hraw : b.raw ∈ (parseFile text ++ [b]).map (·.raw) := List.mem_map_of_mem (by simp)
    rw [hblank, List.mem_singleton] at hraw
    rw [← hclean.parsed, hraw, parseLine_node] at hb
    cases hb

namespace Vault
variable {sshLine : Str} {n : NodeId} (hb : StrictBase64) (h : parseSshPubkey sshLine = some n)
include h

theorem parseSshPubkey_trim : parseSshPubkey (trim sshLine) = some n :=
  (parseSshPubkey_of_words_eq (splitWhitespace_trim sshLine)).trans h

theorem revoke_framed (file : Option Str) :
    UpToFinalNewline (otherLines n (file.getD [])) (otherLines n ((revoke file sshLine).getD [])) ∧
      ∀ e ∈ parseFile ((revoke file sshLine).getD []), e.node ≠ some n := by
  let kept := (parseFile (file.getD [])).filter fun e => e.node ≠ some n
  have hrevoke : revoke file sshLine = some (serialize kept) := by
    have hfilter : ∀ e ∈ parseFile (file.getD []), (match e.node, some n with
        | some a, some b => decide (a ≠ b)
        | _, _ => decide (trim e.raw ≠ trim sshLine)) = decide (e.node ≠ some n) := by
      intro e he
      cases hn : e.node with
      | some a => simp
      | none =>
        -- a line without a key is not the line of a key
        have hne : trim e.raw ≠ trim sshLine := by
          intro heq
          have hkey : parseSshPubkey e.raw = some n := by
            rw [← parseSshPubkey_trim h, ← heq]
            exact parseSshPubkey_of_words_eq (splitWhitespace_trim e.raw).symm
          rw [← parseLine_node, (clean_parseFile he).parsed, hn] at hkey
          cases hkey
        simp [hne]
    rw [revoke, parseSshPubkey_trim h]
    exact congrArg (fun es => some (serialize es)) (List.filter_congr hfilter)
  have hclean : ∀ e ∈ kept, Clean e := fun e he => clean_parseFile (List.mem_filter.mp he).1
  rw [hrevoke, Option.getD_some]
  refine ⟨framed_of_entries hclean (by simp [kept, List.filter_filter]), fun e he => ?_⟩
  rcases parseFile_serialize hclean with hp | ⟨-, hp⟩
  · rw [hp] at he
    simpa using (List.mem_filter.mp he).2
  · rw [hp] at he
    cases he

include hb

theorem node_built (e : Expiry) : (parseLine (buildLine sshLine e)).node = some n :=
  (parseLine_node _).trans (parseSshPubkey_buildLine hb h e)

theorem authorizeWithExpiry_framed (file : Option Str) (e : Expiry) :
    UpToFinalNewline (otherLines n (file.getD []))
    (otherLines n ((authorizeWithExpiry file sshLine e).getD [])) := by
  have hclean := clean_parseLine (notMem_buildLine sshLine e)
  unfold authorizeWithExpiry
  simp only [parseSshPubkey_trim h]
  rcases findIdx_cases (fun e : KeyEntry => e.node = some n) (parseFile (file.getD [])) with
    ⟨h₁, -⟩ | ⟨i, x, h₁, h₂, h₃, -⟩
  · simp only [h₁]
    exact framed_append (node_built hb h e) hclean
  · simp only [h₁]
    exact framed_set h₂ (by simpa using List.find?_some h₃) (node_built hb h e) hclean

theorem admitPeer_framed (config : VaultConfig) (file : Option Str) (enroll : Bool) (now : Nat) :
    UpToFinalNewline (otherLines n (file.getD []))
      (otherLines n ((admitPeer config file sshLine enroll now).2.getD [])) := by
  have hclean := clean_parseLine (notMem_buildLine sshLine (enrollExpiry config now))
  have hnode := node_built hb h (enrollExpiry config now)
  unfold admitPeer
  simp only [h]
  rcases findIdx_cases (fun e : KeyEntry => e.node = some n) (parseFile (file.getD [])) with
    ⟨h₁, -⟩ | ⟨i, x, h₁, h₂, h₃, -⟩
  · simp only [h₁]
    split_ifs
    · exact framed_append hnode hclean
    · exact framed_append hnode hclean
    · exact .inl rfl
  · simp only [h₁]
    split_ifs
    · exact .inl rfl
    · exact framed_set h₂ (by simpa using List.find?_some h₃) hnode hclean
    · exact .inl rfl

theorem admitPeer_new (config : VaultConfig) (file : Option Str) (enroll : Bool) (now : Nat)
    (hno : ∀ x ∈ parseFile (file.getD []), x.node ≠ some n)
    (hok : (admitPeer config file sshLine enroll now).1 = true) :
    ∃ entry, parseFile ((admitPeer config file sshLine enroll now).2.getD []) = parseFile
    (file.getD []) ++ [entry] ∧
      entry.node = some n ∧ entry.expiry = (enrollExpiry config now).reread := by
  have hclean := clean_parseLine (notMem_buildLine sshLine (enrollExpiry config now))
  have hexpiry := (parseLine_buildLine hb h (e := enrollExpiry config now) fun t ht => by
    unfold enrollExpiry at ht
    dsimp only at ht
    split_ifs at ht
    exact Expiry.at.inj ht ▸ Nat.mod_lt _ (by decide)).2
  have hnone : (parseFile (file.getD [])).findIdx? (fun e => e.node = some n) = none :=
    List.findIdx?_eq_none_iff.mpr fun x hx => by simpa using hno x hx
  have hnode := node_built hb h (enrollExpiry config now)
  refine ⟨parseLine (buildLine sshLine (enrollExpiry config now)), ?_, hnode, hexpiry⟩
  unfold admitPeer at hok ⊢
  simp only [h, hnone] at hok ⊢
  split_ifs at hok ⊢
  · exact parseFile_append hnode hclean
  · exact parseFile_append hnode hclean

/-- Every edit keeps the lines of the other keys, comments included; admission of a peer
without a line adds one line, of its key and with the expiry that the listener chose, which
reads as it was chosen up to the year 9999. -/
theorem keys_framed (config : VaultConfig) (file : Option Str) (now : Nat) :
    (∀ enroll, UpToFinalNewline (otherLines n (file.getD []))
      (otherLines n ((admitPeer config file sshLine enroll now).2.getD []))) ∧
    (∀ e, UpToFinalNewline (otherLines n (file.getD []))
      (otherLines n ((authorizeWithExpiry file sshLine e).getD []))) ∧
    (UpToFinalNewline (otherLines n (file.getD [])) (otherLines n ((revoke file sshLine).getD [])) ∧
      ∀ x ∈ parseFile ((revoke file sshLine).getD []), x.node ≠ some n) ∧
    ∀ enroll, (∀ x ∈ parseFile (file.getD []), x.node ≠ some n) →
      (admitPeer config file sshLine enroll now).1 = true →
      ∃ entry, parseFile ((admitPeer config file sshLine enroll now).2.getD []) = parseFile
      (file.getD []) ++ [entry] ∧
        entry.node = some n ∧ entry.expiry = (enrollExpiry config now).reread ∧
        (now / secsPerDay + config.defaultKeyTtlDays.getD builtinDefaultTtlDays + 1 ≤ lastDay →
          entry.expiry = enrollExpiry config now) := by
  refine ⟨fun enroll => admitPeer_framed hb h config file enroll now,
    authorizeWithExpiry_framed hb h file,
    revoke_framed h file, fun enroll hno hok => ?_⟩
  obtain ⟨entry, hparse, hnode, hexpiry⟩ := admitPeer_new hb h config file enroll now hno hok
  refine ⟨entry, hparse, hnode, hexpiry, fun hdate => hexpiry.trans ?_⟩
  unfold enrollExpiry
  dsimp only
  split_ifs
  · rfl
  · rw [(expiryFromTtlDays_eq (noOverflow_of_le hdate)).1, Expiry.reread,
      Nat.mul_div_cancel _ (by decide : 0 < secsPerDay), if_pos hdate]

end Vault

end Keys

namespace Small

/-- A key line that carries a second line, an expiry of its own and a comment. -/
def smuggled : Str := sshPubkeyString (key [7]) "me expires=never\n".toList ++ sshPubkeyString
    (key [8]) "ttl=9y added=2020-01-01".toList

def commented : Str := "# peers\r\n\n#end".toList

def listener : VaultConfig := { vaultId := [], name := [] }

theorem keys_framed_smuggled :
    ∃ entry, parseFile ((Vault.admitPeer listener (some commented) smuggled false 1750000000).2.getD
      []) =
      parseFile commented ++ [entry] ∧ entry.node = some (key [7]) ∧
      entry.expiry = .at (expiryFromTtlDays 1750000000 builtinDefaultTtlDays) := by
  have hfacts : parseSshPubkey smuggled = some (key [7]) ∧
      (∀ x ∈ parseFile commented, x.node ≠ some (key [7])) ∧
      (Vault.admitPeer listener (some commented) smuggled false 1750000000).1 = true ∧
      1750000000 / secsPerDay + listener.defaultKeyTtlDays.getD builtinDefaultTtlDays + 1 ≤
      lastDay := by
    decide +kernel
  obtain ⟨hkey, hno, hok, hdate⟩ := hfacts
  obtain ⟨entry, hparse, hnode, -, hexpiry⟩ :=
    (Vault.keys_framed strictBase64 hkey listener (some commented) 1750000000).2.2.2 false hno hok
  exact ⟨entry, hparse, hnode, hexpiry hdate⟩

def twice : Str := buildLine peerLine (.at 0) ++ '\n' :: buildLine peerLine .never ++ ['\n']

def twiceEngine : MemEngine Digest :=
  { MemEngine.create ⟨[1]⟩ [] [] with authorized := twice, config := listener }

/-- The key is listed as authorized, and its peer is turned away. -/
theorem admission_disagrees :
    key [7] ∈ twiceEngine.authorizedNodeIds 1750000000 ∧
      (Vault.admitPeer listener (some twice) peerLine false 1750000000).1 = false ∧
      ¬ AdmissionAgrees twiceEngine 1750000000 peerLine := by
  have hrun : key [7] ∈ twiceEngine.authorizedNodeIds 1750000000 ∧
      (Vault.admitPeer listener (some twice) peerLine false 1750000000).1 = false ∧
      ((parseFile twice).any fun e => e.isKey) = true ∧ parseSshPubkey peerLine = some
      (key [7]) := by
    decide +kernel
  obtain ⟨hlisted, hrefused, hkeys, hkey⟩ := hrun
  refine ⟨hlisted, hrefused, fun h => ?_⟩
  have hok := (h.1 hkeys).2.mpr ⟨key [7], hkey, hlisted⟩
  rw [show (Vault.admitPeer twiceEngine.config (some twiceEngine.authorized) peerLine false
      1750000000).1 = false
    from hrefused] at hok
  cases hok

end Small

end Csp
