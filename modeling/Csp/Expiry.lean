import Csp.Dates
import Csp.Lib.Words
import Csp.Small

/-! The lines of `authorized_keys` as lists of words, and what becomes of an expiry that is
written into one: it is read back up to the year 9999, and a later one is read as none. -/

namespace Csp
open Words

/-! ### Words -/

theorem splitWhitespace_eq (s : Str) : splitWhitespace s = words isWhitespace s := rfl

theorem splitWhitespace_trim (s : Str) : splitWhitespace (trim s) = splitWhitespace s := by
  rw [splitWhitespace_eq, trim, trimEnd_eq_rdropWhile, words_rdropWhile fun _ h => h, trimStart,
    words_dropWhile fun _ h => h]
  rfl

theorem splitWhitespace_trimEndMatches {c : Char} (hc : isWhitespace c = true) (s : Str) :
    splitWhitespace (trimEndMatches c s) = splitWhitespace s :=
  words_rdropWhile (q := fun a => decide (a = c)) (fun _ ha => (of_decide_eq_true ha) ▸ hc) s

theorem head?_trim {s w : Str} {ws : List Str} (h : splitWhitespace s = w :: ws) :
    (trim s).head? = w.head? := by
  refine head?_eq_of_words (fun _ ha => ?_) ((splitWhitespace_trim s).trans h)
  have hne : trim s ≠ [] := by
    rintro hnil
    simp [hnil] at ha
  rw [List.head?_eq_some_head hne, Option.mem_some_iff] at ha
  rw [← ha]
  exact (trimmed_trim s).1 hne

theorem splitWhitespace_join {ws : List Str} (h : ∀ w ∈ ws, Word isWhitespace w) :
    splitWhitespace (Split.join ' ' ws) = ws := words_join (by decide) h

theorem word_of_mem {s w : Str} (h : w ∈ splitWhitespace s) : Word isWhitespace w :=
  word_of_mem_words h

theorem parseExpiryTokens_of_words_eq {l l' : Str} (h : splitWhitespace l = splitWhitespace l') :
    parseExpiryTokens l = parseExpiryTokens l' := by
  simp only [parseExpiryTokens, h]

theorem splitWhitespace_raw (l : Str) :
    splitWhitespace (trim (trimEndMatches '\r' (trimEndMatches '\n' l))) = splitWhitespace l := by
  rw [splitWhitespace_trim, splitWhitespace_trimEndMatches (by decide),
    splitWhitespace_trimEndMatches (by decide)]

/-! ### Tokens -/

def marked (t : Str) : Bool :=
  tokExpires.isPrefixOf t || tokTtl.isPrefixOf t || tokAdded.isPrefixOf t

theorem stripExpiryTokens_eq (l : Str) :
    stripExpiryTokens l = Split.join ' ' ((splitWhitespace l).filter fun t => !marked t) := by
  simp only [stripExpiryTokens, marked, Bool.not_or]

theorem expiryToken_of_not_marked {t : Str} (h : marked t = false) (e : ExpiryTokens) :
    expiryToken e t = e := by
  rw [marked, Bool.or_eq_false_iff, Bool.or_eq_false_iff] at h
  have hnone : ∀ p : Str, p.isPrefixOf t = false → stripPrefix p t = none := by
    intro p hp
    rw [stripPrefix, if_neg]
    intro hpre
    rw [List.isPrefixOf_iff_prefix.mpr hpre] at hp
    cases hp
  simp only [expiryToken, hnone _ h.1.1, hnone _ h.1.2, hnone _ h.2]

theorem foldl_expiryToken {ts : List Str} (h : ∀ t ∈ ts, marked t = false) (e : ExpiryTokens) :
    ts.foldl expiryToken e = e := by
  induction ts with
  | nil => rfl
  | cons t ts ih =>
    rw [List.foldl_cons, expiryToken_of_not_marked (h t List.mem_cons_self)]
    exact ih fun t ht => h t (List.mem_cons_of_mem _ ht)

def expiryWord : Expiry → List Str
  | .at t => [tokExpires ++ formatDateYmdUtc t]
  | .never => [tokExpires ++ neverWord]
  | .unset => []

theorem word_format (t : Nat) : Word isWhitespace (tokExpires ++ formatDateYmdUtc t) := by
  refine ⟨fun h => absurd (List.append_eq_nil_iff.mp h).1 (by decide), fun c hc => ?_⟩
  rcases List.mem_append.mp hc with hc | hc
  · exact (by decide : ∀ c ∈ tokExpires, isWhitespace c = false) c hc
  · rcases mem_formatDateYmdUtc hc with rfl | hd
    · decide
    · exact isWhitespace_of_isDigit hd

theorem splitWhitespace_buildLine (l : Str) (e : Expiry) :
    splitWhitespace (buildLine l e) = (splitWhitespace l).filter (fun t => !marked t) ++
    expiryWord e := by
  have hhead : splitWhitespace (stripExpiryTokens (trim l)) = (splitWhitespace l).filter fun t =>
      !marked t := by
    rw [stripExpiryTokens_eq, splitWhitespace_trim]
    exact splitWhitespace_join fun w hw => word_of_mem (List.mem_filter.mp hw).1
  have happend : ∀ w, Word isWhitespace w → splitWhitespace
      (stripExpiryTokens (trim l) ++ ' ' :: w) =
      (splitWhitespace l).filter (fun t => !marked t) ++ [w] := by
    intro w hw
    rw [← hhead, splitWhitespace_eq, words_append (by decide), words_of_word hw]
    rfl
  cases e with
  | «at» t =>
    have hline : buildLine l (.at t) = stripExpiryTokens (trim l) ++ ' ' ::
        (tokExpires ++ formatDateYmdUtc t) := by
      rw [buildLine, List.append_assoc, List.cons_append]
    rw [hline, happend _ (word_format t), expiryWord]
  | never =>
    have hline : buildLine l .never = stripExpiryTokens (trim l) ++ ' ' ::
        (tokExpires ++ neverWord) := by
      rw [buildLine, List.append_assoc, List.cons_append]
    rw [hline, happend _ (by constructor <;> decide), expiryWord]
  | unset => rw [expiryWord, List.append_nil, ← hhead, buildLine]

def Expiry.reread : Expiry → Expiry
  | .at t => if t / secsPerDay ≤ lastDay then .at (t / secsPerDay * secsPerDay) else .unset
  | .never => .never
  | .unset => .unset

theorem parseExpiryTokens_buildLine {l algo b64 : Str} {ws : List Str}
    (h : splitWhitespace l = algo :: b64 :: ws) (halgo : marked algo = false)
    (hb64 : marked b64 = false) {e : Expiry} (he : ∀ t, e = .at t → t < 2 ^ 64) :
    parseExpiryTokens (buildLine l e) = e.reread := by
  have hbuilt : splitWhitespace (buildLine l e) = algo :: b64 ::
      (ws.filter (fun t => !marked t) ++ expiryWord e) := by
    rw [splitWhitespace_buildLine, h, List.filter_cons_of_pos (by simp [halgo]),
      List.filter_cons_of_pos (by simp [hb64])]
    rfl
  have hrest : (ws.filter fun t => !marked t).foldl expiryToken {} = {} :=
    foldl_expiryToken (fun t ht => by simpa using (List.mem_filter.mp ht).2) {}
  have hstrip : ∀ v : Str, stripPrefix tokExpires (tokExpires ++ v) = some v := fun v =>
      stripPrefix_append _ _
  rw [parseExpiryTokens, hbuilt, List.drop_succ_cons, List.drop_succ_cons, List.drop_zero,
    List.foldl_append, hrest]
  cases e with
  | «at» t =>
    have hnever : formatDateYmdUtc t ≠ neverWord := fun heq =>
      absurd (heq ▸ dash_mem_formatDateYmdUtc t) (by decide : '-' ∉ neverWord)
    have htoken : expiryToken {} (tokExpires ++ formatDateYmdUtc t) =
        if t / secsPerDay ≤ lastDay then { expires := some (.at (t / secsPerDay * secsPerDay)) }
        else {} := by
      simp only [expiryToken, hstrip, if_neg hnever, parseDateYmdUtc_format (he t rfl)]
      split_ifs <;> rfl
    rw [expiryWord, List.foldl_cons, List.foldl_nil, htoken, Expiry.reread]
    split_ifs <;> rfl
  | never =>
    have htoken : expiryToken {} (tokExpires ++ neverWord) = { expires := some .never } := by
      simp only [expiryToken, hstrip, if_true]
    rw [expiryWord, List.foldl_cons, List.foldl_nil, htoken]
    rfl
  | unset => rfl

section Lines
variable [Crates]

/-! ### Lines -/

theorem parseSshPubkey_congr {l l' a b : Str} {ws ws' : List Str}
    (h : splitWhitespace l = a :: b :: ws) (h' : splitWhitespace l' = a :: b :: ws') :
    parseSshPubkey l = parseSshPubkey l' := by
  simp only [parseSshPubkey, h, h']

theorem parseSshPubkey_words {l : Str} {n : NodeId} (h : parseSshPubkey l = some n) :
    ∃ b64 ws blob, splitWhitespace l = sshAlgorithm :: b64 :: ws ∧
    Crates.base64Decode b64 = some blob ∧ 40 ≤ blob.length := by
  unfold parseSshPubkey at h
  split at h
  · rename_i algo b64 ws hws
    by_cases halgo : algo = sshAlgorithm
    · subst halgo
      cases hblob : Crates.base64Decode b64 with
      | none => simp [hblob] at h
      | some blob =>
        refine ⟨b64, ws, blob, hws, hblob, ?_⟩
        simp only [hblob, ne_eq, not_true, if_false] at h
        split_ifs at h with hlen hkey
        simp only [List.length_take, List.length_drop] at hkey
        omega
    · simp [halgo] at h
  · cases h

theorem parseSshPubkey_of_words_eq {l l' : Str} (h : splitWhitespace l = splitWhitespace l') :
    parseSshPubkey l = parseSshPubkey l' := by
  simp only [parseSshPubkey, h]

theorem parseLine_node (l : Str) : (parseLine l).node = parseSshPubkey l := by
  unfold parseLine
  dsimp only
  split_ifs with hskip
  · cases hk : parseSshPubkey l with
    | none => rfl
    | some n =>
      obtain ⟨b64, ws, -, hws, -⟩ := parseSshPubkey_words hk
      have hhead := head?_trim ((splitWhitespace_trim _).symm.trans
          ((splitWhitespace_raw l).trans hws))
      rw [Bool.or_eq_true, decide_eq_true_eq, decide_eq_true_eq] at hskip
      rcases hskip with hnil | hhash
      · rw [hnil] at hhead
        cases hhead
      · rw [hhash] at hhead
        cases hhead
  all_goals exact parseSshPubkey_of_words_eq (splitWhitespace_raw l)

theorem parseLine_expiry {l : Str} {n : NodeId} (h : parseSshPubkey l = some n) :
    (parseLine l).expiry = parseExpiryTokens l := by
  have hnode := parseLine_node l
  rw [h] at hnode
  unfold parseLine at hnode ⊢
  dsimp only at hnode ⊢
  split_ifs at hnode ⊢ with hskip hsome
  · exact parseExpiryTokens_of_words_eq (splitWhitespace_raw l)
  · rw [show parseSshPubkey _ = some n from hnode] at hsome
    exact absurd rfl hsome

/-! ### Lines that are built -/

/-- What the standard base64 engine guarantees of what it accepts: padding is at the end, one
or two characters, and the text is no shorter than what it stands for. -/
structure StrictBase64 : Prop where
  pad : ∀ s b, Crates.base64Decode s = some b → ∀ u v, s = u ++ '=' :: v → v.length ≤ 1
  short : ∀ s b, Crates.base64Decode s = some b → b.length ≤ s.length

theorem not_marked_blob (hb : StrictBase64) {s : Str} {b : Bytes}
    (h : Crates.base64Decode s = some b) (hlen : 40 ≤ b.length) : marked s = false := by
  have hs := hb.short s b h
  have hmark : ∀ u : Str, u.length ≤ 8 → (u ++ ['=']).isPrefixOf s = false := by
    intro u hu
    rw [Bool.eq_false_iff]
    intro hpre
    obtain ⟨v, rfl⟩ := List.isPrefixOf_iff_prefix.mp hpre
    have hv := hb.pad _ b h u v (by simp)
    simp only [List.length_append, List.length_cons, List.length_nil] at hs
    omega
  rw [marked, Bool.or_eq_false_iff, Bool.or_eq_false_iff]
  exact ⟨⟨hmark "expires".toList (by decide), hmark "ttl".toList (by decide)⟩, hmark "added".toList
    (by decide)⟩

theorem words_buildLine (hb : StrictBase64) {l : Str} {n : NodeId} (h : parseSshPubkey l = some n) :
    ∃ b64 ws, marked b64 = false ∧ splitWhitespace l = sshAlgorithm :: b64 :: ws ∧
      ∀ e, splitWhitespace (buildLine l e) = sshAlgorithm :: b64 ::
      (ws.filter (fun t => !marked t) ++ expiryWord e) := by
  obtain ⟨b64, ws, blob, hws, hblob, hlen⟩ := parseSshPubkey_words h
  have hmarked := not_marked_blob hb hblob hlen
  refine ⟨b64, ws, hmarked, hws, fun e => ?_⟩
  rw [splitWhitespace_buildLine, hws, List.filter_cons_of_pos (by decide), List.filter_cons_of_pos
    (by simp [hmarked])]
  rfl

theorem parseSshPubkey_buildLine (hb : StrictBase64) {l : Str} {n : NodeId}
    (h : parseSshPubkey l = some n) (e : Expiry) :
    parseSshPubkey (buildLine l e) = some n := by
  obtain ⟨b64, ws, -, hws, hbuilt⟩ := words_buildLine hb h
  exact (parseSshPubkey_congr (hbuilt e) hws).trans h

/-- The line that is built for a key line has the key and the expiry as it reads. -/
theorem parseLine_buildLine (hb : StrictBase64) {l : Str} {n : NodeId}
    (h : parseSshPubkey l = some n) {e : Expiry} (he : ∀ t, e = .at t → t < 2 ^ 64) :
    (parseLine (buildLine l e)).node = some n ∧ (parseLine (buildLine l e)).expiry = e.reread := by
  obtain ⟨b64, ws, hmarked, hws, -⟩ := words_buildLine hb h
  have hnode := parseSshPubkey_buildLine hb h e
  exact ⟨(parseLine_node _).trans hnode,
    (parseLine_expiry hnode).trans (parseExpiryTokens_buildLine hws (by decide) hmarked he)⟩

end Lines

/-! ### Arithmetic -/

/-- No step of the computation of an expiry overflows. -/
def NoOverflow (now ttl : Nat) : Prop :=
  ttl * secsPerDay < 2 ^ 64 ∧ (saturatingAdd now (ttl * secsPerDay) / secsPerDay + 1) * secsPerDay <
    2 ^ 64

/-- The expiry of a time to live is computed without overflow, is late enough, and a line
that is built with it reads back as the same key with the same expiry. -/
def ExpiryKept [Crates] (line : Str) (n : NodeId) (now ttl : Nat) : Prop :=
  NoOverflow now ttl ∧ now + ttl * secsPerDay ≤ expiryFromTtlDays now ttl ∧
    (parseLine (buildLine line (.at (expiryFromTtlDays now ttl)))).node = some n ∧
    (parseLine (buildLine line (.at (expiryFromTtlDays now ttl)))).expiry = .at
    (expiryFromTtlDays now ttl)

theorem expiryFromTtlDays_eq {now ttl : Nat} (h : NoOverflow now ttl) :
    expiryFromTtlDays now ttl = (now / secsPerDay + ttl + 1) * secsPerDay ∧
    now + ttl * secsPerDay < 2 ^ 64 := by
  obtain ⟨hmul, hround⟩ := h
  -- a sum that saturates is in the last day, and rounding it up overflows
  have hsum : now + ttl * secsPerDay < 2 ^ 64 := by
    by_contra hbig
    rw [saturatingAdd, Nat.min_eq_right (by omega)] at hround
    exact absurd hround (by decide)
  have hsat : saturatingAdd now (ttl * secsPerDay) = now + ttl * secsPerDay :=
      Nat.min_eq_left (by omega)
  rw [hsat] at hround
  refine ⟨?_, hsum⟩
  rw [expiryFromTtlDays, Nat.mod_eq_of_lt hmul, hsat, Nat.mod_eq_of_lt hround,
    Nat.add_mul_div_right _ _ (by decide : 0 < secsPerDay)]

theorem noOverflow_of_le {now ttl : Nat} (h : now / secsPerDay + ttl + 1 ≤ lastDay) :
    NoOverflow now ttl := by
  rw [lastDay_eq] at h
  unfold secsPerDay at h
  have hsat : saturatingAdd now (ttl * secsPerDay) = now + ttl * secsPerDay := by
    unfold saturatingAdd secsPerDay
    omega
  refine ⟨by unfold secsPerDay; omega, ?_⟩
  rw [hsat]
  unfold secsPerDay
  omega

/-- An expiry is kept exactly if it is no later than 9999-12-31. -/
theorem expiryKept_iff [Crates] (hb : StrictBase64) {line : Str} {n : NodeId}
    (h : parseSshPubkey line = some n) (now ttl : Nat) :
    ExpiryKept line n now ttl ↔ now / secsPerDay + ttl + 1 ≤ lastDay := by
  have hread : NoOverflow now ttl → (parseLine
        (buildLine line (.at (expiryFromTtlDays now ttl)))).node = some n ∧
      (parseLine (buildLine line (.at (expiryFromTtlDays now ttl)))).expiry =
        if now / secsPerDay + ttl + 1 ≤ lastDay then .at
        (expiryFromTtlDays now ttl) else .unset := by
    intro hno
    have heq := (expiryFromTtlDays_eq hno).1
    have hlt : expiryFromTtlDays now ttl < 2 ^ 64 := Nat.mod_lt _ (by decide)
    obtain ⟨hnode, hexpiry⟩ :=
      parseLine_buildLine hb h (e := .at (expiryFromTtlDays now ttl)) fun t ht =>
      Expiry.at.inj ht ▸ hlt
    refine ⟨hnode, hexpiry.trans ?_⟩
    rw [Expiry.reread, heq, Nat.mul_div_cancel _ (by decide : 0 < secsPerDay)]
  constructor
  · rintro ⟨hno, -, -, hexpiry⟩
    by_contra hlate
    rw [(hread hno).2, if_neg hlate] at hexpiry
    cases hexpiry
  · intro hle
    have hno := noOverflow_of_le hle
    obtain ⟨heq, hsum⟩ := expiryFromTtlDays_eq hno
    refine ⟨hno, ?_, (hread hno).1, by rw [(hread hno).2, if_pos hle]⟩
    rw [heq]
    unfold secsPerDay
    omega

namespace Small

theorem hexDecode_digits {s : Str} {b : Bytes} (h : hexDecode s = some b) : '=' ∉ s ∧
    b.length ≤ s.length := by
  fun_induction hexDecode s generalizing b with
  | case1 => simp_all
  | case2 a c s x y t ht hy hx ih =>
    obtain rfl := Option.some.inj h
    obtain ⟨hs, hlen⟩ := ih ht
    refine ⟨?_, by simp only [List.length_cons]; omega⟩
    simp only [List.mem_cons, not_or]
    refine ⟨?_, ?_, hs⟩
    · rintro rfl
      cases hx
    · rintro rfl
      cases hy
  | case3 => cases h
  | case4 => cases h

theorem strictBase64 : StrictBase64 where
  pad s b h u v hs := by
    have hdigits := (hexDecode_digits h).1
    rw [hs] at hdigits
    simp at hdigits
  short s b h := (hexDecode_digits h).2

def peerLine : Str := sshPubkeyString (key [7]) "peer".toList

theorem expiryKept_year : ExpiryKept peerLine (key [7]) 1750000000 365 :=
  (expiryKept_iff strictBase64 (by decide +kernel) _ _).mpr (by decide +kernel)

/-- With three million days the year has five digits, and the key never expires. With 2^62
days the product wraps, and the key expires tomorrow. -/
theorem expiryKept_fails :
    (parseLine (buildLine peerLine (.at (expiryFromTtlDays 1750000000 3000000)))).expiry = .unset ∧
      ¬ ExpiryKept peerLine (key [7]) 1750000000 3000000 ∧
      expiryFromTtlDays 1750000000 (2 ^ 62) < 1750000000 + 2 ^ 62 * secsPerDay ∧
      ¬ ExpiryKept peerLine (key [7]) 1750000000 (2 ^ 62) := by
  have hunset : (parseLine (buildLine peerLine
        (.at (expiryFromTtlDays 1750000000 3000000)))).expiry = .unset := by
    decide +kernel
  have hwrap : expiryFromTtlDays 1750000000 (2 ^ 62) < 1750000000 + 2 ^ 62 * secsPerDay := by decide
  refine ⟨hunset, fun h => ?_, hwrap, fun h => absurd h.2.1 (Nat.not_le.mpr hwrap)⟩
  have hexpiry := h.2.2.2
  rw [hunset] at hexpiry
  cases hexpiry

end Small

end Csp
