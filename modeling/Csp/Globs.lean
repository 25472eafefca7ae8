import Mathlib.Data.List.Infix
import Csp.Lib.Regex
import Csp.Scope

/-! The glob matcher against the regular expression that a pattern is translated to in its
tests. -/

namespace Csp
open Regex

/-! ### The translation -/

def regexMeta : List Char := ['.', '+', '(', ')', '|', '^', '$', '\x7b', '\x7d', '[', ']', '\\']

def bodyRegex : Str → Str
  | [] => []
  | '*' :: '*' :: '/' :: s => ".*".toList ++ bodyRegex s
  | '*' :: '*' :: s => ".*".toList ++ bodyRegex s
  | '*' :: s => "[^/]*".toList ++ bodyRegex s
  | '?' :: s => "[^/]".toList ++ bodyRegex s
  | c :: s => (if c ∈ regexMeta then ['\\', c] else [c]) ++ bodyRegex s

/-- `pattern_to_regex`: whether the pattern is negated, and its regular expression. -/
def patternToRegex (pat : Str) : Option (Bool × Str) :=
  let p := trimEndMatches '\r' pat
  if trim p = [] || (trimStart p).head? = some '#' then none
  else
    let negated := p.head? = some '!'
    let p := if negated then p.tail else p
    let p := if p.getLast? = some '/' then p.dropLast else p
    some (negated, "^".toList ++ (if '/' ∈ p then [] else "(?:.*/)?".toList) ++
      bodyRegex (trimStartMatches '/' p) ++ "(?:/.*)?$".toList)

/-! ### The expression that the translation spells -/

def Tok.spelled : Tok → Str
  | .lit c => if c ∈ regexMeta then ['\\', c] else [c]
  | .any => "[^/]".toList
  | .star => "[^/]*".toList
  | .dstar => ".*".toList

def Tok.re : Tok → Re Char
  | .lit c => .one (· = c)
  | .any => .one (· ≠ '/')
  | .star => .star (.one (· ≠ '/'))
  | .dstar => .star (.one (· ≠ '\n'))

theorem bodyRegex_eq (s : Str) : bodyRegex s = (tokens s).flatMap Tok.spelled := by
  fun_induction tokens s with
  | case1 => rfl
  | case2 s ih => rw [bodyRegex, ih, List.flatMap_cons, Tok.spelled]
  | case3 s hs ih =>
    rw [bodyRegex, ih, List.flatMap_cons, Tok.spelled]
    exact hs
  | case4 s hs hs' ih =>
    rw [bodyRegex, ih, List.flatMap_cons, Tok.spelled]
    · exact hs
    · exact hs'
  | case5 s ih => rw [bodyRegex, ih, List.flatMap_cons, Tok.spelled]
  | case6 c s hs hs' hstar hany ih =>
    rw [bodyRegex, ih, List.flatMap_cons, Tok.spelled]
    · exact hs
    · exact hs'
    · exact hstar
    · exact hany

theorem ne_wildcard_of_mem_tokens {s : Str} {c : Char} (h : .lit c ∈ tokens s) : c ≠ '*' ∧
    c ≠ '?' := by
  fun_induction tokens s with
  | case1 => cases h
  | case2 s ih => exact ih (by simpa using h)
  | case3 s hs ih => exact ih (by simpa using h)
  | case4 s hs hs' ih => exact ih (by simpa using h)
  | case5 s ih => exact ih (by simpa using h)
  | case6 d s hs hs' hstar hany ih =>
    rcases List.mem_cons.mp h with h | h
    · obtain rfl := Tok.lit.inj h
      exact ⟨hstar, hany⟩
    · exact ih h

section Read
variable (groups : List (List (Re Char)))

theorem read_spelled {t : Tok} (ht : ∀ c, t = .lit c → c ≠ '*' ∧ c ≠ '?')
    (rs : List (Re Char)) (s : Str) :
    read groups rs (t.spelled ++ s) = read groups (t.re :: rs) s := by
  cases t with
  | lit c =>
    obtain ⟨hstar, hany⟩ := ht c rfl
    rw [Tok.spelled]
    split_ifs with hc
    · refine read_escaped groups rs s ?_
      simp only [isMeta, regexMeta, List.mem_cons, List.not_mem_nil, or_false,
        decide_eq_true_eq] at hc ⊢
      tauto
    · refine read_char groups rs s ?_
      simp only [isMeta, regexMeta, List.mem_cons, List.not_mem_nil, or_false,
        decide_eq_false_iff_not] at hc ⊢
      tauto
  | any => exact read_notClass groups rs s (by decide)
  | star => exact read_notClassStar groups rs s (by decide)
  | dstar => exact read_dotStar groups rs s

theorem read_body {toks : List Tok} (ht : ∀ c, .lit c ∈ toks → c ≠ '*' ∧ c ≠ '?')
    (rs : List (Re Char)) (s : Str) :
    read groups rs (toks.flatMap Tok.spelled ++ s) = read groups
    ((toks.map Tok.re).reverse ++ rs) s := by
  induction toks generalizing rs with
  | nil => rfl
  | cons t toks ih =>
    rw [List.flatMap_cons, List.append_assoc, read_spelled groups fun c hc =>
      ht c (hc ▸ List.mem_cons_self),
      ih fun c hc => ht c (List.mem_cons_of_mem t hc)]
    simp

end Read

def prefixRe : Re Char := .opt (seq [.star (.one (· ≠ '\n')), .one (· = '/')])

def suffixRe : Re Char := .opt (seq [.one (· = '/'), .star (.one (· ≠ '\n'))])

def Glob.re (g : Glob) : Re Char :=
  seq (.atStart :: (if g.anchored then [] else [prefixRe]) ++ g.toks.map Tok.re ++
      [suffixRe, .atEnd])

theorem read_prefix (rs : List (Re Char)) (s : Str) :
    read [] rs ("(?:.*/)?".toList ++ s) = read [] (prefixRe :: rs) s := by
  show read [] rs ('(' :: '?' :: ':' :: '.' :: '*' :: '/' :: ')' :: '?' :: s) = _
  rw [Regex.read, read_dotStar, read_char _ _ _ (by decide), Regex.read, Regex.read]
  rfl

theorem read_suffix (rs : List (Re Char)) :
    read [] rs "(?:/.*)?$".toList = some (seq (rs.reverse ++ [suffixRe, .atEnd])) := by
  show read [] rs ['(', '?', ':', '/', '.', '*', ')', '?', '$'] = _
  rw [Regex.read, read_char _ _ _ (by decide), read_dotStar, Regex.read, Regex.read,
    Regex.read, Regex.read,
    List.reverse_cons, List.reverse_cons, List.append_assoc]
  rfl

theorem parse_spelled (g : Glob) (ht : ∀ c, .lit c ∈ g.toks → c ≠ '*' ∧ c ≠ '?') :
    parse ("^".toList ++ (if g.anchored then [] else "(?:.*/)?".toList) ++
      g.toks.flatMap Tok.spelled ++
      "(?:/.*)?$".toList) = some g.re := by
  have hstart : ∀ s, parse ("^".toList ++ s) = Regex.read [] [.atStart] s := fun s => by
    show Regex.read [] [] ('^' :: s) = _
    rw [Regex.read]
  rw [List.append_assoc, List.append_assoc, hstart, Glob.re]
  cases g.anchored with
  | true =>
    rw [if_pos rfl, if_pos rfl, List.nil_append, read_body [] ht, read_suffix]
    simp
  | false =>
    rw [if_neg Bool.false_ne_true, if_neg Bool.false_ne_true, read_prefix, read_body [] ht,
      read_suffix]
    simp

theorem patternToRegex_of_compile {pat : Str} {g : Glob} (h : compile pat = some g) :
    ∃ re, patternToRegex pat = some (g.negated, re) ∧ parse re = some g.re := by
  rw [compile] at h
  rw [patternToRegex]
  simp only at h ⊢
  by_cases hskip : (trim (trimEndMatches '\r' pat) = [] ||
      (trimStart (trimEndMatches '\r' pat)).head? = some '#') = true
  · rw [if_pos hskip] at h
    cases h
  · rw [if_neg hskip] at h ⊢
    obtain rfl := Option.some.inj h
    refine ⟨_, rfl, ?_⟩
    simp only [bodyRegex_eq]
    rw [← parse_spelled _ fun c hc => ne_wildcard_of_mem_tokens hc]
    simp only [decide_eq_true_eq]

theorem compile_eq_none_iff (pat : Str) : compile pat = none ↔ patternToRegex pat = none := by
  rw [compile, patternToRegex]
  simp only
  split_ifs
  · simp
  · simp

/-! ### The matcher -/

theorem afterRun_iff {ok : Char → Bool} {f : Str → Bool} {t : Str} :
    afterRun ok f t = true ↔ ∃ x y, t = x ++ y ∧ (∀ c ∈ x, ok c = true) ∧ f y = true := by
  induction t with
  | nil =>
    rw [afterRun]
    constructor
    · exact fun h => ⟨[], [], rfl, by simp, h⟩
    · rintro ⟨x, y, hxy, -, hy⟩
      obtain ⟨rfl, rfl⟩ := List.append_eq_nil_iff.mp hxy.symm
      exact hy
  | cons c t ih =>
    rw [afterRun, Bool.or_eq_true, Bool.and_eq_true, ih]
    constructor
    · rintro (h | ⟨hc, x, y, rfl, hx, hy⟩)
      · exact ⟨[], c :: t, rfl, by simp, h⟩
      · exact ⟨c :: x, y, rfl, List.forall_mem_cons.mpr ⟨hc, hx⟩, hy⟩
    · rintro ⟨x, y, hxy, hx, hy⟩
      cases x with
      | nil =>
        obtain rfl : c :: t = y := hxy
        exact .inl hy
      | cons d x =>
        obtain ⟨rfl, rfl⟩ := List.cons.inj hxy
        obtain ⟨hc, hx⟩ := List.forall_mem_cons.mp hx
        exact .inr ⟨hc, x, y, rfl, hx, hy⟩

theorem afterRun_congr {ok ok' : Char → Bool} {f : Str → Bool} {t : Str}
    (h : ∀ c ∈ t, ok c = ok' c) :
    afterRun ok f t = afterRun ok' f t := by
  induction t with
  | nil => rfl
  | cons c t ih =>
    obtain ⟨hc, ht⟩ := List.forall_mem_cons.mp h
    rw [afterRun, afterRun, hc, ih ht]

/-- What is left once the tokens are used up is empty or starts a new segment. -/
def AtBoundary (rest : Str) : Prop := rest = [] ∨ rest.head? = some '/'

theorem bodyMatch_iff (toks : List Tok) (b : Str) {t : Str} (ht : '\n' ∉ t) :
    bodyMatch toks t = true ↔
      ∃ m rest, t = m ++ rest ∧ Spans (seq (toks.map Tok.re)) b m rest ∧ AtBoundary rest := by
  induction toks generalizing b t with
  | nil =>
    simp only [bodyMatch, List.map_nil, spans_seq_nil, Bool.or_eq_true, decide_eq_true_eq]
    constructor
    · exact fun h => ⟨[], t, rfl, rfl, h⟩
    · rintro ⟨_, rest, rfl, rfl, h⟩
      exact h
  | cons tok toks ih =>
    -- a token that stands for one character of a class
    have one : ∀ p : Char → Bool, (∀ c t, bodyMatch (tok :: toks) (c :: t) =
          (p c && bodyMatch toks t)) →
        bodyMatch (tok :: toks) [] = false → tok.re = .one p →
        (bodyMatch (tok :: toks) t = true ↔
          ∃ m rest, t = m ++ rest ∧ Spans (seq ((tok :: toks).map Tok.re)) b m rest ∧
          AtBoundary rest) := by
      intro p hcons hnil hre
      simp only [List.map_cons, spans_seq_cons, hre, spans_one]
      cases t with
      | nil =>
        rw [hnil]
        constructor
        · intro h
          cases h
        · rintro ⟨_, rest, hm, ⟨_, m, rfl, ⟨c, rfl, -⟩, -⟩, -⟩
          cases hm
      | cons c t =>
        rw [hcons, Bool.and_eq_true, ih (b ++ [c]) fun h => ht (List.mem_cons_of_mem c h)]
        constructor
        · rintro ⟨hc, m, rest, rfl, hm, hrest⟩
          exact ⟨c :: m, rest, rfl, ⟨[c], m, rfl, ⟨c, rfl, hc⟩, hm⟩, hrest⟩
        · rintro ⟨_, rest, hsplit, ⟨_, m, rfl, ⟨d, rfl, hd⟩, hm⟩, hrest⟩
          obtain ⟨rfl, rfl⟩ := List.cons.inj hsplit
          exact ⟨hd, m, rest, rfl, hm, hrest⟩
    -- a token that stands for any number of them
    have many : ∀ p : Char → Bool, bodyMatch (tok :: toks) t = afterRun p (bodyMatch toks) t →
        tok.re = .star (.one p) →
        (bodyMatch (tok :: toks) t = true ↔
          ∃ m rest, t = m ++ rest ∧ Spans (seq ((tok :: toks).map Tok.re)) b m rest ∧
          AtBoundary rest) := by
      intro p hrun hre
      simp only [List.map_cons, spans_seq_cons, hre, spans_star_one]
      rw [hrun, afterRun_iff]
      constructor
      · rintro ⟨x, y, rfl, hx, hy⟩
        obtain ⟨m, rest, rfl, hm, hrest⟩ :=
          (ih (b ++ x) fun h => ht (List.mem_append_right x h)).mp hy
        exact ⟨x ++ m, rest, by simp, ⟨x, m, rfl, hx, hm⟩, hrest⟩
      · rintro ⟨_, rest, rfl, ⟨x, m, rfl, hx, hm⟩, hrest⟩
        rw [List.append_assoc] at ht ⊢
        exact ⟨x, m ++ rest, rfl, hx,
          (ih (b ++ x) fun h => ht (List.mem_append_right x h)).mpr ⟨m, rest, rfl, hm, hrest⟩⟩
    cases tok with
    | lit c => exact one (· = c) (fun _ _ => rfl) rfl rfl
    | any => exact one (· ≠ '/') (fun _ _ => rfl) rfl rfl
    | star => exact many (· ≠ '/') rfl rfl
    | dstar =>
      -- `.` stops at a newline, the matcher does not
      refine many (· ≠ '\n') (afterRun_congr fun c hc => ?_) rfl
      have hne : c ≠ '\n' := fun h => ht (h ▸ hc)
      simp [hne]

theorem isMatch_iff (g : Glob) (t : Str) :
    g.isMatch t = true ↔ ∃ x y, t = x ++ y ∧ (x = [] ∨ g.anchored = false ∧ ∃ z, x = z ++ ['/']) ∧
      bodyMatch g.toks y = true := by
  rw [Glob.isMatch]
  cases g.anchored with
  | true =>
    rw [if_pos rfl]
    constructor
    · exact fun h => ⟨[], t, rfl, .inl rfl, h⟩
    · rintro ⟨x, y, rfl, rfl | ⟨h, -⟩, hy⟩
      · exact hy
      · cases h
  | false =>
    simp only [Bool.false_eq_true, if_false, Bool.or_eq_true, List.any_eq_true,
      List.mem_tails, true_and]
    constructor
    · rintro (h | ⟨s, ⟨z, rfl⟩, hs⟩)
      · exact ⟨[], t, rfl, .inl rfl, h⟩
      · split at hs
        · exact ⟨z ++ ['/'], _, by simp, .inr ⟨z, rfl⟩, hs⟩
        · cases hs
    · rintro ⟨x, y, rfl, rfl | ⟨z, rfl⟩, hy⟩
      · exact .inl hy
      · exact .inr ⟨'/' :: y, ⟨z, by simp⟩, hy⟩

/-! ### The ends of the expression -/

theorem spans_prefixRe {b m a : Str} (hm : '\n' ∉ m) :
    Spans prefixRe b m a ↔ m = [] ∨ ∃ z, m = z ++ ['/'] := by
  simp only [prefixRe, spans_opt, spans_seq_cons, spans_seq_nil, spans_star_one, spans_one]
  refine or_congr_right ⟨?_, ?_⟩
  · rintro ⟨z, _, rfl, -, _, _, rfl, ⟨c, rfl, hc⟩, rfl⟩
    obtain rfl : c = '/' := of_decide_eq_true hc
    exact ⟨z, rfl⟩
  · rintro ⟨z, rfl⟩
    refine ⟨z, ['/'], rfl, fun c hc => ?_, ['/'], [], rfl, ⟨'/', rfl, rfl⟩, rfl⟩
    have hne : c ≠ '\n' := fun h => hm (List.mem_append_left _ (h ▸ hc))
    simpa using hne

theorem spans_suffixRe {b m a : Str} (hm : '\n' ∉ m) :
    Spans (seq [suffixRe, .atEnd]) b m a ↔ AtBoundary m ∧ a = [] := by
  have hsuffix : ∀ b a, Spans suffixRe b m a ↔ AtBoundary m := by
    intro b a
    simp only [suffixRe, spans_opt, spans_seq_cons, spans_seq_nil, spans_star_one,
      spans_one, AtBoundary]
    refine or_congr_right ⟨?_, ?_⟩
    · rintro ⟨_, _, rfl, ⟨c, rfl, hc⟩, -⟩
      exact congrArg some (of_decide_eq_true hc)
    · intro h
      cases m with
      | nil => cases h
      | cons c m =>
        obtain rfl := Option.some.inj h
        refine ⟨['/'], m, rfl, ⟨'/', rfl, rfl⟩, m, [], by simp, fun c hc => ?_, rfl⟩
        have hne : c ≠ '\n' := fun h => hm (List.mem_cons_of_mem _ (h ▸ hc))
        simpa using hne
  simp only [spans_seq_cons, spans_seq_nil, spans_atEnd]
  constructor
  · rintro ⟨m₁, _, rfl, h, _, _, rfl, ⟨rfl, ha⟩, rfl⟩
    simp only [List.append_nil] at hsuffix h ⊢
    exact ⟨(hsuffix b _).mp h, by simpa using ha⟩
  · rintro ⟨h, rfl⟩
    exact ⟨m, [], by simp, (hsuffix b _).mpr h, [], [], rfl, ⟨rfl, rfl⟩, rfl⟩

theorem finds_re_iff (g : Glob) {t : Str} (ht : '\n' ∉ t) : Finds g.re t ↔ g.isMatch t = true := by
  have hstart : ∀ {rs : List (Re Char)} {b m a : Str}, Spans (seq (.atStart :: rs)) b m a ↔
      b = [] ∧ Spans (seq rs) [] m a := by
    intro rs b m a
    rw [spans_seq_cons]
    simp only [spans_atStart]
    constructor
    · rintro ⟨_, m, rfl, ⟨rfl, rfl⟩, h⟩
      exact ⟨rfl, h⟩
    · rintro ⟨rfl, h⟩
      exact ⟨[], m, rfl, ⟨rfl, rfl⟩, h⟩
  have hopening : ∀ {m a : Str}, '\n' ∉ m → (Spans
        (seq (if g.anchored then [] else [prefixRe])) [] m a ↔
      m = [] ∨ g.anchored = false ∧ ∃ z, m = z ++ ['/']) := by
    intro m a hm
    cases g.anchored with
    | true => simp [spans_seq_nil]
    | false =>
      simp only [Bool.false_eq_true, if_false, spans_seq_cons, spans_seq_nil, true_and]
      rw [← spans_prefixRe (b := []) (a := a) hm]
      constructor
      · rintro ⟨m, _, rfl, h, rfl⟩
        simpa using h
      · intro h
        exact ⟨m, [], by simp, by simpa using h, rfl⟩
  rw [isMatch_iff]
  constructor
  · rintro ⟨b, _, a, rfl, h⟩
    rw [Glob.re, spans_seq_append] at h
    obtain ⟨_, rest, rfl, h, hend⟩ := h
    rw [spans_seq_append] at h
    obtain ⟨x, m, rfl, hx, hm⟩ := h
    rw [hstart] at hx
    obtain ⟨rfl, hx⟩ := hx
    simp only [List.nil_append, List.append_assoc, List.mem_append, not_or] at ht
    obtain ⟨hnx, hnm, hnrest, -⟩ := ht
    obtain ⟨hboundary, rfl⟩ := (spans_suffixRe hnrest).mp hend
    refine ⟨x, m ++ rest, by simp, (hopening hnx).mp hx, ?_⟩
    refine (bodyMatch_iff g.toks x (by simp [hnm, hnrest])).mpr ⟨m, rest, rfl, ?_, hboundary⟩
    simpa using hm
  · rintro ⟨x, y, rfl, hx, hy⟩
    obtain ⟨hnx, hny⟩ : '\n' ∉ x ∧ '\n' ∉ y := by simpa using ht
    obtain ⟨m, rest, rfl, hm, hrest⟩ := (bodyMatch_iff g.toks x hny).mp hy
    have hnrest : '\n' ∉ rest := fun h => hny (List.mem_append_right m h)
    refine ⟨[], x ++ m ++ rest, [], by simp, ?_⟩
    rw [Glob.re, spans_seq_append]
    refine ⟨x ++ m, rest, rfl, spans_seq_append.mpr
      ⟨x, m, rfl, hstart.mpr ⟨rfl, (hopening hnx).mpr hx⟩, ?_⟩,
      (spans_suffixRe hnrest).mpr ⟨hrest, rfl⟩⟩
    simpa using hm

/-- The matcher decides what a search for the translation finds. -/
theorem isMatch_iff_finds (pat : Str) : (compile pat = none ↔ patternToRegex pat = none) ∧
    ∀ g, compile pat = some g → ∃ re r, patternToRegex pat = some (g.negated, re) ∧
      parse re = some r ∧
      ∀ path : Path, '\n' ∉ path → (g.isMatch path = true ↔ Finds r path) := by
  refine ⟨compile_eq_none_iff pat, fun g hg => ?_⟩
  obtain ⟨re, hre, hparse⟩ := patternToRegex_of_compile hg
  exact ⟨re, g.re, hre, hparse, fun path hpath => (finds_re_iff g hpath).symm⟩

/-- A line of the default scope, and a file in a directory. -/
theorem isMatch_iff_finds_markdown : ∃ re r, patternToRegex "*.md".toList = some (false, re) ∧
    parse re = some r ∧ Finds r "a/b.md".toList ∧ ¬ Finds r "a/b.txt".toList := by
  have hcompile : compile "*.md".toList = some
      { negated := false, anchored := false, toks := [.star, .lit '.', .lit 'm', .lit 'd'] } := by
    decide
  obtain ⟨re, r, hre, hparse, hmatch⟩ := (isMatch_iff_finds "*.md".toList).2 _ hcompile
  refine ⟨re, r, hre, hparse, (hmatch _ (by decide)).mp (by decide), fun h => ?_⟩
  exact absurd ((hmatch _ (by decide)).mpr h) (by decide)

end Csp
