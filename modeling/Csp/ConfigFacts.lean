import Csp.Config

/-! What the config writer writes, the reader reads back: the strings first, then the arrays,
then the lines. -/

namespace Csp
open Result

-- ahead of the instance that would go through every character there is
instance decidableForallMem (s : Str) (p : Char → Prop) [DecidablePred p] :
    Decidable (∀ c ∈ s, p c) :=
  List.decidableBAll p s

/-! ### Strings -/

theorem quote_ne_backslash : quote ≠ '\\' := by decide

theorem upperHex4_spec : ∀ n < 32, ∃ a b c d, upperHex4 n = [a, b, c, d] ∧
    unescScalar 'u' [a, b, c, d] = .ok (Char.ofNat n) ∧
    ∀ x ∈ [a, b, c, d], x ≠ '\\' ∧ x ≠ quote ∧ x ≠ '\n' ∧ x ≠ '\r' := by
  have h : ∀ n < 32, (upperHex4 n).length = 4 ∧ unescScalar 'u' (upperHex4 n) = .ok (Char.ofNat n) ∧
      ∀ x ∈ upperHex4 n, x ≠ '\\' ∧ x ≠ quote ∧ x ≠ '\n' ∧ x ≠ '\r' := by decide +kernel
  intro n hn
  obtain ⟨hlen, hval, hplain⟩ := h n hn
  match hd : upperHex4 n, hlen with
  | [a, b, c, d], _ =>
    rw [hd] at hval hplain
    exact ⟨a, b, c, d, rfl, hval, hplain⟩

theorem escChar_cases (c : Char) :
    (∃ e, escChar c = ['\\', e] ∧ e ≠ 'u' ∧ e ≠ 'U' ∧ shortEscape e = some c ∧
      e ≠ '\n' ∧ e ≠ '\r') ∨
      (∃ w x y z, escChar c = ['\\', 'u', w, x, y, z] ∧ unescScalar 'u' [w, x, y, z] = .ok c ∧
        ∀ d ∈ [w, x, y, z], d ≠ '\\' ∧ d ≠ quote ∧ d ≠ '\n' ∧ d ≠ '\r') ∨
      (escChar c = [c] ∧ c ≠ '\\' ∧ c ≠ quote ∧ c ≠ '\n' ∧ c ≠ '\r') := by
  unfold escChar
  split_ifs with h1 h2 h3 h4 h5 h6
  · exact .inl ⟨'\\', rfl, by decide, by decide, by rw [h1]; decide, by decide, by decide⟩
  · exact .inl ⟨quote, rfl, by decide, by decide, by rw [h2]; decide, by decide, by decide⟩
  · exact .inl ⟨'n', rfl, by decide, by decide, by rw [h3]; decide, by decide, by decide⟩
  · exact .inl ⟨'t', rfl, by decide, by decide, by rw [h4]; decide, by decide, by decide⟩
  · exact .inl ⟨'r', rfl, by decide, by decide, by rw [h5]; decide, by decide, by decide⟩
  · obtain ⟨w, x, y, z, hw, hval, hplain⟩ := upperHex4_spec c.toNat h6
    rw [Char.ofNat_toNat] at hval
    exact .inr (.inl ⟨w, x, y, z, by rw [hw], hval, hplain⟩)
  · exact .inr (.inr ⟨rfl, h1, h2, h3, h5⟩)

theorem unesc_escChar (c : Char) (t : Str) : unesc (escChar c ++ t) = consOk c (unesc t) := by
  rcases escChar_cases c with ⟨e, he, hu, hU, hval, -⟩ | ⟨w, x, y, z, he, hval, -⟩ | ⟨he, hne, -⟩
  · rw [he]
    show unesc ('\\' :: e :: t) = _
    rw [unesc.eq_def]
    simp [hu, hU, hval]
  · rw [he]
    show unesc ('\\' :: 'u' :: w :: x :: y :: z :: t) = _
    rw [unesc.eq_def]
    simp [hval]
  · rw [he]
    show unesc (c :: t) = _
    rw [unesc.eq_def]
    simp [hne]

theorem unesc_esc (s : Str) : unesc (esc s) = .ok s := by
  induction s with
  | nil => rfl
  | cons c s ih =>
    rw [esc, List.flatMap_cons, unesc_escChar]
    show consOk c (unesc (esc s)) = _
    rw [ih]
    rfl

theorem notMem_esc (s : Str) : '\n' ∉ esc s ∧ '\r' ∉ esc s := by
  have h : ∀ x ∈ esc s, x ≠ '\n' ∧ x ≠ '\r' := by
    intro x hx
    obtain ⟨c, -, hx⟩ := List.mem_flatMap.mp hx
    rcases escChar_cases c with ⟨e, he, -, -, -, hn, hr⟩ | ⟨w, y, z, v, he, -, hplain⟩ | ⟨he,
      -, -, hn, hr⟩
    · rw [he] at hx
      rcases List.mem_pair.mp hx with rfl | rfl
      · decide
      · exact ⟨hn, hr⟩
    · rw [he] at hx
      rcases List.mem_cons.mp hx with rfl | hx
      · decide
      rcases List.mem_cons.mp hx with rfl | hx
      · decide
      · exact (hplain x hx).2.2
    · rw [he] at hx
      rw [List.mem_singleton.mp hx]
      exact ⟨hn, hr⟩
  exact ⟨fun hx => (h _ hx).1 rfl, fun hx => (h _ hx).2 rfl⟩

theorem trimmed_quoted (s t : Str) (ht : ∀ h : t ≠ [], isWhitespace (t.getLast h) = false) :
    Trimmed (quoted s ++ t) := by
  refine ⟨fun _ => (by decide : isWhitespace quote = false), fun h => ?_⟩
  rcases eq_or_ne t [] with rfl | hne
  · simp only [quoted, List.append_nil, List.getLast_append_of_ne_nil _ (List.cons_ne_nil quote [])]
    decide
  · rw [List.getLast_append_of_ne_nil _ hne]
    exact ht hne

theorem parseStr_quoted (s : Str) : parseStr (quoted s) = .ok s := by
  have htrim : trim (quoted s) = quoted s := by
    have h := trim_eq_self (trimmed_quoted s [] fun h => absurd rfl h)
    rwa [List.append_nil] at h
  have hbody : ((quoted s).drop 1).dropLast = esc s := by
    simp [quoted]
  have hlast : (quoted s).getLast? = some quote := List.getLast?_concat
  rw [parseStr, htrim, if_pos ⟨by simp [quoted], rfl, hlast⟩, hbody, unesc_esc]

/-! ### Comments -/

theorem stripCommentFrom_plain {p : Str} (h : ∀ c ∈ p, c ≠ quote ∧ c ≠ '#') (before : Option Char)
    (inStr : Bool) (t : Str) : stripCommentFrom before inStr (p ++ t) = p ++ stripCommentFrom
    (p.getLast?.or before) inStr t := by
  induction p generalizing before with
  | nil => rfl
  | cons c p ih =>
    obtain ⟨hq, hc⟩ := h c List.mem_cons_self
    rw [List.cons_append, stripCommentFrom, if_neg (fun hx => hq hx.1), if_neg (fun hx => hc hx.1),
      ih (fun d hd => h d (List.mem_cons_of_mem _ hd))]
    cases p with
    | nil => rfl
    | cons d p =>
      rw [List.getLast?_cons_cons, List.getLast?_eq_some_getLast (List.cons_ne_nil d p)]
      rfl

/-- Inside a string nothing is a comment, and a quote that is escaped does not end it. -/
theorem stripCommentFrom_esc (s t : Str) (before : Option Char) :
    ∃ before', stripCommentFrom before true (esc s ++ t) = esc s ++
    stripCommentFrom before' true t := by
  have char : ∀ (c : Char) (t : Str) (before : Option Char), ∃ before',
      stripCommentFrom before true (escChar c ++ t) = escChar c ++
      stripCommentFrom before' true t := by
    intro c t before
    have keep : ∀ (x : Char) (b : Option Char) (t : Str), x ≠ quote ∨ b = some '\\' →
        stripCommentFrom b true (x :: t) = x :: stripCommentFrom (some x) true t := by
      intro x b t hx
      rw [stripCommentFrom, if_neg, if_neg (fun h => Bool.noConfusion h.2)]
      rintro ⟨h1, h2⟩
      exact hx.elim (fun h => h h1) h2
    rcases escChar_cases c with ⟨e, he, -⟩ | ⟨w, x, y, z, he, -, hplain⟩ | ⟨he, -, hq, -⟩
    · refine ⟨some e, ?_⟩
      rw [he, List.cons_append, keep _ _ _ (.inl (by decide)), List.singleton_append,
        keep _ _ _ (.inr rfl)]
      rfl
    · refine ⟨some z, ?_⟩
      have hne : ∀ d ∈ [w, x, y, z], d ≠ quote := fun d hd => (hplain d hd).2.1
      rw [he]
      simp only [List.cons_append, List.nil_append]
      rw [keep _ _ _ (.inl (by decide)), keep _ _ _ (.inl (by decide)),
        keep _ _ _ (.inl (hne w (by simp))),
        keep _ _ _ (.inl (hne x (by simp))), keep _ _ _ (.inl (hne y (by simp))),
        keep _ _ _ (.inl (hne z (by simp)))]
    · refine ⟨some c, ?_⟩
      rw [he, List.singleton_append, keep _ _ _ (.inl hq)]
      rfl
  induction s generalizing before with
  | nil => exact ⟨before, rfl⟩
  | cons c s ih =>
    obtain ⟨b, hb⟩ := char c (esc s ++ t) before
    obtain ⟨b', hb'⟩ := ih b
    refine ⟨b', ?_⟩
    rw [esc, List.flatMap_cons, List.append_assoc]
    show stripCommentFrom before true (escChar c ++ (esc s ++ t)) = escChar c ++ esc s ++ _
    rw [hb, hb', List.append_assoc]

theorem stripComment_quoted {p t : Str} (hp : ∀ c ∈ p, c ≠ quote ∧ c ≠ '#')
    (ht : ∀ c ∈ t, c ≠ quote ∧ c ≠ '#') (hlast : p.getLast? ≠ some '\\') (s : Str) :
    stripComment (p ++ quoted s ++ t) = p ++ quoted s ++ t := by
  have hend : ∀ b i, stripCommentFrom b i t = t := by
    intro b i
    have h := stripCommentFrom_plain ht b i []
    rwa [List.append_nil, stripCommentFrom, List.append_nil] at h
  have hclose : ∀ b, stripCommentFrom b true (quote :: t) = quote :: t := by
    intro b
    rw [stripCommentFrom]
    split_ifs with h1 h2
    · rw [hend]
    · exact absurd h2.2 (by decide)
    · rw [hend]
  rw [stripComment, List.append_assoc, stripCommentFrom_plain hp, Option.or_none]
  show p ++ stripCommentFrom p.getLast? false (quote :: (esc s ++ [quote]) ++ t) = _
  rw [List.cons_append, stripCommentFrom, if_pos ⟨rfl, hlast⟩, List.append_assoc]
  obtain ⟨b, hb⟩ := stripCommentFrom_esc s ([quote] ++ t) (some quote)
  rw [Bool.not_false, hb, List.singleton_append, hclose]
  simp [quoted]

theorem stripComment_plain {p : Str} (hp : ∀ c ∈ p, c ≠ quote ∧ c ≠ '#') : stripComment p = p := by
  have h := stripCommentFrom_plain hp none false []
  rwa [List.append_nil, stripCommentFrom, List.append_nil] at h

/-! ### Arrays -/

theorem arrScan_esc (depth : Int) (started : Bool) (s t : Str) :
    arrScan depth started true (esc s ++ t) = arrScan depth started true t := by
  have skip : ∀ (e : Char) (t : Str), arrScan depth started true ('\\' :: e :: t) =
      arrScan depth started true t := by
    intro e t
    rw [arrScan.eq_def]
    simp
  have keep : ∀ (c : Char) (t : Str), c ≠ '\\' → c ≠ quote →
      arrScan depth started true (c :: t) = arrScan depth started true t := by
    intro c t h1 h2
    rw [arrScan.eq_def]
    simp [h1, h2]
  induction s with
  | nil => rfl
  | cons c s ih =>
    rw [esc, List.flatMap_cons, List.append_assoc]
    show arrScan depth started true (escChar c ++ (esc s ++ t)) = _
    rw [← ih]
    rcases escChar_cases c with ⟨e, he, -⟩ | ⟨w, x, y, z, he, -, hplain⟩ | ⟨he, hb, hq, -⟩
    · rw [he]
      exact skip e _
    · rw [he]
      simp only [List.cons_append, List.nil_append]
      rw [skip, keep w _ (hplain w (by simp)).1 (hplain w (by simp)).2.1,
        keep x _ (hplain x (by simp)).1 (hplain x (by simp)).2.1,
        keep y _ (hplain y (by simp)).1 (hplain y (by simp)).2.1,
        keep z _ (hplain z (by simp)).1 (hplain z (by simp)).2.1]
    · rw [he]
      exact keep c _ hb hq

theorem arrScan_quoted (depth : Int) (started : Bool) (s t : Str) :
    arrScan depth started false (quoted s ++ t) = arrScan depth started false t := by
  show arrScan depth started false (quote :: (esc s ++ [quote]) ++ t) = _
  rw [List.cons_append, List.append_assoc, arrScan.eq_def]
  simp only [if_true, arrScan_esc]
  rw [List.singleton_append, arrScan.eq_def]
  simp [quote_ne_backslash]

theorem arrItems_esc (body s t : Str) : arrItems (some body) (esc s ++ t) = arrItems
    (some (body ++ esc s)) t := by
  have skip : ∀ (body : Str) (e : Char) (t : Str),
      arrItems (some body) ('\\' :: e :: t) = arrItems (some (body ++ ['\\', e])) t := by
    intro body e t
    rw [arrItems.eq_def]
    simp
  have keep : ∀ (body : Str) (c : Char) (t : Str), c ≠ '\\' → c ≠ quote →
      arrItems (some body) (c :: t) = arrItems (some (body ++ [c])) t := by
    intro body c t h1 h2
    rw [arrItems.eq_def]
    simp [h1, h2]
  induction s generalizing body with
  | nil =>
    show arrItems (some body) t = arrItems (some (body ++ [])) t
    rw [List.append_nil]
  | cons c s ih =>
    have hesc : esc (c :: s) = escChar c ++ esc s := List.flatMap_cons
    rw [hesc, List.append_assoc, ← List.append_assoc body, ← ih]
    rcases escChar_cases c with ⟨e, he, -⟩ | ⟨w, x, y, z, he, -, hplain⟩ | ⟨he, hb, hq, -⟩
    · rw [he]
      exact skip body e _
    · rw [he]
      simp only [List.cons_append, List.nil_append]
      rw [skip, keep _ w _ (hplain w (by simp)).1 (hplain w (by simp)).2.1,
        keep _ x _ (hplain x (by simp)).1 (hplain x (by simp)).2.1,
        keep _ y _ (hplain y (by simp)).1 (hplain y (by simp)).2.1,
        keep _ z _ (hplain z (by simp)).1 (hplain z (by simp)).2.1]
      simp
    · rw [he]
      exact keep body c _ hb hq

theorem arrItems_quoted (s t : Str) :
    arrItems none (quoted s ++ t) = (do let xs ← arrItems none t; pure (s :: xs)) := by
  show arrItems none (quote :: (esc s ++ [quote]) ++ t) = _
  rw [List.cons_append, List.append_assoc, arrItems.eq_def]
  simp only [if_true, arrItems_esc]
  rw [List.singleton_append, arrItems.eq_def]
  simp [quote_ne_backslash, unesc_esc]

theorem arrItems_other {c : Char} (hc : c ≠ quote) (t : Str) :
    arrItems none (c :: t) = arrItems none t := by
  rw [arrItems.eq_def]
  simp [hc]

/-- An item on a line of its own, as the reader joins it to the lines before. -/
def arrItem (e : Str) : Str := ' ' :: (quoted e ++ [','])

def arrText (v : List Str) : Str :=
  match v with
  | [] => "[]".toList
  | [x] => '[' :: quoted x ++ [']']
  | _ => '[' :: v.flatMap arrItem ++ " ]".toList

theorem parseArr_brackets (inner : Str) : parseArr ('[' :: inner ++ [']']) =
    arrItems none inner := by
  have htrim : trim ('[' :: inner ++ [']']) = '[' :: inner ++ [']'] := by
    refine trim_eq_self ⟨fun _ => (by decide : isWhitespace '[' = false), fun h => ?_⟩
    rw [List.getLast_append_singleton]
    decide
  have hopen : stripPrefix ['['] ('[' :: inner ++ [']']) = some (inner ++ [']']) := by
    rw [stripPrefix, if_pos ⟨inner ++ [']'], rfl⟩]
    rfl
  have hclose : stripSuffix [']'] (inner ++ [']']) = some inner := by
    rw [stripSuffix, if_pos (List.suffix_append inner [']'])]
    simp
  rw [parseArr, htrim, hopen, Option.bind_some, hclose]

theorem parseArr_arrText (v : List Str) : parseArr (arrText v) = .ok v := by
  match v with
  | [] => decide
  | [x] =>
    rw [arrText, parseArr_brackets]
    have h := arrItems_quoted x []
    rw [List.append_nil] at h
    rw [h]
    rfl
  | x :: y :: v =>
    have hitems : ∀ vs : List Str, arrItems none (vs.flatMap arrItem ++ [' ']) = .ok vs := by
      intro vs
      induction vs with
      | nil => decide
      | cons e vs ih =>
        rw [List.flatMap_cons, arrItem, List.cons_append, List.cons_append,
          arrItems_other (by decide),
          List.append_assoc, List.append_assoc, arrItems_quoted, List.singleton_append,
          arrItems_other (by decide), ih]
        rfl
    have hsplit : arrText (x :: y :: v) = '[' ::
        ((x :: y :: v).flatMap arrItem ++ [' ']) ++ [']'] := by
      simp [arrText]
    rw [hsplit, parseArr_brackets, hitems]

/-! ### Lines -/

def KeyName (key : Str) : Prop :=
  key ≠ [] ∧ ∀ c ∈ key, c ≠ '=' ∧ c ≠ quote ∧ c ≠ '#' ∧ c ≠ '[' ∧ c ≠ '\n' ∧ c ≠ '\r' ∧
    isWhitespace c = false

instance (key : Str) : Decidable (KeyName key) := inferInstanceAs (Decidable (_ ∧ _))

theorem trim_space (v : Str) : trim (' ' :: v) = trim v := rfl

theorem head_keyed {key : Str} (hk : KeyName key) (v : Str) :
    ∃ c, (key ++ v).head? = some c ∧ c ≠ '[' ∧ isWhitespace c = false := by
  obtain ⟨hne, hall⟩ := hk
  cases key with
  | nil => exact absurd rfl hne
  | cons c key => exact ⟨c, rfl, (hall c List.mem_cons_self).2.2.2.1,
    (hall c List.mem_cons_self).2.2.2.2.2.2⟩

theorem parseLines_keyed {key v : Str} (hk : KeyName key) (hv : Trimmed v) (hne : v ≠ [])
    (hstrip : stripComment (key ++ " = ".toList ++ v) = key ++ " = ".toList ++ v) (d : ConfigDraft)
    (ls : List Str) :
    parseLines none d ((key ++ " = ".toList ++ v) :: ls) =
      if v.head? = some '[' ∧ arrComplete v = false then parseLines (some (key, v)) d ls
      else (do
        let d ← d.setKey key v
        parseLines none d ls) := by
  have hkey : Trimmed key := trimmed_of_all fun c hc => (hk.2 c hc).2.2.2.2.2.2
  obtain ⟨c, hhead, hbracket, hspace⟩ := head_keyed hk (" = ".toList ++ v)
  rw [← List.append_assoc] at hhead
  have hline : trim (key ++ " = ".toList ++ v) = key ++ " = ".toList ++ v := by
    refine trim_eq_self ⟨fun h => ?_, fun h => ?_⟩
    · have hc : (key ++ " = ".toList ++ v).head h = c := by
        rw [List.head?_eq_some_head h] at hhead
        exact Option.some.inj hhead
      rw [hc, hspace]
    · rw [List.getLast_append_of_ne_nil _ hne]
      exact hv.2 hne
  have hcut : Split.cut '=' (key ++ " = ".toList ++ v) = some (key ++ [' '], ' ' :: v) := by
    have hsplit : key ++ " = ".toList ++ v = (key ++ [' ']) ++ '=' :: ' ' :: v := by simp
    rw [hsplit, Split.cut_append]
    rw [List.mem_append, List.mem_singleton, not_or]
    exact ⟨fun h => (hk.2 _ h).1 rfl, by decide⟩
  have hblank : ¬ (key ++ " = ".toList ++ v = [] ∨
      ((key ++ " = ".toList ++ v).head? = some '[' ∧ (key ++ " = ".toList ++ v).getLast? =
      some ']')) := by
    rintro (h | ⟨h, -⟩)
    · rw [h] at hhead
      cases hhead
    · rw [hhead] at h
      exact hbracket (Option.some.inj h)
  rw [parseLines.eq_def]
  simp only [hstrip, hline, if_neg hblank, hcut, trim_append_space hkey, trim_space,
    trim_eq_self hv]

theorem equals_plain : ∀ c ∈ " = ".toList, c ≠ quote ∧ c ≠ '#' := by decide

theorem parseLines_str {key : Str} (hk : KeyName key) (v : Str) (d : ConfigDraft) (ls : List Str) :
    parseLines none d ((key ++ " = ".toList ++ quoted v) :: ls) = (do
      let d ← d.setKey key (quoted v)
      parseLines none d ls) := by
  have hv := trimmed_quoted v [] fun h => absurd rfl h
  rw [List.append_nil] at hv
  have hstrip := stripComment_quoted (p := key ++ " = ".toList) (t := []) (fun c hc => ?_)
    (by simp) ?_ v
  · rw [List.append_nil] at hstrip
    rw [parseLines_keyed hk hv (List.cons_ne_nil _ _) hstrip, if_neg]
    rintro ⟨h, -⟩
    exact absurd h (by simp [quoted]; decide)
  · rcases List.mem_append.mp hc with hc | hc
    · exact ⟨(hk.2 c hc).2.1, (hk.2 c hc).2.2.1⟩
    · exact equals_plain c hc
  · simp

theorem parseLines_plain {key v : Str} (hk : KeyName key) (hne : v ≠ [])
    (hv : ∀ c ∈ v, c ≠ quote ∧ c ≠ '#' ∧ c ≠ '[' ∧ isWhitespace c = false) (d : ConfigDraft)
      (ls : List Str) :
    parseLines none d ((key ++ " = ".toList ++ v) :: ls) = (do
      let d ← d.setKey key v
      parseLines none d ls) := by
  have hstrip : stripComment (key ++ " = ".toList ++ v) = key ++ " = ".toList ++ v := by
    refine stripComment_plain fun c hc => ?_
    rcases List.mem_append.mp hc with hc | hc
    · rcases List.mem_append.mp hc with hc | hc
      · exact ⟨(hk.2 c hc).2.1, (hk.2 c hc).2.2.1⟩
      · exact equals_plain c hc
    · exact ⟨(hv c hc).1, (hv c hc).2.1⟩
  rw [parseLines_keyed hk (trimmed_of_all fun c hc => (hv c hc).2.2.2) hne hstrip, if_neg]
  rintro ⟨h, -⟩
  exact (hv _ (List.mem_of_mem_head? h)).2.2.1 rfl

def arrLines (key : Str) (v : List Str) : List Str :=
  match v with
  | [] => [key ++ " = []".toList]
  | [x] => [key ++ " = [".toList ++ quoted x ++ [']']]
  | _ => (key ++ " = [".toList) :: v.map (fun e => "    ".toList ++ quoted e ++ [',']) ++ [[']']]

theorem parseLines_items (key : Str) (v : List Str) (d : ConfigDraft) (ls : List Str) {rhs : Str}
    (hopen : ∀ t, arrScan 0 false false (rhs ++ t) = arrScan 1 true false t) :
    parseLines (some (key, rhs)) d (v.map (fun e => "    ".toList ++ quoted e ++ [',']) ++
      [']'] :: ls) = (do
      let d ← d.setKey key (rhs ++ v.flatMap arrItem ++ " ]".toList)
      parseLines none d ls) := by
  induction v generalizing rhs with
  | nil =>
    have hend : arrComplete (rhs ++ " ]".toList) = true := by
      rw [arrComplete, hopen]
      decide
    have hline : trim (stripComment [']']) = [']'] := by decide
    rw [List.map_nil, List.nil_append, List.flatMap_nil, List.append_nil, parseLines.eq_def]
    simp only [hline]
    rw [if_neg (by rw [show rhs ++ [' ', ']'] = rhs ++ " ]".toList from rfl, hend]; decide)]
    rfl
  | cons e v ih =>
    have hline : trim (stripComment ("    ".toList ++ quoted e ++ [','])) = quoted e ++ [','] := by
      rw [stripComment_quoted (by decide) (by decide) (by decide)]
      show trim (quoted e ++ [',']) = _
      exact trim_eq_self (trimmed_quoted e [','] fun _ => (by decide : isWhitespace ',' = false))
    have hopen' : ∀ t, arrScan 0 false false (rhs ++ arrItem e ++ t) = arrScan 1 true false t := by
      intro t
      rw [List.append_assoc, hopen, arrItem, List.cons_append, List.append_assoc]
      show arrScan 1 true false (quoted e ++ ([','] ++ t)) = _
      rw [arrScan_quoted]
      rfl
    have hgoes : arrComplete (rhs ++ arrItem e) = false := by
      have h := hopen' []
      rw [List.append_nil] at h
      rw [arrComplete, h]
      decide
    rw [List.map_cons, List.cons_append, parseLines.eq_def]
    simp only [hline]
    rw [show rhs ++ ' ' :: (quoted e ++ [',']) = rhs ++ arrItem e from rfl, if_pos hgoes, ih hopen',
      List.flatMap_cons,
      List.append_assoc rhs]

theorem stripComment_keyed {key p : Str} (hk : KeyName key) (hp : ∀ c ∈ p, c ≠ quote ∧ c ≠ '#') :
    ∀ c ∈ key ++ " = ".toList ++ p, c ≠ quote ∧ c ≠ '#' := by
  intro c hc
  rcases List.mem_append.mp hc with hc | hc
  · rcases List.mem_append.mp hc with hc | hc
    · exact ⟨(hk.2 c hc).2.1, (hk.2 c hc).2.2.1⟩
    · exact equals_plain c hc
  · exact hp c hc

theorem parseLines_arr {key : Str} (hk : KeyName key) (v : List Str) (d : ConfigDraft)
    (ls : List Str) :
    parseLines none d (arrLines key v ++ ls) = (do
      let d ← d.setKey key (arrText v)
      parseLines none d ls) := by
  match v with
  | [] =>
    have hstrip := stripComment_plain (stripComment_keyed hk (p := "[]".toList) (by decide))
    have hline : key ++ " = []".toList = key ++ " = ".toList ++ "[]".toList := by simp
    rw [arrLines, List.singleton_append, hline, parseLines_keyed hk (trimmed_of_all (by decide))
      (by decide) hstrip,
      if_neg (by decide)]
    rfl
  | [x] =>
    have hline : key ++ " = [".toList ++ quoted x ++ [']'] = key ++ " = ".toList ++
        ('[' :: quoted x ++ [']']) := by simp
    have hstrip := stripComment_quoted (stripComment_keyed hk (p := ['[']) (by decide)) (t := [']'])
      (by decide) (by simp) x
    have htrim : Trimmed ('[' :: quoted x ++ [']']) := by
      refine ⟨fun _ => (by decide : isWhitespace '[' = false), fun h => ?_⟩
      rw [List.getLast_append_singleton]
      decide
    have hdone : arrComplete ('[' :: quoted x ++ [']']) = true := by
      rw [arrComplete, List.cons_append]
      show arrScan 1 true false (quoted x ++ [']']) = true
      rw [arrScan_quoted]
      decide
    have hsame : key ++ " = ".toList ++ ['['] ++ quoted x ++ [']'] = key ++ " = ".toList ++
        ('[' :: quoted x ++ [']']) := by
      simp
    rw [hsame] at hstrip
    rw [arrLines, List.singleton_append, hline, parseLines_keyed hk htrim
      (List.cons_ne_nil _ _) hstrip,
      if_neg (by rw [hdone]; simp)]
    rfl
  | x :: y :: v =>
    have hline : key ++ " = [".toList = key ++ " = ".toList ++ ['['] := by simp
    have hstrip := stripComment_plain (stripComment_keyed hk (p := ['[']) (by decide))
    have hopen : ∀ t, arrScan 0 false false (['['] ++ t) = arrScan 1 true false t := fun t => rfl
    show parseLines none d ((key ++ " = [".toList) :: (x :: y :: v).map _ ++ [[']']] ++ ls) = _
    rw [List.cons_append, List.cons_append, hline,
      parseLines_keyed hk (trimmed_of_all (by decide)) (by decide) hstrip, if_pos (by decide),
      List.append_assoc, List.singleton_append,
      parseLines_items key (x :: y :: v) d ls hopen]
    rfl

/-! ### The table -/

/-- A text that is made of whole lines, and what reading them does to the draft. -/
def Reads (text : Str) (f : ConfigDraft → ConfigDraft) : Prop :=
  ∃ ls : List Str, (text = ls.flatMap fun l => l ++ ['\n']) ∧ (∀ l ∈ ls, '\n' ∉ l ∧ '\r' ∉ l) ∧
    ∀ d rest, parseLines none d (ls ++ rest) = parseLines none (f d) rest

theorem Reads.append {t t' : Str} {f g : ConfigDraft → ConfigDraft} (h : Reads t f)
    (h' : Reads t' g) :
    Reads (t ++ t') (g ∘ f) := by
  obtain ⟨ls, rfl, htame, hparse⟩ := h
  obtain ⟨ls', rfl, htame', hparse'⟩ := h'
  refine ⟨ls ++ ls', by rw [List.flatMap_append], fun l hl => ?_, fun d rest => ?_⟩
  · exact (List.mem_append.mp hl).elim (htame l) (htame' l)
  · rw [List.append_assoc, hparse, hparse']
    rfl

theorem reads_nil : Reads [] id := ⟨[], rfl, by simp, fun d rest => rfl⟩

theorem KeyName.tame {key v : Str} (hk : KeyName key) (hv : '\n' ∉ v ∧ '\r' ∉ v) :
    '\n' ∉ key ++ " = ".toList ++ v ∧ '\r' ∉ key ++ " = ".toList ++ v := by
  simp only [List.mem_append, not_or]
  exact ⟨⟨⟨fun h => (hk.2 _ h).2.2.2.2.1 rfl, by decide⟩, hv.1⟩,
    ⟨fun h => (hk.2 _ h).2.2.2.2.2.1 rfl, by decide⟩, hv.2⟩

theorem tame_quoted (s : Str) : '\n' ∉ quoted s ∧ '\r' ∉ quoted s := by
  obtain ⟨hn, hr⟩ := notMem_esc s
  simp only [quoted, List.mem_append, List.mem_cons, List.not_mem_nil, or_false, not_or]
  exact ⟨⟨⟨by decide, hn⟩, by decide⟩, ⟨by decide, hr⟩, by decide⟩

theorem reads_str {key : Str} (hk : KeyName key) {v : Str} {f : ConfigDraft → ConfigDraft}
    (hset : ∀ d, ConfigDraft.setKey d key (quoted v) = .ok (f d)) : Reads (fmtStr key v) f := by
  refine ⟨[key ++ " = ".toList ++ quoted v], by simp [fmtStr], ?_, fun d rest => ?_⟩
  · intro l hl
    rw [List.mem_singleton.mp hl]
    exact hk.tame (tame_quoted v)
  · rw [List.singleton_append, parseLines_str hk, hset]
    rfl

theorem reads_plain {key : Str} (hk : KeyName key) {v : Str} (hne : v ≠ [])
    (hv : ∀ c ∈ v, c ≠ quote ∧ c ≠ '#' ∧ c ≠ '[' ∧ isWhitespace c = false)
      {f : ConfigDraft → ConfigDraft}
    (hset : ∀ d, ConfigDraft.setKey d key v = .ok (f d)) : Reads (fmtPlain key v) f := by
  refine ⟨[key ++ " = ".toList ++ v], by simp [fmtPlain], ?_, fun d rest => ?_⟩
  · intro l hl
    rw [List.mem_singleton.mp hl]
    exact hk.tame ⟨fun h => absurd (hv _ h).2.2.2 (by decide), fun h => absurd (hv _ h).2.2.2
      (by decide)⟩
  · rw [List.singleton_append, parseLines_plain hk hne hv, hset]
    rfl

theorem reads_arr {key : Str} (hk : KeyName key) {v : List Str} {f : ConfigDraft → ConfigDraft}
    (hset : ∀ d, ConfigDraft.setKey d key (arrText v) = .ok (f d)) : Reads (fmtArr key v) f := by
  refine ⟨arrLines key v, ?_, ?_, fun d rest => ?_⟩
  · match v with
    | [] => simp [fmtArr, arrLines]
    | [x] => simp [fmtArr, arrLines]
    | x :: y :: v => simp [fmtArr, arrLines, List.flatMap_map]
  · have hitem : ∀ e : Str, '\n' ∉ "    ".toList ++ quoted e ++ [','] ∧
        '\r' ∉ "    ".toList ++ quoted e ++ [','] := by
      intro e
      obtain ⟨hn, hr⟩ := tame_quoted e
      simp only [List.mem_append, not_or]
      exact ⟨⟨⟨by decide, hn⟩, by decide⟩, ⟨by decide, hr⟩, by decide⟩
    have hkeyed : ∀ v : Str, '\n' ∉ v ∧ '\r' ∉ v → '\n' ∉ key ++ (" = ".toList ++ v) ∧
        '\r' ∉ key ++ (" = ".toList ++ v) := by
      intro v hv
      rw [← List.append_assoc]
      exact hk.tame hv
    match v with
    | [] =>
      intro l hl
      rw [List.mem_singleton.mp hl]
      exact hkeyed "[]".toList (by decide)
    | [x] =>
      intro l hl
      obtain ⟨hn, hr⟩ := tame_quoted x
      rw [List.mem_singleton.mp hl, List.append_assoc, List.append_assoc]
      refine hkeyed ('[' :: (quoted x ++ [']'])) ?_
      simp only [List.mem_append, List.mem_cons, List.not_mem_nil, or_false, not_or]
      exact ⟨⟨by decide, hn, by decide⟩, by decide, hr, by decide⟩
    | x :: y :: v =>
      intro l hl
      rcases List.mem_append.mp hl with hl | hl
      · rcases List.mem_cons.mp hl with rfl | hl
        · exact hkeyed ['['] (by decide)
        · obtain ⟨e, -, rfl⟩ := List.mem_map.mp hl
          exact hitem e
      · rw [List.mem_singleton.mp hl]
        decide
  · rw [parseLines_arr hk, hset]
    rfl

theorem dropCr_eq_self {s : Str} (h : '\r' ∉ s) : dropCr s = s := by
  induction s with
  | nil => rfl
  | cons c s ih =>
    rw [List.mem_cons, not_or] at h
    cases s with
    | nil => rfl
    | cons d s => rw [dropCr, if_neg (fun hx => h.1 hx.1.symm), ih h.2]

theorem Reads.fromTomlStr {text : Str} {f : ConfigDraft → ConfigDraft} (h : Reads text f) :
    VaultConfig.fromTomlStr text = (f {}).finish := by
  obtain ⟨ls, rfl, htame, hparse⟩ := h
  have hcr : '\r' ∉ ls.flatMap fun l => l ++ ['\n'] := by
    intro hr
    obtain ⟨l, hl, hr⟩ := List.mem_flatMap.mp hr
    rcases List.mem_append.mp hr with hr | hr
    · exact (htame l hl).2 hr
    · revert hr
      decide
  have hlines : lines (ls.flatMap fun l => l ++ ['\n']) = ls :=
    lines_terminated fun l hl => ⟨(htame l hl).1, fun hlast =>
    (htame l hl).2 (List.mem_of_getLast? hlast)⟩
  have hp := hparse {} []
  rw [List.append_nil] at hp
  rw [VaultConfig.fromTomlStr, dropCr_eq_self hcr, hlines, hp]
  rfl

/-- The numbers of a configuration are of 64 bits. -/
def VaultConfig.Bounded (cfg : VaultConfig) : Prop :=
  cfg.debounceMs < 2 ^ 64 ∧ ∀ d, cfg.defaultKeyTtlDays = some d → d < 2 ^ 64

theorem decimal_plain (n : Nat) :
    ∀ c ∈ decimal n, c ≠ quote ∧ c ≠ '#' ∧ c ≠ '[' ∧ isWhitespace c = false := by
  have hdigits : ∀ n < 58, 48 ≤ n → Char.ofNat n ≠ quote ∧ Char.ofNat n ≠ '#' ∧ Char.ofNat n ≠ '[' ∧
      isWhitespace (Char.ofNat n) = false := by decide
  intro c hc
  have hdigit : c.isDigit = true := isDigit_of_mem_decimal hc
  simp only [Char.isDigit, Bool.and_eq_true, decide_eq_true_eq] at hdigit
  have hlow : 48 ≤ c.toNat := hdigit.1
  have hhigh : c.toNat ≤ 57 := hdigit.2
  have h := hdigits c.toNat (by omega) hlow
  rwa [Char.ofNat_toNat] at h

theorem parseNumber_decimal (key : Str) {n : Nat} (h : n < 2 ^ 64) :
    parseNumber key (decimal n) = .ok n := by
  rw [parseNumber, parseU64, parseUnsigned_decimal h]

theorem VaultConfig.toTomlString_elim (cfg : VaultConfig) :
    cfg.toTomlString =
      fmtStr "vault_id".toList cfg.vaultId ++ fmtStr "name".toList cfg.name ++
      fmtArr "peers".toList cfg.peers ++
        cfg.listen.elim [] (fmtStr "listen".toList) ++
        fmtPlain "no_tofu".toList (fmtBool cfg.noTofu) ++ fmtPlain "no_tls".toList
        (fmtBool cfg.noTls) ++
        cfg.log.elim [] (fmtStr "log".toList) ++
        fmtPlain "debounce_ms".toList (decimal cfg.debounceMs) ++
        fmtPlain "allow_binary".toList (fmtBool cfg.allowBinary) ++
        fmtArr "include".toList cfg.includes ++
        (if cfg.authKeys = [] then [] else fmtArr "auth_keys".toList cfg.authKeys) ++
        cfg.defaultKeyTtlDays.elim [] (fun d => fmtPlain "default_key_ttl_days".toList
          (decimal d)) := by
  unfold toTomlString
  cases cfg.listen <;> cases cfg.log <;> cases cfg.defaultKeyTtlDays <;> rfl

def VaultConfig.drafted (cfg : VaultConfig) (d : ConfigDraft) : ConfigDraft where
  vaultId := some cfg.vaultId
  name := cfg.name
  peers := cfg.peers
  listen := cfg.listen.or d.listen
  noTofu := cfg.noTofu
  noTls := cfg.noTls
  log := cfg.log.or d.log
  debounceMs := cfg.debounceMs
  allowBinary := cfg.allowBinary
  includes := some cfg.includes
  authKeys := if cfg.authKeys = [] then d.authKeys else cfg.authKeys
  defaultKeyTtlDays := cfg.defaultKeyTtlDays.or d.defaultKeyTtlDays

theorem VaultConfig.reads_toTomlString {cfg : VaultConfig} (h : cfg.Bounded) :
    Reads cfg.toTomlString cfg.drafted := by
  have hbool : ∀ b, fmtBool b ≠ [] ∧ ∀ c ∈ fmtBool b, c ≠ quote ∧ c ≠ '#' ∧ c ≠ '[' ∧
      isWhitespace c = false := by
    decide
  have vault : Reads (fmtStr "vault_id".toList cfg.vaultId) fun d =>
      { d with vaultId := some cfg.vaultId } :=
    reads_str (by decide) fun d => by simp [ConfigDraft.setKey, parseStr_quoted, configError]
  have name : Reads (fmtStr "name".toList cfg.name) fun d => { d with name := cfg.name } :=
    reads_str (by decide) fun d => by simp [ConfigDraft.setKey, parseStr_quoted, configError]
  have peers : Reads (fmtArr "peers".toList cfg.peers) fun d => { d with peers := cfg.peers } :=
    reads_arr (by decide) fun d => by simp [ConfigDraft.setKey, parseArr_arrText, configError]
  have listen : Reads (cfg.listen.elim [] (fmtStr "listen".toList)) fun d =>
      { d with listen := cfg.listen.or d.listen } := by
    cases cfg.listen with
    | none => exact reads_nil
    | some l =>
      exact reads_str (by decide) fun d => by
        simp [ConfigDraft.setKey, parseStr_quoted, configError]
  have tofu : Reads (fmtPlain "no_tofu".toList (fmtBool cfg.noTofu)) fun d =>
      { d with noTofu := cfg.noTofu } :=
    reads_plain (by decide) (hbool _).1 (hbool _).2 fun d => by
      cases cfg.noTofu <;> simp [ConfigDraft.setKey, fmtBool]
  have tls : Reads (fmtPlain "no_tls".toList (fmtBool cfg.noTls)) fun d =>
      { d with noTls := cfg.noTls } :=
    reads_plain (by decide) (hbool _).1 (hbool _).2 fun d => by
      cases cfg.noTls <;> simp [ConfigDraft.setKey, fmtBool]
  have log : Reads (cfg.log.elim [] (fmtStr "log".toList)) fun d =>
      { d with log := cfg.log.or d.log } := by
    cases cfg.log with
    | none => exact reads_nil
    | some l =>
      exact reads_str (by decide) fun d => by
        simp [ConfigDraft.setKey, parseStr_quoted, configError]
  have debounce : Reads (fmtPlain "debounce_ms".toList (decimal cfg.debounceMs))
      fun d => { d with debounceMs := cfg.debounceMs } :=
    reads_plain (by decide) (decimal_ne_nil _) (decimal_plain _) fun d => by
      simp [ConfigDraft.setKey, parseNumber_decimal _ h.1]
  have binary : Reads (fmtPlain "allow_binary".toList (fmtBool cfg.allowBinary))
      fun d => { d with allowBinary := cfg.allowBinary } :=
    reads_plain (by decide) (hbool _).1 (hbool _).2 fun d => by
      cases cfg.allowBinary <;> simp [ConfigDraft.setKey, fmtBool]
  have includes : Reads (fmtArr "include".toList cfg.includes) fun d =>
      { d with includes := some cfg.includes } :=
    reads_arr (by decide) fun d => by simp [ConfigDraft.setKey, parseArr_arrText, configError]
  have keys : Reads (if cfg.authKeys = [] then [] else fmtArr "auth_keys".toList cfg.authKeys)
      fun d => { d with authKeys := if cfg.authKeys = [] then d.authKeys else cfg.authKeys } := by
    split_ifs
    · exact reads_nil
    · exact reads_arr (by decide) fun d => by simp [ConfigDraft.setKey, parseArr_arrText, configError]
  have ttl : Reads (cfg.defaultKeyTtlDays.elim [] fun n => fmtPlain "default_key_ttl_days".toList
        (decimal n))
      fun d => { d with defaultKeyTtlDays := cfg.defaultKeyTtlDays.or d.defaultKeyTtlDays } := by
    cases hd : cfg.defaultKeyTtlDays with
    | none => exact reads_nil
    | some n =>
      exact reads_plain (by decide) (decimal_ne_nil _) (decimal_plain _) fun d => by
        simp [ConfigDraft.setKey, parseNumber_decimal _ (h.2 n hd)]
  have table := ((((((((((vault.append name).append peers).append listen).append tofu).append
      tls).append log).append
    debounce).append binary).append includes).append keys).append ttl
  rw [toTomlString_elim]
  exact table

theorem VaultConfig.finish_drafted (cfg : VaultConfig) : (cfg.drafted {}).finish = .ok cfg := by
  simp only [drafted, ConfigDraft.finish, Option.or_none, Option.getD_some]
  split_ifs with hkeys
  · rw [← hkeys]
  · rfl

/-- Every configuration is read back as it was written. -/
theorem VaultConfig.config_round_trip (cfg : VaultConfig) (h : cfg.Bounded) :
    fromTomlStr cfg.toTomlString = .ok cfg := by
  rw [(reads_toTomlString h).fromTomlStr]
  exact finish_drafted cfg

def trickyConfig : VaultConfig where
  vaultId := ['\\', quote, '#', ' ', '=']
  name := "[table] # no comment\n".toList ++ [Char.ofNat 1, Char.ofNat 0x7f, 'é', '💡']
  peers := [['\\'], ['#', quote, ','], [], "]\r".toList]
  listen := some []
  debounceMs := 2 ^ 64 - 1
  includes := []
  authKeys := ["ssh-ed25519 AAAA= a # b".toList]
  defaultKeyTtlDays := some 0

theorem VaultConfig.config_round_trip_tricky : fromTomlStr trickyConfig.toTomlString =
    .ok trickyConfig :=
  config_round_trip trickyConfig ⟨by decide, by rintro d ⟨⟩; decide⟩

end Csp
