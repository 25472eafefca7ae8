import Mathlib.Data.List.DropRight
import Csp.Text

/-! What the text operations undo: decoding after encoding, parsing after printing, and
trimming what is trimmed already. -/

namespace Csp

/-! ### UTF-8 -/

theorem utf8EncodeChar_ne_nil (c : Char) : String.utf8EncodeChar c ≠ [] := by
  intro h
  have := utf8Head_encode c []
  simp [h, utf8Head] at this

theorem length_le_utf8 (s : Str) : s.length ≤ (utf8 s).length := by
  induction s with
  | nil => simp
  | cons c s ih =>
    have := List.length_pos_iff.mpr (utf8EncodeChar_ne_nil c)
    simp only [List.length_cons, utf8_cons, List.length_append]
    omega

theorem utf8_cons_head (c : Char) (s : Str) :
    ∃ b t, utf8 (c :: s) = b :: t ∧ utf8Head (b :: t) = some (c, utf8 s) := by
  obtain ⟨b, t, hbt⟩ := List.exists_cons_of_ne_nil (utf8EncodeChar_ne_nil c)
  have hhead := utf8Head_encode c (utf8 s)
  rw [hbt, List.cons_append] at hhead
  exact ⟨b, t ++ utf8 s, by rw [utf8_cons, hbt, List.cons_append], hhead⟩

theorem fromUtf8Aux_utf8 (s : Str) (n : Nat) (hn : s.length ≤ n) :
    fromUtf8Aux n (utf8 s) = some s := by
  induction s generalizing n with
  | nil => cases n <;> rfl
  | cons c s ih =>
    obtain ⟨m, rfl⟩ : ∃ m, n = m + 1 := ⟨n - 1, by simp at hn; omega⟩
    obtain ⟨b, t, hbt, hhead⟩ := utf8_cons_head c s
    rw [hbt]
    simp only [fromUtf8Aux, hhead, ih m (by simpa using hn), Option.map_some]

@[simp] theorem fromUtf8_utf8 (s : Str) : fromUtf8 (utf8 s) = some s :=
  fromUtf8Aux_utf8 s _ (length_le_utf8 s)

theorem fromUtf8LossyAux_utf8 (s : Str) (n : Nat) (hn : s.length ≤ n) :
    fromUtf8LossyAux n (utf8 s) = s := by
  induction s generalizing n with
  | nil => cases n <;> rfl
  | cons c s ih =>
    obtain ⟨m, rfl⟩ : ∃ m, n = m + 1 := ⟨n - 1, by simp at hn; omega⟩
    obtain ⟨b, t, hbt, hhead⟩ := utf8_cons_head c s
    rw [hbt]
    simp only [fromUtf8LossyAux, hhead, ih m (by simpa using hn)]

@[simp] theorem fromUtf8Lossy_utf8 (s : Str) : fromUtf8Lossy (utf8 s) = s :=
  fromUtf8LossyAux_utf8 s _ (length_le_utf8 s)

theorem utf8_injective : Function.Injective utf8 := by
  intro s t h
  simpa using congrArg fromUtf8 h

theorem notMem_utf8EncodeChar {c : Char} {n : Nat} (hn : n < 128) (h : c ≠ Char.ofNat n) :
    UInt8.ofNat n ∉ String.utf8EncodeChar c := by
  have key : ∀ k, 128 ≤ k → k < 256 → UInt8.ofNat n ≠ UInt8.ofNat k := by
    intro k hk hlt he
    have := congrArg UInt8.toNat he
    rw [toNat_ofNat_of_lt (by omega), toNat_ofNat_of_lt hlt] at this
    omega
  unfold String.utf8EncodeChar
  generalize hv : c.val.toNat = v
  simp only
  split_ifs with h1 h2 h3
  · rw [List.mem_singleton]
    intro hm
    have hnv := congrArg UInt8.toNat hm
    rw [toNat_ofNat_of_lt (by omega), toNat_ofNat_of_lt (by omega)] at hnv
    exact h (by rw [hnv, ← hv]; exact (Char.ofNat_toNat c).symm)
  all_goals simp only [List.mem_cons, List.not_mem_nil, or_false, not_or]
  · exact ⟨key _ (by omega) (by omega), key _ (by omega) (by omega)⟩
  · exact ⟨key _ (by omega) (by omega), key _ (by omega) (by omega), key _ (by omega) (by omega)⟩
  · exact ⟨key _ (by omega) (by omega), key _ (by omega) (by omega), key _ (by omega) (by omega),
      key _ (by omega) (by omega)⟩

theorem notMem_utf8 {s : Str} {n : Nat} (hn : n < 128) (h : Char.ofNat n ∉ s) :
    UInt8.ofNat n ∉ utf8 s := by
  induction s with
  | nil => simp
  | cons c s ih =>
    rw [List.mem_cons, not_or] at h
    rw [utf8_cons, List.mem_append, not_or]
    exact ⟨notMem_utf8EncodeChar hn (Ne.symm h.1), ih h.2⟩

theorem toNat_ofNat_char {v : Nat} (h : v < 0xD800 ∨ 0xDFFF < v ∧ v < 0x110000) :
    (Char.ofNat v).toNat = v := by
  rw [Char.ofNat, dif_pos h]
  rfl

theorem utf8Head_ascii {b t : Bytes} {n : Nat} (hn : n < 128)
    (h : utf8Head b = some (Char.ofNat n, t)) : b = UInt8.ofNat n :: t := by
  have key : ∀ v, v < 0xD800 ∨ 0xDFFF < v ∧ v < 0x110000 → Char.ofNat v = Char.ofNat n → v = n := by
    intro v hv he
    have := congrArg Char.toNat he
    rwa [toNat_ofNat_char hv, toNat_ofNat_char (by omega)] at this
  cases b with
  | nil => simp [utf8Head] at h
  | cons a b =>
    have ha : a.toNat < 256 := a.toNat_lt
    simp only [utf8Head] at h
    split_ifs at h with h1 h2 h3 h4
    · simp only [Option.some.injEq, Prod.mk.injEq] at h
      obtain ⟨hc, rfl⟩ := h
      rw [← key _ (by omega) hc, UInt8.ofNat_toNat]
    · split at h
      · split_ifs at h with hc
        simp only [continuation, Bool.and_eq_true, decide_eq_true_eq] at hc
        simp only [Option.some.injEq, Prod.mk.injEq] at h
        have := key _ (by omega) h.1
        omega
      · simp at h
    · split at h
      · split_ifs at h with hc
        simp only [continuation, Bool.and_eq_true, Bool.not_eq_true', Bool.and_eq_false_iff,
          decide_eq_true_eq, decide_eq_false_iff_not] at hc
        simp only [Option.some.injEq, Prod.mk.injEq] at h
        have := key _ (by omega) h.1
        omega
      · simp at h
    · split at h
      · split_ifs at h with hc
        simp only [continuation, Bool.and_eq_true, decide_eq_true_eq] at hc
        simp only [Option.some.injEq, Prod.mk.injEq] at h
        have := key _ (by omega) h.1
        omega
      · simp at h

theorem utf8Head_suffix {b t : Bytes} {c : Char} (h : utf8Head b = some (c, t)) : t <:+ b := by
  cases b with
  | nil => simp [utf8Head] at h
  | cons a b =>
    simp only [utf8Head] at h
    split_ifs at h with h1 h2 h3 h4
    · simp only [Option.some.injEq, Prod.mk.injEq] at h
      exact h.2 ▸ List.suffix_cons a b
    all_goals
      split at h
      · split_ifs at h
        simp only [Option.some.injEq, Prod.mk.injEq] at h
        rw [← h.2]
        simp [List.suffix_cons_iff]
      · simp at h

theorem utf8Head_eq {b t : Bytes} {c : Char} (h : utf8Head b = some (c, t)) :
    b = String.utf8EncodeChar c ++ t := by
  have back : ∀ (x : UInt8) (n : Nat), n = x.toNat → UInt8.ofNat n = x := by
    rintro x n rfl
    exact UInt8.ofNat_toNat
  have value : ∀ v, v < 0xD800 ∨ 0xDFFF < v ∧ v < 0x110000 → (Char.ofNat v).val.toNat =
      v := fun v hv =>
    toNat_ofNat_char hv
  cases b with
  | nil => simp [utf8Head] at h
  | cons a b =>
    have ha : a.toNat < 256 := a.toNat_lt
    simp only [utf8Head] at h
    -- one, two, three or four bytes, by the first of them
    split_ifs at h with h1 h2 h3 h4
    · simp only [Option.some.injEq, Prod.mk.injEq] at h
      obtain ⟨rfl, rfl⟩ := h
      rw [String.utf8EncodeChar, value _ (by omega)]
      simp only [if_pos h1, UInt8.ofNat_toNat, List.cons_append, List.nil_append]
    · split at h
      · rename_i x rest
        split_ifs at h with hc
        simp only [continuation, Bool.and_eq_true, decide_eq_true_eq] at hc
        simp only [Option.some.injEq, Prod.mk.injEq] at h
        obtain ⟨rfl, rfl⟩ := h
        rw [String.utf8EncodeChar, value _ (by omega)]
        simp only [if_neg (by omega : ¬ (a.toNat - 192) * 64 + (x.toNat - 128) ≤ 127),
          if_pos (by omega : (a.toNat - 192) * 64 + (x.toNat - 128) ≤ 2047), List.cons_append,
          List.nil_append]
        rw [back a _ (by omega), back x _ (by omega)]
      · simp at h
    · split at h
      · rename_i x y rest
        split_ifs at h with hc
        simp only [continuation, Bool.and_eq_true, Bool.not_eq_true', Bool.and_eq_false_iff,
          decide_eq_true_eq, decide_eq_false_iff_not] at hc
        simp only [Option.some.injEq, Prod.mk.injEq] at h
        obtain ⟨rfl, rfl⟩ := h
        generalize hv : (a.toNat - 224) * 4096 + (x.toNat - 128) * 64 + (y.toNat - 128) = v at *
        rw [String.utf8EncodeChar, value _ (by omega)]
        simp only [if_neg (by omega : ¬ v ≤ 127), if_neg (by omega : ¬ v ≤ 2047),
          if_pos (by omega : v ≤ 65535),
          List.cons_append, List.nil_append]
        rw [back a _ (by omega), back x _ (by omega), back y _ (by omega)]
      · simp at h
    · split at h
      · rename_i x y z rest
        split_ifs at h with hc
        simp only [continuation, Bool.and_eq_true, decide_eq_true_eq] at hc
        simp only [Option.some.injEq, Prod.mk.injEq] at h
        obtain ⟨rfl, rfl⟩ := h
        generalize hv : (a.toNat - 240) * 262144 + (x.toNat - 128) * 4096 + (y.toNat - 128) * 64 +
          (z.toNat - 128) = v at *
        rw [String.utf8EncodeChar, value _ (by omega)]
        simp only [if_neg (by omega : ¬ v ≤ 127), if_neg (by omega : ¬ v ≤ 2047),
          if_neg (by omega : ¬ v ≤ 65535),
          List.cons_append, List.nil_append]
        rw [back a _ (by omega), back x _ (by omega), back y _ (by omega), back z _ (by omega)]
      · simp at h

theorem utf8_fromUtf8 {b : Bytes} {s : Str} (h : fromUtf8 b = some s) : utf8 s = b := by
  have key : ∀ (n : Nat) (b : Bytes) (s : Str), fromUtf8Aux n b = some s → utf8 s = b := by
    intro n
    induction n with
    | zero =>
      intro b s h
      cases b with
      | nil =>
        obtain rfl := Option.some.inj h
        rfl
      | cons a b => cases h
    | succ n ih =>
      intro b s h
      cases b with
      | nil =>
        obtain rfl := Option.some.inj h
        rfl
      | cons a b =>
        rw [fromUtf8Aux] at h
        split at h
        · rename_i c rest hc
          obtain ⟨s', hs, rfl⟩ := Option.map_eq_some_iff.mp h
          rw [utf8_cons, ih rest s' hs, utf8Head_eq hc]
        · cases h
  exact key _ b s h
theorem notMem_fromUtf8 {b : Bytes} {s : Str} (h : fromUtf8 b = some s) {n : Nat} (hn : n < 128)
    (hb : UInt8.ofNat n ∉ b) : Char.ofNat n ∉ s := by
  suffices ∀ k b s, fromUtf8Aux k b = some s → UInt8.ofNat n ∉ b → Char.ofNat n ∉ s from
    this _ _ _ h hb
  intro k
  induction k with
  | zero =>
    intro b s h _
    cases b with
    | nil => simp_all [fromUtf8Aux]
    | cons a b => simp [fromUtf8Aux] at h
  | succ k ih =>
    intro b s h hb
    cases b with
    | nil => simp_all [fromUtf8Aux]
    | cons a b =>
      simp only [fromUtf8Aux] at h
      split at h
      · rename_i c rest hhead
        rw [Option.map_eq_some_iff] at h
        obtain ⟨s', hs', rfl⟩ := h
        rw [List.mem_cons, not_or]
        constructor
        · rintro rfl
          exact hb (utf8Head_ascii hn hhead ▸ List.mem_cons_self)
        · exact ih rest s' hs' fun hm => hb ((utf8Head_suffix hhead).subset hm)
      · simp at h

/-! ### Numbers -/

theorem isDigit_of_mem_decimal {n : Nat} {c : Char} (h : c ∈ decimal n) : c.isDigit :=
  Nat.isDigit_of_mem_toDigits (by decide) (by decide) h

theorem decimal_ne_nil (n : Nat) : decimal n ≠ [] := Nat.toDigits_ne_nil

theorem notMem_decimal {c : Char} (hc : c.isDigit = false) (n : Nat) : c ∉ decimal n := by
  intro h
  simp [isDigit_of_mem_decimal h] at hc

theorem parseUnsigned_decimal {bound n : Nat} (h : n < bound) :
    parseUnsigned bound (decimal n) = some n := by
  have hplus : dropPlus (decimal n) = decimal n := by
    unfold dropPlus
    split
    · rename_i t ht
      exact absurd (ht ▸ List.mem_cons_self) (notMem_decimal (c := '+') (by decide) n)
    · rfl
  have hall : (decimal n).all Char.isDigit = true :=
    List.all_eq_true.mpr fun c hc => isDigit_of_mem_decimal hc
  have hval : Nat.ofDigitChars 10 (decimal n) 0 = n := Nat.ofDigitChars_ten_toDigits
  simp only [parseUnsigned, hplus, if_neg (decimal_ne_nil n), hall, if_true, hval, if_pos h]

theorem parseUnsigned_lt {bound n : Nat} {s : Str} (h : parseUnsigned bound s = some n) :
    n < bound := by
  simp only [parseUnsigned] at h
  split_ifs at h with h1 h2 h3
  exact Option.some.inj h ▸ h3

/-! ### Trimming -/

/-- No whitespace at either end. -/
def Trimmed (s : Str) : Prop :=
  (∀ h : s ≠ [], isWhitespace (s.head h) = false) ∧ ∀ h : s ≠ [], isWhitespace (s.getLast h) = false

theorem trimEnd_eq_rdropWhile (s : Str) : trimEnd s = s.rdropWhile isWhitespace := rfl

theorem trimmed_trim (s : Str) : Trimmed (trim s) := by
  refine ⟨fun h => ?_, fun h => ?_⟩
  · obtain ⟨t, ht⟩ : trim s <+: trimStart s := List.rdropWhile_prefix _ _
    have hs : trimStart s ≠ [] := by
      rintro he
      rw [he, List.append_eq_nil_iff] at ht
      exact h ht.1
    have hhead : (trim s).head h = (trimStart s).head hs := by
      simp only [← ht, List.head_append_of_ne_nil h]
    rw [hhead]
    exact List.head_dropWhile_not isWhitespace hs
  · exact Bool.eq_false_iff.mpr (List.rdropWhile_last_not _ _ h)

theorem trim_eq_self {s : Str} (h : Trimmed s) : trim s = s := by
  have hs : trimStart s = s := by
    rw [trimStart, List.dropWhile_eq_self_iff]
    intro hl
    simpa [List.head_eq_getElem] using h.1 (List.length_pos_iff.mp hl)
  rw [trim, hs, trimEnd_eq_rdropWhile, List.rdropWhile_eq_self_iff]
  exact fun hl => by simpa using h.2 hl

theorem trim_append_space {s : Str} (h : Trimmed s) : trim (s ++ [' ']) = s := by
  have hend : trimEnd (s ++ [' ']) = trimEnd s := by
    rw [trimEnd_eq_rdropWhile, List.rdropWhile_concat_pos _ _ _ (by decide), trimEnd_eq_rdropWhile]
  rcases eq_or_ne s [] with rfl | hs
  · decide
  · have hstart : trimStart (s ++ [' ']) = s ++ [' '] := by
      rw [trimStart, List.dropWhile_eq_self_iff]
      intro _
      have := h.1 hs
      rw [List.head_eq_getElem] at this
      simp [List.getElem_append_left (List.length_pos_iff.mpr hs), this]
    rw [trim, hstart, hend, trimEnd_eq_rdropWhile, List.rdropWhile_eq_self_iff]
    exact fun hl => by simpa using h.2 hl

theorem trimmed_of_all {s : Str} (h : ∀ c ∈ s, isWhitespace c = false) : Trimmed s :=
  ⟨fun hs => h _ (List.head_mem hs), fun hs => h _ (List.getLast_mem hs)⟩

theorem notMem_lines {s l : Str} (h : l ∈ lines s) : '\n' ∉ l := by
  rw [lines] at h
  cases hlast : (Split.splitOn '\n' s).getLast? with
  | none => simp [hlast] at h
  | some last =>
    simp only [hlast, List.mem_append, List.mem_map] at h
    rcases h with ⟨p, hp, rfl⟩ | h
    · have hnot : '\n' ∉ p := Split.notMem_of_mem_splitOn ((List.dropLast_sublist _).subset hp)
      rw [stripCr]
      split_ifs
      · exact fun hm => hnot ((List.dropLast_sublist _).subset hm)
      · exact hnot
    · split_ifs at h
      · cases h
      · rw [List.mem_singleton] at h
        subst h
        exact Split.notMem_of_mem_splitOn (List.mem_of_getLast? hlast)

end Csp
