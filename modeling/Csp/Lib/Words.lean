import Mathlib.Data.List.DropRight
import Csp.Lib.Split

/-! The words of a list: its longest runs without separators. -/

namespace Words
variable {α : Type} {p : α → Bool}

def words (p : α → Bool) (l : List α) : List (List α) := (l.splitOnP p).filter (· ≠ [])

def Word (p : α → Bool) (w : List α) : Prop := w ≠ [] ∧ ∀ a ∈ w, p a = false

theorem words_nil : words p [] = [] := by simp [words, List.splitOnP_nil]

theorem words_append {a : α} (ha : p a = true) (l l' : List α) :
    words p (l ++ a :: l') = words p l ++ words p l' := by
  rw [words, List.splitOnP_append_cons _ _ ha, List.filter_append]
  rfl

theorem words_cons {a : α} (ha : p a = true) (l : List α) : words p (a :: l) = words p l := by
  have h := words_append ha [] l
  rwa [List.nil_append, words_nil, List.nil_append] at h

theorem words_concat {a : α} (ha : p a = true) (l : List α) : words p (l ++ [a]) = words p l := by
  rw [words_append ha, words_nil, List.append_nil]

theorem words_of_word {w : List α} (h : Word p w) : words p w = [w] := by
  rw [words, List.splitOnP_eq_singleton h.2]
  simp [h.1]

theorem words_word_cons {w l : List α} {a : α} (h : Word p w) (ha : p a = true) :
    words p (w ++ a :: l) = w :: words p l := by
  rw [words_append ha, words_of_word h, List.singleton_append]

theorem word_of_mem_words {l w : List α} (h : w ∈ words p l) : Word p w := by
  have key : ∀ l : List α, ∀ w ∈ l.splitOnP p, ∀ a ∈ w, p a = false := by
    intro l
    induction l with
    | nil =>
      intro w hw a ha
      rw [List.splitOnP_nil, List.mem_singleton] at hw
      simp [hw] at ha
    | cons b l ih =>
      rw [List.splitOnP_cons_eq_if_modifyHead]
      split_ifs with hb
      · intro w hw
        rcases List.mem_cons.mp hw with rfl | hw
        · simp
        · exact ih w hw
      · cases hs : l.splitOnP p with
        | nil => exact absurd hs (List.splitOnP_ne_nil p l)
        | cons q qs =>
          rw [hs] at ih
          intro w hw a ha
          rcases List.mem_cons.mp hw with rfl | hw
          · rcases List.mem_cons.mp ha with rfl | ha
            · simpa using hb
            · exact ih q List.mem_cons_self a ha
          · exact ih w (List.mem_cons_of_mem _ hw) a ha
  have hmem := List.mem_filter.mp h
  exact ⟨by simpa using hmem.2, key l w hmem.1⟩

theorem words_dropWhile {q : α → Bool} (hq : ∀ a, q a = true → p a = true) (l : List α) :
    words p (l.dropWhile q) = words p l := by
  induction l with
  | nil => rfl
  | cons a l ih =>
    rw [List.dropWhile_cons]
    split_ifs with ha
    · rw [ih, words_cons (hq a ha)]
    · rfl

theorem words_rdropWhile {q : α → Bool} (hq : ∀ a, q a = true → p a = true) (l : List α) :
    words p (l.rdropWhile q) = words p l := by
  induction l using List.reverseRecOn with
  | nil => rfl
  | append_singleton l a ih =>
    by_cases ha : q a = true
    · rw [List.rdropWhile_concat_pos _ _ _ ha, ih, words_concat (hq a ha)]
    · rw [List.rdropWhile_concat_neg _ _ _ ha]

theorem words_join {a : α} (ha : p a = true) {ws : List (List α)} (h : ∀ w ∈ ws, Word p w) :
    words p (Split.join a ws) = ws := by
  induction ws with
  | nil => exact words_nil
  | cons w ws ih =>
    have hw := h w List.mem_cons_self
    have hws := ih fun w hw => h w (List.mem_cons_of_mem _ hw)
    cases ws with
    | nil => exact words_of_word hw
    | cons v vs => rw [Split.join_cons a w (by simp), words_word_cons hw ha, hws]

theorem head?_eq_of_words {l w : List α} {ws : List (List α)} (hl : ∀ a ∈ l.head?, p a = false)
    (h : words p l = w :: ws) : l.head? = w.head? := by
  cases l with
  | nil => rw [words_nil] at h; cases h
  | cons a l =>
    have ha : p a = false := hl a rfl
    rw [words, List.splitOnP_cons_eq_if_modifyHead, if_neg (by simp [ha])] at h
    cases hs : l.splitOnP p with
    | nil => exact absurd hs (List.splitOnP_ne_nil p l)
    | cons q qs =>
      rw [hs, List.modifyHead_cons, List.filter_cons, if_pos (by simp)] at h
      rw [← (List.cons.inj h).1]
      rfl

end Words
