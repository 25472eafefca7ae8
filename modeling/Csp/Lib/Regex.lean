import Mathlib.Data.List.Basic

/-! Regular expressions with the assertions for the two ends of a text: what a search with one
finds, and how a pattern is read. -/

namespace Regex

inductive Re (α : Type)
  | empty
  | one (p : α → Bool)
  | atStart
  | atEnd
  | cat (r s : Re α)
  | opt (r : Re α)
  | star (r : Re α)

/-! ### What an expression matches -/

section Spans
variable {α : Type}

/-- What stands between two places is made of pieces that match. -/
inductive Repeats (piece : List α → List α → List α → Prop) : List α → List α → List α → Prop
  | stop {b a : List α} : Repeats piece b [] a
  | more {b m n a : List α} (h : piece b m (n ++ a)) (hs : Repeats piece (b ++ m) n a) :
    Repeats piece b (m ++ n) a

/-- The expression matches the middle of a text, between what stands before and after. -/
def Spans : Re α → List α → List α → List α → Prop
  | .empty, _, m, _ => m = []
  | .one p, _, m, _ => ∃ c, m = [c] ∧ p c = true
  | .atStart, b, m, _ => b = [] ∧ m = []
  | .atEnd, _, m, a => m = [] ∧ a = []
  | .cat r s, b, m, a => ∃ m₁ m₂, m = m₁ ++ m₂ ∧ Spans r b m₁ (m₂ ++ a) ∧ Spans s (b ++ m₁) m₂ a
  | .opt r, b, m, a => m = [] ∨ Spans r b m a
  | .star r, b, m, a => Repeats (Spans r) b m a

def Finds (r : Re α) (text : List α) : Prop := ∃ b m a, text = b ++ m ++ a ∧ Spans r b m a

def seq (rs : List (Re α)) : Re α := rs.foldr .cat .empty

variable {r : Re α} {rs : List (Re α)} {p : α → Bool} {b m a : List α}

theorem spans_one : Spans (.one p) b m a ↔ ∃ c, m = [c] ∧ p c = true := Iff.rfl

theorem spans_atStart : Spans (.atStart : Re α) b m a ↔ b = [] ∧ m = [] := Iff.rfl

theorem spans_atEnd : Spans (.atEnd : Re α) b m a ↔ m = [] ∧ a = [] := Iff.rfl

theorem spans_opt : Spans (.opt r) b m a ↔ m = [] ∨ Spans r b m a := Iff.rfl

theorem spans_star_one : Spans (.star (.one p)) b m a ↔ ∀ c ∈ m, p c = true := by
  rw [Spans]
  constructor
  · intro h
    induction h with
    | stop => simp
    | more h hs ih =>
      obtain ⟨c, rfl, hc⟩ := h
      simpa [hc] using ih
  · intro h
    induction m generalizing b with
    | nil => exact .stop
    | cons c m ih =>
      obtain ⟨hc, hm⟩ := List.forall_mem_cons.mp h
      exact .more (m := [c]) ⟨c, rfl, hc⟩ (ih hm)

theorem spans_seq_nil : Spans (seq ([] : List (Re α))) b m a ↔ m = [] := Iff.rfl

theorem spans_seq_cons : Spans (seq (r :: rs)) b m a ↔
    ∃ m₁ m₂, m = m₁ ++ m₂ ∧ Spans r b m₁ (m₂ ++ a) ∧ Spans (seq rs) (b ++ m₁) m₂ a := Iff.rfl

theorem spans_seq_append {ss : List (Re α)} : Spans (seq (rs ++ ss)) b m a ↔
    ∃ m₁ m₂, m = m₁ ++ m₂ ∧ Spans (seq rs) b m₁ (m₂ ++ a) ∧ Spans (seq ss) (b ++ m₁) m₂ a := by
  induction rs generalizing b m with
  | nil => simp [spans_seq_nil]
  | cons r rs ih =>
    simp only [List.cons_append, spans_seq_cons, ih]
    constructor
    · rintro ⟨m₁, _, rfl, hr, m₂, m₃, rfl, hrs, hss⟩
      refine ⟨m₁ ++ m₂, m₃, by simp, ⟨m₁, m₂, rfl, ?_, hrs⟩, ?_⟩
      · simpa using hr
      · simpa using hss
    · rintro ⟨_, m₃, rfl, ⟨m₁, m₂, rfl, hr, hrs⟩, hss⟩
      refine ⟨m₁, m₂ ++ m₃, by simp, ?_, m₂, m₃, rfl, hrs, ?_⟩
      · simpa using hr
      · simpa using hss

end Spans

/-! ### How a pattern is read -/

def isMeta (c : Char) : Bool :=
  c ∈ ['.', '+', '(', ')', '|', '^', '$', '\x7b', '\x7d', '[', ']', '\\', '*', '?']

/-- Read the rest of a pattern after some expressions, the last one first, inside of groups that
are still open. Alternatives, bounds and other classes are not read. -/
@[simp] def read : List (List (Re Char)) → List (Re Char) → List Char → Option (Re Char)
  | [], rs, [] => some (seq rs.reverse)
  | _ :: _, _, [] => none
  | groups, rs, '(' :: '?' :: ':' :: s => read (rs :: groups) [] s
  | outer :: groups, rs, ')' :: s => read groups (seq rs.reverse :: outer) s
  | groups, r :: rs, '*' :: s => read groups (.star r :: rs) s
  | groups, r :: rs, '?' :: s => read groups (.opt r :: rs) s
  | groups, rs, '^' :: s => read groups (.atStart :: rs) s
  | groups, rs, '$' :: s => read groups (.atEnd :: rs) s
  | groups, rs, '.' :: s => read groups (.one (· ≠ '\n') :: rs) s
  | groups, rs, '[' :: '^' :: c :: ']' :: s => if isMeta c then none else read groups
    (.one (· ≠ c) :: rs) s
  | groups, rs, '\\' :: c :: s => if isMeta c then read groups (.one (· = c) :: rs) s else none
  | groups, rs, c :: s => if isMeta c then none else read groups (.one (· = c) :: rs) s

def parse (s : List Char) : Option (Re Char) := read [] [] s

section Read
variable (groups : List (List (Re Char))) (rs : List (Re Char)) (s : List Char)

theorem read_dotStar : read groups rs ('.' :: '*' :: s) = read groups
    (.star (.one (· ≠ '\n')) :: rs) s := by
  rw [read, read]

theorem read_char {c : Char} (h : isMeta c = false) : read groups rs (c :: s) = read groups
    (.one (· = c) :: rs) s := by
  have hplain : ∀ d, c = d → isMeta d = true → False := by
    rintro d rfl hd
    rw [hd] at h
    cases h
  rw [read]
  · rw [h]
    rfl
  all_goals
    intros
    exact hplain _ (by assumption) (by decide)

theorem read_escaped {c : Char} (h : isMeta c = true) :
    read groups rs ('\\' :: c :: s) = read groups (.one (· = c) :: rs) s := by
  rw [read, if_pos h]

theorem read_notClass {c : Char} (h : isMeta c = false) :
    read groups rs ('[' :: '^' :: c :: ']' :: s) = read groups (.one (· ≠ c) :: rs) s := by
  rw [read, if_neg (by simp [h])]

theorem read_notClassStar {c : Char} (h : isMeta c = false) :
    read groups rs ('[' :: '^' :: c :: ']' :: '*' :: s) = read groups
    (.star (.one (· ≠ c)) :: rs) s := by
  rw [read_notClass groups rs _ h, read]

end Read

end Regex
