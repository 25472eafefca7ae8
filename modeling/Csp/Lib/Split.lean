import Mathlib.Data.List.Basic
import Mathlib.Tactic.Common

/-! Splitting a list at a separator, and the two ways back: joining the pieces,
and peeling off a first piece that does not hold the separator. -/

namespace Split
variable {α : Type*} [DecidableEq α]

/-- The maximal separator-free pieces of a list, in order. There is always one. -/
def splitOn (sep : α) : List α → List (List α)
  | [] => [[]]
  | a :: l =>
    if a = sep then [] :: splitOn sep l
    else match splitOn sep l with
      | [] => [[a]]
      | p :: ps => (a :: p) :: ps

/-- The pieces glued back with one separator between neighbours. -/
def join (sep : α) : List (List α) → List α
  | [] => []
  | [p] => p
  | p :: q :: ps => p ++ sep :: join sep (q :: ps)

theorem splitOn_ne_nil (sep : α) (l : List α) : splitOn sep l ≠ [] := by
  induction l with
  | nil => simp [splitOn]
  | cons a l ih =>
    unfold splitOn
    split
    · simp
    · split <;> simp

theorem splitOn_cons_self (sep : α) (l : List α) :
    splitOn sep (sep :: l) = [] :: splitOn sep l := by simp [splitOn]

theorem splitOn_cons_ne {sep a : α} (h : a ≠ sep) (l : List α) {p : List α}
    {ps : List (List α)} (hl : splitOn sep l = p :: ps) :
    splitOn sep (a :: l) = (a :: p) :: ps := by
  rw [splitOn, if_neg h, hl]

theorem splitOn_of_notMem {sep : α} {l : List α} (h : sep ∉ l) : splitOn sep l = [l] := by
  induction l with
  | nil => rfl
  | cons a l ih =>
    rw [List.mem_cons, not_or] at h
    exact splitOn_cons_ne (Ne.symm h.1) l (ih h.2)

theorem splitOn_append_sep {sep : α} {p : List α} (h : sep ∉ p) (l : List α) :
    splitOn sep (p ++ sep :: l) = p :: splitOn sep l := by
  induction p with
  | nil => exact splitOn_cons_self sep l
  | cons a p ih =>
    rw [List.mem_cons, not_or] at h
    exact splitOn_cons_ne (Ne.symm h.1) _ (ih h.2)

theorem splitOn_append (sep : α) (l l' : List α) : splitOn sep (l ++ sep :: l') = splitOn sep l ++
    splitOn sep l' := by
  induction l with
  | nil => exact splitOn_cons_self sep l'
  | cons a l ih =>
    by_cases ha : a = sep
    · subst ha
      rw [List.cons_append, splitOn_cons_self, splitOn_cons_self, ih, List.cons_append]
    · obtain ⟨p, ps, hp⟩ := List.exists_cons_of_ne_nil (splitOn_ne_nil sep l)
      rw [hp, List.cons_append] at ih
      rw [List.cons_append, splitOn_cons_ne ha _ ih, splitOn_cons_ne ha _ hp, List.cons_append]

theorem notMem_of_mem_splitOn {sep : α} {l p : List α} (h : p ∈ splitOn sep l) : sep ∉ p := by
  induction l generalizing p with
  | nil => simp only [splitOn, List.mem_singleton] at h; simp [h]
  | cons a l ih =>
    unfold splitOn at h
    split_ifs at h with ha
    · rcases List.mem_cons.mp h with rfl | h
      · simp
      · exact ih h
    · cases hl : splitOn sep l with
      | nil => exact absurd hl (splitOn_ne_nil sep l)
      | cons q qs =>
        simp only [hl, List.mem_cons] at h
        rcases h with rfl | h
        · rw [List.mem_cons, not_or]
          exact ⟨Ne.symm ha, ih (hl ▸ List.mem_cons_self)⟩
        · exact ih (hl ▸ List.mem_cons_of_mem _ h)

omit [DecidableEq α] in
theorem join_cons (sep : α) (p : List α) {ps : List (List α)} (h : ps ≠ []) :
    join sep (p :: ps) = p ++ sep :: join sep ps := by
  cases ps with
  | nil => exact absurd rfl h
  | cons q qs => rfl

theorem join_splitOn (sep : α) (l : List α) : join sep (splitOn sep l) = l := by
  induction l with
  | nil => rfl
  | cons a l ih =>
    unfold splitOn
    split_ifs with ha
    · rw [join_cons sep [] (splitOn_ne_nil sep l), ih, ha, List.nil_append]
    · cases hl : splitOn sep l with
      | nil => exact absurd hl (splitOn_ne_nil sep l)
      | cons q qs =>
        rw [hl] at ih
        cases qs with
        | nil => simpa [join] using ih
        | cons r rs => rw [join_cons sep _ (by simp)] at ih ⊢; simpa using ih

theorem splitOn_join {sep : α} {ps : List (List α)} (hne : ps ≠ []) (h : ∀ p ∈ ps, sep ∉ p) :
    splitOn sep (join sep ps) = ps := by
  induction ps with
  | nil => exact absurd rfl hne
  | cons p ps ih =>
    rw [List.forall_mem_cons] at h
    cases ps with
    | nil => exact splitOn_of_notMem h.1
    | cons q qs => rw [join_cons sep p (List.cons_ne_nil q qs), splitOn_append_sep h.1,
      ih (List.cons_ne_nil q qs) h.2]

theorem splitOn_injective (sep : α) : Function.Injective (splitOn sep) := by
  intro l l' h
  rw [← join_splitOn sep l, h, join_splitOn]

omit [DecidableEq α] in
theorem suffix_join (sep : α) (ps : List (List α)) (p : List α) : p <:+ join sep (ps ++ [p]) := by
  induction ps with
  | nil => exact List.suffix_rfl
  | cons q ps ih =>
    rw [List.cons_append, join_cons sep q (by simp)]
    exact (ih.trans (List.suffix_cons _ _)).trans (List.suffix_append _ _)

/-- The list before the first separator and the list after it. -/
def cut (sep : α) : List α → Option (List α × List α)
  | [] => none
  | a :: l => if a = sep then some ([], l) else (cut sep l).map fun (p, q) => (a :: p, q)

theorem cut_append {sep : α} {p : List α} (h : sep ∉ p) (q : List α) :
    cut sep (p ++ sep :: q) = some (p, q) := by
  induction p with
  | nil => simp [cut]
  | cons a p ih =>
    rw [List.mem_cons, not_or] at h
    simp [cut, Ne.symm h.1, ih h.2]

theorem cut_eq_none {sep : α} {l : List α} : cut sep l = none ↔ sep ∉ l := by
  induction l with
  | nil => simp [cut]
  | cons a l ih =>
    by_cases ha : a = sep
    · simp [cut, ha]
    · simp [cut, ha, ih, Ne.symm ha]

theorem cut_eq_some {sep : α} {l p q : List α} (h : cut sep l = some (p, q)) :
    l = p ++ sep :: q ∧ sep ∉ p := by
  induction l generalizing p with
  | nil => simp [cut] at h
  | cons a l ih =>
    by_cases ha : a = sep
    · simp only [cut, if_pos ha, Option.some.injEq, Prod.mk.injEq] at h
      obtain ⟨rfl, rfl⟩ := h
      simp [ha]
    · simp only [cut, if_neg ha, Option.map_eq_some_iff] at h
      obtain ⟨⟨p', q'⟩, hl, he⟩ := h
      simp only [Prod.mk.injEq] at he
      obtain ⟨rfl, rfl⟩ := he
      obtain ⟨rfl, hp⟩ := ih hl
      simp [hp, Ne.symm ha]

theorem prefix_of_cut {c d : α} {l p q p' q' : List α} (h : cut c l = some (p, q))
    (h' : cut d l = some (p', q')) (hlen : p.length ≤ p'.length) : p <+: p' :=
  List.prefix_of_prefix_length_le ((cut_eq_some h).1 ▸ List.prefix_append _ _)
    ((cut_eq_some h').1 ▸ List.prefix_append _ _) hlen

end Split
