import Mathlib.Data.List.Basic

/-! Queues in which every item of one kind is made up for by an item behind it. Serving the head
and appending keep this, if what is appended is not of the kind or is such an item itself. -/

namespace Fifo
variable {α : Type*} {P P' Q Q' : α → Prop} {l : List α}

def Followed (P Q : α → Prop) : List α → Prop
  | [] => True
  | a :: l => (P a → ∃ b ∈ l, Q b) ∧ Followed P Q l

theorem Followed.exists_of_mem (h : Followed P Q l) {a : α} (ha : a ∈ l) (hP : P a) :
    ∃ b ∈ l, Q b := by
  induction l with
  | nil => cases ha
  | cons c l ih =>
    obtain ⟨b, hb, hQ⟩ : ∃ b ∈ l, Q b := by
      rcases List.mem_cons.mp ha with rfl | ha
      · exact h.1 hP
      · exact ih h.2 ha
    exact ⟨b, List.mem_cons_of_mem _ hb, hQ⟩

theorem Followed.mono (h : Followed P Q l) (hP : ∀ a ∈ l, P' a → P a) (hQ : ∀ a ∈ l, Q a → Q' a) :
    Followed P' Q' l := by
  induction l with
  | nil => trivial
  | cons a l ih =>
    refine ⟨fun ha => ?_, ih h.2 (fun b hb => hP b (List.mem_cons_of_mem _ hb))
      fun b hb => hQ b (List.mem_cons_of_mem _ hb)⟩
    obtain ⟨b, hb, hbQ⟩ := h.1 (hP a List.mem_cons_self ha)
    exact ⟨b, hb, hQ b (List.mem_cons_of_mem _ hb) hbQ⟩

theorem followed_of_forall_not (h : ∀ a ∈ l, ¬P a) : Followed P Q l := by
  induction l with
  | nil => trivial
  | cons a l ih =>
    exact ⟨fun ha => absurd ha (h a List.mem_cons_self), ih fun b hb =>
      h b (List.mem_cons_of_mem _ hb)⟩

theorem Followed.append (h : Followed P Q l) {l' : List α} (hl' : ∀ a ∈ l', ¬P a) :
    Followed P Q (l ++ l') := by
  induction l with
  | nil => exact followed_of_forall_not hl'
  | cons a l ih =>
    refine ⟨fun ha => ?_, ih h.2⟩
    obtain ⟨b, hb, hQ⟩ := h.1 ha
    exact ⟨b, List.mem_append_left _ hb, hQ⟩

theorem followed_concat {b : α} (hQ : Q b) (hP : ¬P b) : Followed P Q (l ++ [b]) := by
  induction l with
  | nil => exact ⟨fun h => absurd h hP, trivial⟩
  | cons a l ih => exact ⟨fun _ => ⟨b, by simp, hQ⟩, ih⟩

end Fifo
