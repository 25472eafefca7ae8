import Mathlib.Data.List.Nodup
import Std.Data.ExtTreeMap
import Csp.Lib.Result

/-! Folds over a state of cells. A step that changes the cell of its own key only can be read
cell by cell: the fold at a key is the fold of the items with that key. -/

namespace Cells
universe u v w x
variable {σ : Type u} {α : Type v} {κ : Type w} {β : Type x} [DecidableEq κ]

theorem look_foldl_of (look : σ → κ → β) {step : σ → α → σ} (Inv : σ → Prop) (key : α → κ)
    (act : β → α → β) {k : κ} {as : List α} (hinv : ∀ s, ∀ a ∈ as, Inv s → Inv (step s a))
    (hstep : ∀ s, ∀ a ∈ as, Inv s → look (step s a) k = if key a = k then act
      (look s k) a else look s k) {s : σ}
    (hs : Inv s) : look (as.foldl step s) k = (as.filter fun a => key a = k).foldl act
    (look s k) := by
  induction as generalizing s with
  | nil => rfl
  | cons a as ih =>
    have hrest := ih (fun s b hb => hinv s b (List.mem_cons_of_mem a hb))
      (fun s b hb => hstep s b (List.mem_cons_of_mem a hb))
      (hinv s a List.mem_cons_self hs)
    rw [List.foldl_cons, hrest, hstep s a List.mem_cons_self hs]
    by_cases ha : key a = k
    · rw [if_pos ha, List.filter_cons_of_pos (by simpa using ha), List.foldl_cons]
    · rw [if_neg ha, List.filter_cons_of_neg (by simpa using ha)]

theorem look_foldl {look : σ → κ → β} {step : σ → α → σ} (key : α → κ) (act : β → α → β)
    (hstep : ∀ s a k, look (step s a) k = if key a = k then act (look s k) a else look s k)
    (as : List α) (s : σ) (k : κ) : look (as.foldl step s) k = (as.filter fun a => key a = k).foldl
    act (look s k) :=
  look_foldl_of look (fun _ => True) key act (fun _ _ _ _ => trivial)
    (fun s a _ _ => hstep s a k) trivial

theorem filter_key_of_mem (key : α → κ) {as : List α} (hnodup : (as.map key).Nodup) {a : α}
    (ha : a ∈ as) :
    (as.filter fun b => key b = key a) = [a] := by
  induction as with
  | nil => cases ha
  | cons b bs ih =>
    rw [List.map_cons, List.nodup_cons] at hnodup
    rcases List.mem_cons.mp ha with rfl | ha
    · rw [List.filter_cons_of_pos (by simp), List.filter_eq_nil_iff.mpr]
      intro c hc hkey
      exact hnodup.1 (List.mem_map.mpr ⟨c, hc, by simpa using hkey⟩)
    · have hne : key b ≠ key a := fun h => hnodup.1 (h ▸ List.mem_map_of_mem ha)
      rw [List.filter_cons_of_neg (by simpa using hne), ih hnodup.2 ha]

omit [DecidableEq κ] in
theorem holds_foldl {P : σ → Prop} {step : σ → α → σ} {sets : σ → α → Prop} {clears : α → Prop}
    (hstep : ∀ s a, P (step s a) ↔ sets s a ∨ (P s ∧ ¬ clears a)) (as : List α) (s : σ) :
    P (as.foldl step s) ↔ (P s ∧ ∀ a ∈ as, ¬ clears a) ∨
      ∃ before a after, as = before ++ a :: after ∧ sets (before.foldl step s) a ∧ ∀ b ∈ after,
      ¬ clears b := by
  induction as generalizing s with
  | nil => simp
  | cons a as ih =>
    rw [List.foldl_cons, ih, hstep, List.forall_mem_cons]
    constructor
    · rintro (⟨hset | ⟨hs, ha⟩, has⟩ | ⟨before, b, after, rfl, hb, hafter⟩)
      · exact .inr ⟨[], a, as, rfl, hset, has⟩
      · exact .inl ⟨hs, ha, has⟩
      · exact .inr ⟨a :: before, b, after, rfl, hb, hafter⟩
    · rintro (⟨hs, ha, has⟩ | ⟨before, b, after, heq, hb, hafter⟩)
      · exact .inl ⟨.inr ⟨hs, ha⟩, has⟩
      · cases before with
        | nil =>
          obtain ⟨rfl, rfl⟩ := List.cons.inj heq
          exact .inl ⟨.inl hb, hafter⟩
        | cons c before =>
          obtain ⟨rfl, rfl⟩ := List.cons.inj heq
          exact .inr ⟨before, b, after, rfl, hb, hafter⟩

section Loop
variable {ε σ α κ β : Type} [DecidableEq κ] {f : α → Result.StM ε σ PUnit} {In : κ → Prop}

/-- A loop that may fail on the way: the items before the one that fails do their work on their
cells, and the others do none. -/
theorem look_forM (look : σ → κ → β) (Inv : σ → Prop) (key : α → κ) (act : β → α → β) {as : List α}
    (hinv : ∀ s, ∀ a ∈ as, Inv s → Inv (f a s).2)
    (hok : ∀ s, ∀ a ∈ as, Inv s → (f a s).1 = .ok ⟨⟩ → ∀ k, In k →
      look (f a s).2 k = if key a = k then act (look s k) a else look s k)
    (hfail : ∀ s, ∀ a ∈ as, Inv s → (f a s).1 ≠ .ok ⟨⟩ → ∀ k, In k → look (f a s).2 k = look s k)
    {s : σ} (hs : Inv s) :
    ∃ done rest, as = done ++ rest ∧ ((as.forM f s).1 = .ok ⟨⟩ ↔ rest = []) ∧ Inv (as.forM f s).2 ∧
      ∀ k, In k → look (as.forM f s).2 k = (done.filter fun a => key a = k).foldl act
      (look s k) := by
  induction as generalizing s with
  | nil => exact ⟨[], [], rfl, by simp [Result.run_forM_nil], hs, fun _ _ => rfl⟩
  | cons a as ih =>
    have hwork := hok s a List.mem_cons_self hs
    have hidle := hfail s a List.mem_cons_self hs
    have hkeeps := hinv s a List.mem_cons_self hs
    rw [Result.run_forM_cons]
    rcases hrun : f a s with ⟨e | _, t⟩
    · -- the loop ends here
      rw [hrun] at hidle hkeeps
      exact ⟨[], a :: as, rfl, by simp, hkeeps, hidle (by simp)⟩
    · rw [hrun] at hwork hkeeps
      obtain ⟨done, rest, rfl, hend, hinv', hlook⟩ :=
        ih (fun s b hb => hinv s b (List.mem_cons_of_mem a hb))
        (fun s b hb => hok s b (List.mem_cons_of_mem a hb))
        (fun s b hb => hfail s b (List.mem_cons_of_mem a hb)) hkeeps
      refine ⟨a :: done, rest, rfl, hend, hinv', fun k hk => ?_⟩
      rw [hlook k hk, hwork rfl k hk]
      by_cases ha : key a = k
      · rw [if_pos ha, List.filter_cons_of_pos (by simpa using ha), List.foldl_cons]
      · rw [if_neg ha, List.filter_cons_of_neg (by simpa using ha)]

end Loop

end Cells
