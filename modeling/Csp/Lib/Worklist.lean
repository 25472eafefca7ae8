import Mathlib.Algebra.Ring.Nat
import Mathlib.Data.List.Basic
import Mathlib.Data.List.Nodup
import Mathlib.Logic.Relation
import Mathlib.Tactic.Common

/-! Depth-first search with an explicit stack over a graph that is discovered while it is
searched: visiting a node may fail, may update an accumulator, and says which nodes to
push. Nodes already seen are skipped when they are popped. -/

namespace Worklist
variable {α σ ε : Type*} [DecidableEq α]

/-- The search from a stack (top first), given the nodes seen so far (latest first).
Each iteration pops one node; `fuel` bounds them, and `stuck` is the error when it runs
out. -/
def explore (visit : σ → α → Except ε (σ × List α)) (stuck : ε) :
    Nat → List α → σ → List α → Except ε (List α × σ)
  | _, seen, acc, [] => .ok (seen, acc)
  | 0, _, _, _ :: _ => .error stuck
  | n + 1, seen, acc, x :: stack =>
    if x ∈ seen then explore visit stuck n seen acc stack
    else match visit acc x with
      | .error e => .error e
      | .ok (acc', next) =>
        explore visit stuck n (x :: seen) acc'
          ((next.filter (· ∉ x :: seen)).reverse ++ stack)

variable {visit visit' : σ → α → Except ε (σ × List α)} {stuck : ε} {seen seen' stack : List α}
  {acc acc' : σ} {n : Nat}

theorem explore_nil : explore visit stuck n seen acc [] = .ok (seen, acc) := by
  cases n <;> rfl

theorem explore_skip {x : α} (h : x ∈ seen) :
    explore visit stuck (n + 1) seen acc (x :: stack) = explore visit stuck n seen acc stack := by
  rw [explore, if_pos h]

theorem explore_visit {x : α} {next : List α} (h : x ∉ seen) (hv : visit acc x = .ok (acc', next)) :
    explore visit stuck (n + 1) seen acc (x :: stack) =
      explore visit stuck n (x :: seen) acc' ((next.filter (· ∉ x :: seen)).reverse ++ stack) := by
  rw [explore, if_neg h, hv]

theorem explore_ok_cons {x : α} (h : explore visit stuck n seen acc (x :: stack) = .ok
      (seen', acc')) :
    ∃ m, n = m + 1 ∧
      ((x ∈ seen ∧ explore visit stuck m seen acc stack = .ok (seen', acc')) ∨
        (x ∉ seen ∧ ∃ acc₁ next, visit acc x = .ok (acc₁, next) ∧
          explore visit stuck m (x :: seen) acc₁ ((next.filter (· ∉ x :: seen)).reverse ++ stack) =
            .ok (seen', acc'))) := by
  cases n with
  | zero => simp [explore] at h
  | succ m =>
    refine ⟨m, rfl, ?_⟩
    rw [explore] at h
    split_ifs at h with hx
    · exact .inl ⟨hx, h⟩
    · split at h
      · simp at h
      · rename_i acc₁ next hv
        exact .inr ⟨hx, acc₁, next, hv, h⟩

theorem mem_pushed {next : List α} {x y : α}
    (h : y ∈ (next.filter (· ∉ x :: seen)).reverse ++ stack) : y ∈ next ∨ y ∈ stack := by
  rw [List.mem_append, List.mem_reverse, List.mem_filter] at h
  exact h.imp And.left id

theorem length_pushed_le (seen stack next : List α) (x : α) :
    ((next.filter (· ∉ x :: seen)).reverse ++ stack).length ≤ next.length + stack.length := by
  rw [List.length_append, List.length_reverse]
  exact Nat.add_le_add_right (List.length_filter_le _ _) _

/-- A search that succeeds visits each node once, and any other search whose visits agree
with it succeeds alike, if it has fuel for the stack and for what the visits push. -/
theorem explore_transfer (visit' : σ → α → Except ε (σ × List α)) (P : α → Prop) (cost : α → Nat)
    (hvisit : ∀ acc x acc' next, P x → visit acc x = .ok (acc', next) →
      visit' acc x = .ok (acc', next) ∧ next.length ≤ cost x ∧ ∀ y ∈ next, P y)
    (h : explore visit stuck n seen acc stack = .ok (seen', acc')) (hstack : ∀ x ∈ stack, P x) :
    ∃ vis, seen' = vis ++ seen ∧ vis.Nodup ∧
      (∀ x ∈ vis, x ∉ seen ∧ P x ∧ ∃ acc r, visit acc x = .ok r) ∧
      ∀ m, stack.length + (vis.map cost).sum ≤ m →
        explore visit' stuck m seen acc stack = .ok (seen', acc') := by
  induction n generalizing seen acc stack with
  | zero =>
    cases stack with
    | nil =>
      simp only [explore, Except.ok.injEq, Prod.mk.injEq] at h
      obtain ⟨rfl, rfl⟩ := h
      exact ⟨[], rfl, List.nodup_nil, by simp, fun m _ => explore_nil⟩
    | cons x stack => simp [explore] at h
  | succ n ih =>
    cases stack with
    | nil =>
      simp only [explore, Except.ok.injEq, Prod.mk.injEq] at h
      obtain ⟨rfl, rfl⟩ := h
      exact ⟨[], rfl, List.nodup_nil, by simp, fun m _ => explore_nil⟩
    | cons x stack =>
      obtain ⟨m, hm, ⟨hx, h⟩ | ⟨hx, acc₁, next, hv, h⟩⟩ := explore_ok_cons h
      · obtain rfl : n = m := by omega
        obtain ⟨vis, hseen, hnd, hvis, hfuel⟩ :=
          ih h fun y hy => hstack y (List.mem_cons_of_mem _ hy)
        refine ⟨vis, hseen, hnd, hvis, fun k hk => ?_⟩
        obtain ⟨k, rfl⟩ : ∃ k', k = k' + 1 := ⟨k - 1, by simp at hk; omega⟩
        rw [explore_skip hx]
        exact hfuel k (by simp at hk; omega)
      · obtain rfl : n = m := by omega
        obtain ⟨hv', hcost, hnext⟩ := hvisit _ _ _ _ (hstack x List.mem_cons_self) hv
        obtain ⟨vis, hseen, hnd, hvis, hfuel⟩ := ih h fun y hy =>
          (mem_pushed hy).elim (hnext y) fun hy => hstack y (List.mem_cons_of_mem _ hy)
        refine ⟨vis ++ [x], by simpa using hseen, ?_, ?_, fun k hk => ?_⟩
        · refine List.nodup_append.mpr ⟨hnd, List.nodup_singleton x, fun a ha b hb => ?_⟩
          rintro rfl
          exact (hvis a ha).1 (List.mem_singleton.mp hb ▸ List.mem_cons_self)
        · intro y hy
          rcases List.mem_append.mp hy with hy | hy
          · exact ⟨fun hs => (hvis y hy).1 (List.mem_cons_of_mem _ hs), (hvis y hy).2⟩
          · rw [List.mem_singleton.mp hy]
            exact ⟨hx, hstack x List.mem_cons_self, acc, _, hv⟩
        · simp only [List.map_append, List.sum_append, List.map_cons, List.map_nil, List.sum_cons,
            List.sum_nil, List.length_cons] at hk
          obtain ⟨k, rfl⟩ : ∃ k', k = k' + 1 := ⟨k - 1, by omega⟩
          rw [explore_visit hx hv']
          have := length_pushed_le seen stack next x
          exact hfuel k (by omega)

theorem explore_closed (nbrs : α → List α)
    (hnext : ∀ acc x acc' next, visit acc x = .ok (acc', next) → next = nbrs x)
    (h : explore visit stuck n seen acc stack = .ok (seen', acc')) :
    (∀ x ∈ seen, x ∈ seen') ∧ (∀ x ∈ stack, x ∈ seen') ∧
      ∀ x ∈ seen', x ∉ seen → (∀ y ∈ nbrs x, y ∈ seen') ∧
        ∃ r ∈ stack, Relation.ReflTransGen (fun a b => b ∈ nbrs a) r x := by
  induction n generalizing seen acc stack with
  | zero =>
    cases stack with
    | nil =>
      simp only [explore, Except.ok.injEq, Prod.mk.injEq] at h
      obtain ⟨rfl, rfl⟩ := h
      exact ⟨fun _ => id, by simp, fun x hx hn => absurd hx hn⟩
    | cons x stack => simp [explore] at h
  | succ n ih =>
    cases stack with
    | nil =>
      simp only [explore, Except.ok.injEq, Prod.mk.injEq] at h
      obtain ⟨rfl, rfl⟩ := h
      exact ⟨fun _ => id, by simp, fun x hx hn => absurd hx hn⟩
    | cons x stack =>
      obtain ⟨m, hm, ⟨hx, h⟩ | ⟨hx, acc₁, next, hv, h⟩⟩ := explore_ok_cons h
      · obtain rfl : n = m := by omega
        obtain ⟨hseen, hstack, hrest⟩ := ih h
        refine ⟨hseen, List.forall_mem_cons.mpr ⟨hseen x hx, hstack⟩, fun y hy hn => ?_⟩
        obtain ⟨hy1, r, hr, hp⟩ := hrest y hy hn
        exact ⟨hy1, r, List.mem_cons_of_mem _ hr, hp⟩
      · obtain rfl : n = m := by omega
        obtain rfl := hnext _ _ _ _ hv
        obtain ⟨hseen, hstack, hrest⟩ := ih h
        have hxs : x ∈ seen' := hseen x List.mem_cons_self
        have hnbrs : ∀ y ∈ nbrs x, y ∈ seen' := by
          intro y hy
          by_cases hys : y ∈ x :: seen
          · exact hseen y hys
          · exact hstack y (List.mem_append_left _ (List.mem_reverse.mpr
              (List.mem_filter.mpr ⟨hy, by simpa using hys⟩)))
        refine ⟨fun y hy => hseen y (List.mem_cons_of_mem _ hy), List.forall_mem_cons.mpr
          ⟨hxs, fun y hy => hstack y (List.mem_append_right _ hy)⟩, fun y hy hn => ?_⟩
        by_cases hyx : y = x
        · subst hyx
          exact ⟨hnbrs, y, List.mem_cons_self, .refl⟩
        · obtain ⟨hy1, r, hr, hp⟩ := hrest y hy (by simp [hyx, hn])
          refine ⟨hy1, ?_⟩
          rcases mem_pushed hr with hr | hr
          · exact ⟨x, List.mem_cons_self, .head hr hp⟩
          · exact ⟨r, List.mem_cons_of_mem _ hr, hp⟩

theorem sum_unseen {K : List α} (cost : α → Nat) (hK : K.Nodup) {x : α} (hxK : x ∈ K)
    (hx : x ∉ seen) :
    ((K.filter (· ∉ x :: seen)).map cost).sum + cost x = ((K.filter (· ∉ seen)).map cost).sum := by
  have hperm : (x :: K.filter (· ∉ x :: seen)).Perm (K.filter (· ∉ seen)) := by
    refine (List.perm_ext_iff_of_nodup ?_ (hK.filter _)).mpr fun y => ?_
    · exact List.nodup_cons.mpr ⟨by simp, hK.filter _⟩
    · by_cases hyx : y = x
      · subst hyx; simp [hxK, hx]
      · simp [hyx]
  have := (hperm.map cost).sum_nat
  rw [List.map_cons, List.sum_cons] at this
  omega

theorem explore_congr (P : α → Prop) (hvisit : ∀ acc x, P x → visit' acc x = visit acc x)
    (hnext : ∀ acc x acc' next, P x → visit acc x = .ok (acc', next) → ∀ y ∈ next, P y)
    (hstack : ∀ x ∈ stack, P x) :
    explore visit' stuck n seen acc stack = explore visit stuck n seen acc stack := by
  induction n generalizing seen acc stack with
  | zero => cases stack <;> rfl
  | succ n ih =>
    cases stack with
    | nil => rfl
    | cons x stack =>
      have hx := hstack x List.mem_cons_self
      have hrest : ∀ y ∈ stack, P y := fun y hy => hstack y (List.mem_cons_of_mem _ hy)
      rw [explore, explore]
      split_ifs with hseen
      · exact ih hrest
      · rw [hvisit acc x hx]
        cases hv : visit acc x with
        | error e => rfl
        | ok r => exact ih fun y hy => (mem_pushed hy).elim (hnext _ _ _ _ hx hv y) (hrest y)

/-- The fuel does not show once it is enough for the stack and for what each node of a finite
set not seen yet can push, if no visit outside of the set succeeds. -/
theorem explore_fuel (K : List α) (cost : α → Nat) (hK : K.Nodup)
    (hvisit : ∀ acc x acc' next, visit acc x = .ok (acc', next) → x ∈ K ∧
      next.length ≤ cost x) {m : Nat}
    (hn : stack.length + ((K.filter (· ∉ seen)).map cost).sum ≤ n)
    (hm : stack.length + ((K.filter (· ∉ seen)).map cost).sum ≤ m) :
    explore visit stuck n seen acc stack = explore visit stuck m seen acc stack := by
  induction n generalizing m seen acc stack with
  | zero =>
    cases stack with
    | nil => rw [explore_nil, explore_nil]
    | cons x stack => simp at hn
  | succ n ih =>
    cases stack with
    | nil => rw [explore_nil, explore_nil]
    | cons x stack =>
      rw [List.length_cons] at hn hm
      obtain ⟨m, rfl⟩ : ∃ m', m = m' + 1 := ⟨m - 1, by omega⟩
      rw [explore, explore]
      split_ifs with hx
      · exact ih (by omega) (by omega)
      · cases hv : visit acc x with
        | error e => rfl
        | ok r =>
          obtain ⟨acc', next⟩ := r
          obtain ⟨hxK, hcost⟩ := hvisit _ _ _ _ hv
          have hlen := length_pushed_le seen stack next x
          have hsum := sum_unseen cost hK hxK hx
          exact ih (by omega) (by omega)

/-- A search inside a finite set on which every visit succeeds succeeds, if it has fuel for
the stack and for what each node of the set not seen yet can push. -/
theorem explore_complete (K : List α) (cost : α → Nat)
    (hvisit : ∀ acc x, x ∈ K → ∃ acc' next, visit acc x = .ok (acc', next) ∧
      next.length ≤ cost x ∧ ∀ y ∈ next, y ∈ K)
    (hstack : ∀ x ∈ stack, x ∈ K) (hK : K.Nodup)
    (hn : stack.length + ((K.filter (· ∉ seen)).map cost).sum ≤ n) :
    ∃ r, explore visit stuck n seen acc stack = .ok r := by
  induction n generalizing seen acc stack with
  | zero =>
    cases stack with
    | nil => exact ⟨_, explore_nil⟩
    | cons x stack => simp at hn
  | succ n ih =>
    cases stack with
    | nil => exact ⟨_, explore_nil⟩
    | cons x stack =>
      rw [List.length_cons] at hn
      by_cases hx : x ∈ seen
      · rw [explore_skip hx]
        exact ih (fun y hy => hstack y (List.mem_cons_of_mem _ hy)) (by omega)
      · have hxK := hstack x List.mem_cons_self
        obtain ⟨acc', next, hv, hcost, hnext⟩ := hvisit acc x hxK
        rw [explore_visit hx hv]
        refine ih (fun y hy => (mem_pushed hy).elim (hnext y) fun hy =>
          hstack y (List.mem_cons_of_mem _ hy)) ?_
        have hlen := length_pushed_le seen stack next x
        have hsum := sum_unseen cost hK hxK hx
        omega

end Worklist
