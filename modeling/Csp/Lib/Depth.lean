import Mathlib.Data.Finset.Card
import Mathlib.Logic.Relation

/-! How much fuel a recursion over a graph needs. A node has depth below `n` if every path
from it has fewer than `n` nodes; then it has depth within the number of nodes it reaches. -/

namespace Depth
variable {α : Type*}

/-- A recursion from the node along `nbrs` that spends one unit at each node ends within
the given fuel. -/
def Within (nbrs : α → List α) : Nat → α → Prop
  | 0, _ => False
  | n + 1, a => ∀ b ∈ nbrs a, Within nbrs n b

variable {nbrs nbrs' : α → List α} {n m : Nat} {a : α}

theorem Within.mono (h : Within nbrs n a) (hnm : n ≤ m) : Within nbrs m a := by
  induction n generalizing a m with
  | zero => exact h.elim
  | succ n ih =>
    obtain ⟨m, rfl⟩ : ∃ m', m = m' + 1 := ⟨m - 1, by omega⟩
    exact fun b hb => ih (h b hb) (by omega)

theorem Within.acyclic (h : Within nbrs n a) :
    ¬ Relation.TransGen (fun a b => b ∈ nbrs a) a a := by
  induction n generalizing a with
  | zero => exact h.elim
  | succ n ih =>
    intro hcyc
    obtain ⟨b, hab, hba⟩ := Relation.TransGen.head'_iff.mp hcyc
    exact ih (h b hab) (.tail' hba hab)

theorem Within.card [DecidableEq α] (h : Within nbrs n a) (K : Finset α)
    (hK : ∀ b, Relation.ReflTransGen (fun a b => b ∈ nbrs a) a b → b ∈ K) :
    Within nbrs K.card a := by
  induction n generalizing a K with
  | zero => exact h.elim
  | succ n ih =>
    obtain ⟨k, hk⟩ : ∃ k, K.card = k + 1 :=
      ⟨K.card - 1, by have := Finset.card_pos.mpr ⟨a, hK a .refl⟩; omega⟩
    rw [hk]
    intro b hb
    have hcard : (K.erase a).card = k := by rw [Finset.card_erase_of_mem (hK a .refl), hk]; rfl
    rw [← hcard]
    refine ih (h b hb) _ fun c hc => Finset.mem_erase.mpr ⟨?_, hK c (.head hb hc)⟩
    rintro rfl
    exact h.acyclic (.head' hb hc)

theorem Within.congr (h : Within nbrs n a)
    (heq : ∀ b, Relation.ReflTransGen (fun a b => b ∈ nbrs a) a b → ∀ c ∈ nbrs' b, c ∈ nbrs b) :
    Within nbrs' n a := by
  induction n generalizing a with
  | zero => exact h.elim
  | succ n ih =>
    intro b hb
    have hab := heq a .refl b hb
    exact ih (h b hab) fun c hc => heq c (.head hab hc)

/-- Without cycles the depth is within the number of nodes that have neighbours, and one more. -/
theorem within_of_acyclic [DecidableEq α] (hac : ∀ a, ¬ Relation.TransGen
      (fun a b => b ∈ nbrs a) a a) (K : Finset α)
    (hK : ∀ b, Relation.ReflTransGen (fun a b => b ∈ nbrs a) a b → nbrs b ≠ [] → b ∈ K) :
    Within nbrs (K.card + 1) a := by
  induction hn : K.card generalizing a K with
  | zero =>
    intro b hb
    have ha : a ∈ K := hK a .refl (List.ne_nil_of_mem hb)
    rw [Finset.card_eq_zero.mp hn] at ha
    cases ha
  | succ n ih =>
    intro b hb
    have ha : a ∈ K := hK a .refl (List.ne_nil_of_mem hb)
    refine ih (K.erase a) (fun c hc hne => Finset.mem_erase.mpr ⟨?_, hK c (.head hb hc) hne⟩) ?_
    · rintro rfl
      exact hac c (.head' hb hc)
    · rw [Finset.card_erase_of_mem ha, hn]
      rfl

/-! ### Gathering -/

/-- What a node reaches, added to what was seen; a node that was seen is not entered again. -/
def gather [DecidableEq α] (nbrs : α → List α) : Nat → α → List α → List α
  | 0, _, seen => seen
  | n + 1, a, seen =>
    if a ∈ seen then seen else (nbrs a).foldl (fun seen b => gather nbrs n b seen) (a :: seen)

/-- All that the seen nodes under a node reach was seen as well. -/
def ClosedUnder (nbrs : α → List α) (a : α) (seen : List α) : Prop :=
  ∀ x ∈ seen, Relation.ReflTransGen (fun a b => b ∈ nbrs a) a x →
    ∀ y, Relation.ReflTransGen (fun a b => b ∈ nbrs a) x y → y ∈ seen

theorem mem_gather [DecidableEq α] (h : Within nbrs n a) {seen : List α}
    (hclosed : ClosedUnder nbrs a seen) {x : α} :
    x ∈ gather nbrs n a seen ↔ x ∈ seen ∨ Relation.ReflTransGen (fun a b => b ∈ nbrs a) a x := by
  induction n generalizing a seen x with
  | zero => exact h.elim
  | succ n ih =>
    rw [gather]
    by_cases ha : a ∈ seen
    · rw [if_pos ha]
      exact ⟨.inl, fun hx => hx.elim id fun hax => hclosed a ha .refl x hax⟩
    · rw [if_neg ha]
      -- in the loop the node itself was seen, but nothing below it leads back to it
      have loop : ∀ (bs acc : List α), (∀ b ∈ bs, b ∈ nbrs a) →
          (∀ b ∈ nbrs a, ClosedUnder nbrs b acc) → ∀ x,
          x ∈ bs.foldl (fun seen b => gather nbrs n b seen) acc ↔
            x ∈ acc ∨ ∃ b ∈ bs, Relation.ReflTransGen (fun a b => b ∈ nbrs a) b x := by
        intro bs
        induction bs with
        | nil => simp
        | cons b bs ihb =>
          intro acc hbs hacc x
          have hb := hbs b List.mem_cons_self
          have hmem : ∀ x, x ∈ gather nbrs n b acc ↔
              x ∈ acc ∨ Relation.ReflTransGen (fun a b => b ∈ nbrs a) b x := fun x =>
              ih (h b hb) (hacc b hb)
          rw [List.foldl_cons, ihb _ (fun c hc => hbs c (List.mem_cons_of_mem _ hc)) ?_, hmem,
            List.exists_mem_cons_iff, or_assoc]
          intro c hc y hy hcy z hyz
          rcases (hmem y).mp hy with hy | hby
          · exact (hmem z).mpr (.inl (hacc c hc y hy hcy z hyz))
          · exact (hmem z).mpr (.inr (hby.trans hyz))
      rw [loop _ _ (fun _ => id) ?_, List.mem_cons, Relation.ReflTransGen.cases_head_iff]
      · grind
      · intro b hb y hy hby z hyz
        rcases List.mem_cons.mp hy with rfl | hy
        · exact absurd (.head' hb hby) h.acyclic
        · exact List.mem_cons_of_mem _ (hclosed y hy (.head hb hby) z hyz)

theorem mem_gather_nil [DecidableEq α] (h : Within nbrs n a) {x : α} :
    x ∈ gather nbrs n a [] ↔ Relation.ReflTransGen (fun a b => b ∈ nbrs a) a x := by
  rw [mem_gather h fun y hy => absurd hy List.not_mem_nil]
  simp

end Depth
