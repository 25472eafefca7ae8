import Mathlib.Data.List.NodupEquivFin
import Mathlib.Data.List.Perm.Subperm
import Mathlib.Tactic.Common

/-! Matchings of two lists: pairs of positions of equal elements that ascend in both. Where no
element of the first occurs twice, a longest matching is unique: it pairs every two positions
that hold one element. -/

namespace Matching
variable {α : Type*}

structure Matches (b x : List α) (ps : List (Nat × Nat)) : Prop where
  ascending : ps.Pairwise fun p q => p.1 < q.1 ∧ p.2 < q.2
  equal : ∀ p ∈ ps, ∃ a, b[p.1]? = some a ∧ x[p.2]? = some a

/-- A matching that no matching is longer than. -/
def Longest (b x : List α) (ps : List (Nat × Nat)) : Prop :=
  Matches b x ps ∧ ∀ qs, Matches b x qs → qs.length ≤ ps.length

instance [DecidableEq α] (b x : List α) (ps : List (Nat × Nat)) : Decidable (Matches b x ps) :=
  decidable_of_iff ((ps.Pairwise fun p q => p.1 < q.1 ∧ p.2 < q.2) ∧ ∀ p ∈ ps, (b[p.1]?).isSome ∧
      b[p.1]? = x[p.2]?)
    ⟨fun ⟨h, he⟩ => ⟨h, fun p hp => (Option.isSome_iff_exists.mp (he p hp).1).imp fun _ ha =>
    ⟨ha, (he p hp).2 ▸ ha⟩⟩,
      fun ⟨h, he⟩ => ⟨h, fun p hp => (he p hp).elim fun _ ha => ⟨ha.1 ▸ rfl, ha.1.trans ha.2.symm⟩⟩⟩

namespace Matches
variable {b x : List α} {ps : List (Nat × Nat)}

theorem lt_or_eq_or_gt (h : Matches b x ps) {p q : Nat × Nat} (hp : p ∈ ps) (hq : q ∈ ps) :
    (p.1 < q.1 ∧ p.2 < q.2) ∨ p = q ∨ (q.1 < p.1 ∧ q.2 < p.2) := by
  have key : ∀ l : List (Nat × Nat), l.Pairwise (fun p q => p.1 < q.1 ∧ p.2 < q.2) → p ∈ l → q ∈ l →
      (p.1 < q.1 ∧ p.2 < q.2) ∨ p = q ∨ (q.1 < p.1 ∧ q.2 < p.2) := by
    intro l hl
    induction l with
    | nil => intro hp; cases hp
    | cons a l ih =>
      rw [List.pairwise_cons] at hl
      intro hp hq
      rcases List.mem_cons.mp hp with hpa | hp
      · rcases List.mem_cons.mp hq with hqa | hq
        · exact .inr (.inl (hpa.trans hqa.symm))
        · exact .inl (hpa ▸ hl.1 q hq)
      · rcases List.mem_cons.mp hq with hqa | hq
        · exact .inr (.inr (hqa ▸ hl.1 p hp))
        · exact ih hl.2 hp hq
  exact key ps h.ascending hp hq

theorem snd_lt (h : Matches b x ps) {p q : Nat × Nat} (hp : p ∈ ps) (hq : q ∈ ps)
    (hlt : p.1 < q.1) : p.2 < q.2 := by
  rcases h.lt_or_eq_or_gt hp hq with hl | rfl | hl
  · exact hl.2
  · exact absurd hlt (Nat.lt_irrefl _)
  · exact absurd hlt (Nat.lt_asymm hl.1)

theorem snd_eq (h : Matches b x ps) {i j j' : Nat} (hp : (i, j) ∈ ps) (hq : (i, j') ∈ ps) :
    j = j' := by
  rcases h.lt_or_eq_or_gt hp hq with hl | he | hl
  · exact absurd hl.1 (Nat.lt_irrefl _)
  · exact (Prod.mk.inj he).2
  · exact absurd hl.1 (Nat.lt_irrefl _)

end Matches

theorem exists_of_sublist {b x s : List α} (hb : s.Sublist b) (hx : s.Sublist x) :
    ∃ ps, Matches b x ps ∧ ps.length = s.length := by
  obtain ⟨f, hf⟩ := List.sublist_iff_exists_orderEmbedding_getElem?_eq.mp hb
  obtain ⟨g, hg⟩ := List.sublist_iff_exists_orderEmbedding_getElem?_eq.mp hx
  refine ⟨(List.range s.length).map fun k => (f k, g k), ⟨?_, ?_⟩, ?_⟩
  · rw [List.pairwise_map]
    exact List.pairwise_lt_range.imp fun hlt => ⟨f.lt_iff_lt.mpr hlt, g.lt_iff_lt.mpr hlt⟩
  · intro p hp
    obtain ⟨k, hk, rfl⟩ := List.mem_map.mp hp
    rw [List.mem_range] at hk
    exact ⟨s[k], by rw [← hf, List.getElem?_eq_getElem hk], by rw [← hg, List.getElem?_eq_getElem hk]⟩
  · rw [List.length_map, List.length_range]

section Unique
variable {b x : List α} {ps : List (Nat × Nat)}

def elements (b : List α) (ps : List (Nat × Nat)) : List α := ps.filterMap fun p => b[p.1]?

theorem Matches.length_elements (h : Matches b x ps) : (elements b ps).length = ps.length := by
  rw [elements, List.filterMap_length_eq_length]
  intro p hp
  obtain ⟨a, ha, -⟩ := h.equal p hp
  rw [ha]
  rfl

theorem getElem?_inj_of_nodup (hb : b.Nodup) {i j : Nat} {a : α} (hi : b[i]? = some a)
    (hj : b[j]? = some a) : i = j := by
  obtain ⟨hi', hi⟩ := List.getElem?_eq_some_iff.mp hi
  obtain ⟨hj', hj⟩ := List.getElem?_eq_some_iff.mp hj
  exact (hb.getElem_inj_iff).mp (hi.trans hj.symm)

theorem Matches.nodup_elements (h : Matches b x ps) (hb : b.Nodup) : (elements b ps).Nodup := by
  rw [elements, List.Nodup, List.pairwise_filterMap]
  refine h.ascending.imp fun hlt a ha a' ha' he => ?_
  subst he
  exact absurd hlt.1 (getElem?_inj_of_nodup hb ha ha' ▸ Nat.lt_irrefl _)

theorem Matches.mem_elements (h : Matches b x ps) {a : α} (ha : a ∈ elements b ps) :
    a ∈ b ∧ a ∈ x := by
  obtain ⟨p, hp, hpa⟩ := List.mem_filterMap.mp ha
  obtain ⟨a', hb, hx⟩ := h.equal p hp
  obtain rfl := Option.some.inj (hpa.symm.trans hb)
  exact ⟨List.mem_of_getElem? hb, List.mem_of_getElem? hx⟩

theorem Matches.length_le (h : Matches b x ps) (hb : b.Nodup) {s : List α}
    (hs : ∀ a ∈ b, a ∈ x → a ∈ s) :
    ps.length ≤ s.length := by
  rw [← h.length_elements]
  exact ((h.nodup_elements hb).subperm fun a ha => hs a (h.mem_elements ha).1
      (h.mem_elements ha).2).length_le

theorem getElem?_inj_of_nodup_filter [DecidablePred fun a => a ∈ b] (hx : (x.filter (· ∈ b)).Nodup)
    {a : α} (ha : a ∈ b) {i j : Nat} (hi : x[i]? = some a) (hj : x[j]? = some a) : i = j := by
  by_contra hne
  obtain ⟨hi', hi⟩ := List.getElem?_eq_some_iff.mp hi
  obtain ⟨hj', hj⟩ := List.getElem?_eq_some_iff.mp hj
  have hdup : List.Duplicate a x := by
    rw [List.duplicate_iff_exists_distinct_get]
    rcases Nat.lt_or_gt_of_ne hne with hlt | hlt
    · exact ⟨⟨i, hi'⟩, ⟨j, hj'⟩, hlt, hi.symm, hj.symm⟩
    · exact ⟨⟨j, hj'⟩, ⟨i, hi'⟩, hlt, hj.symm, hi.symm⟩
  have hsub := (List.duplicate_iff_sublist.mp hdup).filter (· ∈ b)
  rw [List.filter_cons_of_pos (by simpa using ha), List.filter_cons_of_pos
    (by simpa using ha)] at hsub
  exact List.nodup_iff_sublist.mp hx a hsub

/-- A longest matching pairs every two positions of one element, where the common elements come
in the order of the first list. -/
theorem Longest.mem_iff [DecidablePred fun a => a ∈ b] (h : Longest b x ps) (hb : b.Nodup)
    (hsub : (x.filter (· ∈ b)).Sublist b) {i j : Nat} : (i, j) ∈ ps ↔ ∃ a, b[i]? = some a ∧
    x[j]? = some a := by
  constructor
  · exact fun hp => h.1.equal _ hp
  · rintro ⟨a, hi, hj⟩
    have ha : a ∈ b := List.mem_of_getElem? hi
    have hcommon : ∀ {a}, a ∈ b → a ∈ x → a ∈ x.filter (· ∈ b) := fun ha hx =>
      List.mem_filter.mpr ⟨hx, decide_eq_true ha⟩
    obtain ⟨qs, hqs, hlen⟩ := exists_of_sublist hsub List.filter_sublist
    have hincl : elements b ps ⊆ x.filter (· ∈ b) := fun a ha =>
      hcommon (h.1.mem_elements ha).1 (h.1.mem_elements ha).2
    -- as many as there are common elements, so all of them
    have hperm := ((h.1.nodup_elements hb).subperm hincl).perm_of_length_le (by
      rw [h.1.length_elements, ← hlen]
      exact h.2 qs hqs)
    obtain ⟨p, hp, hpa⟩ :=
      List.mem_filterMap.mp (hperm.mem_iff.mpr (hcommon ha (List.mem_of_getElem? hj)))
    obtain ⟨a', hb', hx'⟩ := h.1.equal p hp
    obtain rfl := Option.some.inj (hpa.symm.trans hb')
    rw [getElem?_inj_of_nodup hb hi hb', getElem?_inj_of_nodup_filter (hb.sublist hsub) ha hj hx']
    exact hp

end Unique

end Matching
