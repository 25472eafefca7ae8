import Csp.MergeFacts

/-! Edits of two sides that leave a line between them: the merge applies both. The edits are cut
into chunks, each edited by one side, that alternate with lines which both sides keep; these
lines are the anchors. -/

namespace Csp
open Matching

/-- A run of base lines, from `start` on, and the lines that replace it. An insertion replaces
none. -/
structure Hunk where
  start : Nat
  len : Nat
  lines : List Bytes
  deriving DecidableEq

def Hunk.stop (h : Hunk) : Nat := h.start + h.len

def replaceRuns (b : List Bytes) (pos : Nat) : List Hunk → List Bytes
  | [] => b.drop pos
  | h :: hs => slice b pos h.start ++ h.lines ++ replaceRuns b h.stop hs

def InOrder (n pos : Nat) : List Hunk → Prop
  | [] => pos ≤ n
  | h :: hs => pos ≤ h.start ∧ InOrder n h.stop hs

instance (n pos : Nat) : (hs : List Hunk) → Decidable (InOrder n pos hs)
  | [] => inferInstanceAs (Decidable (pos ≤ n))
  | h :: hs =>
    have : Decidable (InOrder n h.stop hs) := instDecidableInOrder n h.stop hs
    inferInstanceAs (Decidable (pos ≤ h.start ∧ InOrder n h.stop hs))

def Apart (h k : Hunk) : Prop := h.stop < k.start ∨ k.stop < h.start

instance (h k : Hunk) : Decidable (Apart h k) := inferInstanceAs (Decidable (_ ∨ _))

theorem InOrder.le {n pos : Nat} {hs : List Hunk} (h : InOrder n pos hs) : pos ≤ n := by
  induction hs generalizing pos with
  | nil => exact h
  | cons k hs ih =>
    have := ih h.2
    have := h.1
    simp only [Hunk.stop] at *
    omega

theorem InOrder.mono {n pos pos' : Nat} {hs : List Hunk} (h : InOrder n pos hs) (hn : pos' ≤ n)
    (hpos : ∀ k hs', hs = k :: hs' → pos' ≤ k.start) : InOrder n pos' hs := by
  cases hs with
  | nil => exact hn
  | cons k hs => exact ⟨hpos k hs rfl, h.2⟩

/-! ### Chunks -/

/-- Lines of base, and what one of the sides puts in their place. -/
structure Chunk where
  side : Bool
  old : List Bytes
  new : List Bytes

def Chunk.view (side : Bool) (c : Chunk) : List Bytes := if c.side = side then c.new else c.old

/-- The lines of a first chunk, and of each kept line with the chunk after it. -/
def render (f : Chunk → List Bytes) (c : Chunk) (rest : List (Bytes × Chunk)) : List Bytes :=
  f c ++ rest.flatMap fun p => p.1 :: f p.2

theorem render_cons (f : Chunk → List Bytes) (c : Chunk) (p : Bytes × Chunk)
    (rest : List (Bytes × Chunk)) :
    render f c (p :: rest) = f c ++ p.1 :: render f p.2 rest := by
  rw [render, List.flatMap_cons, List.cons_append, render]

/-- The kept lines' positions, from those of the first chunk on. -/
def anchorsOf (c : Chunk) : List (Bytes × Chunk) → Nat → Nat → Nat → List (Nat × Nat × Nat)
  | [], _, _, _ => []
  | (_, c') :: rest, pb, po, pt =>
    let bi := pb + c.old.length
    let oi := po + (c.view true).length
    let ti := pt + (c.view false).length
    (bi, oi, ti) :: anchorsOf c' rest (bi + 1) (oi + 1) (ti + 1)

theorem slice_middle {α : Type*} (x y z : List α) :
    slice (x ++ (y ++ z)) x.length (x.length + y.length) = y := by
  rw [slice, ← List.append_assoc, ← List.length_append, List.take_left, List.drop_left]

theorem append_append_cons {α : Type*} (x y z : List α) (a : α) :
    x ++ (y ++ a :: z) = (x ++ y ++ [a]) ++ z := by
  simp only [List.append_assoc, List.singleton_append]

theorem length_append_concat {α : Type*} (x y : List α) (a : α) :
    (x ++ y ++ [a]).length = x.length + y.length + 1 := by
  rw [List.length_append, List.length_append, List.length_singleton]

theorem resolveChunk_view (c : Chunk) : resolveChunk c.old (c.view true) (c.view false) =
    c.new.flatten := by
  rcases hs : c.side with _ | _
  · rw [Chunk.view, Chunk.view, hs, if_neg (by decide), if_pos rfl, resolveChunk_ours]
  · rw [Chunk.view, Chunk.view, hs, if_pos rfl, if_neg (by decide), resolveChunk_theirs]

theorem diff3Aux_anchorsOf (c : Chunk) (rest : List (Bytes × Chunk)) (B O T : List Bytes) :
    diff3Aux (B ++ render Chunk.old c rest) (O ++ render (Chunk.view true) c rest)
    (T ++ render (Chunk.view false) c rest)
      B.length O.length T.length (anchorsOf c rest B.length O.length T.length) =
      (render Chunk.new c rest).flatten := by
  induction rest generalizing c B O T with
  | nil =>
    simp only [anchorsOf, diff3Aux, List.drop_left, render, List.flatMap_nil, List.append_nil,
      resolveChunk_view]
  | cons p rest ih =>
    obtain ⟨a, c'⟩ := p
    have hline : (B ++ (c.old ++ a :: render Chunk.old c' rest)).getD (B.length + c.old.length)
        [] = a := by
      rw [← List.append_assoc, ← List.length_append]
      simp [List.getD_eq_getElem?_getD]
    have hnext := ih c' (B ++ c.old ++ [a]) (O ++ c.view true ++ [a]) (T ++ c.view false ++ [a])
    rw [length_append_concat, length_append_concat, length_append_concat, ← append_append_cons,
      ← append_append_cons, ← append_append_cons] at hnext
    rw [anchorsOf]
    simp only [diff3Aux, render_cons]
    rw [hline, hnext, slice_middle, slice_middle, slice_middle, resolveChunk_view,
      List.flatten_append,
      List.flatten_cons, List.append_assoc]

/-! ### The kept lines are the anchors -/

section Kept
variable {c : Chunk} {rest : List (Bytes × Chunk)}

theorem Chunk.mem_view {side : Bool} {a : Bytes} (hnew : a ∉ c.new) (h : a ∈ c.view side) :
    c.side ≠ side ∧ a ∈ c.old := by
  rw [Chunk.view] at h
  split_ifs at h with hs
  · exact absurd h hnew
  · exact ⟨hs, h⟩

theorem mem_old_of_view {side : Bool} {a : Bytes} (hnew : ∀ x ∈ c :: rest.map Prod.snd, a ∉ x.new)
    (h : a ∈ render (Chunk.view side) c rest) : a ∈ render Chunk.old c rest := by
  induction rest generalizing c with
  | nil =>
    rw [render, List.flatMap_nil, List.append_nil] at h ⊢
    exact (Chunk.mem_view (hnew c List.mem_cons_self) h).2
  | cons p rest ih =>
    rw [List.map_cons, List.forall_mem_cons] at hnew
    rw [render_cons, List.mem_append, List.mem_cons] at h ⊢
    exact h.imp (fun h => (Chunk.mem_view hnew.1 h).2) (Or.imp_right (ih hnew.2))

theorem mem_keptLines {a : Bytes} (hb : (render Chunk.old c rest).Nodup)
    (hnew : ∀ x ∈ c :: rest.map Prod.snd, a ∉ x.new) (ho : a ∈ render (Chunk.view true) c rest)
    (ht : a ∈ render (Chunk.view false) c rest) :
    a ∈ rest.map Prod.fst := by
  induction rest generalizing c with
  | nil =>
    rw [render, List.flatMap_nil, List.append_nil] at ho ht
    have h1 := (Chunk.mem_view (hnew c List.mem_cons_self) ho).1
    have h2 := (Chunk.mem_view (hnew c List.mem_cons_self) ht).1
    rw [ne_eq, Bool.not_eq_true] at h1
    exact absurd h1 h2
  | cons p rest ih =>
    rw [List.map_cons, List.forall_mem_cons] at hnew
    rw [render_cons, List.nodup_append] at hb
    rw [render_cons, List.mem_append, List.mem_cons] at ho ht
    rw [List.map_cons, List.mem_cons]
    -- a line of this chunk's base is none of the rest's
    have hdisjoint : a ∈ c.old → a ∉ render Chunk.old p.2 rest := fun h h' =>
      hb.2.2 a h a (List.mem_cons_of_mem _ h') rfl
    rcases ho with ho | ho | ho
    · have ho := Chunk.mem_view hnew.1 ho
      rcases ht with ht | ht | ht
      · have ht := Chunk.mem_view hnew.1 ht
        rw [ne_eq, Bool.not_eq_true] at ho
        exact absurd ho.1 ht.1
      · exact .inl ht
      · exact absurd (mem_old_of_view hnew.2 ht) (hdisjoint ho.2)
    · exact .inl ho
    · rcases ht with ht | ht | ht
      · exact absurd (mem_old_of_view hnew.2 ho) (hdisjoint (Chunk.mem_view hnew.1 ht).2)
      · exact .inl ht
      · exact .inr (ih (List.nodup_cons.mp hb.2.1).2 hnew.2 ho ht)

theorem filter_view_sublist {b : List Bytes} (hnew : ∀ x ∈ c :: rest.map Prod.snd, ∀ l ∈ x.new,
      l ∉ b) (side : Bool) :
    ((render (Chunk.view side) c rest).filter (· ∈ b)).Sublist (render Chunk.old c rest) := by
  have key : ∀ c : Chunk, (∀ l ∈ c.new, l ∉ b) → ((c.view side).filter (· ∈ b)).Sublist c.old := by
    intro c hc
    rw [Chunk.view]
    split_ifs
    · rw [List.filter_eq_nil_iff.mpr fun l hl => by simpa using hc l hl]
      exact List.nil_sublist _
    · exact List.filter_sublist
  induction rest generalizing c with
  | nil =>
    rw [render, render, List.flatMap_nil, List.append_nil, List.flatMap_nil, List.append_nil]
    exact key c (hnew c List.mem_cons_self)
  | cons p rest ih =>
    rw [List.map_cons, List.forall_mem_cons] at hnew
    rw [render_cons, render_cons, List.filter_append]
    refine (key c hnew.1).append ?_
    rw [List.filter_cons]
    split_ifs
    · exact (ih hnew.2).cons_cons p.1
    · exact (ih hnew.2).cons p.1

theorem forall₂_anchorsOf (c : Chunk) (rest : List (Bytes × Chunk)) (B O T : List Bytes) :
    List.Forall₂ (fun x p => (B ++ render Chunk.old c rest)[x.1]? = some p.1 ∧
        (O ++ render (Chunk.view true) c rest)[x.2.1]? = some p.1 ∧
        (T ++ render (Chunk.view false) c rest)[x.2.2]? = some p.1)
      (anchorsOf c rest B.length O.length T.length) rest := by
  induction rest generalizing c B O T with
  | nil => exact .nil
  | cons p rest ih =>
    obtain ⟨a, c'⟩ := p
    have hline : ∀ (x y z : List Bytes), (x ++ (y ++ a :: z))[x.length + y.length]? = some a := by
      intro x y z
      rw [← List.append_assoc, ← List.length_append]
      simp
    have hnext := ih c' (B ++ c.old ++ [a]) (O ++ c.view true ++ [a]) (T ++ c.view false ++ [a])
    rw [length_append_concat, length_append_concat, length_append_concat] at hnext
    simp only [← append_append_cons] at hnext
    simp only [anchorsOf, render_cons]
    exact .cons ⟨hline _ _ _, hline _ _ _, hline _ _ _⟩ hnext

theorem pairwise_anchorsOf (c : Chunk) (rest : List (Bytes × Chunk)) (pb po pt : Nat) :
    (anchorsOf c rest pb po pt).Pairwise (fun p q => p.1 < q.1) ∧ ∀ x ∈ anchorsOf c rest pb po pt,
    pb ≤ x.1 := by
  induction rest generalizing c pb po pt with
  | nil => exact ⟨.nil, by simp [anchorsOf]⟩
  | cons p rest ih =>
    obtain ⟨a, c'⟩ := p
    simp only [anchorsOf]
    obtain ⟨hpair, hle⟩ := ih c' (pb + c.old.length + 1) (po + (c.view true).length + 1)
      (pt + (c.view false).length + 1)
    refine ⟨List.pairwise_cons.mpr ⟨fun x hx => ?_, hpair⟩, List.forall_mem_cons.mpr
      ⟨Nat.le_add_right _ _, fun x hx => ?_⟩⟩
    · have := hle x hx
      simp only
      omega
    · have := hle x hx
      omega

end Kept

theorem eq_of_ascending {as as' : List (Nat × Nat × Nat)} (h : as.Pairwise fun p q => p.1 < q.1)
    (h' : as'.Pairwise fun p q => p.1 < q.1) (hmem : ∀ x, x ∈ as ↔ x ∈ as') : as = as' := by
  have hnodup : ∀ l : List (Nat × Nat × Nat), l.Pairwise (fun p q => p.1 < q.1) →
      l.Nodup := fun l hl =>
    hl.imp fun {p q} hlt (he : p = q) => absurd hlt (he ▸ Nat.lt_irrefl _)
  have hperm := (List.perm_ext_iff_of_nodup (hnodup _ h) (hnodup _ h')).mpr hmem
  exact List.Perm.eq_of_pairwise (fun a b _ _ hab hba => absurd hab (Nat.lt_asymm hba)) h h' hperm

section Script
variable [Crates] {b o t : List Bytes} {c : Chunk} {rest : List (Bytes × Chunk)}

/-- Under longest matchings the anchors are the lines that both sides keep. -/
theorem anchors_script (hb : b = render Chunk.old c rest) (ho : o = render (Chunk.view true) c rest)
    (ht : t = render (Chunk.view false) c rest) (hnodup : b.Nodup)
    (hnew : ∀ x ∈ c :: rest.map Prod.snd, ∀ l ∈ x.new, l ∉ b) (lo : Longest b o (equalPairs b o))
    (lt : Longest b t (equalPairs b t)) : anchors b o t = anchorsOf c rest 0 0 0 := by
  have hsub : ∀ side, ((render (Chunk.view side) c rest).filter (· ∈ b)).Sublist b := fun side =>
    hb ▸ filter_view_sublist (hb ▸ hnew) side
  have hso := ho ▸ hsub true
  have hst := ht ▸ hsub false
  have hkept := forall₂_anchorsOf c rest [] [] []
  simp only [List.nil_append, ← hb, ← ho, ← ht, List.length_nil] at hkept
  refine eq_of_ascending (pairwise_anchors b o t)
    (pairwise_anchorsOf c rest 0 0 0).1 fun ⟨i, j, k⟩ => ?_
  rw [mem_anchors lo.1 lt.1, lo.mem_iff hnodup hso, lt.mem_iff hnodup hst]
  constructor
  · rintro ⟨⟨a, hi, hj⟩, a', hi', hk⟩
    obtain rfl := Option.some.inj (hi.symm.trans hi')
    have ha : a ∈ b := List.mem_of_getElem? hi
    have hmem := mem_keptLines (hb ▸ hnodup) (fun x hx h => hnew x hx a h ha)
      (ho ▸ List.mem_of_getElem? hj)
      (ht ▸ List.mem_of_getElem? hk)
    obtain ⟨p, hp, rfl⟩ := List.mem_map.mp hmem
    -- the kept line has a position among these anchors, and on each side it has but one
    obtain ⟨n, hn, hpn⟩ := List.mem_iff_getElem.mp hp
    have hn' : n < (anchorsOf c rest 0 0 0).length := hkept.length_eq ▸ hn
    have hget := hkept.get hn' hn
    simp only [List.get_eq_getElem, hpn] at hget
    obtain ⟨hxb, hxo, hxt⟩ := hget
    have hx : (anchorsOf c rest 0 0 0)[n] = (i, j, k) := by
      refine Prod.ext ?_ (Prod.ext ?_ ?_)
      · exact getElem?_inj_of_nodup hnodup hxb hi
      · exact getElem?_inj_of_nodup_filter (hnodup.sublist hso) ha hxo hj
      · exact getElem?_inj_of_nodup_filter (hnodup.sublist hst) ha hxt hk
    exact hx ▸ List.getElem_mem hn'
  · intro hx
    obtain ⟨n, hn, hxn⟩ := List.mem_iff_getElem.mp hx
    have hn' : n < rest.length := hkept.length_eq ▸ hn
    obtain ⟨hxb, hxo, hxt⟩ := hkept.get hn hn'
    simp only [List.get_eq_getElem, hxn] at hxb hxo hxt
    exact ⟨⟨_, hxb, hxo⟩, _, hxb, hxt⟩

end Script

/-! ### From hunks to chunks -/

theorem Apart.symm {h k : Hunk} (hk : Apart h k) : Apart k h := Or.symm hk

theorem replaceRuns_skip {b : List Bytes} {n pos pos' : Nat} {hs : List Hunk}
    (h : InOrder n pos' hs) (hpos : pos ≤ pos') (hn : n = b.length) :
    replaceRuns b pos hs = slice b pos pos' ++ replaceRuns b pos' hs := by
  have hslice : ∀ j, pos' ≤ j → slice b pos j = slice b pos pos' ++ slice b pos' j := by
    intro j hj
    rw [slice, slice, slice, show b.take pos' =
      (b.take j).take pos' by rw [List.take_take, Nat.min_eq_left hj]]
    have h2 : (b.take j).drop pos' = ((b.take j).drop pos).drop (pos' - pos) := by
      rw [List.drop_drop, Nat.add_sub_cancel' hpos]
    rw [h2, List.drop_take (l := b.take j), List.take_append_drop]
  cases hs with
  | nil =>
    have hend : ∀ i, b.drop i = slice b i b.length := fun i => by rw [slice, List.take_length]
    rw [replaceRuns, replaceRuns, hend pos, hend pos']
    exact hslice b.length (hn ▸ h)
  | cons k hs => rw [replaceRuns, replaceRuns, hslice k.start h.1, List.append_assoc,
    List.append_assoc, List.append_assoc]

/-- The lines from `pos` on in chunks, with both sides' hunks in one list. -/
structure Scripted (b : List Bytes) (pos : Nat) (H : Bool → List Hunk) (c : Chunk)
    (rest : List (Bytes × Chunk)) (hs : List Hunk) : Prop where
  base : b.drop pos = render Chunk.old c rest
  sides : ∀ side, replaceRuns b pos (H side) = render (Chunk.view side) c rest
  both : replaceRuns b pos hs = render Chunk.new c rest
  perm : hs.Perm (H true ++ H false)
  inOrder : InOrder b.length pos hs
  fresh : ∀ x ∈ c :: rest.map Prod.snd, ∀ l ∈ x.new, ∃ side, ∃ h ∈ H side, l ∈ h.lines
  first : (c.old = [] ∧ c.new = []) ∨ ∃ h hs', H c.side = h :: hs' ∧ h.start = pos

section Scripted
variable {b : List Bytes} {pos : Nat} {H : Bool → List Hunk} {c : Chunk}
    {rest : List (Bytes × Chunk)} {hs : List Hunk}

theorem render_nil_cons (f : Chunk → List Bytes) {e : Chunk} (he : f e = []) (a : Bytes) (c : Chunk)
    (rest : List (Bytes × Chunk)) : render f e ((a, c) :: rest) = [a] ++ render f c rest := by
  rw [render_cons, he]
  rfl

theorem Scripted.keep (h : Scripted b (pos + 1) H c rest hs) {a : Bytes} (ha : b[pos]? = some a)
    (hin : ∀ side, InOrder b.length (pos + 1) (H side)) :
    Scripted b pos H ⟨true, [], []⟩ ((a, c) :: rest) hs := by
  obtain ⟨hlt, hget⟩ := List.getElem?_eq_some_iff.mp ha
  have hdrop : b.drop pos = [a] ++ b.drop (pos + 1) := by
    rw [List.drop_eq_getElem_cons hlt, hget, List.singleton_append]
  have hone : slice b pos (pos + 1) = [a] := by
    rw [slice, List.drop_take, Nat.add_sub_cancel_left, hdrop]
    rfl
  have hskip : ∀ ks, InOrder b.length (pos + 1) ks → replaceRuns b pos ks = [a] ++ replaceRuns b
      (pos + 1) ks :=
    fun ks hks => hone ▸ replaceRuns_skip hks (Nat.le_succ pos) rfl
  have hview : ∀ side, Chunk.view side ⟨true, [], []⟩ = [] := fun side => ite_self _
  refine ⟨?_, fun side => ?_, ?_, h.perm, ?_, ?_, .inl ⟨rfl, rfl⟩⟩
  · rw [hdrop, h.base, render_nil_cons _ rfl]
  · rw [hskip _ (hin side), h.sides side, render_nil_cons _ (hview side)]
  · rw [hskip _ h.inOrder, h.both, render_nil_cons _ rfl]
  · exact h.inOrder.mono (Nat.le_of_lt hlt) fun k hs' he => Nat.le_of_succ_le ((he ▸ h.inOrder).1)
  · rw [List.map_cons, List.forall_mem_cons]
    exact ⟨fun l hl => (List.not_mem_nil hl).elim, h.fresh⟩

theorem perm_update {side : Bool} {h : Hunk} {hs' : List Hunk} (hH : H side = h :: hs')
    (hp : hs.Perm (Function.update H side hs' true ++ Function.update H side hs' false)) :
    (h :: hs).Perm (H true ++ H false) := by
  cases side with
  | true =>
    rw [Function.update_self, Function.update_of_ne (by decide)] at hp
    rw [hH]
    exact hp.cons h
  | false =>
    rw [Function.update_self, Function.update_of_ne (by decide)] at hp
    rw [hH]
    exact (hp.cons h).trans List.perm_middle.symm

theorem Scripted.edit {side : Bool} {h : Hunk} {hs' : List Hunk} (hH : H side = h :: hs')
    (hstart : h.start = pos) (hsc : Scripted b h.stop (Function.update H side hs') c rest hs)
    (hother : InOrder b.length h.stop (H !side)) (hc : (c.old = [] ∧ c.new = []) ∨ c.side = side) :
    Scripted b pos H ⟨side, slice b pos h.stop ++ c.old, h.lines ++ c.new⟩ rest (h :: hs) := by
  have hle : pos ≤ h.stop := hstart ▸ Nat.le_add_right _ _
  have hself : c.view side = c.new := by
    rcases hc with ⟨ho, hn⟩ | hc
    · rw [Chunk.view, ho, hn, ite_self]
    · exact if_pos hc
  have hopp : c.view (!side) = c.old := by
    rcases hc with ⟨ho, hn⟩ | hc
    · rw [Chunk.view, ho, hn, ite_self]
    · exact if_neg (by rw [hc]; cases side <;> decide)
  have hne : ∀ s : Bool, s ≠ side → s = !side := fun s hs => by cases s <;> cases side <;> simp_all
  have hcat : ∀ (f : Chunk → List Bytes) (x : Chunk) (l : List Bytes), f x = l ++ f c →
      render f x rest = l ++ render f c rest := by
    intro f x l hf
    rw [render, render, hf, List.append_assoc]
  have hrun : ∀ ks, replaceRuns b pos (h :: ks) = h.lines ++ replaceRuns b h.stop ks := by
    intro ks
    rw [replaceRuns, hstart, slice, List.drop_eq_nil_of_le (List.length_take_le _ _),
      List.nil_append]
  refine ⟨?_, fun s => ?_, ?_, perm_update hH hsc.perm, ?_, ?_, .inr ⟨h, hs', hH, hstart⟩⟩
  · rw [hcat Chunk.old _ (slice b pos h.stop) rfl, ← hsc.base]
    have hnone : InOrder b.length h.stop [] := hsc.inOrder.le
    exact replaceRuns_skip hnone hle rfl
  · by_cases hs : s = side
    · subst hs
      rw [hcat (Chunk.view s) _ h.lines (by rw [hself]; exact if_pos rfl), hH, hrun, ← hsc.sides s,
        Function.update_self]
    · obtain rfl := hne s hs
      rw [hcat (Chunk.view !side) _ (slice b pos h.stop) (by rw [hopp]; exact if_neg (Ne.symm hs)),
        ← hsc.sides,
        Function.update_of_ne hs]
      exact replaceRuns_skip hother hle rfl
  · rw [hcat Chunk.new _ h.lines rfl, hrun, hsc.both]
  · exact ⟨hstart.ge, hsc.inOrder⟩
  · have hupdate : ∀ s, Function.update H side hs' s ⊆ H s := by
      intro s k hk
      by_cases hs : s = side
      · subst hs
        rw [Function.update_self] at hk
        exact hH ▸ List.mem_cons_of_mem _ hk
      · rwa [Function.update_of_ne hs] at hk
    have hfresh : ∀ x ∈ c :: rest.map Prod.snd, ∀ l ∈ x.new, ∃ s, ∃ k ∈ H s, l ∈ k.lines := by
      intro x hx l hl
      obtain ⟨s, k, hk, hl⟩ := hsc.fresh x hx l hl
      exact ⟨s, k, hupdate s hk, hl⟩
    rw [List.forall_mem_cons] at hfresh ⊢
    refine ⟨fun l hl => ?_, hfresh.2⟩
    rcases List.mem_append.mp hl with hl | hl
    · exact ⟨side, h, hH ▸ List.mem_cons_self, hl⟩
    · exact hfresh.1 l hl

/-- Hunks of two sides, each in order and apart from the other side's, are chunks. -/
theorem exists_scripted (b : List Bytes) (n pos : Nat) (H : Bool → List Hunk)
    (hn : b.length - pos + ((H true).length + (H false).length) = n)
    (hin : ∀ side, InOrder b.length pos (H side)) (hap : ∀ side, ∀ h ∈ H side, ∀ k ∈ H !side,
      Apart h k) : ∃ c rest hs, Scripted b pos H c rest hs := by
  induction n using Nat.strong_induction_on generalizing pos H with
  | _ n ih =>
    have hpos : pos ≤ b.length := (hin true).le
    by_cases hedit : ∃ side h hs', H side = h :: hs' ∧ h.start = pos
    · obtain ⟨side, h, hs', hH, hstart⟩ := hedit
      have hstop : InOrder b.length h.stop hs' := (hH ▸ hin side).2
      have hne : (!side) ≠ side := by cases side <;> decide
      -- the other side's next run starts after a line behind this one
      have hafter : ∀ k ks, (H !side) = k :: ks → h.stop < k.start := by
        intro k ks hk
        have hk0 : pos ≤ k.start := (hk ▸ hin !side).1
        rcases hap side h (hH ▸ List.mem_cons_self) k (hk ▸ List.mem_cons_self) with hlt | hlt
        · exact hlt
        · simp only [Hunk.stop] at hlt
          omega
      have hother : InOrder b.length h.stop (H !side) :=
        (hin !side).mono hstop.le fun k ks hk => (hafter k ks hk).le
      have hlen : (Function.update H side hs' true).length +
          (Function.update H side hs' false).length + 1 =
          (H true).length + (H false).length := by
        cases side with
        | true =>
          rw [Function.update_self, Function.update_of_ne (by decide), hH, List.length_cons]
          omega
        | false =>
          rw [Function.update_self, Function.update_of_ne (by decide), hH, List.length_cons]
          omega
      have hsub : ∀ s, Function.update H side hs' s ⊆ H s := by
        intro s k hk
        by_cases hs : s = side
        · subst hs
          rw [Function.update_self] at hk
          exact hH ▸ List.mem_cons_of_mem _ hk
        · rwa [Function.update_of_ne hs] at hk
      obtain ⟨c, rest, hs, hsc⟩ := ih (b.length - h.stop +
          ((Function.update H side hs' true).length + (Function.update H side hs' false).length))
        (by simp only [Hunk.stop, hstart] at *; omega) h.stop (Function.update H side hs') rfl
        (fun s => by
          by_cases hs : s = side
          · subst hs
            rwa [Function.update_self]
          · rw [Function.update_of_ne hs]
            rwa [show s = !side by cases s <;> cases side <;> simp_all])
        (fun s k hk k' hk' => hap s k (hsub s hk) k' (hsub (!s) hk'))
      refine ⟨_, _, _, hsc.edit hH hstart hother ?_⟩
      refine hsc.first.imp_right fun ⟨k, ks, hk, hks⟩ => ?_
      by_contra hs
      rw [Function.update_of_ne hs, show c.side =
        !side by cases hc : c.side <;> cases side <;> simp_all] at hk
      exact absurd (hafter k ks hk) (by omega)
    · have hhead : ∀ side k ks, H side = k :: ks → pos < k.start := by
        intro side k ks hk
        have hle : pos ≤ k.start := (hk ▸ hin side).1
        exact lt_of_le_of_ne hle fun he => hedit ⟨side, k, ks, hk, he.symm⟩
      by_cases hlt : pos < b.length
      · have hin' : ∀ side, InOrder b.length (pos + 1) (H side) := fun side =>
          (hin side).mono hlt fun k ks hk => hhead side k ks hk
        obtain ⟨c, rest, hs, hsc⟩ :=
          ih (b.length - (pos + 1) + ((H true).length + (H false).length)) (by omega)
          (pos + 1) H rfl hin' hap
        exact ⟨_, _, _, hsc.keep (List.getElem?_eq_getElem hlt) hin'⟩
      · have hempty : ∀ side, H side = [] := by
          intro side
          cases hH : H side with
          | nil => rfl
          | cons k ks =>
            have h1 := hhead side k ks hH
            have h2 : InOrder b.length k.stop ks := (hH ▸ hin side).2
            have h3 := h2.le
            simp only [Hunk.stop] at h3
            omega
        have hdrop : b.drop pos = [] := List.drop_eq_nil_of_le (by omega)
        refine ⟨⟨true, [], []⟩, [], [], ⟨?_, fun side => ?_, ?_, ?_, hpos, ?_, .inl ⟨rfl, rfl⟩⟩⟩
        · rw [hdrop]
          rfl
        · rw [hempty side, replaceRuns, hdrop, render, List.flatMap_nil, List.append_nil]
          exact (ite_self _).symm
        · rw [replaceRuns, hdrop]
          rfl
        · rw [hempty, hempty]
          exact .nil
        · intro x hx l hl
          rw [List.mem_singleton.mp hx] at hl
          cases hl

end Scripted

/-- Edits of two sides with a line between any two of their runs both survive, under a line diff
that returns longest matchings. -/
theorem disjoint_hunks_survive [Crates] {base ours theirs : Bytes} {ho ht : List Hunk}
    (hnodup : (splitLines base).Nodup) (hino : InOrder (splitLines base).length 0 ho)
    (hint : InOrder (splitLines base).length 0 ht) (hap : ∀ h ∈ ho, ∀ k ∈ ht, Apart h k)
    (hfresh : ∀ h ∈ ho ++ ht, ∀ l ∈ h.lines, l ∉ splitLines base)
    (hours : splitLines ours = replaceRuns (splitLines base) 0 ho)
    (htheirs : splitLines theirs = replaceRuns (splitLines base) 0 ht)
    (lo : Longest (splitLines base) (splitLines ours)
      (equalPairs (splitLines base) (splitLines ours)))
    (lt : Longest (splitLines base) (splitLines theirs)
      (equalPairs (splitLines base) (splitLines theirs))) :
    ∃ hs : List Hunk, hs.Perm (ho ++ ht) ∧ InOrder (splitLines base).length 0 hs ∧
      diff3 base ours theirs = (replaceRuns (splitLines base) 0 hs).flatten := by
  obtain ⟨c, rest, hs, hsc⟩ := exists_scripted (splitLines base) _ 0
    (fun side => if side then ho else ht) rfl
    (fun side => by cases side <;> assumption)
    (fun side h hh k hk => by
      cases side with
      | true => exact hap h hh k hk
      | false => exact (hap k hk h hh).symm)
  have hbase : splitLines base = render Chunk.old c rest := by rw [← hsc.base, List.drop_zero]
  have hnew : ∀ x ∈ c :: rest.map Prod.snd, ∀ l ∈ x.new, l ∉ splitLines base := by
    intro x hx l hl
    obtain ⟨side, h, hh, hl⟩ := hsc.fresh x hx l hl
    cases side with
    | true => exact hfresh h (List.mem_append_left _ hh) l hl
    | false => exact hfresh h (List.mem_append_right _ hh) l hl
  have hanchors := anchors_script hbase (hours.trans (hsc.sides true))
    (htheirs.trans (hsc.sides false)) hnodup hnew lo lt
  refine ⟨hs, hsc.perm, hsc.inOrder, ?_⟩
  have hmerge := diff3Aux_anchorsOf c rest [] [] []
  simp only [List.nil_append, List.length_nil] at hmerge
  rw [diff3, hanchors, hours.trans (hsc.sides true), htheirs.trans (hsc.sides false),
    hsc.both, hbase]
  exact hmerge

namespace Small

def threeLines : Bytes := utf8 "a\nb\nc\n".toList
def firstReplaced : Bytes := utf8 "x\nb\nc\n".toList
def lastAdded : Bytes := utf8 "a\nb\nc\ny\n".toList

theorem longest_firstReplaced :
    Longest (splitLines threeLines) (splitLines firstReplaced)
      (equalPairs (splitLines threeLines) (splitLines firstReplaced)) := by
  refine ⟨by decide, fun qs hqs => ?_⟩
  have hle := hqs.length_le (s := splitLines (utf8 "b\nc\n".toList)) (by decide) (by decide)
  exact hle.trans (by decide)

theorem longest_lastAdded :
    Longest (splitLines threeLines) (splitLines lastAdded)
      (equalPairs (splitLines threeLines) (splitLines lastAdded)) := by
  refine ⟨by decide, fun qs hqs => ?_⟩
  have hle := hqs.length_le (s := splitLines threeLines) (by decide) (by decide)
  exact hle.trans (by decide)

theorem disjoint_hunks_survive_three :
    ∃ hs : List Hunk, hs.Perm ([⟨0, 1, [utf8 "x\n".toList]⟩] ++ [⟨3, 0, [utf8 "y\n".toList]⟩]) ∧
      InOrder (splitLines threeLines).length 0 hs ∧
      diff3 threeLines firstReplaced lastAdded =
      (replaceRuns (splitLines threeLines) 0 hs).flatten :=
  disjoint_hunks_survive (by decide) (by decide) (by decide) (by decide)
    (by decide) (by decide) (by decide) longest_firstReplaced longest_lastAdded

end Small

end Csp
