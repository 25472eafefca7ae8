import Csp.Closure

/-! The frontier on complete closures: a function of the set of known primitives and of
their history, whichever store holds it and in whatever order they are known. -/

namespace Csp
open Result
variable {Oid : Type} [ObjectId Oid] [Crates] {s s' : Store Oid} {R : Oid → Prop}
  {Q : List (TreeEntry Oid) → Prop}

theorem isGhost_ok {o : Oid} {b : Bool} (h : isGhostAddClosureOnlyUncached s o = .ok b) :
    isGhostAddClosureOnly s o = .ok b := by
  rw [isGhostAddClosureOnly, h]

theorem isGhost_eq {o : Oid} (h : CommitIn s o) :
    ∃ c, loadCommit s o = .ok c ∧
      ((isPrimitive c = true ∧ ∃ p parent added, c.parents = [p] ∧ loadCommit s p = .ok parent ∧
          treePathsAdded s (s.size + 1) [] (some parent.tree) c.tree = .ok added ∧
          isGhostAddClosureOnlyUncached s o =
            .ok (added.any (ghostAt s p (parsePrimitiveReadds c)))) ∨
        (¬ (isPrimitive c = true ∧ ∃ p, c.parents = [p]) ∧
          isGhostAddClosureOnlyUncached s o = .ok false)) := by
  obtain ⟨c, hc, ht, hp⟩ := h.load
  refine ⟨c, hc, ?_⟩
  by_cases hprim : isPrimitive c = true
  · by_cases hpar : ∃ p, c.parents = [p]
    · obtain ⟨p, hpar⟩ := hpar
      have hpin := hp p (hpar ▸ List.mem_singleton_self _)
      obtain ⟨parent, hload, hpt, -⟩ := hpin.load
      obtain ⟨added, hadd⟩ : ∃ l, treePathsAdded s (s.size + 1) []
        (some parent.tree) c.tree = .ok l :=
        treePathsAdded_total (fun o ho => Option.some.inj ho ▸ hpt.grounded) ht.grounded
        ht.grounded.within
      refine .inl ⟨hprim, p, parent, added, hpar, hload, hadd, ?_⟩
      rw [isGhostAddClosureOnlyUncached, loadCommit_ok.mp hc]
      simp only [ok_bind, hprim, Bool.not_true, Bool.false_eq_true, if_false, hpar, hload, hadd,
        someGhost_eq hpin]
    · refine .inr ⟨fun hx => hpar hx.2, ?_⟩
      rw [isGhostAddClosureOnlyUncached, loadCommit_ok.mp hc]
      simp only [ok_bind, hprim, Bool.not_true, Bool.false_eq_true, if_false]
      split
      · rename_i p hpar'
        exact absurd ⟨p, hpar'⟩ hpar
      · rfl
  · refine .inr ⟨fun hx => hprim hx.1, ?_⟩
    rw [isGhostAddClosureOnlyUncached, loadCommit_ok.mp hc]
    simp [hprim, pure, Except.pure]

theorem isGhost_total {o : Oid} (h : CommitIn s o) :
    ∃ b, isGhostAddClosureOnlyUncached s o = .ok b := by
  obtain ⟨c, -, ⟨-, p, parent, added, -, -, -, hb⟩ | ⟨-, hb⟩⟩ := isGhost_eq h
  · exact ⟨_, hb⟩
  · exact ⟨_, hb⟩

theorem Carries.ghostAt (h : Carries Q R s s') (hQ : ∀ es, Q es → Tidy es) {p : Oid} (hR : R p)
    (hp : CommitIn s p) (readds : List Oid) (path : Path) :
    ghostAt s' p readds path = Csp.ghostAt s p readds path := by
  obtain ⟨v, hv⟩ := mostRecentTouch_total hp path
  rw [Csp.ghostAt, Csp.ghostAt, hv, h.mostRecentTouch hQ hR hv]

theorem Carries.isGhost (h : Carries Q R s s') (hQ : ∀ es, Q es → Tidy es) {o : Oid} (hR : R o)
    (ho : CommitIn s o) {b : Bool} (hb : isGhostAddClosureOnlyUncached s o = .ok b) :
    isGhostAddClosureOnlyUncached s' o = .ok b := by
  have ho' := h.commitIn hR ho
  obtain ⟨c, hc, hcase⟩ := isGhost_eq ho
  obtain ⟨c', hc', hcase'⟩ := isGhost_eq ho'
  obtain ⟨hload, hRt, hRp⟩ := h.loadCommit hR hc
  obtain rfl := Except.ok.inj (hload.symm.trans hc')
  rcases hcase with ⟨hprim, p, parent, added, hpar, hlp, hadd, hv⟩ | ⟨hnot, hv⟩
  · rcases hcase' with ⟨-, p', parent', added', hpar', hlp', hadd', hv'⟩ | ⟨hnot', -⟩
    · obtain rfl : p = p' := by simpa using hpar.symm.trans hpar'
      have hRpp := hRp p (hpar ▸ List.mem_singleton_self _)
      have hpin : CommitIn s p := ho.parentsOf (by rw [parentsOf_of_load hc, hpar]; simp)
      obtain ⟨hlp2, hRpt, -⟩ := h.loadCommit hRpp hlp
      obtain rfl := Except.ok.inj (hlp2.symm.trans hlp')
      obtain ⟨t, ht, htree, -⟩ := ho'.load
      obtain rfl := Except.ok.inj (hc'.symm.trans ht)
      obtain ⟨added₂, hadd₂, hperm⟩ := h.treePathsAdded hQ
        (fun o ho => Option.some.inj ho ▸ hRpt) hRt hadd htree.grounded.within
      obtain rfl := Except.ok.inj (hadd₂.symm.trans hadd')
      rw [hv', ← hb, hv, Except.ok.injEq]
      have hfun : Csp.ghostAt s' p (parsePrimitiveReadds c) = Csp.ghostAt s p
          (parsePrimitiveReadds c) :=
        funext fun path => h.ghostAt hQ hRpp hpin _ path
      rw [hfun]
      exact (hperm.any_eq).symm
    · exact absurd ⟨hprim, p, hpar⟩ hnot'
  · rcases hcase' with ⟨hprim', p', -, -, hpar', -⟩ | ⟨-, hv'⟩
    · exact absurd ⟨hprim', p', hpar'⟩ hnot
    · rw [hv', ← hb, hv]

/-! ### The frontier as a function -/

/-- What the frontier is computed from: the ghost verdicts, which ids are primitives, and
their ancestors and order keys. -/
structure View (Oid : Type) where
  ghost : Oid → Bool
  prim : Oid → Bool
  anc : Oid → List Oid
  key : Oid → OrderKey Oid

def View.frontier (v : View Oid) (known : List Oid) : List Oid :=
  let prims := (known.filter fun o => !v.ghost o).filter v.prim
  let table := prims.map fun q => (q, v.anc q)
  (((prims.filter fun o => !dominated table o).map v.key).insertionSort (· ≤ ·)).map (·.sha)

omit [Crates] in
theorem dominated_perm {table table' : List (Oid × List Oid)} (h : table.Perm table') (p : Oid) :
    dominated table p = dominated table' p := h.any_eq

omit [Crates] in
/-- The order in which the primitives are known does not show. -/
theorem View.frontier_perm (v : View Oid) {known known' : List Oid} (h : known.Perm known') :
    v.frontier known = v.frontier known' := by
  have hprims := (h.filter fun o => !v.ghost o).filter v.prim
  have htable := hprims.map fun q => (q, v.anc q)
  simp only [View.frontier]
  congr 1
  simp only [dominated_perm htable]
  have hkeys := (hprims.filter fun o => !dominated
    (((known'.filter fun o => !v.ghost o).filter v.prim).map fun q => (q, v.anc q)) o).map v.key
  refine List.Perm.eq_of_pairwise (fun a b _ _ => le_antisymm (α := OrderKey Oid))
    (List.pairwise_insertionSort _ _) (List.pairwise_insertionSort _ _) ?_
  exact (List.perm_insertionSort _ _).trans (hkeys.trans (List.perm_insertionSort _ _).symm)

def viewOf (s : Store Oid) : View Oid where
  ghost o := (isGhostAddClosureOnlyUncached s o).toOption.getD false
  prim := isPrimitiveOid s
  anc o := (ancestors s o).toOption.getD []
  key o := (orderKey s o).toOption.getD ⟨0, ⟨List.replicate 32 0, List.length_replicate⟩, o⟩

theorem effectiveKnown_eq {known : List Oid} (h : ∀ o ∈ known, CommitIn s o) :
    effectiveKnown s known = .ok (known.filter fun o => !(viewOf s).ghost o) := by
  induction known with
  | nil => rfl
  | cons o os ih =>
    obtain ⟨b, hb⟩ := isGhost_total (h o List.mem_cons_self)
    have hv : (viewOf s).ghost o = b := by simp [viewOf, hb, Except.toOption]
    rw [effectiveKnown, isGhost_ok hb, ok_bind, ih fun q hq => h q (List.mem_cons_of_mem _ hq),
      ok_bind, List.filter_cons, hv]
    cases b <;> rfl

theorem frontier_eq {known : List Oid} (h : ∀ o ∈ known, CommitIn s o) :
    frontier s known = .ok ((viewOf s).frontier known) := by
  rw [frontier, effectiveKnown_eq h, ok_bind]
  set prims := (known.filter fun o => !(viewOf s).ghost o).filter (isPrimitiveOid s) with hprims
  have hmem : ∀ o ∈ prims, CommitIn s o ∧ isPrimitiveOid s o = true := by
    intro o ho
    rw [hprims, List.mem_filter, List.mem_filter] at ho
    exact ⟨h o ho.1.1, ho.2⟩
  have htable : ancestorTable s prims = .ok (prims.map fun q => (q, (viewOf s).anc q)) := by
    refine mapM_eq_ok_map fun q hq => ?_
    obtain ⟨l, hl⟩ := ancestors_total (hmem q hq).1.history
    rw [hl, ok_bind]
    simp [viewOf, hl, Except.toOption, pure, Except.pure]
  have hkeys : ∀ l : List Oid, l ⊆ prims → l.mapM (orderKey s) = .ok (l.map (viewOf s).key) := by
    refine fun l hl => mapM_eq_ok_map fun o ho => ?_
    obtain ⟨hin, hp⟩ := hmem o (hl ho)
    obtain ⟨c, hc, -⟩ := hin.load
    have hk : ∃ k, orderKey s o = .ok k := by
      rw [isPrimitiveOid, hc] at hp
      obtain ⟨⟨counter, node⟩, hm⟩ := Option.isSome_iff_exists.mp hp
      exact ⟨_, by rw [orderKey, hc, ok_bind, hm]; rfl⟩
    obtain ⟨k, hk⟩ := hk
    rw [hk]
    simp [viewOf, hk, Except.toOption]
  simp only [htable, ok_bind]
  rw [hkeys _ fun o ho => (List.mem_filter.mp ho).1]
  rfl

theorem sha_orderKey {o : Oid} {k : OrderKey Oid} (h : orderKey s o = .ok k) : k.sha = o := by
  obtain ⟨c, -, h⟩ := bind_ok.mp h
  split at h
  · exact congrArg OrderKey.sha (pure_ok.mp h).symm
  · cases h

theorem mem_of_mem_effectiveKnown {known l : List Oid}
    (h : effectiveKnown s known = .ok l) {o : Oid} (ho : o ∈ l) : o ∈ known := by
  induction known generalizing l with
  | nil =>
    obtain rfl := pure_ok.mp h
    exact ho
  | cons q known ih =>
    obtain ⟨ghost, -, h⟩ := bind_ok.mp h
    obtain ⟨rest, hrest, h⟩ := bind_ok.mp h
    obtain rfl := pure_ok.mp h
    split_ifs at ho with hg
    · exact List.mem_cons_of_mem _ (ih hrest ho)
    · rcases List.mem_cons.mp ho with rfl | ho
      · exact List.mem_cons_self
      · exact List.mem_cons_of_mem _ (ih hrest ho)

theorem mem_of_mem_frontier {known f : List Oid} (h : frontier s known = .ok f) {o : Oid}
    (ho : o ∈ f) :
    o ∈ known ∧ isPrimitiveOid s o = true := by
  obtain ⟨l, hl, h⟩ := bind_ok.mp h
  obtain ⟨table, -, h⟩ := bind_ok.mp h
  obtain ⟨keyed, hk, h⟩ := bind_ok.mp h
  obtain rfl := pure_ok.mp h
  obtain ⟨k, hkm, rfl⟩ := List.mem_map.mp ho
  obtain ⟨q, hq, hqk⟩ := mapM_ok_mem_right hk ((List.mem_insertionSort _).mp hkm)
  obtain ⟨hq, hp⟩ := List.mem_filter.mp (List.mem_filter.mp hq).1
  rw [sha_orderKey hqk]
  exact ⟨mem_of_mem_effectiveKnown hl hq, hp⟩

theorem Carries.frontier (h : Carries Q R s s') (hQ : ∀ es, Q es → Tidy es)
    {known known' : List Oid} (hR : ∀ o ∈ known, R o) (hin : ∀ o ∈ known, CommitIn s o)
    (hp : known.Perm known') :
    Csp.frontier s' known' = Csp.frontier s known := by
  have hin' : ∀ o ∈ known, CommitIn s' o := fun o ho => h.commitIn (hR o ho) (hin o ho)
  rw [frontier_eq hin, frontier_eq fun o ho => hin' o (hp.mem_iff.mpr ho),
    ← View.frontier_perm _ hp, Except.ok.injEq]
  -- the frontier is a function of four readings of each known id, and these agree
  have hview : ∀ o ∈ known, (viewOf s').ghost o = (viewOf s).ghost o ∧
      (viewOf s').prim o = (viewOf s).prim o ∧ (viewOf s').anc o = (viewOf s).anc o ∧
      (Csp.isPrimitiveOid s o = true → (viewOf s').key o = (viewOf s).key o) := by
    intro o ho
    obtain ⟨b, hb⟩ := isGhost_total (hin o ho)
    obtain ⟨l, hl⟩ := ancestors_total (hin o ho).history
    obtain ⟨c, hc, -⟩ := (hin o ho).load
    refine ⟨?_, h.isPrimitiveOid (hR o ho) hc, ?_, fun hprim => ?_⟩
    · simp only [viewOf, hb, h.isGhost hQ (hR o ho) (hin o ho) hb]
    · simp only [viewOf, hl, (h.ancestors (hR o ho) hl).1]
    · rw [Csp.isPrimitiveOid, hc] at hprim
      obtain ⟨⟨counter, node⟩, hm⟩ := Option.isSome_iff_exists.mp hprim
      have hk : Csp.orderKey s o = .ok ⟨counter, node,
          o⟩ := by rw [Csp.orderKey, hc, ok_bind, hm]; rfl
      simp only [viewOf, hk, h.orderKey (hR o ho) hk]
  have hprims : (known.filter fun o => !(viewOf s').ghost o).filter (viewOf s').prim =
      (known.filter fun o => !(viewOf s).ghost o).filter (viewOf s).prim := by
    rw [List.filter_filter, List.filter_filter]
    exact List.filter_congr fun o ho => by rw [(hview o ho).1, (hview o ho).2.1]
  simp only [View.frontier, hprims]
  set prims := (known.filter fun o => !(viewOf s).ghost o).filter (viewOf s).prim with hpr
  have hmem : ∀ o ∈ prims, o ∈ known ∧ Csp.isPrimitiveOid s o = true := by
    intro o ho
    rw [hpr, List.mem_filter, List.mem_filter] at ho
    exact ⟨ho.1.1, ho.2⟩
  have htable : (prims.map fun q => (q, (viewOf s').anc q)) = prims.map fun q =>
      (q, (viewOf s).anc q) :=
    List.map_congr_left fun q hq => by rw [(hview q (hmem q hq).1).2.2.1]
  rw [htable]
  congr 2
  refine List.map_congr_left fun o ho => ?_
  obtain ⟨hk, hp⟩ := hmem o (List.mem_filter.mp ho).1
  exact (hview o hk).2.2.2 hp

end Csp
