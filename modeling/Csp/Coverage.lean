import Csp.Determinism

/-! Nothing is lost from history. The frontier is made of the effective known primitives
that no other one descends from, and what it folds to descends from all of them. -/

namespace Csp
open Result
variable {Oid : Type} [ObjectId Oid] [Crates] {s t : Store Oid}

/-- The second commit is a proper ancestor of the first. -/
abbrev Above (s : Store Oid) (o r : Oid) : Prop :=
  Relation.TransGen (fun a b => b ∈ parentsOf s a) o r

/-- No ghost-add: the fold keeps the primitive. -/
def Effective (s : Store Oid) (o : Oid) : Prop := isGhostAddClosureOnly s o = .ok false

omit [Crates] in
theorem Above.extends {o r : Oid} (h : Above s o r) (he : s.Extends t) : Above t o r :=
  Relation.TransGen.mono (fun _ _ hab => mem_parentsOf_extends he hab) _ _ h

/-! ### What the frontier is -/

theorem effective_iff {o : Oid} (h : CommitIn s o) : Effective s o ↔
    (viewOf s).ghost o = false := by
  obtain ⟨b, hb⟩ := isGhost_total h
  have hv : (viewOf s).ghost o = b := by simp [viewOf, hb, Except.toOption]
  unfold Effective
  rw [isGhost_ok hb, hv, Except.ok.injEq]

theorem mem_effectiveKnown {known : List Oid} (hin : ∀ o ∈ known, CommitIn s o) {l : List Oid}
    (h : effectiveKnown s known = .ok l) {o : Oid} : o ∈ l ↔ o ∈ known ∧ Effective s o := by
  rw [effectiveKnown_eq hin, Except.ok.injEq] at h
  subst h
  rw [List.mem_filter, Bool.not_eq_true']
  exact and_congr_right fun ho => (effective_iff (hin o ho)).symm

theorem frontier_ok {known f : List Oid} (h : frontier s known = .ok f) :
    ∃ eff table keyed, effectiveKnown s known = .ok eff ∧
      ancestorTable s (eff.filter (isPrimitiveOid s)) = .ok table ∧
      ((eff.filter (isPrimitiveOid s)).filter fun o => !dominated table o).mapM
      (orderKey s) = .ok keyed ∧
      f = (keyed.insertionSort (· ≤ ·)).map (·.sha) := by
  obtain ⟨eff, heff, h⟩ := bind_ok.mp h
  obtain ⟨table, htable, h⟩ := bind_ok.mp h
  obtain ⟨keyed, hkeyed, h⟩ := bind_ok.mp h
  exact ⟨eff, table, keyed, heff, htable, hkeyed, (pure_ok.mp h).symm⟩

theorem map_sha_of_mapM {l : List Oid} {keyed : List (OrderKey Oid)}
    (h : l.mapM (orderKey s) = .ok keyed) :
    keyed.map (·.sha) = l := by
  induction mapM_ok_iff.mp h with
  | nil => rfl
  | cons hk _ ih => rw [List.map_cons, sha_orderKey hk, ih (mapM_ok_iff.mpr ‹_›)]

theorem mem_frontier {known f : List Oid} (hin : ∀ o ∈ known, CommitIn s o)
    (hprim : ∀ o ∈ known, isPrimitiveOid s o = true) (h : frontier s known = .ok f) (o : Oid) :
    o ∈ f ↔ (o ∈ known ∧ Effective s o) ∧ ∀ q ∈ known, Effective s q → ¬ Above s q o := by
  obtain ⟨eff, table, keyed, heff, htable, hkeyed, rfl⟩ := frontier_ok h
  have hmem := fun o => mem_effectiveKnown hin heff (o := o)
  have hprims : ∀ o, o ∈ eff.filter (isPrimitiveOid s) ↔ o ∈ known ∧ Effective s o := by
    intro o
    rw [List.mem_filter, hmem]
    exact and_iff_left_of_imp fun ho => hprim o ho.1
  have hsort : o ∈ (keyed.insertionSort (· ≤ ·)).map (·.sha) ↔ o ∈ keyed.map (·.sha) := by
    simp only [List.mem_map, List.mem_insertionSort]
  rw [hsort, map_sha_of_mapM hkeyed, List.mem_filter, hprims, Bool.not_eq_true',
    Bool.eq_false_iff, ne_eq,
    dominated_iff htable]
  refine and_congr_right fun ho => ?_
  constructor
  · intro hdom q hq heffq hqo
    refine hdom ⟨q, (hprims q).mpr ⟨hq, heffq⟩, ?_, hqo⟩
    rintro rfl
    exact (hin o ho.1).history.acyclic hqo
  · rintro hmax ⟨q, hq, -, hqo⟩
    obtain ⟨hqk, hqe⟩ := (hprims q).mp hq
    exact hmax q hqk hqe hqo

theorem frontier_sorted {known f : List Oid} (hnd : known.Nodup) (hin : ∀ o ∈ known, CommitIn s o)
    (h : frontier s known = .ok f) : ∃ keys, f.mapM (orderKey s) = .ok keys ∧
    keys.Pairwise (· < ·) := by
  obtain ⟨eff, table, keyed, heff, -, hkeyed, rfl⟩ := frontier_ok h
  rw [effectiveKnown_eq hin, Except.ok.injEq] at heff
  subst heff
  have hsha := map_sha_of_mapM hkeyed
  have hkey : ∀ k ∈ keyed, orderKey s k.sha = .ok k := by
    intro k hk
    obtain ⟨a, -, ha⟩ := mapM_ok_mem_right hkeyed hk
    rwa [sha_orderKey ha]
  have hnodup : keyed.Nodup := by
    apply List.Nodup.of_map (·.sha)
    rw [hsha]
    exact ((hnd.filter _).filter _).filter _
  refine ⟨keyed.insertionSort (· ≤ ·), ?_, ?_⟩
  · rw [mapM_ok_iff, List.forall₂_map_left_iff, List.forall₂_same]
    exact fun k hk => hkey k ((List.mem_insertionSort _).mp hk)
  · have hle : (keyed.insertionSort (· ≤ ·)).Pairwise (· ≤ ·) := List.pairwise_insertionSort _ _
    have hne : (keyed.insertionSort (· ≤ ·)).Nodup :=
        (List.perm_insertionSort _ _).nodup_iff.mpr hnodup
    exact (hle.and hne).imp fun hk => lt_of_le_of_ne hk.1 hk.2

theorem exists_mem_frontier {known f : List Oid} (hin : ∀ o ∈ known, CommitIn s o)
    (hprim : ∀ o ∈ known, isPrimitiveOid s o = true) (h : frontier s known = .ok f) {o : Oid}
    (ho : o ∈ known) (heff : Effective s o) : ∃ p ∈ f, Descends s p o := by
  classical
  set above := known.filter fun q => decide (Effective s q ∧ Descends s q o) with habove
  have hmem : ∀ q, q ∈ above ↔ q ∈ known ∧ Effective s q ∧ Descends s q o := by
    intro q
    rw [habove, List.mem_filter, decide_eq_true_eq]
  have hne : above ≠ [] := List.ne_nil_of_mem ((hmem o).mpr ⟨ho, heff, .refl⟩)
  obtain ⟨p, hp, hmax⟩ := exists_not_dominated hne fun q hq => (hin q ((hmem q).mp hq).1).history
  obtain ⟨hpk, hpe, hpo⟩ := (hmem p).mp hp
  refine ⟨p, (mem_frontier hin hprim h p).mpr ⟨⟨hpk, hpe⟩, fun q hq hqe hqp => ?_⟩, hpo⟩
  exact hmax q ((hmem q).mpr ⟨hq, hqe, (hqp.trans_left hpo).to_reflTransGen⟩) hqp

/-! ### What the fold covers -/

variable [LawfulObjectId Oid] [LawfulCrates]

/-- The rule of the fold: what holds of genesis and of the tips, stays as the store grows, and
passes from parents to their fold, holds of what the tips fold to. -/
theorem foldTips_rule {P : Store Oid → Oid → Prop} (hgrow : ∀ s t o, s.Extends t → P s o → P t o)
    (hgenesis : ∀ s, s.Sound → P (genesis s).2 (GitObject.commit genesisCommit).oid)
    (hfold : ∀ s t ps o, s.Sound → (∀ p ∈ ps, P s p) → refold ps s = (.ok o, t) → P t o)
    (hs : s.Sound) {tips : List Oid} (htips : ∀ p ∈ tips, P s p) {o : Oid}
    (h : foldTips tips s = (.ok o, t)) :
    t.Sound ∧ s.Extends t ∧ P t o := by
  -- one merge, then the fold by induction on the tips that are left
  have step : ∀ {s t : Store Oid} {ps : List Oid} {o : Oid}, s.Sound → (∀ p ∈ ps, P s p) →
      refold ps s = (.ok o, t) →
      t.Sound ∧ s.Extends t ∧ P t o := by
    intro s t ps o hs hps h
    refine ⟨?_, ?_, hfold s t ps o hs hps h⟩
    all_goals obtain ⟨objs, c, hf, -, rfl⟩ := refold_ok h
    · exact (hs.load_foldObjects hf).1
    · exact s.extends_putAll _
  have run : ∀ (rest : List Oid) {s : Store Oid} {acc : Oid}, s.Sound → P s acc →
      (∀ p ∈ rest, P s p) →
      rest.foldlM foldStep acc s = (.ok o, t) → t.Sound ∧ s.Extends t ∧ P t o := by
    intro rest
    induction rest with
    | nil =>
      intro s acc hs hacc _ h
      obtain ⟨rfl, rfl⟩ : acc = o ∧ s = t := by simpa using h
      exact ⟨hs, .refl s, hacc⟩
    | cons tk rest ih =>
      intro s acc hs hacc hrest h
      rw [List.foldlM_cons] at h
      obtain ⟨b, u, hstep, h⟩ := run_bind_ok.mp h
      have hpair : ∀ p ∈ [acc, tk], P s p := by
        intro p hp
        rcases List.mem_pair.mp hp with rfl | rfl
        · exact hacc
        · exact hrest p List.mem_cons_self
      obtain ⟨hu, hext, hb⟩ := step hs hpair (show refold [acc, tk] s = (.ok b, u) from hstep)
      obtain ⟨ht, hext', ho⟩ :=
        ih hu hb (fun p hp => hgrow _ _ _ hext (hrest p (List.mem_cons_of_mem _ hp))) h
      exact ⟨ht, hext.trans hext', ho⟩
  match tips, h with
  | [], h =>
    rw [foldTips, genesis_run] at h
    obtain ⟨hok, rfl⟩ := Prod.mk.inj h
    obtain rfl := Except.ok.inj hok
    exact ⟨hs.putAll written_genesis.encodable, s.extends_putAll _, hgenesis s hs⟩
  | [tip], h => exact step hs htips (show refold [tip] s = _ from h)
  | acc :: tk :: rest, h =>
    exact run (tk :: rest) hs (htips acc List.mem_cons_self)
      (fun p hp => htips p (List.mem_cons_of_mem _ hp)) h

theorem refold_above (hs : s.Sound) {ps : List Oid} {o : Oid} (hin : ∀ p ∈ ps, CommitIn s p)
    (h : refold ps s = (.ok o, t)) :
    t.Sound ∧ s.Extends t ∧ CommitIn t o ∧ ∀ p ∈ ps, Above t o p := by
  obtain ⟨objs, c, hf, rfl, rfl⟩ := refold_ok h
  obtain ⟨hsound, hload, hcommit⟩ := hs.foldObjects hin hf
  obtain ⟨⟨tree, time, -, rfl⟩, -⟩ := foldObjects_commit hf
  refine ⟨hsound, s.extends_putAll _, hcommit, fun p hp => .single ?_⟩
  rw [parentsOf_of_load hload]
  exact hp

theorem foldlM_foldStep_above {rest : List Oid} {acc o : Oid} (hs : s.Sound) (ha : CommitIn s acc)
    (hin : ∀ p ∈ rest, CommitIn s p) (h : rest.foldlM foldStep acc s = (.ok o, t)) :
    s.Extends t ∧ Descends t o acc ∧ ∀ p ∈ rest, Above t o p ∧ Above t o acc := by
  induction rest generalizing s acc with
  | nil =>
    obtain ⟨rfl, rfl⟩ : acc = o ∧ s = t := by simpa using h
    exact ⟨.refl _, .refl, fun p hp => absurd hp List.not_mem_nil⟩
  | cons tk rest ih =>
    rw [List.foldlM_cons] at h
    obtain ⟨acc', s', hstep, hrest⟩ := run_bind_ok.mp h
    have hpair : ∀ p ∈ [acc, tk], CommitIn s p := by simpa using ⟨ha, hin tk List.mem_cons_self⟩
    obtain ⟨hs', hext, hacc', habove⟩ :=
      refold_above hs hpair (show refold [acc, tk] s = _ from hstep)
    have hin' : ∀ p ∈ rest, CommitIn s' p := fun p hp =>
      (hin p (List.mem_cons_of_mem _ hp)).extends hext
    obtain ⟨hext', hdesc, hall⟩ := ih hs' hacc' hin' hrest
    have hnew : ∀ p ∈ [acc, tk], Above t o p := fun p hp =>
      Relation.TransGen.trans_right hdesc (Above.extends (habove p hp) hext')
    have hacc : Above t o acc := hnew acc (by simp)
    refine ⟨hext.trans hext', hacc.to_reflTransGen, fun p hp => ⟨?_, hacc⟩⟩
    rcases List.mem_cons.mp hp with rfl | hp
    · exact hnew p (by simp)
    · exact (hall p hp).1

theorem foldTips_above (hs : s.Sound) {tips : List Oid} (hin : ∀ p ∈ tips, CommitIn s p) {o : Oid}
    (h : foldTips tips s = (.ok o, t)) : s.Extends t ∧ ∀ p ∈ tips, Above t o p := by
  match tips with
  | [] =>
    rw [foldTips, genesis_run, Prod.mk.injEq] at h
    exact ⟨h.2 ▸ s.extends_putAll _, fun p hp => absurd hp List.not_mem_nil⟩
  | [tip] =>
    obtain ⟨-, hext, -, habove⟩ := refold_above hs hin (show refold [tip] s = _ from h)
    exact ⟨hext, habove⟩
  | acc :: tk :: rest =>
    have hrest : ∀ p ∈ tk :: rest, CommitIn s p := fun p hp => hin p (List.mem_cons_of_mem _ hp)
    obtain ⟨hext, -, hall⟩ := foldlM_foldStep_above hs (hin acc List.mem_cons_self) hrest h
    refine ⟨hext, fun p hp => ?_⟩
    rcases List.mem_cons.mp hp with rfl | hp
    · exact (hall tk List.mem_cons_self).2
    · exact (hall p hp).1

theorem computeMain_above (hs : s.Sound) {known : List Oid} (hin : ∀ o ∈ known, CommitIn s o)
    (hprim : ∀ o ∈ known, isPrimitiveOid s o = true) {main : Oid}
    (h : computeMain known s = (.ok main, t)) {o : Oid} (ho : o ∈ known) (heff : Effective s o) :
    Above t main o := by
  obtain ⟨f, hf, hfold⟩ := computeMain_ok.mp h
  have htips : ∀ p ∈ f, CommitIn s p := fun p hp => hin p (mem_of_mem_frontier hf hp).1
  obtain ⟨hext, habove⟩ := foldTips_above hs htips hfold
  obtain ⟨p, hp, hpo⟩ := exists_mem_frontier hin hprim hf ho heff
  exact (habove p hp).trans_left (hpo.extends hext)

/-- On known primitives whose histories are complete, the frontier is exactly the effective
ones that are no proper ancestor of another, an antichain in strictly increasing order; and
all effective ones are ancestors of `main`, which exists if they share an ancestor. -/
theorem frontier_covers (hs : s.Sound) {known : List Oid} (hnd : known.Nodup)
    (hin : ∀ o ∈ known, CommitIn s o) (hprim : ∀ o ∈ known, isPrimitiveOid s o = true) :
    (∃ f keys, frontier s known = .ok f ∧
      (∀ o, o ∈ f ↔ (o ∈ known ∧ Effective s o) ∧ ∀ q ∈ known, Effective s q → ¬ Above s q o) ∧
      (∀ p ∈ f, ∀ q ∈ f, ¬ Above s p q) ∧
      f.mapM (orderKey s) = .ok keys ∧ keys.Pairwise (· < ·)) ∧
    (∀ main t, computeMain known s = (.ok main, t) → ∀ o ∈ known, Effective s o → Above t main o) ∧
    ∀ r, (∀ o ∈ known, Descends s o r) → ∃ main t, computeMain known s = (.ok main, t) := by
  have hf := frontier_eq hin
  obtain ⟨keys, hkeys, hlt⟩ := frontier_sorted hnd hin hf
  have hmem := mem_frontier hin hprim hf
  refine ⟨⟨_, keys, hf, hmem, fun p hp q hq => ?_, hkeys, hlt⟩, fun main t hm o ho heff => ?_,
    fun r hr => computeMain_total hs hin hr⟩
  · obtain ⟨hpk, hpe⟩ := ((hmem p).mp hp).1
    exact ((hmem q).mp hq).2 p hpk hpe
  · exact computeMain_above hs hin hprim hm ho heff

end Csp

/-! ### Two known primitives -/

namespace Csp.Small

/-- On the two primitives of the clashing store, which are tips both. -/
theorem frontier_covers_clash :
    ∃ f keys main t, frontier (clashStore clash) clashKnown = .ok f ∧
      f.mapM (orderKey (clashStore clash)) = .ok keys ∧ keys.Pairwise (· < ·) ∧
      computeMain clashKnown (clashStore clash) = (.ok main, t) ∧
      ∀ o ∈ clashKnown, Effective (clashStore clash) o → Above t main o := by
  have hsound : (clashStore clash).Sound := sound_clashStore (by decide)
  have hin : ∀ o ∈ clashKnown, CommitIn (clashStore clash) o := fun o ho =>
    commitIn_of_holdsCommit (holds_clashKnown o ho).1
  have hprim : ∀ o ∈ clashKnown, isPrimitiveOid (clashStore clash) o = true := fun o ho =>
    (holds_clashKnown o ho).2.2
  obtain ⟨⟨f, keys, hf, -, -, hkeys, hlt⟩, habove, -⟩ :=
    frontier_covers hsound (by decide +kernel : clashKnown.Nodup) hin hprim
  have hok := isOk_clashStore
  match h : computeMain clashKnown (clashStore clash) with
  | (.ok main, t) => exact ⟨f, keys, main, t, hf, hkeys, hlt, rfl, habove main t h⟩
  | (.error _, _) => rw [h] at hok; cases hok

end Csp.Small
