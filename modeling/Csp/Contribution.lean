import Csp.Genuine
import Csp.Lineage

/-! What contributes to `main`. The fold leaves ghost-adds out of the frontier, but what is
authored on one brings it in among its ancestors. -/

namespace Csp
open Result
variable {Oid : Type} [ObjectId Oid] [Crates] {s t : Store Oid}

theorem frontier_filter {known : List Oid} (hin : ∀ o ∈ known, CommitIn s o) :
    frontier s (known.filter (isPrimitiveOid s)) = frontier s known := by
  have hin' : ∀ o ∈ known.filter (isPrimitiveOid s), CommitIn s o := fun o ho =>
      hin o (List.mem_of_mem_filter ho)
  have hprims : ((known.filter (isPrimitiveOid s)).filter fun o => !(viewOf s).ghost o).filter
      (viewOf s).prim =
      (known.filter fun o => !(viewOf s).ghost o).filter (viewOf s).prim := by
    rw [List.filter_filter, List.filter_filter, List.filter_filter]
    refine List.filter_congr fun o _ => ?_
    show ((viewOf s).prim o && !(viewOf s).ghost o && (viewOf s).prim o) = _
    rw [Bool.and_right_comm, Bool.and_self]
  rw [frontier_eq hin, frontier_eq hin', View.frontier, View.frontier]
  simp only [hprims]

theorem computeMain_filter {known : List Oid} (hin : ∀ o ∈ known, CommitIn s o) :
    computeMain (known.filter (isPrimitiveOid s)) s = computeMain known s := by
  rw [computeMain_run (frontier_eq hin), computeMain_run
    ((frontier_filter hin).trans (frontier_eq hin))]

theorem isPrimitiveOid_of_ghost {o : Oid} (h : isGhostAddClosureOnly s o = .ok true) :
    isPrimitiveOid s o = true := by
  have hghost : isGhostAddClosureOnlyUncached s o = .ok true := by
    unfold isGhostAddClosureOnly at h
    split at h
    · cases h
    · exact h
  obtain ⟨x, hx, hghost⟩ := bind_ok.mp hghost
  cases x with
  | commit c =>
    rw [isPrimitiveOid, loadCommit_ok.mpr hx]
    by_cases hp : isPrimitive c = true
    · exact hp
    · simp [hp] at hghost
  | blob b => cases hghost
  | tree es => cases hghost

variable [LawfulObjectId Oid] [LawfulCrates]

theorem primitive_below_foldTips (hs : s.Sound) {tips : List Oid}
    (hin : ∀ p ∈ tips, CommitIn s p) {o : Oid} (h : foldTips tips s = (.ok o, t)) {p : Oid}
    (hp : Descends t o p) (hprim : isPrimitiveOid t p = true) :
    ∃ tip ∈ tips, Descends s tip p := by
  let Rests : Store Oid → Oid → Prop := fun u o =>
    CommitIn u o ∧ ∀ p, Descends u o p → isPrimitiveOid u p = true → ∃ tip ∈ tips, Descends s tip p
  have hgrow : ∀ u v o, u.Extends v → Rests u o → Rests v o := by
    intro u v o he ⟨ho, hrest⟩
    refine ⟨ho.extends he, fun p hp hprim => ?_⟩
    have hp' := hp.of_extends he ho
    exact hrest p hp' (by rwa [← isPrimitiveOid_of_extends he (ho.ancestor hp')])
  -- a synthetic commit rests on what its parents rest on
  have hsynthetic : ∀ u o, CommitIn u o → isPrimitiveOid u o = false →
      (∀ p ∈ parentsOf u o, Rests u p) → Rests u o := by
    intro u o ho hnot hparents
    refine ⟨ho, fun p hp hprim => ?_⟩
    rcases Relation.ReflTransGen.cases_head hp with rfl | ⟨q, hq, hqp⟩
    · rw [hnot] at hprim
      cases hprim
    · exact (hparents q hq).2 p hqp hprim
  have hgenesis : ∀ u : Store Oid, u.Sound → Rests (genesis u).2
      (GitObject.commit genesisCommit).oid := by
    intro u hu
    rw [genesis_run]
    obtain ⟨hload, ho⟩ := commitIn_genesis hu
    refine hsynthetic _ _ ho (by rw [isPrimitiveOid, hload]; exact isPrimitive_genesis)
      fun p hp => ?_
    rw [parentsOf_of_load hload] at hp
    cases hp
  have hfold : ∀ u v ps o, u.Sound → (∀ p ∈ ps, Rests u p) → refold ps u = (.ok o, v) →
      Rests v o := by
    intro u v ps o hu hps hrun
    obtain ⟨objs, c, hf, rfl, rfl⟩ := refold_ok hrun
    obtain ⟨-, hload, ho⟩ := hu.foldObjects (fun p hp => (hps p hp).1) hf
    obtain ⟨⟨tree, time, -, rfl⟩, -⟩ := foldObjects_commit hf
    refine hsynthetic _ _ ho
      (by rw [isPrimitiveOid, hload]; exact isPrimitive_foldCommit tree ps time) fun p hp => ?_
    rw [parentsOf_of_load hload] at hp
    exact hgrow _ _ _ (u.extends_putAll _) (hps p hp)
  have htips : ∀ tip ∈ tips, Rests s tip := fun tip htip =>
      ⟨hin tip htip, fun p hp _ => ⟨tip, htip, hp⟩⟩
  exact (foldTips_rule hgrow hgenesis hfold hs htips h).2.2.2 p hp hprim

/-- `main` descends from the primitives that are at or below an effective known one, and from
no others. -/
theorem computeMain_above_iff (hs : s.Sound) {known : List Oid} (hin : ∀ o ∈ known, CommitIn s o)
    (hprim : ∀ o ∈ known, isPrimitiveOid s o = true) {m : Oid}
    (hm : computeMain known s = (.ok m, t)) {o : Oid} (ho : isPrimitiveOid t o = true) :
    Above t m o ↔ ∃ q ∈ known, Effective s q ∧ Descends s q o := by
  have hext : s.Extends t := by
    have := extends_computeMain known s
    rwa [hm] at this
  constructor
  · intro h
    obtain ⟨f, hf, hfold⟩ := computeMain_ok.mp hm
    have hknown : ∀ p ∈ f, p ∈ known := fun p hp => (mem_of_mem_frontier hf hp).1
    obtain ⟨q, hq, hqo⟩ := primitive_below_foldTips hs (fun p hp => hin p (hknown p hp)) hfold
      h.to_reflTransGen ho
    exact ⟨q, hknown q hq, ((mem_frontier hin hprim hf q).mp hq).1.2, hqo⟩
  · rintro ⟨q, hq, heff, hqo⟩
    exact (computeMain_above hs hin hprim hm hq heff).trans_left (Descends.extends hqo hext)

/-- No known ghost-add is an ancestor of `main` if and only if none is an ancestor of a known
primitive that is kept. -/
theorem ghosts_stay_out_iff (hs : s.Sound) {known : List Oid}
    (hin : ∀ o ∈ known, CommitIn s o) {m : Oid} (hm : computeMain known s = (.ok m, t)) :
    (∀ g ∈ known, isGhostAddClosureOnly s g = .ok true → ¬ Above t m g) ↔
      ∀ q ∈ known, isPrimitiveOid s q = true → isGhostAddClosureOnly s q = .ok false →
        ∀ g ∈ known, isGhostAddClosureOnly s g = .ok true → ¬ Above s q g := by
  have hext : s.Extends t := by
    have := extends_computeMain known s
    rwa [hm] at this
  have hm' : computeMain (known.filter (isPrimitiveOid s)) s = (.ok m, t) :=
      (computeMain_filter hin).trans hm
  have hin' : ∀ o ∈ known.filter (isPrimitiveOid s), CommitIn s o := fun o ho =>
      hin o (List.mem_of_mem_filter ho)
  have hprim' : ∀ o ∈ known.filter (isPrimitiveOid s), isPrimitiveOid s o = true := fun o ho =>
    (List.mem_filter.mp ho).2
  have habove : ∀ g, isGhostAddClosureOnly s g = .ok true →
      (Above t m g ↔ ∃ q ∈ known.filter (isPrimitiveOid s), Effective s q ∧
        Descends s q g) := fun g hg =>
    computeMain_above_iff hs hin' hprim' hm' (isPrimitiveOid_extends hext
      (isPrimitiveOid_of_ghost hg))
  constructor
  · intro h q hq hqprim heff g hg hghost hqg
    exact h g hg hghost ((habove g hghost).mpr ⟨q, List.mem_filter.mpr ⟨hq, hqprim⟩, heff,
      hqg.to_reflTransGen⟩)
  · intro h g hg hghost hmg
    obtain ⟨q, hq, heff, hqg⟩ := (habove g hghost).mp hmg
    obtain ⟨hqk, hqprim⟩ := List.mem_filter.mp hq
    rcases Relation.reflTransGen_iff_eq_or_transGen.mp hqg with rfl | hqg
    · cases heff.symm.trans hghost
    · exact h q hqk hqprim heff g hg hghost hqg

end Csp

/-! ### An edit of a ghost-add -/

namespace Csp.Small

/-- A file is published and deleted, added again without a trailer, and then edited. -/
def revivedObjects (frames : List Bytes) : List (GitObject (Num frames)) :=
  [emptyTree, .commit (foldCommit 0 [] 0 genesisMsg), .blob [49], .blob [50],
    .tree [⟨fileMode, ['x'], 2⟩], .tree [⟨fileMode, ['x'], 3⟩],
    .commit (signedPrimitive owner 4 1 1 0 "ctx edit".toList []),
    .commit (foldCommit 4 [6] 0 foldMsg),
    .commit (signedPrimitive owner 0 7 2 0 "ctx edit".toList []),
    .commit (foldCommit 0 [8] 0 foldMsg),
    .commit (signedPrimitive owner 4 9 3 0 "ctx edit".toList []),
    .commit (foldCommit 4 [10] 0 foldMsg),
    .commit (signedPrimitive owner 5 11 4 0 "ctx edit".toList [])]

abbrev Revived : Type := Num ((revivedObjects []).map GitObject.framed)

def revivedStore : Store Revived := (Store.empty .mem).putAll (revivedObjects _)

def folded (s : Store Revived) (known : List Revived) : List Revived :=
  match computeMain known s with
  | (.ok m, t) => parentsOf t m
  | (.error _, _) => []

theorem computeMain_of_folded {s : Store Revived} {known : List Revived} {p : Revived}
    (h : p ∈ folded s known) :
    ∃ m t, computeMain known s = (.ok m, t) ∧ p ∈ parentsOf t m := by
  unfold folded at h
  split at h
  · rename_i m t hm
    exact ⟨m, t, hm, h⟩
  · cases h

def ancestorsOf (s : Store Revived) (o : Revived) : List Revived := (ancestors s o).toOption.getD []

theorem mem_ancestorsOf {s : Store Revived} {o p : Revived} (ho : CommitIn s o) :
    p ∈ ancestorsOf s o ↔ Above s o p := by
  obtain ⟨l, hl⟩ := ancestors_total ho.history
  rw [ancestorsOf, hl]
  exact (ancestors_spec hl).2 p

theorem revived_spec : (∀ x ∈ revivedObjects ((revivedObjects []).map GitObject.framed),
      x.Encodable) ∧
    (∀ o ∈ ([6, 8, 10, 12] : List Revived), holdsCommit revivedStore 20 o = true) ∧
    isGhostAddClosureOnly revivedStore 10 = .ok true ∧ 12 ∈ folded revivedStore [6, 8, 10, 12] ∧
    8 ∈ folded revivedStore [6, 8, 10] ∧ (10 : Revived) ∈ ancestorsOf revivedStore 12 ∧
    (∀ q ∈ ([6, 8, 10] : List Revived), (10 : Revived) ∉ ancestorsOf revivedStore q) ∧
    ∀ g ∈ ([6, 8, 10] : List Revived), isGhostAddClosureOnly revivedStore g = .ok true →
    g = 10 := by
  decide +kernel

theorem sound_revivedStore : revivedStore.Sound := (Store.sound_empty _).putAll revived_spec.1

theorem commitIn_revived : ∀ o ∈ ([6, 8, 10, 12] : List Revived), CommitIn revivedStore o :=
  fun o ho => commitIn_of_holdsCommit (revived_spec.2.1 o ho)

/-- The ghost-add alone stays out. -/
theorem ghosts_stay_out_iff_revived :
    ∃ m t, computeMain [6, 8, 10] revivedStore = (.ok m, t) ∧ ¬ Above t m 10 := by
  obtain ⟨-, -, hghost, -, hfold, -, hbelow, honly⟩ := revived_spec
  have hin : ∀ o ∈ ([6, 8, 10] : List Revived), CommitIn revivedStore o := fun o ho =>
    commitIn_revived o (List.mem_append_left [12] ho)
  obtain ⟨m, t, hm, -⟩ := computeMain_of_folded hfold
  have hout := (ghosts_stay_out_iff sound_revivedStore hin hm).mpr
    fun q hq _ _ g hg hgg habove => by
    obtain rfl := honly g hg hgg
    exact hbelow q hq ((mem_ancestorsOf (hin q hq)).mpr habove)
  exact ⟨m, t, hm, hout 10 (by simp) hghost⟩

/-- What is authored on the ghost-add takes it into `main`. -/
theorem ghost_contributes :
    revivedStore.Sound ∧ (∀ o ∈ ([6, 8, 10, 12] : List Revived), CommitIn revivedStore o) ∧
      isGhostAddClosureOnly revivedStore 10 = .ok true ∧
      ∃ m t, computeMain [6, 8, 10, 12] revivedStore = (.ok m, t) ∧ Above t m 10 := by
  obtain ⟨-, -, hghost, hfold, -, habove, -⟩ := revived_spec
  refine ⟨sound_revivedStore, commitIn_revived, hghost, ?_⟩
  obtain ⟨m, t, hm, h12⟩ := computeMain_of_folded hfold
  have hext : revivedStore.Extends t := by
    have := extends_computeMain [6, 8, 10, 12] revivedStore
    rwa [hm] at this
  have h10 : Above revivedStore 12 10 := (mem_ancestorsOf (commitIn_revived 12 (by simp))).mp habove
  exact ⟨m, t, hm, .head h12 (Above.extends h10 hext)⟩

end Csp.Small
