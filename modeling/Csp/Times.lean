import Csp.Snapshots
import Csp.CatchUp

/-! Restoring a time. What is known is cut by the dates of the primitives, and what is left
folds to what an engine has that was never told more. -/

namespace Csp
open Result
variable {Oid : Type} [ObjectId Oid] {s t : Store Oid}

def authoredWithin (s : Store Oid) (time : Nat) (o : Oid) : Bool :=
  match loadCommit s o with
  | .ok c => c.authorTime ≤ time
  | .error _ => false

theorem authoredWithin_of_load {o : Oid} {c : CommitObj Oid} (hc : loadCommit s o = .ok c)
    (time : Nat) :
    authoredWithin s time o = decide (c.authorTime ≤ time) := by
  rw [authoredWithin, hc]

omit [ObjectId Oid] in
theorem foldlM_append_filter {pass : Oid → Bool} {step : List Oid → Oid → CspResult (List Oid)}
    {l : List Oid} (hstep : ∀ subset, ∀ o ∈ l, step subset o = .ok
      (if pass o then subset ++ [o] else subset)) (subset : List Oid) :
    l.foldlM step subset = .ok (subset ++ l.filter pass) := by
  induction l generalizing subset with
  | nil =>
    rw [List.filter_nil, List.append_nil]
    rfl
  | cons o l ih =>
    have hrest := ih fun subset p hp => hstep subset p (List.mem_cons_of_mem _ hp)
    rw [List.foldlM_cons, hstep subset o List.mem_cons_self, ok_bind, List.filter_cons]
    by_cases hpass : pass o
    · simpa [hpass] using hrest (subset ++ [o])
    · simpa [hpass] using hrest subset

theorem authoredBy_eq {known : List Oid} (hin : ∀ o ∈ known, CommitIn s o) (time : Nat) :
    authoredBy s time known = .ok (known.filter (authoredWithin s time)) := by
  refine foldlM_append_filter (fun subset o ho => ?_) []
  obtain ⟨c, hc, -⟩ := (hin o ho).load
  rw [loadCommit_ok.mp hc, ok_bind, authoredWithin_of_load hc]
  simp only [decide_eq_true_eq]
  rfl

namespace MemEngine
variable [Crates]

theorem restoreTime_run {e : MemEngine Oid} (hin : ∀ o ∈ e.state.known, CommitIn e.store o)
    (time : Nat) :
    restoreTime time e = withStore (foldSubset
      (e.state.known.filter (authoredWithin e.store time))) e := by
  have hread : withStore (StoreM.read fun s => authoredBy s time e.state.known) e =
      (.ok (e.state.known.filter (authoredWithin e.store time)), e) := by
    rw [withStore, StoreM.read, authoredBy_eq hin]
  rw [restoreTime, run_bind_of_ok (run_get e), run_bind_of_ok hread]

end MemEngine

section Spec
variable [Crates] [LawfulObjectId Oid] [LawfulCrates]

/-- Some of the primitives of a history fold, and the commit that they fold to is held. -/
theorem History.computeMain_subset {known subset : List Oid} (h : History s known)
    (hsub : ∀ o ∈ subset, o ∈ known) :
    ∃ m t, Csp.computeMain subset s = (.ok m, t) ∧ s.Extends t ∧ t.Tidy ∧ CommitIn t m := by
  have hin : ∀ o ∈ subset, CommitIn s o := fun o ho => h.commitIn (hsub o ho)
  obtain ⟨m, t, hrun⟩ := computeMain_total h.store.sound hin fun o ho =>
    (h.genuine o (hsub o ho)).descends h.store.sound
  have htwins : Twins (fun _ => True) s s := by
    refine ⟨?_, h.store.sound, h.store.sound⟩
    exact (Store.Extends.refl s).carries.mono fun _ => Tidy.flat
  obtain ⟨-, -, -, -, -, hm⟩ := htwins.computeMain rfl (fun _ _ => trivial) hin hrun
  have hext := extends_computeMain subset s
  have htidy := h.store.computeMain subset
  rw [hrun] at hext htidy
  exact ⟨m, t, hrun, hext, htidy, hm⟩

/-- Restoring a time succeeds and changes nothing but the store. What it yields are the files of
every honest engine that knows just the primitives that were authored by then. -/
theorem restoreTime_exact {e : MemEngine Oid} (h : Honest e) (time : Nat) :
    (∃ files t, MemEngine.restoreTime time e = (.ok files, { e with store := t }) ∧
      e.store.Extends t) ∧
    ∀ e₀ : MemEngine Oid, Honest e₀ →
      (∀ o, o ∈ e₀.state.known ↔ o ∈ e.state.known ∧ authoredWithin e.store time o = true) →
      ∃ m files, e₀.main = some m ∧ filesOf e₀.store m = .ok files ∧
      (MemEngine.restoreTime time e).1 = .ok files := by
  set subset := e.state.known.filter (authoredWithin e.store time) with hsubset
  have hmem : ∀ o, o ∈ subset ↔ o ∈ e.state.known ∧ authoredWithin e.store time o = true := fun o =>
      List.mem_filter
  have hin : ∀ o ∈ subset, CommitIn e.store o := fun o ho => h.history.commitIn ((hmem o).mp ho).1
  obtain ⟨m, t, hrun, hext, htidy, hm⟩ := h.history.computeMain_subset fun o ho =>
    ((hmem o).mp ho).1
  obtain ⟨c, hc, htree, -⟩ := hm.load
  obtain ⟨files, hfiles⟩ := htree.treeFiles
  have hof : filesOf t m = .ok files := filesOf_ok.mpr ⟨c, hc, hfiles⟩
  have hrestore : MemEngine.restoreTime time e = (.ok files, { e with store := t }) := by
    rw [MemEngine.restoreTime_run fun _ => h.history.commitIn, MemEngine.withStore,
      foldSubset_run hrun hof]
  refine ⟨⟨files, t, hrestore, hext⟩, fun e₀ h₀ hknown => ?_⟩
  obtain ⟨m₀, hm₀, hrun₀, hgen₀, -⟩ := h₀.main
  have hin₀ : ∀ o ∈ subset, CommitIn e₀.store o := fun o ho => h₀.history.commitIn
      ((hknown o).mpr ((hmem o).mp ho))
  have hperm : subset.Perm e₀.state.known := by
    refine (List.perm_ext_iff_of_nodup (h.history.nodup.filter _) h₀.history.nodup).mpr fun o => ?_
    rw [hmem, hknown]
  -- the two stores read alike below the primitives of that time
  have hcar := carries_tidy h.history.store h₀.history.store hin hin₀
  have hfront : frontier e₀.store e₀.state.known = frontier e.store subset :=
    hcar.frontier (fun _ hq => hq) (fun _ ho => below_self ho) hin hperm
  have hsame := computeMain_carries hcar h.history.store.sound h₀.history.store.sound
    (fun _ ho => below_self ho) hin
    hfront (show (computeMain subset e.store).1 = .ok m by rw [hrun])
  obtain rfl : m₀ = m := Except.ok.inj (hrun₀.symm.trans hsame)
  have hone : m₀ ∈ [m₀] := List.mem_singleton.mpr rfl
  have hcarm := carries_tidy htidy h₀.history.store
    (fun p (hp : p ∈ [m₀]) => List.mem_singleton.mp hp ▸ hm)
    fun p hp => List.mem_singleton.mp hp ▸ hgen₀.commitIn
  obtain ⟨hc₀, hbelow, -⟩ := hcarm.loadCommit (below_self hone) hc
  exact ⟨m₀, files, hm₀, filesOf_ok.mpr ⟨c, hc₀,
    hcarm.treeFiles (fun _ => Tidy.flat) hbelow hfiles⟩, by rw [hrestore]⟩

end Spec

end Csp

namespace Csp.Small
open MemEngine

def dated : MemEngine Shadow := (commitFromFiles nested 5 fresh).2

def redated : MemEngine Shadow := (commitFromFiles (nested.map fun _ c => 50 :: c) 9 dated).2

theorem dated_spec : dated.state.known.length = 1 ∧ redated.state.known.length = 2 ∧
    redated.state.known.filter (authoredWithin redated.store 7) = dated.state.known := by
  decide +kernel

theorem framable_dated : (∀ p ∈ nested.keys, Framable p) ∧
    ∀ p ∈ (nested.map fun _ c => 50 :: c).keys, Framable p := by
  decide +kernel

theorem honest_dated : Honest dated := by
  have honest : Honest fresh := honest_create owner [] []
  obtain ⟨r, e, hrun, hpub⟩ := Gossip.commitFromFiles_run honest framable_dated.1
    (show 5 < 2 ^ 64 by decide)
  have hdated : dated = e := congrArg Prod.snd hrun
  rw [hdated]
  exact hpub.honest

theorem honest_redated : Honest redated := by
  obtain ⟨r, e, hrun, hpub⟩ :=
    Gossip.commitFromFiles_run honest_dated framable_dated.2 (show 9 < 2 ^ 64 by decide)
  have hredated : redated = e := congrArg Prod.snd hrun
  rw [hredated]
  exact hpub.honest

/-- Between the two times it is as it was published. -/
theorem restoreTime_exact_dated : dated.state.known.length = 1 ∧ redated.state.known.length = 2 ∧
    ∃ m files, dated.main = some m ∧ filesOf dated.store m = .ok files ∧ (restoreTime 7 redated).1 =
    .ok files := by
  obtain ⟨hone, htwo, hknown⟩ := dated_spec
  refine ⟨hone, htwo, (restoreTime_exact honest_redated 7).2 dated honest_dated fun o => ?_⟩
  rw [← hknown, List.mem_filter]

end Csp.Small
