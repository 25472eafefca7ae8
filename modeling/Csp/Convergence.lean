import Csp.Honest

/-! Convergence. Any number of engines commit and hand one another closures of what they know;
the closures arrive in any order, again and again, and put together in any way. -/

namespace Csp
open Result
variable {Oid : Type} [ObjectId Oid] [Crates] {ι : Type}

/-- The engines, the closures that were exported, and the batches that each engine was given. -/
structure Gossip (ι Oid : Type) [ObjectId Oid] where
  engine : ι → MemEngine Oid
  exported : List (List Bytes) := []
  given : ι → List (List Bytes) := fun _ => []

namespace Gossip

/-- A batch is made of whole exports. -/
def Deliverable (w : Gossip ι Oid) (raws : List Bytes) : Prop :=
  ∀ r ∈ raws, ∃ x ∈ w.exported, r ∈ x ∧ ∀ r' ∈ x, r' ∈ raws

variable [DecidableEq ι]

inductive Step (w : Gossip ι Oid) : Gossip ι Oid → Prop
  | commit {files : FileMap} {now : Nat} (i : ι) (names : ∀ p ∈ files.keys, Framable p)
      (clock : now < 2 ^ 64) :
      Step w { w with
        engine := Function.update w.engine i (MemEngine.commitFromFiles files now (w.engine i)).2 }
  | send {tips : List Oid} {raws : List Bytes} (i : ι)
      (known : ∀ o ∈ tips, o ∈ (w.engine i).state.known)
      (run : (w.engine i).exportClosure tips = .ok raws) :
      Step w { w with exported := w.exported ++ [raws] }
  | deliver {raws : List Bytes} (i : ι) (whole : w.Deliverable raws) :
      Step w { w with
        engine := Function.update w.engine i (MemEngine.integrate raws (w.engine i)).2
        given := Function.update w.given i (w.given i ++ [raws]) }

abbrev Runs : Gossip ι Oid → Gossip ι Oid → Prop := Relation.ReflTransGen Step

structure Good (w : Gossip ι Oid) : Prop where
  honest : ∀ i, Honest (w.engine i)
  exported : ∀ x ∈ w.exported, ∃ (s : Store Oid) (tips : List Oid), s.Tidy ∧
    (∀ o ∈ tips, Genuine s o) ∧
    closureOf s tips = .ok x
  given : ∀ i, ∀ raws ∈ w.given i, w.Deliverable raws ∧ ∀ o ∈ accepted raws,
    o ∈ (w.engine i).state.known

omit [DecidableEq ι] in
theorem Good.gathered {w : Gossip ι Oid} (h : w.Good) {raws : List Bytes}
    (hr : w.Deliverable raws) :
    Gathered Oid raws := by
  intro r hmem
  obtain ⟨x, hx, hrx, hsub⟩ := hr r hmem
  obtain ⟨s, tips, hs, hgen, hexp⟩ := h.exported x hx
  exact ⟨s, tips, x, hs, hgen, hexp, hrx, hsub⟩

variable [LawfulObjectId Oid] [LawfulCrates]

theorem commitFromFiles_run {e : MemEngine Oid} (h : Honest e) {files : FileMap}
    (hnames : ∀ p ∈ files.keys, Framable p) {now : Nat} (hnow : now < 2 ^ 64) :
    ∃ r e', MemEngine.commitFromFiles files now e = (.ok r, e') ∧ Published r e e' := by
  have hstaged : Honest { e with working := files } := h.quiet ⟨rfl, rfl, rfl⟩
  obtain ⟨r, e', hrun, hpub⟩ := hstaged.commitStaged hnames hnow
  exact ⟨r, e', (run_bind_of_ok (run_modify _ e)).trans hrun, hpub.honest, hpub.ext, hpub.known⟩

/-- Step lemma. -/
theorem Good.step {w w' : Gossip ι Oid} (h : w.Good) (hs : w.Step w') : w'.Good := by
  -- what one engine does keeps what the others know
  have update : ∀ (i : ι) (e' : MemEngine Oid), Honest e' →
      (∀ o ∈ (w.engine i).state.known, o ∈ e'.state.known) →
      (∀ j, Honest (Function.update w.engine i e' j)) ∧
        ∀ j o, o ∈ (w.engine j).state.known → o ∈
        (Function.update w.engine i e' j).state.known := by
    intro i e' he' hmono
    refine ⟨fun j => ?_, fun j o ho => ?_⟩
    · by_cases hj : j = i
      · subst j
        rwa [Function.update_self]
      · rw [Function.update_of_ne hj]
        exact h.honest j
    · by_cases hj : j = i
      · subst j
        rw [Function.update_self]
        exact hmono o ho
      · rwa [Function.update_of_ne hj]
  cases hs with
  | @commit files now i names clock =>
    obtain ⟨r, e', hrun, hpub⟩ := commitFromFiles_run (h.honest i) names clock
    rw [hrun]
    obtain ⟨hhon, hknown⟩ := update i e' hpub.honest fun o ho => by
      rw [hpub.known]
      cases r with
      | none => exact ho
      | some o' => exact mem_addNew.mpr (.inl ho)
    exact ⟨hhon, h.exported, fun j raws hr =>
      ⟨(h.given j raws hr).1, fun o ho => hknown j o ((h.given j raws hr).2 o ho)⟩⟩
  | @send tips raws i known run =>
    refine ⟨h.honest, fun x hx => ?_, fun j raws' hr => ⟨fun r hmem => ?_, (h.given j raws' hr).2⟩⟩
    · rcases List.mem_append.mp hx with hx | hx
      · exact h.exported x hx
      · obtain rfl := List.mem_singleton.mp hx
        exact ⟨(w.engine i).store, tips, (h.honest i).history.store,
          fun o ho => (h.honest i).history.genuine o (known o ho), run⟩
    · obtain ⟨x, hx, hsub⟩ := (h.given j raws' hr).1 r hmem
      exact ⟨x, List.mem_append_left _ hx, hsub⟩
  | @deliver raws i whole =>
    obtain ⟨n, e', hrun, htook⟩ := (h.honest i).integrate_gathered (h.gathered whole)
    rw [hrun]
    obtain ⟨hhon, hknown⟩ := update i e' htook.honest fun o ho => by
      rw [htook.known]
      exact mem_foldl_addNew.mpr (.inl ho)
    refine ⟨hhon, h.exported, fun j raws' hr => ?_⟩
    by_cases hj : j = i
    · subst j
      replace hr : raws' ∈ Function.update w.given i (w.given i ++ [raws]) i := hr
      rw [Function.update_self] at hr
      rcases List.mem_append.mp hr with hr | hr
      · exact ⟨(h.given i raws' hr).1, fun o ho => hknown i o ((h.given i raws' hr).2 o ho)⟩
      · obtain rfl := List.mem_singleton.mp hr
        refine ⟨whole, fun o ho => ?_⟩
        show o ∈ (Function.update w.engine i e' i).state.known
        rw [Function.update_self, htook.known]
        exact mem_foldl_addNew.mpr (.inr ho)
    · replace hr : raws' ∈ Function.update w.given i (w.given i ++ [raws]) j := hr
      rw [Function.update_of_ne hj] at hr
      exact ⟨(h.given j raws' hr).1, fun o ho => hknown j o ((h.given j raws' hr).2 o ho)⟩

/-- Run lemma. -/
theorem Good.runs {w w' : Gossip ι Oid} (h : w.Good) (hr : Runs w w') : w'.Good := by
  induction hr with
  | refl => exact h
  | tail _ hstep ih => exact ih.step hstep

/-- Engines that only ever commit and exchange closures converge: no export and no batch is
refused, `main` is at each time the fold of what is known, engines that know the same have the
same `main` and the same files, and a batch that was given before changes nothing. -/
theorem gossip_converges {identity : ι → Identity} {vaultId name : ι → Str} {w : Gossip ι Oid}
    (hr : Runs { engine := fun i => MemEngine.create (identity i) (vaultId i) (name i) } w) :
    (∀ i raws, w.Deliverable raws → ∃ n e', MemEngine.integrate raws (w.engine i) = (.ok n, e')) ∧
    (∀ i tips, (∀ o ∈ tips, o ∈ (w.engine i).state.known) → ∃ raws,
      (w.engine i).exportClosure tips = .ok raws) ∧
    (∀ i, ∃ m, (w.engine i).main = some m ∧
      (computeMain (w.engine i).state.known (w.engine i).store).1 = .ok m) ∧
    (∀ i j, (∀ o, o ∈ (w.engine i).state.known ↔ o ∈ (w.engine j).state.known) →
      ∃ m c files, (w.engine i).main = some m ∧ (w.engine j).main = some m ∧
        loadCommit (w.engine i).store m = .ok c ∧ loadCommit (w.engine j).store m = .ok c ∧
        treeFiles (w.engine i).store c.tree = .ok files ∧ treeFiles (w.engine j).store c.tree =
        .ok files) ∧
    ∀ i, ∀ raws ∈ w.given i, ∃ e', MemEngine.integrate raws (w.engine i) = (.ok 0, e') ∧
      e'.state.known = (w.engine i).state.known ∧ e'.main = (w.engine i).main := by
  have hstart : Good ({ engine := fun i => MemEngine.create (identity i) (vaultId i) (name i) } :
        Gossip ι Oid) :=
    ⟨fun i => honest_create _ _ _, (by rintro x ⟨⟩), by rintro i raws ⟨⟩⟩
  have h := hstart.runs hr
  refine ⟨fun i raws hraws => ?_, fun i tips ht => ?_, fun i => ?_, fun i j hknown => ?_,
    fun i raws hraws => ?_⟩
  · obtain ⟨n, e', hrun, -⟩ := (h.honest i).integrate_gathered (h.gathered hraws)
    exact ⟨n, e', hrun⟩
  · obtain ⟨raws, hraws, -⟩ := (h.honest i).exportClosure ht
    exact ⟨raws, hraws⟩
  · obtain ⟨m, hm, hrun, -⟩ := (h.honest i).main
    exact ⟨m, hm, hrun⟩
  · refine (h.honest i).main_eq (h.honest j) fun o => ?_
    rw [mem_kept fun _ => (h.honest i).history.commitIn, mem_kept fun _ =>
      (h.honest j).history.commitIn, hknown o]
    refine and_congr_right fun ho => ?_
    exact (effective_tidy (h.honest i).history.store (h.honest j).history.store
      ((h.honest i).history.commitIn ((hknown o).mpr ho)) ((h.honest j).history.commitIn ho)).symm
  · obtain ⟨hwhole, hall⟩ := h.given i raws hraws
    obtain ⟨n, e', hrun, htook⟩ := (h.honest i).integrate_gathered (h.gathered hwhole)
    have hsame : e'.state.known = (w.engine i).state.known :=
        htook.known.trans (foldl_addNew_eq_self.mpr hall)
    have hcount := htook.count
    obtain rfl : n = 0 := by
      rw [hsame] at hcount
      omega
    exact ⟨e', hrun, hsame, htook.same rfl⟩

end Gossip

end Csp

/-! ### Two engines -/

namespace Csp.Small

def rawsOf (r : CspResult (List Bytes)) : List Bytes :=
  match r with
  | .ok raws => raws
  | .error _ => []

theorem ok_rawsOf {r : CspResult (List Bytes)} (h : r.isOk = true) : r = .ok (rawsOf r) := by
  cases r with
  | ok raws => rfl
  | error e => cases h

def committed : MemEngine Shadow := (MemEngine.commitFromFiles nested 0 fresh).2

def committedRaws : List Bytes := rawsOf (committed.exportClosure committed.state.known)

def received : MemEngine Shadow := (MemEngine.integrate committedRaws fresh).2

theorem committed_spec : (committed.exportClosure committed.state.known).isOk = true ∧
    received.state.known = committed.state.known ∧ ∀ p ∈ nested.keys,
    Framable p := by decide +kernel

/-- One engine publishes a file, and the other is given its closure. -/
theorem gossip_converges_pair : ∃ m, committed.main = some m ∧ received.main = some m := by
  obtain ⟨hok, hknown, hnames⟩ := committed_spec
  have key : ∀ (e c r : MemEngine Shadow) (raws : List Bytes), e = MemEngine.create owner [] [] →
      (MemEngine.commitFromFiles nested 0 e).2 = c → c.exportClosure c.state.known = .ok raws →
      (MemEngine.integrate raws e).2 = r → r.state.known = c.state.known →
      ∃ m, c.main = some m ∧ r.main = some m := by
    intro e c r raws he hc hexp hr hknown
    have hcommit := Gossip.Step.commit (w := { engine := fun _ => e }) true hnames
      (show 0 < 2 ^ 64 by decide)
    rw [hc] at hcommit
    have hsend := Gossip.Step.send true (fun _ => id) hexp
      (w := { engine := Function.update (fun _ => e) true c })
    have hdeliver := Gossip.Step.deliver false
      (fun r hr => ⟨raws, List.mem_singleton.mpr rfl, hr, fun _ => id⟩)
      (w := { engine := Function.update (fun _ => e) true c, exported := [raws] })
    have hother : Function.update (fun _ => e) true c false = e := rfl
    simp only [hother, hr] at hdeliver
    have hrun := ((Relation.ReflTransGen.single hcommit).tail hsend).tail hdeliver
    rw [he] at hrun
    obtain ⟨-, -, -, hconv, -⟩ :=
      @Gossip.gossip_converges _ _ _ _ _ _ _ (fun _ => owner) (fun _ => []) (fun _ => []) _ hrun
    obtain ⟨m, -, -, hm, hm', -⟩ := hconv true false fun o => by
      simp only [Function.update_self, ne_eq, reduceCtorEq, not_false_eq_true,
        Function.update_of_ne, hknown]
    simp only [Function.update_self, ne_eq, reduceCtorEq, not_false_eq_true,
      Function.update_of_ne] at hm hm'
    exact ⟨m, hm, hm'⟩
  exact key fresh committed received committedRaws rfl rfl (ok_rawsOf hok) rfl hknown

end Csp.Small
