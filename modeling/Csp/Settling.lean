import Csp.Retry

/-! The loop of a host: commit what is staged, materialize `main`. One plan settles the staged
files, and from then on the loop is idle if the files in scope are those of `main`. -/

namespace Csp
open Result
variable {Oid : Type} [ObjectId Oid]

namespace MemEngine

/-- What a plan does with the staged bytes and the record of a path. -/
inductive Outcome (p : Path) (wanted staged : Option Bytes) (recorded : Option Oid) :
    List MaterializeOp → Option Bytes → Option Oid → Prop
  | removed (gone : wanted = none) (there : staged ≠ none)
    (unedited : staged.map blobHash = recorded) :
    Outcome p wanted staged recorded [.remove p] none none
  | left (gone : wanted = none) (edited : staged = none ∨ staged.map blobHash ≠ recorded) :
    Outcome p wanted staged recorded [] staged none
  | held {c : Bytes} (asked : wanted = some c) (same : staged = some c) :
    Outcome p wanted staged recorded [] staged (some (blobHash c))
  | written {c : Bytes} (asked : wanted = some c) (other : staged ≠ some c)
      (unedited : staged = none ∨ staged.map blobHash = recorded) :
    Outcome p wanted staged recorded [.write p c] wanted (some (blobHash c))
  | deferred {c : Bytes} (asked : wanted = some c) (other : staged ≠ some c) (there : staged ≠ none)
      (edited : staged.map blobHash ≠ recorded) :
    Outcome p wanted staged recorded [.defer p] staged recorded

theorem outcome_planAt (p : Path) (wanted staged : Option Bytes) (recorded : Option Oid) :
    Outcome p wanted staged recorded (planAt p wanted staged recorded).1
      ((planAt p wanted staged recorded).1.foldl MaterializeOp.apply staged)
      (planAt p wanted staged recorded).2 := by
  cases wanted with
  | none =>
    unfold planAt removalAt
    dsimp only
    split_ifs with h
    · apply Outcome.removed rfl ?_ h.2
      rintro rfl
      exact h.1 h.2.symm
    · apply Outcome.left rfl
      by_contra hboth
      rw [not_or, not_not] at hboth
      apply h ⟨?_, hboth.2⟩
      rw [← hboth.2]
      exact fun hnone => hboth.1 (Option.map_eq_none_iff.mp hnone)
  | some c =>
    unfold planAt writeAt
    dsimp only
    split_ifs with hsame hedited
    · exact .held rfl hsame
    · exact .deferred rfl hsame hedited.1 hedited.2
    · apply Outcome.written rfl hsame
      by_contra hboth
      rw [not_or] at hboth
      exact hedited hboth

/-- Planned again, a path keeps its bytes and its record; all that is said again is what is
deferred. -/
theorem Outcome.again {p : Path} {wanted staged staged' staged'' : Option Bytes}
    {recorded recorded' recorded'' : Option Oid} {ops ops' : List MaterializeOp}
    (h : Outcome p wanted staged recorded ops staged' recorded')
    (h' : Outcome p wanted staged' recorded' ops' staged'' recorded'') :
    staged'' = staged' ∧ recorded'' = recorded' ∧ ops' = ops.filter fun op => op = .defer p := by
  cases h with
  | removed gone =>
    cases h' with
    | removed _ there => exact absurd rfl there
    | left => simp
    | held asked => rw [gone] at asked; cases asked
    | written asked => rw [gone] at asked; cases asked
    | deferred asked => rw [gone] at asked; cases asked
  | left gone =>
    cases h' with
    | removed _ there unedited => exact absurd (Option.map_eq_none_iff.mp unedited) there
    | left => simp
    | held asked => rw [gone] at asked; cases asked
    | written asked => rw [gone] at asked; cases asked
    | deferred asked => rw [gone] at asked; cases asked
  | @held c asked same =>
    cases h' with
    | removed gone => rw [gone] at asked; cases asked
    | left gone => rw [gone] at asked; cases asked
    | held asked' =>
      obtain rfl := Option.some.inj (asked.symm.trans asked')
      simp
    | written asked' other =>
      obtain rfl := Option.some.inj (asked.symm.trans asked')
      exact absurd same other
    | deferred asked' other =>
      obtain rfl := Option.some.inj (asked.symm.trans asked')
      exact absurd same other
  | @written c asked =>
    cases h' with
    | removed gone => rw [gone] at asked; cases asked
    | left gone => rw [gone] at asked; cases asked
    | held asked' =>
      obtain rfl := Option.some.inj (asked.symm.trans asked')
      simp
    | written asked' other => exact absurd asked' other
    | deferred asked' other => exact absurd asked' other
  | @deferred c asked other there edited =>
    cases h' with
    | removed gone => rw [gone] at asked; cases asked
    | left gone => rw [gone] at asked; cases asked
    | held asked' same =>
      obtain rfl := Option.some.inj (asked.symm.trans asked')
      exact absurd same other
    | written _ _ unedited => exact absurd unedited (not_or.mpr ⟨there, edited⟩)
    | deferred => simp

theorem Outcome.deferred_iff {p : Path} {wanted staged staged' : Option Bytes}
    {recorded recorded' : Option Oid} {ops : List MaterializeOp}
    (h : Outcome p wanted staged recorded ops staged' recorded') :
    .defer p ∉ ops ↔ (∀ c, wanted = some c → staged' = some c) ∧
    recorded' = wanted.map blobHash := by
  cases h with
  | removed gone => simp [gone]
  | left gone => simp [gone]
  | held asked same => simp [asked, same]
  | written asked => simp [asked]
  | deferred asked other => simp [asked, other]

theorem Outcome.of_same {p : Path} {wanted staged staged' : Option Bytes}
    {recorded recorded' : Option Oid} {ops : List MaterializeOp}
    (h : Outcome p wanted staged recorded ops staged' recorded')
    (hstaged : ∀ c, wanted = some c → staged = some c) (hrec : recorded = wanted.map blobHash) :
    staged' = staged ∧ recorded' = recorded ∧ ops = [] := by
  cases h with
  | removed gone there unedited =>
    rw [gone] at hrec
    exact absurd (Option.map_eq_none_iff.mp (unedited.trans hrec)) there
  | left gone => exact ⟨rfl, by rw [hrec, gone]; rfl, rfl⟩
  | held asked => exact ⟨rfl, by rw [hrec, asked]; rfl, rfl⟩
  | written asked other => exact absurd (hstaged _ asked) other
  | deferred asked other => exact absurd (hstaged _ asked) other

theorem Outcome.of_silent {p : Path} {wanted staged staged' : Option Bytes}
    {recorded recorded' : Option Oid} {ops : List MaterializeOp}
    (h : Outcome p wanted staged recorded ops staged' recorded') (hnone : ops = []) :
    (∀ c, wanted = some c → staged = some c) ∧ staged' = staged ∧
    recorded' = wanted.map blobHash := by
  cases h with
  | removed => cases hnone
  | left gone =>
    rw [gone]
    exact ⟨fun c hc => absurd hc (Option.some_ne_none c).symm, rfl, rfl⟩
  | held asked same =>
    rw [asked, same]
    exact ⟨fun c hc => hc, rfl, rfl⟩
  | written => cases hnone
  | deferred => cases hnone

section Engine
variable [Crates] {e e' : MemEngine Oid} {want : FileMap} {ops : List MaterializeOp}

theorem outcome_materializeStaged (h : e.Wants want)
    (hrun : materializeStaged e = (.ok ops, e')) {p : Path}
    (hp : ∀ op ∈ e.pendingQuarantines, op.path ≠ p) :
    Outcome p want[p]? e.working[p]? e.state.materialized[p]?
    (ops.filter fun op => op.path = p) e'.working[p]?
      e'.state.materialized[p]? := by
  rw [materializeStaged_run h] at hrun
  obtain ⟨hops, rfl⟩ := Prod.mk.inj hrun
  obtain rfl := Except.ok.inj hops
  have hlook := @lookPlan_plan Oid _ e.working want e.pendingQuarantines e.state.materialized p
  have hnone : (e.pendingQuarantines.filter fun op => op.path = p) = [] := by
    apply List.filter_eq_nil_iff.mpr
    intro op hop hpath
    exact hp op hop (of_decide_eq_true hpath)
  rw [hnone, List.nil_append, lookPlan] at hlook
  obtain ⟨hsaid, hrecord⟩ := Prod.mk.inj hlook
  dsimp only
  rw [getElem?_applyOps, hsaid, hrecord]
  exact outcome_planAt p want[p]? e.working[p]? e.state.materialized[p]?

theorem wants_of_linear (h : Linear e) : ∃ want, e.Wants want := by
  obtain ⟨m, hm, hmin, -⟩ := h.main
  obtain ⟨c, hc, htree, -⟩ := hmin.load
  obtain ⟨want, hwant⟩ := htree.treeFiles
  exact ⟨want, m, c.tree, hm, mainTree_ok.mpr ⟨c, hc, rfl⟩, hwant⟩

theorem materializeStaged_total (h : e.Wants want) : ∃ ops e', materializeStaged e = (.ok ops, e') ∧
    e'.Wants want ∧ e'.pendingQuarantines = [] ∧ e'.state.bootstrapPending =
    e.state.bootstrapPending ∧ Quiet e e' :=
  ⟨_, _, materializeStaged_run h, h, rfl, rfl, rfl, rfl, rfl⟩

theorem eq_of_materializeStaged (h : e.Wants want) (hrun : materializeStaged e = (.ok ops, e'))
    (hpend : e.pendingQuarantines = []) (hmat : ∀ p : Path, e'.state.materialized[p]? =
      e.state.materialized[p]?)
    (hwork : ∀ p : Path, e'.working[p]? = e.working[p]?) : e' = e := by
  rw [materializeStaged_run h] at hrun
  obtain ⟨-, rfl⟩ := Prod.mk.inj hrun
  dsimp only at hmat hwork ⊢
  rw [Std.ExtTreeMap.ext_getElem? hmat, Std.ExtTreeMap.ext_getElem? hwork, ← hpend]

/-- One plan settles the engine: the next one says again what it defers, and changes nothing. -/
theorem materializeStaged_again (h : e.Wants want) (hpend : e.pendingQuarantines = [])
    (hrun : materializeStaged e = (.ok ops, e')) :
    ∃ ops', materializeStaged e' = (.ok ops', e') ∧ ∀ op, op ∈ ops' ↔ op ∈ ops ∧
    op = .defer op.path := by
  obtain ⟨ops₁, e₁, hrun₁, hwants, hpend', -, -⟩ := materializeStaged_total h
  obtain ⟨rfl, rfl⟩ : ops₁ = ops ∧ e₁ = e' := by simpa using hrun₁.symm.trans hrun
  obtain ⟨ops', e'', hrun', -⟩ := materializeStaged_total hwants
  have hagain : ∀ p : Path, e''.working[p]? = e₁.working[p]? ∧
      e''.state.materialized[p]? = e₁.state.materialized[p]? ∧
      (ops'.filter fun op => op.path = p) = (ops₁.filter fun op => op.path = p).filter fun op =>
      op = .defer p := by
    intro p
    exact (outcome_materializeStaged h hrun (by simp [hpend])).again
      (outcome_materializeStaged hwants hrun' (by simp [hpend']))
  obtain rfl := eq_of_materializeStaged hwants hrun' hpend' (fun p => (hagain p).2.1) fun p =>
    (hagain p).1
  refine ⟨ops', hrun', fun op => ?_⟩
  have hmem : op ∈ ops' ↔ op ∈ ops'.filter fun x => x.path = op.path := by simp
  rw [hmem, (hagain op.path).2.2]
  simp

/-! ### The idle loop -/

/-- What the loop leads to while nothing is staged and nothing is received. -/
inductive Ticked (e : MemEngine Oid) : MemEngine Oid → Prop
  | refl : Ticked e e
  | commit {e' : MemEngine Oid} (h : Ticked e e') (now : Nat) : Ticked e (commitStaged now e').2
  | materialize {e' : MemEngine Oid} (h : Ticked e e') : Ticked e (materializeStaged e').2

/-- However often the loop runs, it authors nothing, asks the host for nothing and changes
nothing. -/
def Idle (e : MemEngine Oid) : Prop :=
  ∀ e', Ticked e e' → e' = e ∧ (∀ now, (commitStaged now e').1 = .ok none) ∧
    (materializeStaged e').1 = .ok []

/-- The staged files, those in scope and the record are those of `main`. -/
structure InStep (e : MemEngine Oid) (want : FileMap) : Prop where
  pending : e.pendingQuarantines = []
  staged : ∀ (p : Path) c, want[p]? = some c → e.working[p]? = some c
  recorded : ∀ p : Path, e.state.materialized[p]? = want[p]?.map blobHash
  inScope : ∀ p : Path, (canonicalizeKeeps e.working e.scope)[p]?.map (@blobHash Oid _) =
    want[p]?.map blobHash
  fresh : ∀ m tree, e.main = some m → mainTree e.store m = .ok tree →
    ∀ p ∈ (canonicalizeKeeps e.working e.scope).keys, ¬ Stale e.store m tree e.state.materialized p

omit [Crates] in
theorem genuineChange_eq_false_iff {mat : Std.ExtTreeMap Path Oid compare} {files : FileMap} :
    genuineChange mat files = false ↔ ∀ p : Path, files[p]?.map blobHash = mat[p]? := by
  rw [genuineChange, Bool.or_eq_false_iff, List.any_eq_false, List.any_eq_false]
  constructor
  · rintro ⟨hfiles, hmat⟩ p
    cases hp : files[p]? with
    | some c =>
      have hsame := hfiles (p, c) (mem_toList.mpr hp)
      exact (by simpa using hsame : mat[p]? = some (blobHash c)).symm
    | none =>
      cases hr : mat[p]? with
      | none => rfl
      | some x =>
        have hin := hmat p (Std.ExtTreeMap.mem_keys.mpr
            (Std.ExtTreeMap.isSome_getElem?_iff_mem.mp (by simp [hr])))
        simp [Std.ExtTreeMap.contains_eq_isSome_getElem?, hp] at hin
  · intro hsame
    constructor
    · intro f hf
      have hrec := hsame f.1
      rw [mem_toList.mp hf] at hrec
      simp [← hrec]
    · intro p hp
      have hrec := Std.ExtTreeMap.isSome_getElem?_iff_mem.mpr (Std.ExtTreeMap.mem_keys.mp hp)
      rw [← hsame p, Option.isSome_map] at hrec
      simp [Std.ExtTreeMap.contains_eq_isSome_getElem?, hrec]

theorem published_of_fresh {m tree : Oid} {files : FileMap} {l : Layer1 Oid}
    (hl : layer1 e.store m tree e.state.materialized files = .ok l)
    (hfresh : ∀ p ∈ files.keys, ¬ Stale e.store m tree e.state.materialized p) :
    l.quarantines = [] ∧ ∀ p : Path, l.filtered[p]? = files[p]? := by
  have hsorted := layer1_sorted hl
  constructor
  · apply List.eq_nil_iff_forall_not_mem.mpr
    intro p hp
    obtain ⟨hin, hstale⟩ := (hsorted.quarantines p).mp hp
    exact hfresh p (mem_keys_iff.mpr hin) hstale
  · intro p
    apply Option.ext
    intro c
    rw [hsorted.filtered, and_iff_left_iff_imp]
    exact fun hc => hfresh p (mem_keys_iff.mpr (by rw [hc]; exact Option.some_ne_none c))

omit [Crates] in
theorem dropQuarantined_nil (e : MemEngine Oid) (ts : Str) : e.dropQuarantined ts [] = e := by
  rw [dropQuarantined, List.map_nil, List.append_nil]
  rfl

theorem idle_of_inStep (h : Linear e) (hw : e.Wants want) (hin : e.InStep want) : e.Idle := by
  obtain ⟨m, hm, hmin, -⟩ := h.main
  obtain ⟨mc, hmc, htree, -⟩ := hmin.load
  have hmt : mainTree e.store m = .ok mc.tree := mainTree_ok.mpr ⟨mc, hmc, rfl⟩
  obtain ⟨l, hl⟩ := layer1_total hmin htree e.state.materialized
    (canonicalizeKeeps e.working e.scope)
  obtain ⟨hnone, hall⟩ := published_of_fresh hl (hin.fresh m mc.tree hm hmt)
  have hsame : genuineChange e.state.materialized l.filtered = false := by
    apply genuineChange_eq_false_iff.mpr
    intro p
    rw [hall, hin.inScope, hin.recorded]
  have hcommit : ∀ now, commitStaged now e = (.ok none, e) := by
    intro now
    have hrun := commitScoped_run (canonicalizeKeeps e.working e.scope) now hm
    rw [hmt] at hrun
    dsimp only at hrun
    rw [hl] at hrun
    dsimp only at hrun
    rw [hnone, dropQuarantined_nil, hsame, if_neg Bool.false_ne_true, ite_self] at hrun
    exact hrun
  have hmaterialize : materializeStaged e = (.ok [], e) := by
    obtain ⟨ops, e', hrun, -⟩ := materializeStaged_total hw
    have hout : ∀ p : Path, e'.working[p]? = e.working[p]? ∧ e'.state.materialized[p]? =
        e.state.materialized[p]? ∧
        (ops.filter fun op => op.path = p) = [] := fun p =>
      (outcome_materializeStaged hw hrun (by simp [hin.pending])).of_same (hin.staged p)
      (hin.recorded p)
    obtain rfl := eq_of_materializeStaged hw hrun hin.pending
      (fun p => (hout p).2.1) fun p => (hout p).1
    have hnil : ops = [] := by
      apply List.eq_nil_iff_forall_not_mem.mpr
      intro op hop
      exact List.filter_eq_nil_iff.mp (hout op.path).2.2 op hop (decide_eq_true rfl)
    rw [hrun, hnil]
  intro e' hticked
  have heq : e' = e := by
    induction hticked with
    | refl => rfl
    | commit _ now ih => rw [ih, hcommit]
    | materialize _ ih => rw [ih, hmaterialize]
  rw [heq, hmaterialize]
  exact ⟨rfl, fun now => by rw [hcommit], rfl⟩

theorem inStep_of_idle (h : Linear e) (hb : e.state.bootstrapPending = false) (hw : e.Wants want)
    (hidle : e.Idle) :
    e.InStep want := by
  obtain ⟨m, hm, hmin, -⟩ := h.main
  obtain ⟨mc, hmc, htree, -⟩ := hmin.load
  have hmt : mainTree e.store m = .ok mc.tree := mainTree_ok.mpr ⟨mc, hmc, rfl⟩
  obtain ⟨-, hcommits, hplans⟩ := hidle e .refl
  obtain ⟨ops, e', hrun, -, hpend', -, -⟩ := materializeStaged_total hw
  rw [hrun] at hplans
  obtain rfl := Except.ok.inj hplans
  have heq := (hidle _ (.materialize .refl)).1
  rw [hrun] at heq
  dsimp only at heq
  subst heq
  have hsilent : ∀ p : Path, _ :=
      fun p => (outcome_materializeStaged hw hrun (p := p) (by simp [hpend'])).of_silent rfl
  -- the commit that authors nothing has sorted the files without stopping one
  obtain ⟨l, hl⟩ := layer1_total hmin htree e'.state.materialized
    (canonicalizeKeeps e'.working e'.scope)
  have hcommit := commitScoped_run (canonicalizeKeeps e'.working e'.scope) 0 hm
  rw [hb, if_neg Bool.false_ne_true, hmt] at hcommit
  dsimp only at hcommit
  rw [hl] at hcommit
  dsimp only at hcommit
  have hnone : (commitScoped (canonicalizeKeeps e'.working e'.scope) 0 e').1 =
      .ok none := hcommits 0
  have hkept : (commitScoped (canonicalizeKeeps e'.working e'.scope) 0 e').2 = e' :=
      (hidle _ (.commit .refl 0)).1
  rw [hcommit] at hnone hkept
  cases hg : genuineChange (e'.dropQuarantined (orphansBucket 0) l.quarantines).state.materialized
    l.filtered with
  | true =>
    rw [hg, if_pos rfl] at hnone
    split at hnone
    · cases hnone
    · cases hnone
  | false =>
    rw [hg, if_neg Bool.false_ne_true] at hkept
    have hquar : l.quarantines = [] := by
      have hpending := congrArg MemEngine.pendingQuarantines hkept
      rw [dropQuarantined, List.append_right_eq_self, List.map_eq_nil_iff] at hpending
      exact hpending
    have hfresh : ∀ p ∈ (canonicalizeKeeps e'.working e'.scope).keys,
        ¬ Stale e'.store m mc.tree e'.state.materialized p := by
      intro p hp hstale
      have hin := ((layer1_sorted hl).quarantines p).mpr ⟨mem_keys_iff.mp hp, hstale⟩
      rw [hquar] at hin
      cases hin
    rw [hquar, dropQuarantined_nil, genuineChange_eq_false_iff] at hg
    refine ⟨hpend', fun p => (hsilent p).1, fun p => (hsilent p).2.2, fun p => ?_,
      fun m' tree' hm' htree' => ?_⟩
    · rw [← (published_of_fresh hl hfresh).2, hg, (hsilent p).2.2]
    · obtain rfl := Option.some.inj (hm.symm.trans hm')
      obtain rfl := Except.ok.inj (hmt.symm.trans htree')
      exact hfresh

variable [LawfulObjectId Oid] [LawfulCrates]

/-- Materializing a reachable engine succeeds. A path that no move is pending for gets what
`main` has, or keeps an edit; the next plan says again what is deferred and changes nothing. -/
theorem materializeStaged_settles (h : Reached e) :
    ∃ want ops e', e.Wants want ∧ materializeStaged e = (.ok ops, e') ∧ Quiet e e' ∧
      (∀ p : Path, (∀ op ∈ e.pendingQuarantines, op.path ≠ p) →
        Outcome p want[p]? e.working[p]? e.state.materialized[p]?
        (ops.filter fun op => op.path = p) e'.working[p]?
          e'.state.materialized[p]?) ∧
      (e.pendingQuarantines = [] →
        ∃ ops', materializeStaged e' = (.ok ops', e') ∧ ∀ op, op ∈ ops' ↔ op ∈ ops ∧
        op = .defer op.path) := by
  obtain ⟨want, hwant⟩ := wants_of_linear h.linear
  obtain ⟨ops, e', hrun, -, -, -, hquiet⟩ := materializeStaged_total hwant
  exact ⟨want, ops, e', hwant, hrun, hquiet, fun p hp => outcome_materializeStaged hwant hrun hp,
    fun hpend => materializeStaged_again hwant hpend hrun⟩

/-- After one plan the loop is idle for good if and only if nothing was deferred and the staged
files in scope, none of them stale, are those of `main`. -/
theorem idle_after_materialize (h : Reached e) (hboot : e.state.bootstrapPending = false)
    (hpend : e.pendingQuarantines = []) (hrun : materializeStaged e = (.ok ops, e'))
    (hw : e.Wants want) :
    e'.Idle ↔ (∀ p, .defer p ∉ ops) ∧
      (∀ p : Path, (canonicalizeKeeps e'.working e'.scope)[p]?.map (@blobHash Oid _) =
        want[p]?.map blobHash) ∧
      ∀ m tree, e'.main = some m → mainTree e'.store m = .ok tree →
        ∀ p ∈ (canonicalizeKeeps e'.working e'.scope).keys,
        ¬ Stale e'.store m tree e'.state.materialized p := by
  obtain ⟨ops₁, e₁, hrun₁, hwants, hpend', hboot', hquiet⟩ := materializeStaged_total hw
  obtain ⟨rfl, rfl⟩ : ops₁ = ops ∧ e₁ = e' := by simpa using hrun₁.symm.trans hrun
  have hlinear : Linear e₁ := h.linear.quiet hquiet
  have hdefer : ∀ p : Path, .defer p ∉ ops₁ ↔ (∀ c, want[p]? = some c → e₁.working[p]? = some c) ∧
      e₁.state.materialized[p]? = want[p]?.map blobHash := by
    intro p
    rw [← (outcome_materializeStaged hw hrun (by simp [hpend])).deferred_iff]
    simp [MaterializeOp.path]
  constructor
  · intro hidle
    have hin := inStep_of_idle hlinear (hboot'.trans hboot) hwants hidle
    exact ⟨fun p => (hdefer p).mpr ⟨hin.staged p, hin.recorded p⟩, hin.inScope, hin.fresh⟩
  · rintro ⟨hnone, hscope, hfresh⟩
    exact idle_of_inStep hlinear hwants
      ⟨hpend', fun p => ((hdefer p).mp (hnone p)).1, fun p => ((hdefer p).mp (hnone p)).2,
      hscope, hfresh⟩

end Engine

end MemEngine

namespace Small
open MemEngine

def edited : MemEngine Shadow := (publish fresh nested).2.stageWrite ['x', '/', 'y'] [51]

theorem edited_spec : (publish fresh nested).1.isOk = true ∧ edited.state.bootstrapPending = false ∧
    edited.pendingQuarantines = [] ∧ (materializeStaged edited).1 = .ok
    [.defer ['x', '/', 'y']] := by
  decide +kernel

theorem quiet_stageWrite (e : MemEngine Shadow) (p : Path) (c : Bytes) :
    Quiet e (e.stageWrite p c) := ⟨rfl, rfl, rfl⟩

theorem reached_edited : Reached edited :=
  (reached_publish (.create owner [] []) framable_nested edited_spec.1).quiet
    (quiet_stageWrite _ _ _)

theorem materializeStaged_settles_edited : ∃ want ops e', edited.Wants want ∧
    materializeStaged edited = (.ok ops, e') ∧ ∃ ops', materializeStaged e' = (.ok ops', e') := by
  obtain ⟨want, ops, e', hwant, hrun, -, -, hagain⟩ := materializeStaged_settles reached_edited
  obtain ⟨ops', hrun', -⟩ := hagain edited_spec.2.2.1
  exact ⟨want, ops, e', hwant, hrun, ops', hrun'⟩

/-- The edit is still to be committed. -/
theorem idle_after_materialize_edited : ¬ (materializeStaged edited).2.Idle := by
  obtain ⟨-, hboot, hpend, hdefer⟩ := edited_spec
  obtain ⟨want, hwant⟩ := wants_of_linear reached_edited.linear
  have hrun : materializeStaged edited = (.ok [.defer ['x', '/', 'y']],
        (materializeStaged edited).2) := by rw [← hdefer]
  intro hidle
  exact ((idle_after_materialize reached_edited hboot hpend hrun hwant).mp hidle).1 _
    List.mem_cons_self

end Small

end Csp
