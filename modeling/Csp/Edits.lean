import Csp.Honest
import Csp.Processes
import Csp.Queries
import Csp.Settling

/-! What a commit authors, path by path: the staged files in scope that the guard does not take
for stale, if one of them was edited or a recorded file is gone. -/

namespace Csp
open Result
variable {Oid : Type} [ObjectId Oid] [Crates]

namespace MemEngine

def scopedFiles (e : MemEngine Oid) : FileMap := canonicalizeKeeps e.working e.scope

/-- The guard of a commit takes the path for stale. -/
def Guarded (e : MemEngine Oid) (p : Path) : Prop :=
  ∃ m tree, e.main = some m ∧ mainTree e.store m = .ok tree ∧
    Stale e.store m tree e.state.materialized p

/-- The bytes in scope are not those on record, and the guard does not keep them back. -/
def Edited (e : MemEngine Oid) (p : Path) : Prop :=
  e.scopedFiles[p]?.map blobHash ≠ e.state.materialized[p]? ∧
    (e.scopedFiles[p]? ≠ none → ¬ e.Guarded p)

variable {e : MemEngine Oid}

theorem guarded_iff {m tree : Oid} (hm : e.main = some m) (ht : mainTree e.store m = .ok tree)
    {p : Path} :
    e.Guarded p ↔ Stale e.store m tree e.state.materialized p := by
  constructor
  · rintro ⟨m', tree', hm', ht', hstale⟩
    obtain rfl := Option.some.inj (hm.symm.trans hm')
    obtain rfl := Except.ok.inj (ht.symm.trans ht')
    exact hstale
  · exact fun hstale => ⟨m, tree, hm, ht, hstale⟩

theorem genuineChange_iff_edited {m tree : Oid} (hm : e.main = some m)
    (ht : mainTree e.store m = .ok tree) {l : Layer1 Oid}
    (hl : layer1 e.store m tree e.state.materialized e.scopedFiles = .ok l) (ts : Str) :
    genuineChange (e.dropQuarantined ts l.quarantines).state.materialized l.filtered = true ↔ ∃ p,
    e.Edited p := by
  have hsorted := layer1_sorted hl
  have hat : ∀ p : Path, l.filtered[p]?.map blobHash ≠
      (e.dropQuarantined ts l.quarantines).state.materialized[p]? ↔
      e.Edited p := by
    intro p
    rw [dropQuarantined, getElem?_foldl_erase, Edited, guarded_iff hm ht]
    by_cases hstale : e.scopedFiles[p]? ≠ none ∧ Stale e.store m tree e.state.materialized p
    · have hnone : l.filtered[p]? = none := by
        apply Option.eq_none_iff_forall_ne_some.mpr
        intro c hc
        exact ((hsorted.filtered p c).mp hc).2 hstale.2
      rw [if_pos ((hsorted.quarantines p).mpr hstale), hnone]
      simp [hstale.1, hstale.2]
    · have hsame : l.filtered[p]? = e.scopedFiles[p]? := by
        apply Option.ext
        intro c
        rw [hsorted.filtered, and_iff_left_iff_imp]
        intro hc hs
        exact hstale ⟨by rw [hc]; exact Option.some_ne_none c, hs⟩
      rw [if_neg fun hin => hstale ((hsorted.quarantines p).mp hin), hsame, iff_self_and]
      exact fun _ hin hs => hstale ⟨hin, hs⟩
  rw [← Bool.not_eq_false, genuineChange_eq_false_iff, not_forall]
  exact exists_congr hat

variable [LawfulObjectId Oid] [LawfulCrates]

theorem commitStaged_sorted (h : Linear e) (hb : e.state.bootstrapPending = false)
    (hnames : ∀ p ∈ e.working.keys, Framable p) {now : Nat} (hnow : now < 2 ^ 64) :
    ∃ m tree l d, e.main = some m ∧ mainTree e.store m = .ok tree ∧
      layer1 e.store m tree e.state.materialized e.scopedFiles = .ok l ∧
      d = e.dropQuarantined (orphansBucket now) l.quarantines ∧
      ((genuineChange d.state.materialized l.filtered = false ∧
        commitStaged now e = (.ok none, d)) ∨
        (genuineChange d.state.materialized l.filtered = true ∧
          ∃ o e', author m l now d = (.ok o, e') ∧ commitStaged now e = (.ok (some o), e') ∧
            filesOf e'.store o = .ok (storedFiles l.filtered) ∧
            e'.Wants (storedFiles l.filtered))) := by
  obtain ⟨m, hm, hmin, -⟩ := h.main
  obtain ⟨mc, hmc, htree, -⟩ := hmin.load
  have hmt : mainTree e.store m = .ok mc.tree := mainTree_ok.mpr ⟨mc, hmc, rfl⟩
  obtain ⟨l, hl⟩ := layer1_total hmin htree e.state.materialized e.scopedFiles
  have hrun := commitScoped_run e.scopedFiles now hm
  rw [hb, if_neg Bool.false_ne_true, hmt] at hrun
  dsimp only at hrun
  rw [hl] at hrun
  dsimp only at hrun
  refine ⟨m, mc.tree, l, _, hm, hmt, hl, rfl, ?_⟩
  cases hg : genuineChange (e.dropQuarantined (orphansBucket now) l.quarantines).state.materialized
    l.filtered with
  | false =>
    rw [hg, if_neg Bool.false_ne_true] at hrun
    exact .inl ⟨rfl, hrun⟩
  | true =>
    have hfr := framable_filtered hnames hl
    have hlinear := h.quiet (Quiet.mk rfl rfl rfl :
        Quiet e (e.dropQuarantined (orphansBucket now) l.quarantines))
    obtain ⟨o, e', ha⟩ := hlinear.author_total hm hmc (layer1_named hl) hfr hnow
    obtain ⟨rfl, -, hlines⟩ := hlinear.author hm hmc (layer1_named hl) hfr hnow ha
    obtain ⟨m', hm', hload'⟩ := hlines.wrapper
    rw [hg, if_pos rfl, ha] at hrun
    exact .inr ⟨rfl, _, e', ha, hrun, filesOf_ok.mpr ⟨_, hlines.held.load, hlines.held.files⟩,
      m', _, hm', mainTree_ok.mpr ⟨_, hload', rfl⟩, hlines.held.files⟩

/-- A commit returns, authors if and only if a path is edited, and what it authors holds the staged
files in scope that are not kept back, as far as a tree can store them. -/
theorem commitStaged_edits (h : Linear e) (hb : e.state.bootstrapPending = false)
    (hnames : ∀ p ∈ e.working.keys, Framable p) {now : Nat} (hnow : now < 2 ^ 64) :
    ∃ r e', commitStaged now e = (.ok r, e') ∧ ((∃ o, r = some o) ↔ ∃ p, e.Edited p) ∧
      ∀ o, r = some o → ∃ files, filesOf e'.store o = .ok files ∧ e'.Wants files ∧
        ∀ (p : Path) c, files[p]? = some c ↔ e.scopedFiles[p]? = some c ∧ Storable p ∧
        ¬ e.Guarded p := by
  obtain ⟨m, tree, l, d, hm, ht, hl, rfl, hcase⟩ := commitStaged_sorted h hb hnames hnow
  have hiff := genuineChange_iff_edited hm ht hl (orphansBucket now)
  rcases hcase with ⟨hg, hrun⟩ | ⟨hg, o, e', -, hrun, hfiles, hwants⟩
  · have hnone : ¬ ∃ p, e.Edited p := fun hex => by
      rw [hiff.mpr hex] at hg
      cases hg
    exact ⟨none, _, hrun, ⟨fun ⟨o, ho⟩ => absurd ho (Option.some_ne_none o).symm, fun hex =>
      absurd hex hnone⟩,
      fun o ho => absurd ho (Option.some_ne_none o).symm⟩
  · refine ⟨some o, e', hrun, ⟨fun _ => hiff.mp hg, fun _ => ⟨o, rfl⟩⟩, fun o' ho => ?_⟩
    obtain rfl := Option.some.inj ho
    refine ⟨storedFiles l.filtered, hfiles, hwants, fun p c => ?_⟩
    rw [getElem?_storedFiles, (layer1_sorted hl).filtered, guarded_iff hm ht]
    tauto

end MemEngine

section Spec
variable [LawfulObjectId Oid] [LawfulCrates]

theorem Honest.linear {e : MemEngine Oid} (h : Honest e) : Linear e := by
  have hin : ∀ o ∈ e.state.known, CommitIn e.store o := fun o ho => h.history.commitIn ho
  refine ⟨h.history.store.sound, h.history.nodup, hin, h.history.primitive, ?_⟩
  obtain ⟨m, hm, hrun, hgen, -⟩ := h.main
  refine ⟨m, hm, hgen.commitIn, fun o ho heff => ?_⟩
  have hpair : computeMain e.state.known e.store =
      (.ok m, (computeMain e.state.known e.store).2) := by rw [← hrun]
  have habove := computeMain_above h.history.store.sound hin h.history.primitive hpair ho heff
  exact habove.of_extends (extends_computeMain _ _) hgen.commitIn

namespace MemEngine

/-- A commit of a reachable engine returns. It authors if and only if a path is edited, and both the
new primitive and `main` then hold exactly the staged files in scope that a tree can store and that
the guard does not keep back. -/
theorem commitStaged_exact {e : MemEngine Oid} (h : Reached e)
    (hb : e.state.bootstrapPending = false) (hnames : ∀ p ∈ e.working.keys, Framable p) {now : Nat}
    (hnow : now < 2 ^ 64) :
    ∃ r e', commitStaged now e = (.ok r, e') ∧ ((∃ o, r = some o) ↔ ∃ p, e.Edited p) ∧
      ∀ o, r = some o → ∃ files, filesOf e'.store o = .ok files ∧ e'.Wants files ∧
        ∀ (p : Path) c, files[p]? = some c ↔ e.scopedFiles[p]? = some c ∧ Storable p ∧
        ¬ e.Guarded p :=
  commitStaged_edits h.linear hb hnames hnow

/-- After a commit of an honest engine whose files a file system can hold, the loop is idle if and
only if no move is pending and a tree can store the files as they are staged. -/
theorem authored_idle_iff {e e' : MemEngine Oid} (h : Honest e)
    (hnames : ∀ p ∈ e.working.keys, Framable p) {now : Nat} (hnow : now < 2 ^ 64)
    (hfree : PrefixFree e.scopedFiles) {o : Oid} (hrun : commitStaged now e = (.ok (some o), e')) :
    e'.Idle ↔ e'.pendingQuarantines = [] ∧
      ∀ (p : Path) c, e.scopedFiles[p]? = some c → Storable p ∧ e.working[p]? = some c := by
  obtain ⟨m₀, hm₀, -⟩ := h.linear.main
  have hb : e.state.bootstrapPending = false := by
    by_contra hboot
    have hheld := commitScoped_run e.scopedFiles now hm₀
    rw [if_pos (by simpa using hboot)] at hheld
    cases (Prod.mk.inj (hheld.symm.trans hrun)).1
  obtain ⟨m, tree, l, d, hm, ht, hl, rfl, hcase⟩ := commitStaged_sorted h.linear hb hnames hnow
  rcases hcase with ⟨-, hnone⟩ | ⟨-, o', e₁, ha, hsome, -, hwants⟩
  · cases (Prod.mk.inj (hnone.symm.trans hrun)).1
  obtain ⟨-, rfl⟩ := Prod.mk.inj (hsome.symm.trans hrun)
  obtain ⟨r, e₂, hrun₂, hpublished⟩ := h.commitStaged hnames hnow
  obtain ⟨-, rfl⟩ := Prod.mk.inj (hrun₂.symm.trans hrun)
  have hrecorded := recorded_author ha
  have hsorted := layer1_sorted hl
  have hrecord : ∀ p : Path, e₂.state.materialized[p]? = l.filtered[p]?.map blobHash := by
    intro p
    rw [hrecorded.materialized, recordOf, Std.ExtTreeMap.getElem?_map]
  -- with no move pending the guard has stopped nothing
  have hkept : e₂.pendingQuarantines = [] →
      e₂.working = e.working ∧ ∀ p : Path, l.filtered[p]? = e.scopedFiles[p]? := by
    intro hpend
    rw [hrecorded.pending, dropQuarantined, List.append_eq_nil_iff, List.map_eq_nil_iff] at hpend
    refine ⟨?_, fun p => (published_of_fresh hl ?_).2 p⟩
    · rw [hrecorded.working, hpend.2, dropQuarantined]
      rfl
    · intro q hq hstale
      have hin := (hsorted.quarantines q).mpr ⟨mem_keys_iff.mp hq, hstale⟩
      rw [hpend.2] at hin
      cases hin
  constructor
  · intro hidle
    have hin := inStep_of_idle hpublished.honest.linear (hrecorded.bootstrap.trans hb) hwants hidle
    obtain ⟨hworking, hall⟩ := hkept hin.pending
    refine ⟨hin.pending, fun p c hc => ?_⟩
    have hrec := hin.recorded p
    rw [hrecord, hall, hc] at hrec
    cases hw : (storedFiles l.filtered)[p]? with
    | none => rw [hw] at hrec; cases hrec
    | some c' =>
      obtain ⟨hst, hf⟩ := getElem?_storedFiles.mp hw
      obtain rfl := Option.some.inj (hc.symm.trans ((hall p).symm.trans hf))
      exact ⟨hst, by rw [← hworking]; exact hin.staged p c hw⟩
  · rintro ⟨hpend, hfiles⟩
    obtain ⟨hworking, hall⟩ := hkept hpend
    have hwant : ∀ p : Path, (storedFiles l.filtered)[p]? = e.scopedFiles[p]? := by
      intro p
      apply Option.ext
      intro c
      rw [getElem?_storedFiles, hall, and_iff_right_iff_imp]
      exact fun hc => (hfiles p c hc).1
    have hscoped : canonicalizeKeeps e₂.working e₂.scope = e.scopedFiles := by
      rw [hworking, hrecorded.scope]
      rfl
    refine idle_of_inStep hpublished.honest.linear hwants ⟨hpend, fun p c hc => ?_, fun p => ?_,
      fun p => ?_, ?_⟩
    · rw [hworking]
      exact (hfiles p c (by rw [← hwant]; exact hc)).2
    · rw [hrecord, hall, hwant]
    · rw [hscoped, hwant]
    · intro m' tree' hm' htree' p hp hstale
      obtain ⟨m₁, tree₁, hm₁, htree₁, hfiles₁⟩ := hwants
      obtain rfl := Option.some.inj (hm₁.symm.trans hm')
      obtain rfl := Except.ok.inj (htree₁.symm.trans htree')
      have hwantfree : PrefixFree (storedFiles l.filtered) := fun x y hx hy =>
        hfree x y (by rw [← hwant]; exact hx) (by rw [← hwant]; exact hy)
      have hpresent := (pathPresentInTree_iff hpublished.honest.history.store
          hfiles₁).mpr hwantfree p
      rw [hscoped, mem_keys_iff, ← hwant, ← mem_keys_iff, Std.ExtTreeMap.mem_keys] at hp
      rw [hstale.1, Except.ok.injEq] at hpresent
      rw [Std.ExtTreeMap.contains_iff_mem.mpr hp] at hpresent
      cases hpresent

end MemEngine

end Spec

end Csp

namespace Csp.Small
open Result MemEngine

def drafted : MemEngine Shadow := { fresh with working := nested }

theorem quiet_drafted : Quiet fresh drafted := quiet_stage fresh nested

theorem drafted_spec : drafted.state.bootstrapPending = false ∧ PrefixFree drafted.scopedFiles ∧
    (commitStaged 0 drafted).1.toOption.join.isSome = true ∧
    (commitStaged 0 drafted).2.pendingQuarantines = [] ∧ ∀ f ∈ drafted.scopedFiles.toList,
    Storable f.1 ∧ drafted.working[f.1]? = some f.2 := by
  decide +kernel

theorem committed_drafted : ∃ o e', commitStaged 0 drafted = (.ok (some o), e') := by
  have hsome := drafted_spec.2.2.1
  cases hrun : commitStaged 0 drafted with
  | mk r e' =>
    rw [hrun] at hsome
    cases r with
    | error x => cases hsome
    | ok r =>
      obtain ⟨o, rfl⟩ := Option.isSome_iff_exists.mp (show r.isSome = true from hsome)
      exact ⟨o, e', rfl⟩

theorem commitStaged_exact_drafted : ∃ o e' files, commitStaged 0 drafted = (.ok (some o), e') ∧
    e'.Wants files := by
  obtain ⟨hboot, -⟩ := drafted_spec
  obtain ⟨o, e₀, hsome⟩ := committed_drafted
  obtain ⟨r, e', hrun, -, hauthored⟩ := commitStaged_exact
    ((Reached.create owner [] []).quiet quiet_drafted : Reached drafted) hboot framable_nested
    (Nat.two_pow_pos 64)
  obtain ⟨hr, rfl⟩ := Prod.mk.inj (hrun.symm.trans hsome)
  obtain ⟨files, -, hwants, -⟩ := hauthored o (Except.ok.inj hr)
  exact ⟨o, e', files, hsome, hwants⟩

/-- One commit of a new file leaves nothing to do. -/
theorem authored_idle_iff_drafted : (commitStaged 0 drafted).2.Idle := by
  obtain ⟨-, hfree, -, hpend, hfiles⟩ := drafted_spec
  obtain ⟨o, e', hrun⟩ := committed_drafted
  rw [hrun] at hpend ⊢
  have honest : Honest drafted := (honest_create owner [] [] : Honest fresh).quiet quiet_drafted
  exact (authored_idle_iff honest framable_nested (by decide) hfree hrun).mpr
    ⟨hpend, fun p c hc => hfiles (p, c) (mem_toList.mpr hc)⟩

end Csp.Small
