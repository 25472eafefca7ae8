import Csp.Keeps
import Csp.Persist

/-! A path that a commit sends to quarantine, staged and committed again before it is moved, with
restarts in between. The commit that drops the path forgets that it was materialized. -/

namespace Csp
open Result
variable {Oid : Type} [ObjectId Oid] [Crates]

namespace MemEngine

/-- A commit at the time sends the path to quarantine. -/
def Quarantines (e : MemEngine Oid) (now : Nat) (q : Path) : Prop :=
  ∃ ops t, (commitStaged now e).2.pendingQuarantines = e.pendingQuarantines ++ ops ∧
    .quarantine q t ∈ ops

/-- A commit at the time authors a primitive with the path: the one that it returns, or one
that it made known before it failed. -/
def Publishes (e : MemEngine Oid) (now : Nat) (q : Path) : Prop :=
  ∃ o c files, ((commitStaged now e).1 = .ok (some o) ∨
      (o ∈ (commitStaged now e).2.state.known ∧ o ∉ e.state.known)) ∧
    loadCommit (commitStaged now e).2.store o = .ok c ∧
    treeFiles (commitStaged now e).2.store c.tree = .ok files ∧ files[q]? ≠ none

/-- The engine after commits with the bytes staged again, and after restarts. -/
inductive Retried (q : Path) (c : Bytes) (e : MemEngine Oid) : MemEngine Oid → Prop
  | refl : Retried q c e e
  | again {e' : MemEngine Oid} (h : Retried q c e e') {now : Nat} (clock : now < 2 ^ 64) :
    Retried q c e (commitStaged now (e'.stageWrite q c)).2
  | restart {e' e'' : MemEngine Oid} (h : Retried q c e e') {p : Persisted Oid}
    (hp : e'.toBytes = .ok p)
    (hr : fromBytes e'.identity p e'.scope.ignore = .ok e'') : Retried q c e e''

/-! ### What a commit authors -/

section Spec
variable [LawfulObjectId Oid] [LawfulCrates]

inductive Committing (e : MemEngine Oid) (now : Nat) : CspResult (Option Oid) → MemEngine Oid → Prop
  | kept (r : CspResult (Option Oid)) (hr : ∀ o, r ≠ .ok (some o)) : Committing e now r e
  | dropped {m tree : Oid} {l : Layer1 Oid}
      (hl : layer1 e.store m tree e.state.materialized
        (canonicalizeKeeps e.working e.scope) = .ok l) :
      Committing e now (.ok none) (e.dropQuarantined (orphansBucket now) l.quarantines)
  | authored {m tree : Oid} {l : Layer1 Oid}
      (hl : layer1 e.store m tree e.state.materialized
        (canonicalizeKeeps e.working e.scope) = .ok l)
      {r : CspResult Oid} {e' : MemEngine Oid}
      (ha : author m l now (e.dropQuarantined (orphansBucket now) l.quarantines) = (r, e')) :
      Committing e now (r.map some) e'

omit [LawfulObjectId Oid] [LawfulCrates] in
theorem committing (e : MemEngine Oid) {m : Oid} (hm : e.main = some m) (now : Nat) :
    Committing e now (commitStaged now e).1 (commitStaged now e).2 := by
  have hrun := commitScoped_run (canonicalizeKeeps e.working e.scope) now hm
  rw [show commitStaged now e = commitScoped (canonicalizeKeeps e.working e.scope) now e
    from rfl, hrun]
  split_ifs with hb
  · exact .kept _ fun o h => by cases h
  split
  · exact .kept _ fun o h => by cases h
  split
  · exact .kept _ fun o h => by cases h
  · rename_i tree _ l hl
    dsimp only
    split_ifs
    · rcases ha : author m l now (e.dropQuarantined (orphansBucket now) l.quarantines)
        with ⟨_ | o, e'⟩
      · exact .authored hl ha
      · exact .authored hl ha
    · exact .dropped hl

theorem storable_of_publishes {e : MemEngine Oid} (h : e.Rooted)
    (hnames : ∀ p ∈ e.working.keys, Framable p) {now : Nat} (hnow : now < 2 ^ 64) {q : Path}
    (hq : e.Publishes now q) : Storable q := by
  obtain ⟨m, hm⟩ := h.main
  obtain ⟨o, c, files, hnew, hc, hfiles, hqf⟩ := hq
  have hcommit := committing e hm now
  rcases hrun : commitStaged now e with ⟨r, e'⟩
  rw [hrun] at hcommit hnew hc hfiles
  dsimp only at hcommit hnew hc hfiles
  cases hcommit with
  | kept r hr =>
    rcases hnew with hres | ⟨hin, hout⟩
    · exact absurd hres (hr o)
    · exact absurd hin hout
  | dropped hl =>
    rcases hnew with hres | ⟨hin, hout⟩
    · cases hres
    · exact absurd hin hout
  | @authored m tree l hl r e' ha =>
    set e₁ := e.dropQuarantined (orphansBucket now) l.quarantines with he₁
    have hfr : ∀ p ∈ l.filtered.keys, Framable p := framable_filtered hnames hl
    obtain ⟨hload, -, hstored⟩ := load_putAll_authored e₁.identity e₁.state m h.sound hfr hnow
    have hext := extends_computeMain (e₁.published l
        (authored e₁.identity e₁.state m l now)).state.known
      (e₁.published l (authored e₁.identity e₁.state m l now)).store
    have hknown : (e₁.published l (authored e₁.identity e₁.state m l now)).state.known =
        addNew e.state.known (GitObject.commit (authored e₁.identity e₁.state m l now)).oid :=
        known_addKnown _ _
    rw [author_run] at ha
    -- whether or not `main` follows, the new primitive is the only one
    have key : ∀ {t : Store Oid}, (e₁.store.putAll
          (authoredObjects l (authored e₁.identity e₁.state m l now))).Extends t →
        o = (GitObject.commit (authored e₁.identity e₁.state m l now)).oid →
        loadCommit t o = .ok c →
        treeFiles t c.tree = .ok files → Storable q := by
      rintro t ht rfl hc hfiles
      obtain rfl := Except.ok.inj ((loadCommit_extends ht hload).symm.trans hc)
      obtain rfl := Except.ok.inj ((ht.carries.treeFiles
          (fun _ => Tidy.flat) trivial hstored).symm.trans hfiles)
      obtain ⟨x, hx⟩ := Option.ne_none_iff_exists'.mp hqf
      exact (getElem?_storedFiles.mp hx).1
    have hsame : ∀ {known : List Oid}, known = addNew e.state.known
        (GitObject.commit (authored e₁.identity e₁.state m l now)).oid →
        o ∈ known → o ∉ e.state.known → o = (GitObject.commit
          (authored e₁.identity e₁.state m l now)).oid := by
      rintro known rfl hin hout
      exact (mem_addNew.mp hin).resolve_left hout
    split at ha
    · rename_i m' t ht
      obtain ⟨rfl, rfl⟩ := Prod.mk.inj ha
      rw [ht] at hext
      rcases hnew with hres | ⟨hin, hout⟩
      · exact key hext (Option.some.inj (Except.ok.inj hres)).symm hc hfiles
      · exact key hext (hsame hknown hin hout) hc hfiles
    · rename_i err t ht
      obtain ⟨rfl, rfl⟩ := Prod.mk.inj ha
      rw [ht] at hext
      rcases hnew with hres | ⟨hin, hout⟩
      · cases hres
      · exact key hext (hsame hknown hin hout) hc hfiles

/-! ### Runs of retries -/

omit [LawfulObjectId Oid] [LawfulCrates] in
theorem working_commitStaged (e : MemEngine Oid) {m : Oid} (hm : e.main = some m) (now : Nat)
    {p : Path} {c : Bytes} (hp : (commitStaged now e).2.working[p]? = some c) :
    e.working[p]? = some c := by
  have hdrop : ∀ (ps : List Path) (w : FileMap), (ps.foldl (fun w p => w.erase p) w)[p]? = some c →
      w[p]? = some c := by
    intro ps
    induction ps with
    | nil => exact fun w h => h
    | cons x xs ih =>
      intro w h
      have h := ih (w.erase x) h
      rw [Std.ExtTreeMap.getElem?_erase] at h
      split_ifs at h
      exact h
  have hcommit := committing e hm now
  rcases hrun : commitStaged now e with ⟨r, e'⟩
  rw [hrun] at hcommit hp
  dsimp only at hcommit hp
  cases hcommit with
  | kept r hr => exact hp
  | dropped hl => exact hdrop _ _ hp
  | @authored m tree l hl r e' ha =>
    refine hdrop l.quarantines _ ?_
    rw [author_run] at ha
    split at ha
    · obtain ⟨-, rfl⟩ := Prod.mk.inj ha
      exact hp
    · obtain ⟨-, rfl⟩ := Prod.mk.inj ha
      exact hp

/-- An engine that can commit: it is rooted, and its working paths can be framed. -/
structure Ready (e : MemEngine Oid) : Prop extends Rooted e where
  names : ∀ p ∈ e.working.keys, Framable p

omit [Crates] [LawfulObjectId Oid] [LawfulCrates] in
theorem Ready.stageWrite {e : MemEngine Oid} (h : e.Ready) {q : Path} (hq : Framable q)
    (c : Bytes) :
    (e.stageWrite q c).Ready := by
  refine ⟨⟨h.sound, h.main⟩, fun p hp => ?_⟩
  rw [Std.ExtTreeMap.mem_keys, MemEngine.stageWrite, Std.ExtTreeMap.mem_insert,
    Std.compare_eq_iff_eq] at hp
  rcases hp with rfl | hp
  · exact hq
  · exact h.names p (Std.ExtTreeMap.mem_keys.mpr hp)

theorem Ready.commitStaged {e : MemEngine Oid} (h : e.Ready) {now : Nat} (hnow : now < 2 ^ 64) :
    (commitStaged now e).2.Ready := by
  obtain ⟨m, hm⟩ := h.main
  refine ⟨h.toRooted.commitStaged h.names hnow, fun p hp => ?_⟩
  obtain ⟨c, hc⟩ := mem_keys_isSome.mp hp
  exact h.names p (mem_keys_isSome.mpr ⟨c, working_commitStaged e hm now hc⟩)

theorem Ready.restart {e e' : MemEngine Oid} (h : e.Ready) {p : Persisted Oid}
    (hp : e.toBytes = .ok p) {id : Identity} {ignore : List Str}
    (hr : fromBytes id p ignore = .ok e') : e'.Ready := by
  obtain ⟨m, hm⟩ := h.main
  rw [toBytes, h.sound.mapM_getRaw] at hp
  obtain rfl := pure_ok.mp hp
  obtain ⟨store, hstore, hr⟩ := bind_ok.mp hr
  obtain ⟨config, -, hr⟩ := bind_ok.mp hr
  obtain ⟨main, hmain, hr⟩ := bind_ok.mp hr
  obtain ⟨w, hw, hr⟩ := bind_ok.mp hr
  obtain rfl := pure_ok.mp hr
  obtain rfl := Except.ok.inj (h.sound.storeOf.symm.trans hstore)
  have hm' : main = some m := by
    rw [hm, Option.map_some, mainOf, fromHex_toHex] at hmain
    exact (Except.ok.inj hmain).symm
  refine ⟨⟨h.sound.recoded, m, hm'⟩, ?_⟩
  rw [filesAtMain, hm'] at hw
  obtain ⟨tree, -, hfiles⟩ := bind_ok.mp hw
  exact framable_of_treeFiles h.sound.recoded hfiles

/-- Run lemma: every retry is on an engine that can commit. -/
theorem Retried.ready {q : Path} {c : Bytes} {e e' : MemEngine Oid} (h : Retried q c e e')
    (he : e.Ready) (hq : Framable q) : e'.Ready := by
  induction h with
  | refl => exact he
  | again _ clock ih => exact (ih.stageWrite hq c).commitStaged clock
  | restart _ hp hr ih => exact ih.restart hp hr

/-! ### The first retry -/

structure Recorded (l : Layer1 Oid) (e e' : MemEngine Oid) : Prop where
  scope : e'.scope = e.scope
  working : e'.working = e.working
  pending : e'.pendingQuarantines = e.pendingQuarantines
  bootstrap : e'.state.bootstrapPending = e.state.bootstrapPending
  materialized : e'.state.materialized = recordOf l.filtered

omit [LawfulObjectId Oid] [LawfulCrates] in
theorem recorded_author {e e' : MemEngine Oid} {m o : Oid} {l : Layer1 Oid} {now : Nat}
    (ha : author m l now e = (.ok o, e')) : Recorded l e e' := by
  have hboot : (e.published l (authored e.identity e.state m l now)).state.bootstrapPending =
      e.state.bootstrapPending := by
    show (EngineState.addKnown _ _).bootstrapPending = _
    rw [EngineState.addKnown]
    split_ifs <;> rfl
  rw [author_run] at ha
  split at ha
  · obtain ⟨-, rfl⟩ := Prod.mk.inj ha
    exact ⟨rfl, rfl, rfl, hboot, rfl⟩
  · cases (Prod.mk.inj ha).1

theorem commitStaged_linear {e : MemEngine Oid} (h : Linear e)
    (hb : e.state.bootstrapPending = false) (hnames : ∀ p ∈ e.working.keys, Framable p) {now : Nat}
    (hnow : now < 2 ^ 64) :
    ∃ m mc l d, d = e.dropQuarantined (orphansBucket now) l.quarantines ∧
      layer1 e.store m mc e.state.materialized (canonicalizeKeeps e.working e.scope) = .ok l ∧
      ((genuineChange d.state.materialized l.filtered = false ∧
        commitStaged now e = (.ok none, d)) ∨
        ∃ o e' c, author m l now d = (.ok o, e') ∧ commitStaged now e = (.ok (some o), e') ∧
          loadCommit e'.store o = .ok c ∧ treeFiles e'.store c.tree = .ok
          (storedFiles l.filtered)) := by
  obtain ⟨m, hm, hmin, -⟩ := h.main
  obtain ⟨mc, hmc, htree, -⟩ := hmin.load
  obtain ⟨l, hl⟩ := layer1_total hmin htree e.state.materialized
    (canonicalizeKeeps e.working e.scope)
  have hfr := framable_filtered hnames hl
  have hquiet : Quiet e (e.dropQuarantined (orphansBucket now) l.quarantines) := ⟨rfl, rfl, rfl⟩
  have hrun := commitScoped_run (canonicalizeKeeps e.working e.scope) now hm
  rw [hb, if_neg Bool.false_ne_true, mainTree_ok.mpr ⟨mc, hmc, rfl⟩] at hrun
  dsimp only at hrun
  rw [hl] at hrun
  dsimp only at hrun
  refine ⟨m, mc.tree, l, _, rfl, hl, ?_⟩
  cases hg : genuineChange (e.dropQuarantined (orphansBucket now) l.quarantines).state.materialized
    l.filtered with
  | false =>
    rw [hg, if_neg Bool.false_ne_true] at hrun
    exact .inl ⟨rfl, hrun⟩
  | true =>
    rw [hg, if_pos rfl] at hrun
    obtain ⟨o, e', ha⟩ := (h.quiet hquiet).author_total hm hmc (layer1_named hl) hfr hnow
    rw [ha] at hrun
    obtain ⟨rfl, -, hlines⟩ := (h.quiet hquiet).author hm hmc (layer1_named hl) hfr hnow ha
    exact .inr ⟨_, e', _, ha, hrun, hlines.held.load, hlines.held.files⟩

omit [ObjectId Oid] [Crates] [LawfulObjectId Oid] [LawfulCrates] in
theorem getElem?_foldl_erase {β : Type} (ps : List Path) (m : Std.ExtTreeMap Path β compare)
    (p : Path) :
    (ps.foldl (fun m p => m.erase p) m)[p]? = if p ∈ ps then none else m[p]? := by
  induction ps generalizing m with
  | nil => rfl
  | cons x xs ih =>
    rw [List.foldl_cons, ih, Std.ExtTreeMap.getElem?_erase]
    by_cases hx : x = p
    · simp [hx]
    · simp only [List.mem_cons, Std.compare_eq_iff_eq, hx, if_false,
        (Ne.symm hx : ¬p = x), false_or]

omit [Crates] [LawfulObjectId Oid] [LawfulCrates] in
theorem genuineChange_of_unrecorded {mat : Std.ExtTreeMap Path Oid compare} {files : FileMap}
    {p : Path} {c : Bytes} (hmat : mat[p]? = none) (hp : files[p]? = some c) :
    genuineChange mat files = true := by
  rw [genuineChange, Bool.or_eq_true, List.any_eq_true]
  exact .inl ⟨(p, c), Std.ExtTreeMap.mem_toList_iff_getElem?_eq_some.mpr hp, by simp [hmat]⟩

theorem publishes_of_unrecorded {e : MemEngine Oid} (h : Linear e)
    (hb : e.state.bootstrapPending = false) (hnames : ∀ p ∈ e.working.keys, Framable p) {now : Nat}
    (hnow : now < 2 ^ 64) {q : Path} (hq : q ∈ (canonicalizeKeeps e.working e.scope).keys)
    (hmat : e.state.materialized[q]? = none) (hst : Storable q) :
    e.Publishes now q := by
  obtain ⟨m, tree, l, d, hd, hl, hcase⟩ := commitStaged_linear h hb hnames hnow
  obtain ⟨x, hx⟩ := mem_keys_isSome.mp hq
  have hpub : l.filtered[q]? = some x := by
    refine ((layer1_sorted hl).filtered q x).mpr ⟨hx, fun hstale => ?_⟩
    have hin := hstale.2.2
    rw [Std.ExtTreeMap.contains_eq_isSome_getElem?, hmat] at hin
    cases hin
  have hforgot : d.state.materialized[q]? = none := by
    rw [hd, dropQuarantined, getElem?_foldl_erase, hmat, ite_self]
  rcases hcase with ⟨hno, -⟩ | ⟨o, e', c, -, hrun, hc, hfiles⟩
  · rw [genuineChange_of_unrecorded hforgot hpub] at hno
    cases hno
  · refine ⟨o, c, storedFiles l.filtered, .inl
      (by rw [hrun]), by rw [hrun]; exact hc, by rw [hrun]; exact hfiles, ?_⟩
    rw [getElem?_storedFiles.mpr ⟨hst, hpub⟩]
    exact Option.some_ne_none x

omit [LawfulObjectId Oid] [LawfulCrates] in
theorem quarantines_of_mem {e : MemEngine Oid} {now : Nat} {q t : Path}
    (hnone : e.pendingQuarantines = []) (h : .quarantine q t ∈
      (commitStaged now e).2.pendingQuarantines) : e.Quarantines now q :=
  ⟨(commitStaged now e).2.pendingQuarantines, t, by rw [hnone, List.nil_append], h⟩

/-- What a commit leaves that sends a path to quarantine. -/
structure Forgets (e e' : MemEngine Oid) (q : Path) : Prop where
  linear : Linear e'
  bootstrap : e'.state.bootstrapPending = false
  scope : e'.scope = e.scope
  kept : q ∈ (canonicalizeKeeps e.working e.scope).keys
  working : ∀ (p : Path) c, e'.working[p]? = some c → e.working[p]? = some c
  materialized : e'.state.materialized[q]? = none

theorem forgets_of_quarantines {e : MemEngine Oid} (h : Linear e)
    (hnames : ∀ p ∈ e.working.keys, Framable p) {now : Nat} (hnow : now < 2 ^ 64) {q : Path}
    (hq : e.Quarantines now q) : Forgets e (commitStaged now e).2 q := by
  obtain ⟨ops, t, hops, hmem⟩ := hq
  obtain ⟨m, hm, -⟩ := h.main
  have hb : e.state.bootstrapPending = false := by
    by_contra hb
    rw [Bool.not_eq_false] at hb
    rw [show commitStaged now e = commitScoped (canonicalizeKeeps e.working e.scope) now e from rfl,
      commitScoped_run _ _ hm, if_pos hb] at hops
    rw [List.self_eq_append_right.mp hops] at hmem
    cases hmem
  obtain ⟨m, tree, l, d, hd, hl, hcase⟩ := commitStaged_linear h hb hnames hnow
  -- the moves that the commit adds are those of the guard
  have hquar : d.pendingQuarantines = e.pendingQuarantines ++ ops → q ∈ l.quarantines := by
    intro hpend
    rw [hd, dropQuarantined, List.append_cancel_left_eq] at hpend
    rw [← hpend] at hmem
    obtain ⟨p, hp, heq⟩ := List.mem_map.mp hmem
    injection heq with hpq
    exact hpq ▸ hp
  have hsorted := layer1_sorted hl
  have hkept : q ∈ l.quarantines → q ∈ (canonicalizeKeeps e.working e.scope).keys := by
    intro hin
    obtain ⟨c, hc⟩ := Option.ne_none_iff_exists'.mp ((hsorted.quarantines q).mp hin).1
    exact mem_keys_isSome.mpr ⟨c, hc⟩
  have hunpub : q ∈ l.quarantines → l.filtered[q]? = none := by
    intro hin
    by_contra hne
    obtain ⟨c, hc⟩ := Option.ne_none_iff_exists'.mp hne
    exact ((hsorted.filtered q c).mp hc).2 ((hsorted.quarantines q).mp hin).2
  have hwork : ∀ (p : Path) c, d.working[p]? = some c → e.working[p]? = some c := by
    intro p c hp
    rw [hd, dropQuarantined, getElem?_foldl_erase] at hp
    split_ifs at hp
    exact hp
  rcases hcase with ⟨-, hrun⟩ | ⟨o, e', c, ha, hrun, -⟩
  · rw [hrun] at hops ⊢
    have hin := hquar hops
    refine ⟨(h.commitStaged hnames hnow hrun).1, by rw [hd]; exact hb, by rw [hd]; rfl, hkept hin,
      hwork, ?_⟩
    rw [hd, dropQuarantined, getElem?_foldl_erase, if_pos hin]
  · rw [hrun] at hops ⊢
    have hrec := recorded_author ha
    have hin := hquar (hrec.pending.symm.trans hops)
    refine ⟨(h.commitStaged hnames hnow hrun).1, by rw [hrec.bootstrap, hd]; exact hb,
      by rw [hrec.scope, hd]; rfl,
      hkept hin, fun p c hp => hwork p c (hrec.working ▸ hp), ?_⟩
    rw [hrec.materialized, recordOf, Std.ExtTreeMap.getElem?_map, hunpub hin, Option.map_none]

/-- A path that a commit of a reached engine sends to quarantine stays out of every primitive
that retries and restarts author exactly if no tree can store it: the first retry publishes
every other path. -/
theorem quarantine_stable_iff {e : MemEngine Oid} (h : Reached e)
    (hnames : ∀ p ∈ e.working.keys, Framable p) {now : Nat} (hnow : now < 2 ^ 64) {q : Path}
    {c : Bytes} (hc : e.working[q]? = some c) (hq : e.Quarantines now q) :
    (∀ e' now', Retried q c (commitStaged now e).2 e' → now' < 2 ^ 64 →
      ¬ (e'.stageWrite q c).Publishes now' q) ↔
      ¬ Storable q := by
  have hfr : Framable q := hnames q (mem_keys_isSome.mpr ⟨c, hc⟩)
  have hlin := h.linear
  obtain ⟨m, hm, -⟩ := hlin.main
  have hready : (commitStaged now e).2.Ready :=
      Ready.commitStaged ⟨⟨hlin.sound, m, hm⟩, hnames⟩ hnow
  constructor
  · intro hnever hst
    have hf := forgets_of_quarantines hlin hnames hnow hq
    set e₁ := (commitStaged now e).2
    refine hnever e₁ now .refl hnow ?_
    have hquiet : Quiet e₁ (e₁.stageWrite q c) := ⟨rfl, rfl, rfl⟩
    refine publishes_of_unrecorded (hf.linear.quiet hquiet) hf.bootstrap
      (hready.stageWrite hfr c).names hnow ?_
      hf.materialized hst
    rw [show (e₁.stageWrite q c).scope = e.scope from hf.scope]
    refine canonicalizeKeeps_antitone (fun p x hp => ?_) ?_ hf.kept
    · rw [stageWrite, Std.ExtTreeMap.getElem?_insert] at hp
      split_ifs at hp with hqp
      · rw [Std.compare_eq_iff_eq] at hqp
        rw [← hqp, hc, hp]
      · exact hf.working p x hp
    · exact mem_keys_isSome.mpr ⟨c, by rw [stageWrite, Std.ExtTreeMap.getElem?_insert_self]⟩
  · intro hst e' now' hretry hnow' hpub
    have hre := (hretry.ready hready hfr).stageWrite hfr c
    exact hst (storable_of_publishes hre.toRooted hre.names hnow' hpub)

end Spec

end MemEngine

end Csp

/-! ### A deletion that is undone -/

namespace Csp.Small
open MemEngine

/-- A file is published, deleted by a peer, and published again by a retry. -/
def undoneObjects : List (GitObject (Num [])) :=
  [emptyTree, .commit (foldCommit 0 [] 0 genesisMsg), .blob [49], .tree [⟨fileMode, ['x'], 2⟩],
    .commit (signedPrimitive owner 3 1 1 0 "ctx edit".toList []),
    .commit (foldCommit 3 [4] 0 foldMsg),
    .commit (signedPrimitive sender 0 5 2 0 "ctx edit".toList []),
    .commit (foldCommit 0 [6] 0 foldMsg),
    .commit (signedPrimitive owner 3 7 3 0 "ctx edit".toList [6])]

abbrev Undone : Type := Num (undoneObjects.map GitObject.framed)

def created : MemEngine Undone := MemEngine.create owner [] []

def undoneFiles : FileMap := (∅ : FileMap).insert ['x'] [49]

def withFile : MemEngine Undone := { created with working := undoneFiles }

def publisher : MemEngine Undone := (commitStaged 0 withFile).2

def deletion : List Bytes :=
  [(GitObject.commit (signedPrimitive sender 0 5 2 0 "ctx edit".toList []) :
      GitObject Undone).compress]

def staleEngine : MemEngine Undone := (MemEngine.integrate deletion publisher).2

def droppedEngine : MemEngine Undone := (commitStaged 0 staleEngine).2

def primitiveOf (r : CspResult (Option Undone) × MemEngine Undone) : Option (Undone × FileMap) := do
  let o ← r.1.toOption.join
  let c ← (loadCommit r.2.store o).toOption
  let files ← (treeFiles r.2.store c.tree).toOption
  pure (o, files)

theorem undone_spec :
    (∀ p ∈ undoneFiles.keys, Framable p) ∧ (commitStaged 0 withFile).1.isOk = true ∧
      (decoded deletion : List (GitObject Undone) × Option CspError).2 = none ∧
      (∀ o ∈ (accepted deletion : List Undone),
        holdsCommit (publisher.store.putAll (decoded deletion).1) 10 o = true) ∧
      (MemEngine.integrate deletion publisher).1.isOk = true ∧
      (∀ p ∈ staleEngine.working.keys, Framable p) ∧
      staleEngine.working[['x']]? = some [49] ∧ staleEngine.pendingQuarantines = [] ∧
      (droppedEngine.pendingQuarantines.any fun op => match op with
        | .quarantine p _ => p = ['x']
        | _ => false) = true ∧
      (primitiveOf (commitStaged 0 (droppedEngine.stageWrite ['x'] [49]))).map
      (fun r => r.2[['x']]?) =
        some (some [49]) := by
  decide +kernel

theorem reached_staleEngine : Reached staleEngine := by
  obtain ⟨hnames, hok, hdec, hheld, hok', -⟩ := undone_spec
  have hfile : Reached withFile := .quiet (.create owner [] []) ⟨rfl, rfl, rfl⟩
  have hpub : Reached publisher := by
    unfold publisher
    generalize hrun : commitStaged 0 withFile = r at hok ⊢
    obtain ⟨r, e'⟩ := r
    cases r with
    | error err => cases hok
    | ok r => exact .commit hfile hnames (Nat.two_pow_pos 64) hrun
  unfold staleEngine
  generalize hrun : MemEngine.integrate deletion publisher = r at hok' ⊢
  obtain ⟨r, e'⟩ := r
  cases r with
  | error err => cases hok'
  | ok n => exact .integrate hpub ⟨hdec, fun o ho => commitIn_of_holdsCommit (hheld o ho)⟩ hrun

theorem quarantines_staleEngine : staleEngine.Quarantines 0 ['x'] := by
  obtain ⟨-, -, -, -, -, -, -, hnone, hany, -⟩ := undone_spec
  obtain ⟨op, hop, hmatch⟩ := List.any_eq_true.mp hany
  cases op with
  | quarantine p t =>
    obtain rfl : p = ['x'] := by simpa using hmatch
    unfold droppedEngine at hop
    exact quarantines_of_mem hnone hop
  | write | remove | defer => cases hmatch

/-- Some retry publishes the file. -/
theorem quarantine_stable_iff_undone :
    ∃ e' now', Retried ['x'] [49] droppedEngine e' ∧
    (e'.stageWrite ['x'] [49]).Publishes now' ['x'] := by
  obtain ⟨-, -, -, -, -, hnames, hwork, -⟩ := undone_spec
  have hiff := quarantine_stable_iff reached_staleEngine hnames
    (by decide) hwork quarantines_staleEngine
  by_contra hnever
  refine absurd (hiff.mp fun e' now' hretry _ hpub => hnever ⟨e', now', hretry, hpub⟩) ?_
  exact not_not_intro (by decide)

/-- The commit that sends the file to quarantine returns without a primitive, and the next
one, with the same bytes staged again, publishes it. -/
theorem retry_publishes :
    Reached staleEngine ∧ staleEngine.working[['x']]? = some [49] ∧
    staleEngine.Quarantines 0 ['x'] ∧
      (droppedEngine.stageWrite ['x'] [49]).Publishes 0 ['x'] := by
  obtain ⟨-, -, -, -, -, -, hwork, -, -, hpub⟩ := undone_spec
  refine ⟨reached_staleEngine, hwork, quarantines_staleEngine, ?_⟩
  unfold Publishes
  generalize commitStaged 0 (droppedEngine.stageWrite ['x'] [49]) = r at hpub ⊢
  obtain ⟨r, e'⟩ := r
  rcases r with err | _ | o
  · cases hpub
  · cases hpub
  cases hc : loadCommit e'.store o with
  | error err =>
    rw [primitiveOf, show (Except.ok (some o) : CspResult (Option Undone)).toOption.join =
      some o from rfl] at hpub
    simp [hc, Except.toOption] at hpub
  | ok c =>
    cases hfiles : treeFiles e'.store c.tree with
    | error err => simp [primitiveOf, hc, hfiles, Except.toOption] at hpub
    | ok files =>
      refine ⟨o, c, files, .inl rfl, hc, hfiles, ?_⟩
      have hx : files[['x']]? = some [49] := by simpa [primitiveOf, hc, hfiles, Except.toOption] using hpub
      rw [hx]
      exact Option.some_ne_none _

end Csp.Small
