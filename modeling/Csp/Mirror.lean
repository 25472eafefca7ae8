import Csp.HonestVault
import Csp.Lib.Trace
import Csp.Live
import Csp.OnDisk

/-! The native vault beside an in-memory engine whose host hands on the same edits and batches and
does to its own files what it is told: after every run both know the same, keep the same record,
have one `main` and the same files. What comes in is never authored again. -/

namespace Csp
open Result
variable {Oid : Type} [ObjectId Oid] [Crates]

/-! ### Two stores -/

theorem Carries.layer1 {R : Oid → Prop} {s s' : Store Oid} (h : Carries Tidy R s s')
    {parent parentTree : Oid} (hp : R parent) (ht : R parentTree)
    {mat : Std.ExtTreeMap Path Oid compare} {files : FileMap} {l : Layer1 Oid}
    (hl : Csp.layer1 s parent parentTree mat files = .ok l) :
    Csp.layer1 s' parent parentTree mat files = .ok l := by
  have hclassify : ∀ l l' : Layer1 Oid, ∀ p c, classify s parent parentTree mat l p c = .ok l' →
      classify s' parent parentTree mat l p c = .ok l' := by
    intro l l' p c hc
    rw [classify] at hc ⊢
    obtain ⟨b, hb, hc⟩ := bind_ok.mp hc
    have hb' : pathPresentInTree s' parentTree p = .ok b := h.presentAt (fun _ => id) ht hb
    rw [hb', ok_bind]
    cases b with
    | true => exact hc
    | false =>
      simp only [Bool.false_eq_true, if_false] at hc ⊢
      obtain ⟨touch, htouch, hc⟩ := bind_ok.mp hc
      rw [h.mostRecentTouch (fun _ => id) hp htouch, ok_bind]
      exact hc
  unfold Csp.layer1 at hl ⊢
  generalize files.toList = fs at hl ⊢
  generalize ({} : Layer1 Oid) = l₀ at hl ⊢
  induction fs generalizing l₀ with
  | nil => exact hl
  | cons f fs ih =>
    obtain ⟨p, c⟩ := f
    rw [List.foldlM_cons] at hl ⊢
    obtain ⟨l₁, hf, hl⟩ := bind_ok.mp hl
    exact bind_ok.mpr ⟨l₁, hclassify _ _ p c hf, ih _ hl⟩

/-! ### The vault's calls, one engine call each -/

namespace Vault
variable {v w : Vault Oid}

def image (v : Vault Oid) : MemEngine Oid where
  store := v.store
  state := v.state
  scope := v.scope
  identity := v.identity
  authorized := []
  main := v.mainRef
  config := v.config
  working := ∅
  pendingQuarantines := []

/-- A vault of which only the store, the state and the refs have changed. -/
structure Within (v u : Vault Oid) : Prop where
  root : u.root = v.root
  disk : u.disk = v.disk
  identity : u.identity = v.identity
  config : u.config = v.config

omit [Crates] in
theorem materialize_induction (P : Vault Oid → Vault Oid → Prop) (hrefl : ∀ v, P v v)
    (htrans : ∀ u v w, P u v → P v w → P u w) (hremoval : ∀ want v p,
      P v (materializeRemoval want v p))
    (hwrite : ∀ f v, P v (materializeWrite f v).2) (hsave : ∀ v, P v (save v).2) (v : Vault Oid) :
    P v (materialize v).2 := by
  have hremovals : ∀ want (ps : List Path) (v : Vault Oid),
      P v (ps.foldl (materializeRemoval want) v) := by
    intro want ps
    induction ps with
    | nil => exact hrefl
    | cons p ps ih => exact fun v => htrans _ _ _ (hremoval want v p) (ih _)
  rw [materialize_run]
  split
  · exact hrefl v
  · split
    · exact hrefl v
    · split
      · exact hrefl v
      · rename_i want _
        have h := htrans _ _ _ (hremovals want v.state.materialized.keys v)
          (run_forM_induction P hrefl htrans hwrite want.toList _)
        split
        · rename_i w hw
          rw [hw] at h
          exact htrans _ _ _ h (hsave w)
        · rename_i w hw
          rw [hw] at h
          exact h

omit [Crates] in
theorem state_materialize (v : Vault Oid) :
    (materialize v).2.state = { v.state with materialized := (materialize
      v).2.state.materialized } := by
  apply materialize_induction fun v w => w.state =
    { v.state with materialized := w.state.materialized }
  · exact fun _ => rfl
  · intro u v w h h'
    rw [h', h]
  · intro want v p
    rw [materializeRemoval]
    split_ifs
    · rfl
    · rfl
  · intro f v
    rw [show f = (f.1, f.2) from rfl, materializeWrite_run]
    simp only
    split
    · split_ifs
      · rfl
      · rfl
      · split <;> rfl
    · split <;> rfl
  · intro v
    rw [(save_frame v).2]

theorem integrate_image {raws : List Bytes} {n : Nat} (h : Vault.integrate raws v = (.ok n, w)) :
    ∃ u x st, v.Within u ∧ u.state.materialized = v.state.materialized ∧
      MemEngine.integrate raws v.image = (.ok n, u.image) ∧ w = { x with saved := st } ∧
      ((n = 0 ∧ x = u) ∨ (n ≠ 0 ∧ materialize u = (.ok (), x))) := by
  have hrecord : (raws.foldl admitOne (v.state, 0)).1.materialized = v.state.materialized :=
    (admits_foldl raws v.state 0).same.materialized
  obtain ⟨hdec, ⟨rfl, t, hverify, rfl⟩ | ⟨hn, t, y, hverify, hy, hsave⟩⟩ := Vault.integrate_ok h
  · refine ⟨{ v with store := t }, _, _, ⟨rfl, rfl, rfl, rfl⟩, rfl, ?_, rfl, .inl ⟨rfl, rfl⟩⟩
    rw [MemEngine.integrate_run]
    simp only [image, hdec, hverify]
  by_cases hzero : n = 0
  · rw [if_pos hzero] at hy
    subst hy
    refine ⟨{ v with store := t, state := (raws.foldl admitOne (v.state, 0)).1 }, _, _,
      ⟨rfl, rfl, rfl, rfl⟩, hrecord, ?_,
      save_ok hsave, .inl ⟨hzero, rfl⟩⟩
    rw [MemEngine.integrate_run]
    simp only [image, hdec, hverify, ← hn, hzero, if_true]
  · rw [if_neg hzero] at hy
    obtain ⟨m, t', hmain, hmat⟩ := recomputeAndMaterialize_ok hy
    refine ⟨{ v with store := t', mainRef := some m, state := (raws.foldl admitOne (v.state, 0)).1 }, y, _,
      ⟨rfl, rfl, rfl, rfl⟩, hrecord, ?_, save_ok hsave, .inr ⟨hzero, hmat⟩⟩
    rw [MemEngine.integrate_run]
    simp only at hmain
    simp only [image, hdec, hverify, ← hn, hzero, if_false, hmain]

theorem author_image {m o : Oid} {l : Layer1 Oid} {now : Nat}
    (h : Vault.author m l now v = (.ok o, w)) :
    ∃ u x st, v.Within u ∧ u.state.materialized = v.state.materialized ∧
      MemEngine.author m l now v.image =
        (.ok o, { u.image with state := { u.state with materialized := recordOf l.filtered } }) ∧
      w = { x with saved := st } ∧ materialize u = (.ok (), x) := by
  obtain ⟨rfl, x, hx, hsave⟩ := author_ok h
  obtain ⟨m', t, hmain, hmat⟩ := recomputeAndMaterialize_ok hx
  refine ⟨{ v.published l (authored v.identity v.state m l now) with store := t, mainRef := some m' }, x, _,
    ⟨rfl, rfl, rfl, rfl⟩, ?_, ?_, save_ok hsave, hmat⟩
  · exact EngineState.materialized_addKnown _ _
  · have hmain' : computeMain (v.image.published l
          (authored v.identity v.state m l now)).state.known
        (v.image.published l (authored v.identity v.state m l now)).store = (.ok m', t) := hmain
    rw [MemEngine.author_run]
    simp only [image] at hmain' ⊢
    rw [hmain']
    rfl

end Vault

/-! ### Materializing -/

section Materializing
variable {u x : Vault Oid} {e : MemEngine Oid} {want : FileMap}

/-- The disk lets ordinary files be read and removed. -/
def Vault.Opens (v : Vault Oid) : Prop :=
  ∀ p, Ordinary p → v.unread p = false ∧ v.unremoved p = false

omit [Crates] in
theorem carryOut_eq (f : Option Bytes) (op : MaterializeOp) : carryOut false f op = op.apply f := by
  cases op <;> rfl

/-- The two hold the same file at every ordinary path, and the engine has no other. -/
def SameFiles (v : Vault Oid) (e : MemEngine Oid) : Prop :=
  ∀ p : Path, e.working[p]? = if Ordinary p then v.file p else none

/-- The record says of every ordinary path what is there. -/
def Vault.InStep (v : Vault Oid) : Prop :=
  ∀ p, Ordinary p → (v.file p).map blobHash = v.state.materialized[p]?

omit [Crates] in
theorem Vault.inStep_of_cell (h : ∀ q, Ordinary q → ∃ f, x.cell q = (f, f.map blobHash)) :
    x.InStep := by
  intro q hq
  obtain ⟨f, hf⟩ := h q hq
  rw [show x.file q = f from congrArg Prod.fst hf]
  exact (congrArg Prod.snd hf).symm

omit [Crates] in
theorem Vault.cell_of_materialize (hw : u.Wants want) (hplain : u.Plain want) (hopens : u.Opens)
    (hrun : Vault.materialize u = (.ok (), x)) :
    (u.Stands x ∧ x.Plain want) ∧ ∀ q, Ordinary q → x.cell q = followed q want[q]? false false
    (u.cell q) := by
  obtain ⟨rest, hok, hkept, hcells⟩ := Vault.cell_materialize hw hplain
  rw [hrun] at hok hkept hcells
  obtain rfl : rest = [] := hok rfl
  refine ⟨hkept, fun q hq => ?_⟩
  rw [hcells q hq, if_neg (by simp), (hopens q hq).1, (hopens q hq).2]

/-- If the plan leads both to the same at every path, then materializing leads both to the same
files and the same record. -/
theorem materialize_alike (hw : u.Wants want) (hw' : e.Wants want) (hplain : u.Plain want)
    (hopens : u.Opens) (hpend : e.pendingQuarantines = [])
    (hin : ∀ q, Ordinary q → followed q want[q]? false false
      (e.working[q]?, e.state.materialized[q]?) =
      followed q want[q]? false false (u.cell q))
    (hout : ∀ q, ¬ Ordinary q → e.working[q]? = none ∧ e.state.materialized[q]? = none)
    (hrun : Vault.materialize u = (.ok (), x)) :
    ∃ ops e', MemEngine.materializeStaged e = (.ok ops, e') ∧ SameFiles x e' ∧ x.Opens ∧
    x.Plain want ∧
      e' = { e with
        pendingQuarantines := []
        state := { e.state with materialized := x.state.materialized }
        working := e'.working } := by
  obtain ⟨⟨hstands, hplain'⟩, hcells⟩ := Vault.cell_of_materialize hw hplain hopens hrun
  have hplanned : ∀ q, MemEngine.lookPlan (MemEngine.plan e.working want
        (e.pendingQuarantines, e.state.materialized)) q =
      MemEngine.planAt q want[q]? e.working[q]? e.state.materialized[q]? := by
    intro q
    rw [MemEngine.lookPlan_plan, hpend]
    rfl
  have hend : ∀ q : Path, ((MemEngine.plan e.working want
        (e.pendingQuarantines, e.state.materialized)).1.foldl
      MemEngine.applyOp e.working)[q]? = (followed q want[q]? false false
        (e.working[q]?, e.state.materialized[q]?)).1 ∧
      (MemEngine.plan e.working want (e.pendingQuarantines, e.state.materialized)).2[q]? =
        (followed q want[q]? false false (e.working[q]?, e.state.materialized[q]?)).2 := by
    intro q
    have hcarry : carryOut false = MaterializeOp.apply := funext fun f => funext fun op =>
        carryOut_eq f op
    rw [MemEngine.getElem?_applyOps, followed, hcarry]
    simp only [Bool.false_eq_true, if_false]
    rw [← hplanned q]
    exact ⟨rfl, rfl⟩
  have hcell : ∀ q, Ordinary q → x.cell q = followed q want[q]? false false
      (e.working[q]?, e.state.materialized[q]?) := by
    intro q hq
    rw [hcells q hq, hin q hq]
  have hnone : ∀ q, ¬ Ordinary q →
      followed q want[q]? false false (e.working[q]?, e.state.materialized[q]?) = (none, none) := by
    intro q hq
    have hwant : want[q]? = none :=
      Std.ExtTreeMap.getElem?_eq_none fun hmem => hq (hplain.1 q (Std.ExtTreeMap.mem_keys.mpr hmem))
    rw [(hout q hq).1, (hout q hq).2, hwant, followed_unrecorded]
  have hrecord : (MemEngine.plan e.working want (e.pendingQuarantines, e.state.materialized)).2 =
      x.state.materialized := by
    apply Std.ExtTreeMap.ext_getElem?
    intro q
    rw [(hend q).2]
    by_cases hq : Ordinary q
    · exact (congrArg Prod.snd (hcell q hq)).symm
    · rw [hnone q hq, Std.ExtTreeMap.getElem?_eq_none fun hmem =>
        hq (hplain'.2 q (Std.ExtTreeMap.mem_keys.mpr hmem))]
  refine ⟨_, _, MemEngine.materializeStaged_run hw', fun q => ?_, fun q hq => ?_, hplain', ?_⟩
  · rw [(hend q).1]
    split_ifs with hq
    · exact (congrArg Prod.fst (hcell q hq)).symm
    · rw [hnone q hq]
  · rw [hstands.unread_eq, hstands.unremoved_eq]
    exact hopens q hq
  · simp only
    rw [hrecord]

end Materializing

/-! ### Steps -/

/-- What happens to a vault: the user edits a file, the watcher commits, a peer's batch comes in. -/
inductive Event (Oid : Type)
  | edit (p : Path) (content : Option Bytes)
  | commit (bucketTime now : Nat) (ignore : List Str) (made : Option Oid)
  | receive (raws : List Bytes) (admitted : Nat)

def Vault.edited (v : Vault Oid) (p : Path) (content : Option Bytes) : Vault Oid :=
  match placeOf v.root p with
  | none => v
  | some k => { v with disk := { v.disk with files := v.disk.files.alter k fun _ => content } }

def MemEngine.edited (e : MemEngine Oid) (p : Path) : Option Bytes → MemEngine Oid
  | some content => e.stageWrite p content
  | none => e.stageRemove p

/-- A scan finds the files at the ordinary paths and no others, each is published as it is, and none
of them is stale. -/
structure Vault.Clean (v : Vault Oid) (files : FileMap) : Prop where
  scanned : v.refreshScope.workingFiles = .ok files
  canonical : canonicalizeKeeps files v.refreshScope.scope = files
  all : ∀ p : Path, files[p]? = if Ordinary p then v.file p else none
  fresh : ∀ m tree, v.mainRef = some m → mainTree v.store m = .ok tree → ∀ p ∈ files.keys,
    ¬ Stale v.store m tree v.state.materialized p

/-- The steps of a vault whose calls succeed. Names on disk hold no NUL, the clock is one of 64
bits, and every path of a `main` that a batch leads to is ordinary. -/
inductive Vault.Does : Vault Oid → Event Oid → Vault Oid → Prop
  | edit {v : Vault Oid} {p : Path} (hp : Ordinary p) (content : Option Bytes) :
      Does v (.edit p content) (v.edited p content)
  | commit {v w : Vault Oid} {files : FileMap} {bucketTime now : Nat} {r : Option Oid}
    (hclean : v.Clean files)
      (hnames : v.disk.NulFree) (hnow : now < 2 ^ 64)
      (hrun : Vault.commitLocalChanges bucketTime now v = (.ok r, w)) :
      Does v (.commit bucketTime now (Vault.loadIgnore v.root v.disk) r) w
  | receive {v w : Vault Oid} {raws : List Bytes} {n : Nat} (hraws : Gathered Oid raws)
      (hmain : ∀ want, w.Wants want → ∀ p ∈ want.keys, Ordinary p)
      (hrun : Vault.integrate raws v = (.ok n, w)) :
      Does v (.receive raws n) w

/-- The steps of an engine whose host sets the globs before a commit, and materializes after a
commit that authored and a batch that brought something new. -/
inductive MemEngine.Does : MemEngine Oid → Event Oid → MemEngine Oid → Prop
  | edit (e : MemEngine Oid) (p : Path) (content : Option Bytes) : Does e (.edit p content)
    (e.edited p content)
  | idle {e e' : MemEngine Oid} {bucketTime now : Nat} {ignore : List Str}
      (hrun : commitStaged now (e.setIgnore ignore) = (.ok none, e')) :
      Does e (.commit bucketTime now ignore none) e'
  | commit {e e₁ e' : MemEngine Oid} {bucketTime now : Nat} {ignore : List Str} {o : Oid}
    {ops : List MaterializeOp}
      (hrun : commitStaged now (e.setIgnore ignore) = (.ok (some o), e₁))
      (hops : materializeStaged e₁ = (.ok ops, e')) :
      Does e (.commit bucketTime now ignore (some o)) e'
  | known {e e' : MemEngine Oid} {raws : List Bytes} (hrun : integrate raws e = (.ok 0, e')) :
    Does e (.receive raws 0) e'
  | receive {e e₁ e' : MemEngine Oid} {raws : List Bytes} {n : Nat} {ops : List MaterializeOp}
    (hn : n ≠ 0)
      (hrun : integrate raws e = (.ok n, e₁)) (hops : materializeStaged e₁ = (.ok ops, e')) :
      Does e (.receive raws n) e'

/-- A vault and an engine that have gone through the same. -/
structure Mirrors (v : Vault Oid) (e : MemEngine Oid) : Prop where
  honest : Honest e
  image : Honest v.image
  opens : v.Opens
  identity : e.identity = v.identity
  config : e.config = v.config
  state : e.state = v.state
  main : e.main = v.mainRef
  pending : e.pendingQuarantines = []
  recorded : ∀ p ∈ v.state.materialized.keys, Ordinary p
  files : SameFiles v e

variable {v w : Vault Oid} {e : MemEngine Oid}

omit [Crates] in
theorem edited_eq (v : Vault Oid) {p : Path} (hp : Ordinary p) (content : Option Bytes) :
    v.edited p content = { v with disk := { v.disk with
        files := v.disk.files.alter (v.root ++ Split.splitOn '/' p) fun _ => content } } := by
  rw [Vault.edited, placeOf_of_ordinary v.root hp]

omit [Crates] in
theorem file_edited (v : Vault Oid) {p q : Path} (hp : Ordinary p) (hq : Ordinary q)
    (content : Option Bytes) :
    (v.edited p content).file q = if p = q then content else v.file q := by
  rw [edited_eq v hp]
  unfold Vault.file
  simp only
  rw [placeOf_of_ordinary v.root hq, Option.bind_some, Option.bind_some,
    Std.ExtTreeMap.getElem?_alter]
  by_cases hpq : p = q
  · subst hpq
    simp
  · rw [if_neg hpq, if_neg]
    intro hkey
    have hsame := List.append_cancel_left (Std.LawfulEqCmp.eq_of_compare hkey)
    exact hpq (Split.splitOn_injective '/' hsame)

omit [Crates] in
theorem working_edited (e : MemEngine Oid) (p q : Path) (content : Option Bytes) :
    (e.edited p content).working[q]? = if p = q then content else e.working[q]? := by
  cases content with
  | some c =>
    rw [MemEngine.edited, MemEngine.stageWrite, Std.ExtTreeMap.getElem?_insert]
    by_cases hpq : p = q <;> simp [hpq]
  | none =>
    rw [MemEngine.edited, MemEngine.stageRemove, Std.ExtTreeMap.getElem?_erase]
    by_cases hpq : p = q <;> simp [hpq]

theorem Mirrors.edit (h : Mirrors v e) {p : Path} (hp : Ordinary p) (content : Option Bytes) :
    Mirrors (v.edited p content) (e.edited p content) := by
  have hengine : ∃ working, e.edited p content = { e with working } := by
    cases content with
    | some c => exact ⟨_, rfl⟩
    | none => exact ⟨_, rfl⟩
  have hfiles : SameFiles (v.edited p content) (e.edited p content) := by
    intro q
    rw [working_edited]
    by_cases hq : Ordinary q
    · rw [file_edited v hp hq, if_pos hq, h.files q, if_pos hq]
    · rw [if_neg hq, h.files q, if_neg hq, if_neg fun (hpq : p = q) => hq (hpq ▸ hp)]
  obtain ⟨working, hworking⟩ := hengine
  rw [edited_eq v hp, hworking] at hfiles ⊢
  exact ⟨h.honest.quiet ⟨rfl, rfl, rfl⟩, h.image, h.opens, h.identity, h.config, h.state, h.main,
    h.pending, h.recorded,
    hfiles⟩

/-! ### Batches and commits -/

section Calls
variable [LawfulObjectId Oid] [LawfulCrates]

theorem wants_alike {u : Vault Oid} (he : Honest e) (hu : Honest u.image)
    (hknown : e.state.known = u.state.known) :
    e.main = u.mainRef ∧ ∃ want, e.Wants want ∧ u.Wants want := by
  obtain ⟨m, c, files, hm, hm', hc, hc', hfiles, hfiles'⟩ := he.main_eq_of_known hu fun o => by
    rw [hknown]
    rfl
  exact ⟨hm.trans hm'.symm, files, ⟨m, c.tree, hm, MemEngine.mainTree_ok.mpr ⟨c, hc, rfl⟩, hfiles⟩,
    m, c.tree, hm', MemEngine.mainTree_ok.mpr ⟨c, hc', rfl⟩, hfiles'⟩

/-- Materializing ends a step alike on both sides. -/
theorem mirrors_of_materialize {u x : Vault Oid} (he : Honest e) (hu : Honest u.image)
    (hidentity : e.identity = u.identity) (hconfig : e.config = u.config)
    (hstate : e.state = { u.state with materialized := e.state.materialized })
    (hopens : u.Opens) (hplain : ∀ want, e.Wants want → u.Wants want → u.Plain want)
    (hpend : e.pendingQuarantines = []) (hin : ∀ want, e.Wants want → ∀ q, Ordinary q →
      followed q want[q]? false false (e.working[q]?, e.state.materialized[q]?) =
        followed q want[q]? false false (u.cell q))
    (hout : ∀ q, ¬ Ordinary q → e.working[q]? = none ∧ e.state.materialized[q]? = none)
    (hrun : Vault.materialize u = (.ok (), x)) :
    ∃ ops e', MemEngine.materializeStaged e = (.ok ops, e') ∧
    (∀ st, Mirrors { x with saved := st } e') ∧
      ∃ want, e.Wants want ∧ ∀ q, Ordinary q → x.cell q = followed q want[q]? false false
      (u.cell q) := by
  obtain ⟨hmain, want, hw, hw'⟩ := wants_alike he hu (by rw [hstate])
  obtain ⟨ops, e', hops, hfiles, hopens', hplain', he'⟩ :=
    materialize_alike hw' hw (hplain want hw hw') hopens hpend (hin want hw) hout hrun
  have hfiled := Vault.filed_materialize u
  have hx := Vault.state_materialize u
  rw [hrun] at hfiled hx
  refine ⟨ops, e', hops, fun st => ?_, want, hw,
    (Vault.cell_of_materialize hw' (hplain want hw hw') hopens hrun).2⟩
  rw [he'] at hfiles ⊢
  refine ⟨he.quiet ⟨rfl, rfl, rfl⟩, hu.quiet ⟨hfiled.store, hfiled.known, hfiled.mainRef⟩, hopens',
    hidentity.trans hfiled.identity.symm, hconfig.trans hfiled.config.symm, ?_,
    hmain.trans hfiled.mainRef.symm, rfl,
    hplain'.2, hfiles⟩
  simp only
  rw [hstate]
  exact hx.symm

omit [LawfulObjectId Oid] [LawfulCrates] in
theorem Mirrors.within {u : Vault Oid} {e₁ : MemEngine Oid} (h : Mirrors v e) (hwithin : v.Within u)
    (hparts : e₁ = { e with store := e₁.store, state := e₁.state, main := e₁.main }) :
    (e₁.working = e.working ∧ ∀ q, u.file q = v.file q) ∧ e₁.identity = u.identity ∧
    e₁.config = u.config ∧
      e₁.pendingQuarantines = [] ∧ u.Opens := by
  have hopens : u.Opens := by
    intro q hq
    rw [Vault.unread, Vault.unremoved, hwithin.root, hwithin.disk]
    exact h.opens q hq
  have hfile : ∀ q, u.file q = v.file q := by
    intro q
    rw [Vault.file, hwithin.root, hwithin.disk, Vault.file]
  rw [hparts]
  exact ⟨⟨rfl, hfile⟩, h.identity.trans hwithin.identity.symm, h.config.trans hwithin.config.symm,
    h.pending, hopens⟩

theorem integrate_parts {raws : List Bytes} {n : Nat} {e' : MemEngine Oid}
    (hb : HonestBatch e.store raws) (h : MemEngine.integrate raws e = (.ok n, e')) :
    (e'.state, n) = raws.foldl admitOne (e.state, 0) ∧
      e' = { e with store := e'.store, state := e'.state, main := e'.main } := by
  obtain ⟨t, ht, -⟩ := hb.verified
  rw [MemEngine.integrate_run, hb.decodes] at h
  simp only [ht] at h
  split_ifs at h with hzero
  · obtain ⟨hn, rfl⟩ := Prod.mk.inj h
    obtain rfl := Except.ok.inj hn
    exact ⟨Prod.ext rfl hzero.symm, rfl⟩
  · split at h
    · obtain ⟨hn, rfl⟩ := Prod.mk.inj h
      obtain rfl := Except.ok.inj hn
      exact ⟨rfl, rfl⟩
    · cases h

theorem Mirrors.receive (h : Mirrors v e) {raws : List Bytes} {n : Nat} (hraws : Gathered Oid raws)
    (hmain : ∀ want, w.Wants want → ∀ p ∈ want.keys, Ordinary p)
    (hrun : Vault.integrate raws v = (.ok n, w)) :
    ∃ e', MemEngine.Does e (.receive raws n) e' ∧ Mirrors w e' ∧ (v.InStep → w.InStep) := by
  obtain ⟨u, x, st, hwithin, hrecord, himage, rfl, hcase⟩ := Vault.integrate_image hrun
  obtain ⟨n', e₁, hint, htook⟩ := h.honest.integrate_gathered hraws
  obtain ⟨n'', i, hint', htook'⟩ := h.image.integrate_gathered hraws
  obtain ⟨hn, rfl⟩ := Prod.mk.inj (hint'.symm.trans himage)
  obtain rfl := Except.ok.inj hn
  obtain ⟨hstate, hparts⟩ := integrate_parts (hraws.honestBatch h.honest.history.store) hint
  obtain ⟨hstate', hparts'⟩ := integrate_parts (hraws.honestBatch h.image.history.store) himage
  have hsame : raws.foldl admitOne (e.state, 0) = raws.foldl admitOne
      (v.image.state, 0) := by rw [h.state]; rfl
  obtain ⟨hstates, rfl⟩ := Prod.mk.inj (hstate.trans (hsame.trans hstate'.symm))
  obtain ⟨⟨hworking, hfile⟩, hidentity, hconfig, hpend, hopens⟩ := h.within hwithin hparts
  have hrecorded : ∀ p ∈ u.state.materialized.keys, Ordinary p := by
    rw [hrecord]
    exact h.recorded
  have hrecords : e₁.state.materialized = u.state.materialized :=
      congrArg EngineState.materialized hstates
  -- a batch with nothing new ends the call before either side materializes
  rcases hcase with ⟨rfl, rfl⟩ | ⟨hne, hmat⟩
  · refine ⟨e₁, .known hint, ⟨htook.honest, htook'.honest, hopens, hidentity, hconfig, hstates, ?_,
      hpend, hrecorded, ?_⟩,
      fun hstep q hq => ?_⟩
    · exact (wants_alike htook.honest htook'.honest (congrArg EngineState.known hstates)).1
    · intro q
      rw [hworking, h.files q, ← hfile q]
      rfl
    · have hsame : (x.file q).map blobHash = x.state.materialized[q]? := by rw [hfile, hrecord, hstep q hq]
      exact hsame
  · have hfiled := Vault.filed_materialize u
    rw [hmat] at hfiled
    have hplain : ∀ want, e₁.Wants want → u.Wants want → u.Plain want := by
      rintro want - ⟨m, tree, hm, htree, hfiles⟩
      exact ⟨hmain want ⟨m, tree, hfiled.mainRef.trans hm, hfiled.store ▸ htree,
        hfiled.store ▸ hfiles⟩, hrecorded⟩
    have hin : ∀ want : FileMap, e₁.Wants want → ∀ q, Ordinary q →
        followed q want[q]? false false (e₁.working[q]?, e₁.state.materialized[q]?) =
          followed q want[q]? false false (u.cell q) := by
      intro want _ q hq
      rw [hworking, h.files q, if_pos hq, hrecords, ← hfile q]
      rfl
    have hout : ∀ q, ¬ Ordinary q → e₁.working[q]? = none ∧ e₁.state.materialized[q]? = none := by
      intro q hq
      rw [hworking, h.files q, if_neg hq, hrecords]
      exact ⟨rfl, Std.ExtTreeMap.getElem?_eq_none fun hmem =>
        hq (hrecorded q (Std.ExtTreeMap.mem_keys.mpr hmem))⟩
    have hupdate : e₁.state = { u.state with materialized := e₁.state.materialized } := by
      rw [hrecords]
      exact hstates
    obtain ⟨ops, e', hops, hmirrors, want, -, hcell⟩ :=
      mirrors_of_materialize htook.honest htook'.honest hidentity hconfig
      hupdate hopens hplain hpend hin hout hmat
    refine ⟨e', .receive hne hint hops, hmirrors st, fun hstep => ?_⟩
    have hends : x.InStep := by
      apply Vault.inStep_of_cell
      intro q hq
      rw [hcell q hq, Vault.cell, hfile, hrecord, ← hstep q hq]
      exact ⟨_, followed_settled (v.file q)⟩
    exact hends

omit [LawfulObjectId Oid] [LawfulCrates] in
theorem author_parts {m o : Oid} {l : Layer1 Oid} {now : Nat} {e' : MemEngine Oid}
    (h : MemEngine.author m l now e = (.ok o, e')) :
    o = (GitObject.commit (authored e.identity e.state m l now)).oid ∧
      e'.state = { e.state.nextCounter.2.addKnown o with materialized := recordOf l.filtered } ∧
      e' = { e with store := e'.store, state := e'.state, main := e'.main } := by
  rw [MemEngine.author_run] at h
  split at h
  · obtain ⟨ho, rfl⟩ := Prod.mk.inj h
    obtain rfl := Except.ok.inj ho
    exact ⟨rfl, rfl, rfl⟩
  · cases h

omit [LawfulObjectId Oid] [LawfulCrates] in
theorem Mirrors.refresh (h : Mirrors v e) :
    Mirrors v.refreshScope (e.setIgnore (Vault.loadIgnore v.root v.disk)) ∧
      (e.setIgnore (Vault.loadIgnore v.root v.disk)).scope = v.refreshScope.scope := by
  refine ⟨⟨h.honest.quiet ⟨rfl, rfl, rfl⟩, h.image.quiet ⟨rfl, rfl, rfl⟩, h.opens, h.identity,
    h.config, h.state, h.main,
    h.pending, h.recorded, h.files⟩, ?_⟩
  rw [MemEngine.setIgnore, MemEngine.rebuildScope, h.config]
  rfl

omit [LawfulCrates] in
theorem Mirrors.layer1 (h : Mirrors v e) {files : FileMap} (hclean : v.Clean files) {m tree : Oid}
    (hm : e.main = some m) (ht : mainTree e.store m = .ok tree) {l : Layer1 Oid}
    (hl : Csp.layer1 e.store m tree e.state.materialized files = .ok l) :
    mainTree v.store m = .ok tree ∧ Csp.layer1 v.store m tree v.state.materialized files = .ok l ∧
    l.quarantines = [] := by
  obtain ⟨m', hm', -, hgen, -⟩ := h.honest.main
  obtain rfl := Option.some.inj (hm.symm.trans hm')
  obtain ⟨m', hm'', -, hgen', -⟩ := h.image.main
  obtain rfl := Option.some.inj (hm.symm.trans (h.main.trans hm''))
  have hcar : Carries Tidy (Below e.store [m]) e.store v.store :=
      carries_tidy h.honest.history.store h.image.history.store
    (fun p hp => List.mem_singleton.mp hp ▸ hgen.commitIn) fun p hp => List.mem_singleton.mp hp ▸
    hgen'.commitIn
  obtain ⟨c, hc, rfl⟩ := MemEngine.mainTree_ok.mp ht
  obtain ⟨hc', htree, -⟩ := hcar.loadCommit (below_self (List.mem_singleton.mpr rfl)) hc
  have ht' : mainTree v.store m = .ok c.tree := MemEngine.mainTree_ok.mpr ⟨c, hc', rfl⟩
  rw [h.state] at hl
  have hl' := hcar.layer1 (below_self (List.mem_singleton.mpr rfl)) htree hl
  refine ⟨ht', hl', List.eq_nil_iff_forall_not_mem.mpr fun p hp => ?_⟩
  obtain ⟨hin, hstale⟩ := ((layer1_sorted hl').quarantines p).mp hp
  exact hclean.fresh m c.tree (h.main ▸ hm) ht' p (mem_keys_iff.mpr hin) hstale

omit [Crates] [LawfulCrates] [LawfulObjectId Oid] [ObjectId Oid] in
theorem storable_of_ordinary {p : Path} (hp : Ordinary p) : Storable p := by
  constructor
  · rintro rfl
    exact absurd hp (by decide)
  · intro hlast
    obtain ⟨l, rfl⟩ := List.getLast?_eq_some_iff.mp hlast
    have hempty : [] ∈ Split.splitOn '/' (l ++ ['/']) := by
      rw [Split.splitOn_append]
      exact List.mem_append_right _ List.mem_cons_self
    exact (hp.1 [] hempty).1 rfl

omit [Crates] [LawfulCrates] [LawfulObjectId Oid] [ObjectId Oid] in
theorem storedFiles_of_ordinary {files : FileMap} (h : ∀ p ∈ files.keys, Ordinary p) :
    storedFiles files = files := by
  apply Std.ExtTreeMap.ext_getElem?
  intro p
  apply Option.ext
  intro c
  rw [getElem?_storedFiles, and_iff_right_iff_imp]
  intro hc
  exact storable_of_ordinary (h p (mem_keys_iff.mpr (by simp [hc])))

omit [LawfulObjectId Oid] [LawfulCrates] in
theorem Vault.Clean.filtered {files : FileMap} (hclean : v.Clean files) {m tree : Oid}
    {l : Layer1 Oid} (hl : Csp.layer1 v.store m tree v.state.materialized files = .ok l)
    (hquar : l.quarantines = []) (p : Path) :
    l.filtered[p]? = if Ordinary p then v.file p else none := by
  rw [← hclean.all p]
  apply Option.ext
  intro c
  rw [(layer1_sorted hl).filtered, and_iff_left_iff_imp]
  intro hc hstale
  have hin := ((layer1_sorted hl).quarantines p).mpr ⟨by simp [hc], hstale⟩
  rw [hquar] at hin
  cases hin

/-- What is authored is what both hold, so the plan changes no file. -/
theorem Mirrors.author (h : Mirrors v e) {m o o' : Oid} {l : Layer1 Oid} {now : Nat}
    {e₁ : MemEngine Oid} (hm : v.mainRef = some m)
    (hfiles : ∀ p : Path, l.filtered[p]? = if Ordinary p then v.file p else none)
    (hfr : ∀ p ∈ l.filtered.keys, Framable p) (hnow : now < 2 ^ 64) (he₁ : Honest e₁)
    (ha : MemEngine.author m l now e = (.ok o, e₁)) (hwants : e₁.Wants (storedFiles l.filtered))
    (hrun : Vault.author m l now v = (.ok o', w)) :
    o' = o ∧ ∃ ops e', MemEngine.materializeStaged e₁ = (.ok ops, e') ∧ Mirrors w e' ∧
    w.InStep := by
  obtain ⟨u, x, st, hwithin, hrecord, himage, rfl, hmat⟩ := Vault.author_image hrun
  obtain ⟨o'', i, ha', hpublished⟩ := h.image.author hm hfr hnow
  obtain ⟨ho, rfl⟩ := Prod.mk.inj (ha'.symm.trans himage)
  obtain ⟨rfl, hstate, hparts⟩ := author_parts ha
  obtain ⟨hid, hstate', -⟩ := author_parts himage
  have hoid : o' = (GitObject.commit (authored e.identity e.state m l now)).oid := by
    rw [hid, h.identity, h.state]
    rfl
  have hu : Honest u.image := hpublished.honest.quiet ⟨rfl, rfl, rfl⟩
  obtain ⟨⟨hworking, hfile⟩, hidentity, hconfig, hpend, hopens⟩ := h.within hwithin hparts
  have hupdate : e₁.state = { u.state with materialized := recordOf l.filtered } := by
    rw [hstate, ← hoid, h.state]
    exact hstate'.symm
  have hord : ∀ p ∈ l.filtered.keys, Ordinary p := by
    intro p hp
    by_contra hnot
    exact mem_keys_iff.mp hp (by rw [hfiles p, if_neg hnot])
  rw [storedFiles_of_ordinary hord] at hwants
  have hin : ∀ want : FileMap, e₁.Wants want → ∀ q, Ordinary q →
      followed q want[q]? false false (e₁.working[q]?, e₁.state.materialized[q]?) =
        followed q want[q]? false false (u.cell q) := by
    intro want hw q hq
    -- the records differ here: the engine's is new already, the vault's is written by the pass
    have hcell : u.cell q = (v.file q, v.state.materialized[q]?) := by rw [Vault.cell, hfile, hrecord]
    obtain rfl := hw.unique hwants
    rw [hfiles q, hcell, hworking, h.files q, if_pos hq]
    cases v.file q with
    | none => simp [followed_none]
    | some c => simp [followed_some]
  have hplain : ∀ want, e₁.Wants want → u.Wants want → u.Plain want := by
    intro want hw _
    obtain rfl := hw.unique hwants
    exact ⟨hord, by rw [hrecord]; exact h.recorded⟩
  have hout : ∀ q, ¬ Ordinary q → e₁.working[q]? = none ∧ e₁.state.materialized[q]? = none := by
    intro q hq
    rw [hworking, h.files q, if_neg hq, hupdate]
    refine ⟨rfl, ?_⟩
    rw [recordOf, Std.ExtTreeMap.getElem?_map, hfiles q, if_neg hq]
    rfl
  obtain ⟨ops, e', hops, hmirrors, want, hw, hcell⟩ :=
    mirrors_of_materialize he₁ hu hidentity hconfig (by rw [hupdate])
    hopens hplain hpend hin hout hmat
  have hends : x.InStep := by
    apply Vault.inStep_of_cell
    intro q hq
    obtain rfl := hw.unique hwants
    rw [hcell q hq, hfiles q, if_pos hq, Vault.cell, hfile]
    exact ⟨_, followed_same _⟩
  exact ⟨hoid, ops, e', hops, hmirrors st, hends⟩

omit [LawfulObjectId Oid] [LawfulCrates] in
theorem Mirrors.inStep_iff (h : Mirrors v e) {filtered : FileMap}
    (hfiltered : ∀ p : Path, filtered[p]? = if Ordinary p then v.file p else none) :
    genuineChange v.state.materialized filtered = false ↔ v.InStep := by
  rw [MemEngine.genuineChange_eq_false_iff]
  constructor
  · intro hsame p hp
    rw [← hsame p, hfiltered p, if_pos hp]
  · intro hstep p
    rw [hfiltered p]
    split_ifs with hp
    · exact hstep p hp
    · exact (Std.ExtTreeMap.getElem?_eq_none fun hmem =>
          hp (h.recorded p (Std.ExtTreeMap.mem_keys.mpr hmem))).symm

theorem Mirrors.commit (h : Mirrors v e) {files : FileMap} {bucketTime now : Nat} {r : Option Oid}
    (hclean : v.Clean files) (hnames : v.disk.NulFree) (hnow : now < 2 ^ 64)
    (hrun : Vault.commitLocalChanges bucketTime now v = (.ok r, w)) :
    ∃ e', MemEngine.Does e (.commit bucketTime now (Vault.loadIgnore v.root v.disk) r) e' ∧
    Mirrors w e' ∧
      (r ≠ none ↔ v.state.bootstrapPending = false ∧ ¬ v.InStep) ∧
        (v.state.bootstrapPending = false ∨ v.InStep → w.InStep) := by
  obtain ⟨h₀, hscope⟩ := h.refresh
  generalize he₀ : e.setIgnore (Vault.loadIgnore v.root v.disk) = e₀ at h₀ hscope
  have hworking : e₀.working = files := Std.ExtTreeMap.ext_getElem? fun {q} => (h₀.files q).trans
      (hclean.all q).symm
  have hscoped : e₀.scopedFiles = files := by rw [MemEngine.scopedFiles, hscope, hworking, hclean.canonical]
  have hframable : ∀ p ∈ e₀.working.keys, Framable p := by
    rw [hworking]
    exact framable_workingFiles (v := v.refreshScope) hnames hclean.scanned
  obtain ⟨m, hm, -⟩ := h₀.honest.main
  have hm' : v.mainRef = some m := h₀.main.symm.trans hm
  have hv := Vault.commitLocalChanges_run bucketTime now hm'
  -- while the first batch is awaited, neither side commits
  cases hb : v.state.bootstrapPending with
  | true =>
    rw [hb, if_pos rfl] at hv
    obtain ⟨hr, rfl⟩ := Prod.mk.inj (hv.symm.trans hrun)
    obtain rfl := Except.ok.inj hr
    have hidle := MemEngine.commitScoped_run e₀.scopedFiles now hm
    rw [if_pos (by rw [h₀.state]; exact hb)] at hidle
    refine ⟨e₀, .idle (he₀ ▸ hidle), ⟨h₀.honest, h.image, h₀.opens, h₀.identity, h₀.config,
      h₀.state, h₀.main, h₀.pending,
      h₀.recorded, h₀.files⟩, ?_, fun hstep => ?_⟩
    · simp
    · simpa using hstep
  | false =>
    have hb₀ : e₀.state.bootstrapPending = false := by
      rw [h₀.state]
      exact hb
    obtain ⟨m₁, tree, l, d, hm₁, ht, hl, rfl, hcase⟩ :=
      MemEngine.commitStaged_sorted h₀.honest.linear hb₀ hframable hnow
    obtain rfl := Option.some.inj (hm.symm.trans hm₁)
    rw [hscoped] at hl
    have hclean₀ : v.refreshScope.Clean files :=
        ⟨hclean.scanned, hclean.canonical, hclean.all, hclean.fresh⟩
    obtain ⟨ht', hl', hquar⟩ := h₀.layer1 hclean₀ hm ht hl
    have hguarded : v.refreshScope.guarded bucketTime l = v.refreshScope := by
      rw [Vault.guarded, hquar]
      rfl
    rw [hquar, MemEngine.dropQuarantined_nil] at hcase
    rw [hb, if_neg Bool.false_ne_true, hclean.scanned] at hv
    have hstore : v.refreshScope.store = v.store := rfl
    have hmat : v.refreshScope.state.materialized = v.state.materialized := rfl
    rw [hstore] at ht' hl'
    rw [hmat] at hl'
    simp only [ht', hl', hguarded] at hv
    rcases hcase with ⟨hg, hidle⟩ | ⟨hg, o, e₁, ha, hauthored, -, hwants⟩
    · rw [h₀.state] at hg
      rw [hg, if_neg Bool.false_ne_true, if_neg (not_not_intro hquar)] at hv
      obtain ⟨hr, rfl⟩ := Prod.mk.inj (hv.symm.trans hrun)
      obtain rfl := Except.ok.inj hr
      have hstep := (h.inStep_iff (hclean.filtered hl' hquar)).mp hg
      exact ⟨e₀, .idle (he₀ ▸ hidle), h₀, by simp [hstep], fun _ => hstep⟩
    · rw [h₀.state] at hg
      rw [hg, if_pos rfl] at hv
      obtain ⟨r', e₂, hrun₂, hpublished⟩ := h₀.honest.commitStaged hframable hnow
      obtain ⟨-, rfl⟩ := Prod.mk.inj (hrun₂.symm.trans hauthored)
      have hfr : ∀ p ∈ l.filtered.keys, Framable p := fun p hp => by
        rw [hworking] at hframable
        exact hframable p (mem_of_mem_filtered hl hp)
      split at hv
      · rename_i o' w' hauthor
        obtain ⟨hr, rfl⟩ := Prod.mk.inj (hv.symm.trans hrun)
        obtain rfl := Except.ok.inj hr
        obtain ⟨rfl, ops, e', hops, hmirrors, hends⟩ :=
          h₀.author hm' (hclean.filtered hl' hquar) hfr hnow
          hpublished.honest ha hwants hauthor
        have hstep : ¬ v.InStep := fun hin => by
          rw [hmat, (h.inStep_iff (hclean.filtered hl' hquar)).mpr hin] at hg
          cases hg
        exact ⟨e', .commit (he₀ ▸ hauthored) hops, hmirrors, by simp [hstep], fun _ => hends⟩
      · cases (Prod.mk.inj (hv.symm.trans hrun)).1

/-- A commit authors if and only if a file is not as recorded, and leaves every file recorded, as a
batch does that finds them so. -/
def Vault.Accounts (v w : Vault Oid) : Event Oid → Prop
  | .edit _ _ => True
  | .commit _ _ _ made => (made ≠ none ↔ v.state.bootstrapPending = false ∧ ¬ v.InStep) ∧
      (v.state.bootstrapPending = false ∨ v.InStep → w.InStep)
  | .receive _ _ => v.InStep → w.InStep

/-- What the vault does, the engine does. -/
theorem Mirrors.step {a : Event Oid} (h : Mirrors v e) (hstep : Vault.Does v a w) :
    ∃ e', MemEngine.Does e a e' ∧ Mirrors w e' ∧ v.Accounts w a := by
  cases hstep with
  | edit hp content => exact ⟨_, .edit e _ content, h.edit hp content, trivial⟩
  | commit hclean hnames hnow hrun => exact h.commit hclean hnames hnow hrun
  | receive hraws hmain hrun => exact h.receive hraws hmain hrun

omit [Crates] [LawfulCrates] [LawfulObjectId Oid] in
theorem exists_files (v : Vault Oid) :
    ∃ files : FileMap, ∀ p : Path, files[p]? = if Ordinary p then v.file p else none := by
  have hkeys : ∀ ks : List Key, ∃ files : FileMap, ∀ p : Path, files[p]? =
      if Ordinary p ∧ v.root ++ Split.splitOn '/' p ∈ ks then v.file p else none := by
    intro ks
    induction ks with
    | nil => exact ⟨∅, fun p => by simp⟩
    | cons k ks ih =>
      obtain ⟨files, hfiles⟩ := ih
      by_cases hk : ∃ p, Ordinary p ∧ v.root ++ Split.splitOn '/' p = k
      · -- no two paths lead to one key
        obtain ⟨p, hp, hpk⟩ := hk
        refine ⟨files.alter p fun _ => v.file p, fun q => ?_⟩
        rw [Std.ExtTreeMap.getElem?_alter]
        by_cases hpq : p = q
        · subst hpq
          simp [hp, hpk]
        · have hne : v.root ++ Split.splitOn '/' q ≠ k := by
            intro hqk
            exact hpq (Split.splitOn_injective '/' (List.append_cancel_left (hpk.trans hqk.symm)))
          rw [if_neg (mt Std.LawfulEqCmp.eq_of_compare hpq), hfiles q]
          simp [hne]
      · refine ⟨files, fun q => ?_⟩
        rw [hfiles q]
        by_cases hq : Ordinary q
        · have hne : v.root ++ Split.splitOn '/' q ≠ k := fun hqk => hk ⟨q, hq, hqk⟩
          simp [hq, hne]
        · simp [hq]
  obtain ⟨files, hfiles⟩ := hkeys v.disk.files.keys
  refine ⟨files, fun p => ?_⟩
  rw [hfiles p]
  by_cases hp : Ordinary p
  · by_cases hmem : v.root ++ Split.splitOn '/' p ∈ v.disk.files.keys
    · rw [if_pos ⟨hp, hmem⟩, if_pos hp]
    · rw [if_neg fun h => hmem h.2, if_pos hp, Vault.file, placeOf_of_ordinary v.root hp,
        Option.bind_some]
      exact (Std.ExtTreeMap.getElem?_eq_none fun h => hmem (Std.ExtTreeMap.mem_keys.mpr h)).symm
  · rw [if_neg fun h => hp h.1, if_neg hp]

omit [LawfulCrates] [LawfulObjectId Oid] in
theorem create_disk {root : Key} {disk : Disk} {identity : Identity} {vaultId : Str}
    (h : Vault.create root disk identity vaultId = .ok v) :
    v.root = root ∧ v.disk.files = disk.files ∧ v.disk.refuses = disk.refuses ∧
    v.state.materialized = ∅ := by
  obtain ⟨d, scope, hrun, rfl⟩ := Vault.create_ok h
  obtain ⟨hfiles, hrefuses⟩ := DiskM.createDirAll_frame (root ++ [contextDir]).path disk
  rw [hrun] at hfiles hrefuses
  exact ⟨rfl, hfiles, hrefuses, rfl⟩

theorem mirrors_create {root : Key} {disk : Disk} {identity : Identity} {vaultId : Str}
    {files : FileMap} (hcreate : Vault.create root disk identity vaultId = .ok v) (hopens : v.Opens)
    (hfiles : ∀ p : Path, files[p]? = if Ordinary p then v.file p else none) :
    Mirrors v { MemEngine.create identity vaultId [] with working := files } := by
  have hnew : Honest (MemEngine.create identity vaultId [] : MemEngine Oid) :=
      honest_create identity vaultId []
  obtain ⟨hhist, hagain, hgen, hcov⟩ := @history_genesis Oid _ _ _ _ .disk
  obtain ⟨d, scope, -, rfl⟩ := Vault.create_ok hcreate
  have hrecorded : ∀ p ∈ (∅ : Std.ExtTreeMap Path Oid compare).keys, Ordinary p := by
    intro p hp
    simp at hp
  exact ⟨hnew.quiet ⟨rfl, rfl, rfl⟩, ⟨hhist, _, rfl, hagain, hgen, hcov⟩, hopens, rfl, rfl, rfl,
    rfl, rfl, hrecorded, hfiles⟩

theorem Mirrors.quiet {log : List (Event Oid)} (h : Mirrors v e)
    (hruns : Trace.Run Vault.Does v log w) (hquiet : ∀ p content, .edit p content ∉ log)
    (hstep : v.InStep) :
    w.InStep ∧ ∀ bucketTime now ignore o, .commit bucketTime now ignore (some o) ∉ log := by
  induction hruns generalizing e with
  | nil v => exact ⟨hstep, fun _ _ _ _ => List.not_mem_nil⟩
  | @cons v u w a log head tail ih =>
    obtain ⟨e', -, hmirrors, haccounts⟩ := h.step head
    have hfirst : u.InStep ∧ ∀ bucketTime now ignore o, a ≠ .commit bucketTime now ignore
        (some o) := by
      cases a with
      | edit p content => exact absurd List.mem_cons_self (hquiet p content)
      | commit bucketTime now ignore made =>
        obtain ⟨hmade, hends⟩ := haccounts
        refine ⟨hends (.inr hstep), ?_⟩
        rintro _ _ _ o ⟨⟩
        exact (hmade.mp (Option.some_ne_none o)).2 hstep
      | receive raws n => exact ⟨haccounts hstep, fun _ _ _ _ heq => by cases heq⟩
    obtain ⟨hends, hrest⟩ :=
      ih hmirrors (fun p content hmem => hquiet p content (List.mem_cons_of_mem a hmem)) hfirst.1
    refine ⟨hends, fun bucketTime now ignore o hmem => ?_⟩
    rcases List.mem_cons.mp hmem with heq | hmem
    · exact hfirst.2 bucketTime now ignore o heq.symm
    · exact hrest bucketTime now ignore o hmem

section Runs
variable {root : Key} {disk : Disk} {identity : Identity} {vaultId : Str} {files : FileMap}
    {log : List (Event Oid)}

theorem mirrors_run (hcreate : Vault.create root disk identity vaultId = .ok v) (hopens : v.Opens)
    (hfiles : ∀ p : Path, files[p]? = if Ordinary p then v.file p else none)
    (hruns : Trace.Run Vault.Does v log w) :
    ∃ e, Trace.Run MemEngine.Does { MemEngine.create identity vaultId [] with working := files } log
    e ∧ Mirrors w e := by
  have hstep : ∀ (v : Vault Oid) (e : MemEngine Oid) (a : Event Oid) (w : Vault Oid), Mirrors v e →
      Vault.Does v a w →
      ∃ e', MemEngine.Does e a e' ∧ Mirrors w e' := by
    intro v e a w h hstep
    obtain ⟨e', hdoes, hmirrors, -⟩ := h.step hstep
    exact ⟨e', hdoes, hmirrors⟩
  exact hruns.simulated hstep (mirrors_create hcreate hopens hfiles)

/-- After every run of a new vault, an engine that went through the same knows the same, keeps the
same record and has the same `main`, and its host holds the same files. -/
theorem vault_mirrored (hcreate : Vault.create root disk identity vaultId = .ok v)
    (hopens : v.Opens) (hfiles : ∀ p : Path, files[p]? = if Ordinary p then v.file p else none)
    (hruns : Trace.Run Vault.Does v log w) :
    ∃ e, Trace.Run MemEngine.Does { MemEngine.create identity vaultId
    [] with working := files } log e ∧
      e.state = w.state ∧ e.main = w.mainRef ∧ SameFiles w e ∧ ∃ want, e.Wants want ∧
      w.Wants want := by
  obtain ⟨e, hengine, hmirrors⟩ := mirrors_run hcreate hopens hfiles hruns
  obtain ⟨hmain, hwant⟩ := wants_alike hmirrors.honest hmirrors.image (by rw [hmirrors.state])
  exact ⟨e, hengine, hmirrors.state, hmain, hmirrors.files, hwant⟩

/-- At every point of a run a commit authors exactly when a file is not as recorded. What comes in
is never authored again: once the record is in step, only an edit leads to a commit that authors. -/
theorem no_echo (hcreate : Vault.create root disk identity vaultId = .ok v) (hopens : v.Opens)
    (hruns : Trace.Run Vault.Does v log w) :
    (∀ a x, Vault.Does w a x → w.Accounts x a) ∧
      ∀ log' x, Trace.Run Vault.Does w log' x → (∀ p content, .edit p content ∉ log') → w.InStep →
        x.InStep ∧ ∀ bucketTime now ignore o, .commit bucketTime now ignore (some o) ∉ log' := by
  obtain ⟨files, hfiles⟩ := exists_files v
  obtain ⟨e, -, hmirrors⟩ := mirrors_run hcreate hopens hfiles hruns
  constructor
  · intro a x hdoes
    obtain ⟨e', -, -, haccounts⟩ := hmirrors.step hdoes
    exact haccounts
  · intro log' x hruns' hquiet hstep
    exact hmirrors.quiet hruns' hquiet hstep

end Runs

end Calls

end Csp

namespace Csp.Small

def roomy : Disk := { files := ∅, dirs := ∅, refuses := fun _ => false }

def firstNote : Path := "a.txt".toList

theorem firstNote_run : ∃ v u w o, (Vault.create [] roomy owner [] : CspResult (Vault Shadow)) =
    .ok v ∧ v.Opens ∧ (∀ p : Path, (∅ : FileMap)[p]? = if Ordinary p then v.file p else none) ∧
      Vault.Does v (.edit firstNote (some [97])) u ∧ Vault.Does u (.commit 0 0 [] (some o)) w ∧
        u.state.bootstrapPending = false := by
  have hchecks : ((Vault.create [] roomy owner [] : CspResult (Vault Shadow)).toOption.any fun v =>
      let u := v.edited firstNote (some [97])
      decide u.disk.NulFree && (u.refreshScope.workingFiles.toOption.any fun f =>
        f.toList = [(firstNote, [97])] && (canonicalizeKeeps f u.refreshScope.scope).toList =
        [(firstNote, [97])]) &&
      (Vault.commitLocalChanges 0 0 u).1.toOption.join.isSome &&
      Vault.loadIgnore u.root u.disk = [] &&
        !u.state.bootstrapPending) = true := by
    decide +kernel
  cases hcreate : (Vault.create [] roomy owner [] : CspResult (Vault Shadow)) with
  | error x =>
    rw [hcreate] at hchecks
    cases hchecks
  | ok v =>
    rw [hcreate] at hchecks
    simp only [Except.toOption, Option.any_some, Bool.and_eq_true, decide_eq_true_eq,
      Option.any_eq_true] at hchecks
    obtain ⟨⟨⟨⟨hnames, f, hf, hlist, hcanon⟩, hcommit⟩, hignore⟩, hpending⟩ := hchecks
    obtain ⟨-, hdisk, hrefuses, hrecord⟩ := create_disk hcreate
    have hfile : ∀ p : Path, v.file p = none := by
      intro p
      rw [Vault.file, hdisk]
      cases placeOf v.root p <;> simp [roomy]
    have hopens : v.Opens := by
      intro p _
      rw [Vault.unread, Vault.unremoved, hrefuses]
      cases placeOf v.root p <;> simp [roomy]
    have hfiles : ∀ p : Path, (∅ : FileMap)[p]? = if Ordinary p then v.file p else none := by
      intro p
      rw [hfile, ite_self]
      simp
    have hnote : Ordinary firstNote := by decide
    have hedited := (mirrors_create hcreate hopens hfiles).edit hnote (some [97])
    have hone : (∅ : FileMap).insert firstNote [97] = f := by
      rw [← Std.ExtTreeMap.toList_inj, hlist]
      rfl
    have hclean : (v.edited firstNote (some [97])).Clean f := by
      refine ⟨?_, ?_, ?_, ?_⟩
      · cases hworking : (v.edited firstNote (some [97])).refreshScope.workingFiles with
        | error x =>
          rw [hworking] at hf
          cases hf
        | ok f' =>
          rw [hworking] at hf
          rw [Option.some.inj hf]
      · rw [← Std.ExtTreeMap.toList_inj, hcanon, hlist]
      · intro p
        rw [← hone]
        exact hedited.files p
      · rintro m tree - - p - ⟨-, -, hheld⟩
        rw [edited_eq v hnote] at hheld
        simp only [hrecord] at hheld
        simp at hheld
    cases hrun : Vault.commitLocalChanges 0 0 (v.edited firstNote (some [97])) with
    | mk r w =>
      rw [hrun] at hcommit
      cases r with
      | error x => cases hcommit
      | ok r =>
        obtain ⟨o, rfl⟩ := Option.isSome_iff_exists.mp (show r.isSome = true from hcommit)
        have hdoes := Vault.Does.commit hclean hnames (Nat.two_pow_pos 64) hrun
        rw [hignore] at hdoes
        exact ⟨v, _, w, o, rfl, hopens, hfiles, .edit hnote (some [97]),
          hdoes, by simpa using hpending⟩

theorem vault_mirrored_firstNote : ∃ v u o w e, Vault.Does v (.edit firstNote (some [97])) u ∧
    Vault.Does u (.commit 0 0 [] (some o)) w ∧
      Trace.Run MemEngine.Does (MemEngine.create owner [] [] : MemEngine Shadow)
        [.edit firstNote (some [97]), .commit 0 0 [] (some o)] e ∧ e.main = w.mainRef := by
  obtain ⟨v, u, w, o, hcreate, hopens, hfiles, hedit, hcommit, -⟩ := firstNote_run
  obtain ⟨e, hengine, -, hmain, -⟩ := vault_mirrored hcreate hopens hfiles
    (.cons hedit (.cons hcommit (.nil w)))
  exact ⟨v, u, o, w, e, hedit, hcommit, hengine, hmain⟩

/-- The commit authors since the record was behind, and it is in step from then on. -/
theorem no_echo_firstNote : ∃ v u o w, Vault.Does v (.edit firstNote (some [97])) u ∧
    Vault.Does (u : Vault Shadow) (.commit 0 0 [] (some o)) w ∧ ¬ u.InStep ∧ w.InStep := by
  obtain ⟨v, u, w, o, hcreate, hopens, -, hedit, hcommit, hpending⟩ := firstNote_run
  obtain ⟨haccounts, -⟩ := no_echo hcreate hopens (.cons hedit (.nil u))
  obtain ⟨hmade, hends⟩ := haccounts _ _ hcommit
  exact ⟨v, u, o, w, hedit, hcommit, (hmade.mp (Option.some_ne_none o)).2, hends (.inl hpending)⟩

end Csp.Small
