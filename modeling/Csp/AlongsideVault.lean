import Csp.Alongside
import Csp.Bystanders
import Csp.Collect
import Csp.HonestVault
import Csp.VaultCommit

/-! What comes after a refused batch in a vault. All else that a vault reads and writes, it reads
and writes whatever its store holds. -/

namespace Csp
open Result
variable {Oid : Type} [ObjectId Oid] [Crates] {s t u : Store Oid}

namespace Vault
variable {v w : Vault Oid}

def holding (v : Vault Oid) (t : Store Oid) : Vault Oid := { v with store := t }

/-- A vault that has more in its store than one that is otherwise the same. -/
structure Richer (u : Store Oid) (v w : Vault Oid) : Prop where
  rest : w = v.holding w.store
  stores : Csp.Richer u v.store w.store

section
variable (h : Richer u v w)
include h

omit [Crates] in
theorem Richer.state : w.state = v.state := by
  rw [h.rest]
  rfl

omit [Crates] in
theorem Richer.disk : w.disk = v.disk := by
  rw [h.rest]
  rfl

omit [Crates] in
theorem Richer.identity : w.identity = v.identity := by
  rw [h.rest]
  rfl

omit [Crates] in
theorem Richer.mainRef : w.mainRef = v.mainRef := by
  rw [h.rest]
  rfl

end

/-- The computation does not look at the store. -/
def Blind {α : Type} (x : VaultM Oid α) : Prop :=
  ∀ v t, x (v.holding t) = ((x v).1, (x v).2.holding t)

section Blind
variable {α : Type}

omit [Crates] in
theorem Blind.store {x : VaultM Oid α} (hx : Blind x) (v : Vault Oid) : (x v).2.store = v.store :=
  congrArg (fun r : CspResult α × Vault Oid => r.2.store) (hx v v.store)

omit [Crates] in
theorem Blind.matched {x : VaultM Oid α} (hx : Blind x) (h : Richer u v w) :
    Matched (Richer u) (x v) (x w) := by
  obtain ⟨hrest, hstores⟩ := h
  rw [hrest, hx v w.store]
  refine ⟨rfl, rfl, ?_⟩
  rw [hx.store]
  exact hstores

omit [Crates] in
theorem blind_save : Blind (save : VaultM Oid Unit) := by
  intro v t
  have hheld : save (v.holding t) = if v.disk.refuses .saveState then (.error ioError, v.holding t)
      else (.ok (), ({ v with saved := v.savedState } : Vault Oid).holding t) := rfl
  rw [hheld, save]
  split_ifs
  · rfl
  · rfl

omit [Crates] in
theorem blind_setMain (m : Oid) : Blind (setMain m) := by
  intro v t
  have hheld : setMain m (v.holding t) = if v.disk.refuses .setMain then
      (.error ioError, v.holding t)
      else (.ok (), ({ v with mainRef := some m } : Vault Oid).holding t) := rfl
  rw [hheld, setMain]
  split_ifs
  · rfl
  · rfl

omit [Crates] in
theorem blind_forM {f : α → VaultM Oid Unit} (hf : ∀ a, Blind (f a)) (l : List α) :
    Blind (l.forM f) := by
  induction l with
  | nil => exact fun v t => rfl
  | cons a l ih =>
    intro v t
    rw [run_forM_cons, run_forM_cons, hf a v t]
    rcases f a v with ⟨e | _, v'⟩
    · rfl
    · exact ih v' t

omit [Crates] in
theorem foldl_holding {f : Vault Oid → Path → Vault Oid}
    (hf : ∀ (v : Vault Oid) t p, f (v.holding t) p = (f v p).holding t) (ps : List Path)
    (v : Vault Oid) (t : Store Oid) : ps.foldl f (v.holding t) = (ps.foldl f v).holding t := by
  induction ps generalizing v with
  | nil => rfl
  | cons p ps ih => rw [List.foldl_cons, List.foldl_cons, hf, ih]

omit [Crates] in
theorem materializeRemoval_holding (want : FileMap) (v : Vault Oid) (t : Store Oid) (p : Path) :
    materializeRemoval want (v.holding t) p = (materializeRemoval want v p).holding t := by
  unfold materializeRemoval
  split_ifs
  · rfl
  · rfl

omit [Crates] in
theorem quarantineFile_holding (ts : Str) (v : Vault Oid) (t : Store Oid) (p : Path) :
    quarantineFile ts (v.holding t) p = (quarantineFile ts v p).holding t := by
  have hdisk : (v.holding t).disk = v.disk := rfl
  have hroot : (v.holding t).root = v.root := rfl
  unfold quarantineFile
  rw [hdisk, hroot]
  rcases DiskM.moveFile v.root p (orphanPath ts p) v.disk with ⟨_ | _, disk⟩
  · rfl
  · rfl

omit [Crates] in
theorem blind_materializeWrite (f : Path × Bytes) :
    Blind (materializeWrite f : VaultM Oid Unit) := by
  intro v t
  have hdisk : (v.holding t).disk = v.disk := rfl
  have hroot : (v.holding t).root = v.root := rfl
  have hstate : (v.holding t).state = v.state := rfl
  rw [materializeWrite_run, materializeWrite_run, hdisk, hroot, hstate]
  dsimp only
  rcases DiskM.writeAtomic v.root f.1 f.2 v.disk with ⟨_ | _, disk⟩
  · cases v.disk.readPath v.root f.1 with
    | none => rfl
    | some d =>
      dsimp only
      split_ifs
      · rfl
      · rfl
      · rfl
  · cases v.disk.readPath v.root f.1 with
    | none => rfl
    | some d =>
      dsimp only
      split_ifs
      · rfl
      · rfl
      · rfl

end Blind

section Spec
variable [LawfulObjectId Oid] [LawfulCrates] [AcyclicObjectId Oid] {raws : List Bytes}

omit [LawfulObjectId Oid] [LawfulCrates] [Crates] in
theorem Richer.materialize (h : Richer u v w) (hmain : ∀ m, v.mainRef = some m →
      Same v.store w.store m) :
    Matched (Richer u) (materialize v) (materialize w) := by
  obtain ⟨hrest, hstores⟩ := h
  have hheld : ∀ t, (v.holding t).mainRef = v.mainRef := fun _ => rfl
  rw [hrest, materialize_run, materialize_run, hheld]
  cases hm : v.mainRef with
  | none => exact ⟨rfl, rfl, hstores⟩
  | some m =>
    have hsame := hmain m hm
    have hstore : (v.holding w.store).store = w.store := rfl
    dsimp only
    rw [hstore, hsame.mainTree]
    cases htree : mainTree v.store m with
    | error e => exact ⟨rfl, rfl, hstores⟩
    | ok tree =>
      dsimp only
      rw [(hsame.of_mainTree htree).treeFiles hstores.left hstores.right]
      cases treeFiles v.store tree with
      | error e => exact ⟨rfl, rfl, hstores⟩
      | ok want =>
        have hremoved : Richer u (v.state.materialized.keys.foldl (materializeRemoval want) v)
            ((v.holding w.store).state.materialized.keys.foldl (materializeRemoval want)
              (v.holding w.store)) := by
          have hstate : (v.holding w.store).state = v.state := rfl
          rw [hstate, foldl_holding (materializeRemoval_holding want)]
          refine ⟨rfl, ?_⟩
          rw [(filed_removals want v.state.materialized.keys v).store]
          exact hstores
        obtain ⟨hresult, hwritten⟩ :=
          (blind_forM blind_materializeWrite want.toList).matched hremoved
        rcases hx : want.toList.forM materializeWrite
          (v.state.materialized.keys.foldl (materializeRemoval want) v) with ⟨r, x⟩
        rcases hy : want.toList.forM materializeWrite
          ((v.holding w.store).state.materialized.keys.foldl (materializeRemoval want)
            (v.holding w.store)) with ⟨r', y⟩
        rw [hx, hy] at hresult hwritten
        cases hresult
        dsimp only
        rw [hx, hy]
        cases r with
        | error e => exact ⟨rfl, hwritten⟩
        | ok => exact blind_save.matched hwritten

omit [LawfulObjectId Oid] [LawfulCrates] [AcyclicObjectId Oid] [Crates] in
theorem withPuts_of_granted {α : Type} {call : Call} (h : v.disk.refuses call = false)
    (x : StoreM Oid α) :
    withPuts call x v = withStore x v := by
  rcases withPuts_cases call x v with ⟨hrefused, -⟩ | hrun
  · rw [h] at hrefused
    cases hrefused
  · exact hrun

omit [LawfulObjectId Oid] [LawfulCrates] [AcyclicObjectId Oid] [Crates] in
theorem Richer.withStore {α : Type} {x : StoreM Oid α} (h : Richer u v w)
    (hresult : (x w.store).1 = (x v.store).1) (hricher : Csp.Richer u (x v.store).2 (x w.store).2) :
    Matched (Richer u) (withStore x v) (withStore x w) := by
  refine ⟨hresult, ?_, hricher⟩
  show ({ w with store := (x w.store).2 } : Vault Oid) = _
  rw [h.rest]
  rfl

omit [LawfulObjectId Oid] [LawfulCrates] [AcyclicObjectId Oid] [Crates] in
theorem store_bind {α β : Type} {x : VaultM Oid α} {f : α → VaultM Oid β}
    (hf : ∀ a v, (f a v).2.store = v.store) (v : Vault Oid) :
    ((x >>= f) v).2.store = (x v).2.store := by
  rw [run_bind]
  rcases x v with ⟨e | a, v'⟩
  · rfl
  · exact hf a v'

omit [LawfulObjectId Oid] [LawfulCrates] [AcyclicObjectId Oid] in
theorem recompute_of_granted (hput : v.disk.refuses .putFold = false) :
    recomputeAndMaterialize v = (do
      let m ← withStore (computeMain v.state.known)
      setMain m
      materialize : VaultM Oid Unit) v := by
  rw [recomputeAndMaterialize, run_bind_of_ok (run_get v), run_bind, run_bind,
    withPuts_of_granted hput]

omit [LawfulObjectId Oid] [LawfulCrates] [AcyclicObjectId Oid] in
theorem store_recompute (hput : v.disk.refuses .putFold = false) :
    (recomputeAndMaterialize v).2.store = (computeMain v.state.known v.store).2 := by
  rw [recompute_of_granted hput]
  refine store_bind (fun m v => ?_) v
  exact (store_bind (fun _ v => (filed_materialize v).store) v).trans ((blind_setMain m).store v)

theorem Richer.recompute (h : Richer u v w) (hreads : ∀ o ∈ v.state.known, Same v.store w.store o)
    (hput : v.disk.refuses .putFold = false) (hu : (recomputeAndMaterialize v).2.store.Extends u) :
    Matched (Richer u) (recomputeAndMaterialize v) (recomputeAndMaterialize w) := by
  have hput' : w.disk.refuses .putFold = false := by rwa [h.disk]
  rw [store_recompute hput] at hu
  rw [recompute_of_granted hput, recompute_of_granted hput', h.state]
  have hfold := paired_computeMain h.stores hreads hu
  refine (h.withStore hfold.result hfold.richer).bind fun m v' w' hv hw h' => ?_
  refine ((blind_setMain m).matched h').bind fun _ v'' w'' hset hset' h'' => ?_
  obtain rfl := setMain_ok hset
  obtain rfl := setMain_ok hset'
  refine h''.materialize fun m' hm' => ?_
  obtain rfl := Option.some.inj hm'
  obtain ⟨hm, rfl⟩ := Prod.mk.inj hv
  obtain ⟨-, rfl⟩ := Prod.mk.inj hw
  exact hfold.below m hm

omit [LawfulObjectId Oid] [LawfulCrates] [AcyclicObjectId Oid] in
theorem extends_recomputeAndMaterialize (hput : v.disk.refuses .putFold = false) :
    v.store.Extends (recomputeAndMaterialize v).2.store := by
  rw [store_recompute hput]
  exact extends_computeMain v.state.known v.store

/-- The system takes every object that is put. -/
structure Takes (d : Disk) : Prop where
  raw : ∀ n, d.refuses (.putRaw n) = false
  tree : d.refuses .putTree = false
  primitive : d.refuses .putPrimitive = false
  fold : d.refuses .putFold = false

omit [Crates] [LawfulObjectId Oid] [LawfulCrates] [AcyclicObjectId Oid] in
theorem Takes.of_refuses {d e : Disk} (h : Takes d) (he : e.refuses = d.refuses) : Takes e :=
  ⟨fun n => he ▸ h.raw n, he ▸ h.tree, he ▸ h.primitive, he ▸ h.fold⟩

omit [LawfulObjectId Oid] [LawfulCrates] [AcyclicObjectId Oid] in
theorem author_of_granted (hd : Takes v.disk) (m : Oid) (l : Layer1 Oid) (now : Nat) :
    author m l now v =
      if v.disk.refuses .setNodeTip then
        (.error ioError, { v.published l (authored v.identity v.state m l now)
        with nodeTips := v.nodeTips })
      else (do
        recomputeAndMaterialize
        save
        pure (GitObject.commit (authored v.identity v.state m l now)).oid : VaultM Oid Oid)
        (v.published l (authored v.identity v.state m l now)) := by
  have htree : writeTree l.filtered v = (.ok (writeTreeFromFiles l.filtered).2,
      v.holding (v.store.putAll (writeTreeFromFiles l.filtered).1)) := by
    rw [show writeTree l.filtered v = (do
      withPuts .putTree (StoreM.putAll (writeTreeFromFiles l.filtered).1)
      pure (writeTreeFromFiles l.filtered).2 : VaultM Oid Oid) v from rfl, run_bind,
      withPuts_of_granted hd.tree]
    rfl
  have hput : author m l now v = (do
      setNodeTip v.identity.nodeId (GitObject.commit (authored v.identity v.state m l now)).oid
      recomputeAndMaterialize
      save
      pure (GitObject.commit (authored v.identity v.state m l now)).oid : VaultM Oid Oid)
      { v.published l (authored v.identity v.state m l now) with nodeTips := v.nodeTips } := by
    rw [published, authoredObjects, Store.putAll_append, author, run_bind_of_ok htree,
      run_bind_of_ok (run_get _)]
    simp only [buildPrimitiveWithReadd_eq]
    rw [run_bind_of_ok (run_set _ _), run_bind, withPuts_of_granted (by exact hd.primitive)]
    rfl
  rw [hput]
  split_ifs with hset
  · exact run_bind_of_error (if_pos hset)
  · exact run_bind_of_ok (if_neg hset)

theorem Richer.author {m : Oid} {l : Layer1 Oid} {now : Nat} (h : Richer u v w)
    (hm : Same v.store w.store m) (hreads : ∀ o ∈ v.state.known, Same v.store w.store o)
    (hfr : ∀ p ∈ l.filtered.keys, Framable p) (hnow : now < 2 ^ 64) (hd : Takes v.disk)
    (hu : (author m l now v).2.store.Extends u) :
    Matched (Richer u) (author m l now v) (author m l now w) := by
  have henc := encodable_authoredObjects v.identity v.state m hfr hnow
  rw [author_of_granted hd] at hu ⊢
  rw [author_of_granted (h.disk ▸ hd), h.state, h.identity, h.disk]
  generalize hc : authored v.identity v.state m l now = c at hu henc ⊢
  have hricher : (v.store.putAll (authoredObjects l c)).Extends u → Richer u (v.published l c)
      (w.published l c) := by
    refine fun hput => ⟨?_, h.stores.putAll henc hput⟩
    rw [h.rest]
    rfl
  split_ifs at hu ⊢ with hset
  · obtain ⟨hrest, hstores⟩ := hricher hu
    refine ⟨rfl, ?_, hstores⟩
    rw [hrest, h.rest]
    rfl
  have hrest : ∀ x : Vault Oid, ((do save; pure (GitObject.commit c).oid : VaultM Oid Oid)
        x).2.store = x.store :=
    fun x => (store_bind (fun _ _ => rfl) x).trans (blind_save.store x)
  rw [store_bind fun _ => hrest] at hu
  have hput : (v.store.putAll (authoredObjects l c)).Extends u :=
    (extends_recomputeAndMaterialize (v := v.published l c) hd.fold).trans hu
  refine ((hricher hput).recompute (fun o ho => ?_) hd.fold hu).bind fun _ v' w' _ _ h' => ?_
  · refine Same.putAll h.stores henc hput (hc ▸ MemEngine.refs_authoredObjects hm) ?_
    have ho : o ∈ (v.state.nextCounter.2.addKnown (GitObject.commit c).oid).known := ho
    rw [known_addKnown] at ho
    rcases mem_addNew.mp ho with ho | rfl
    · exact .inl (hreads o ho)
    · exact .inr ⟨.commit c, List.mem_append_right _ List.mem_cons_self, rfl⟩
  · exact (blind_save.matched h').bind fun _ _ _ _ _ h'' => ⟨rfl, h''⟩

omit [Crates] [LawfulObjectId Oid] [LawfulCrates] [AcyclicObjectId Oid] in
theorem refuses_guarded (bucketTime : Nat) (l : Layer1 Oid) (v : Vault Oid) :
    (v.guarded bucketTime l).disk.refuses = v.disk.refuses := by
  unfold guarded
  induction l.quarantines generalizing v with
  | nil => rfl
  | cons p ps ih =>
    rw [List.foldl_cons, ih, quarantineFile]
    have hmove := DiskM.refuses_moveFile v.root p (orphanPath (orphansBucket bucketTime) p) v.disk
    rcases hrun : DiskM.moveFile v.root p (orphanPath (orphansBucket bucketTime) p) v.disk
      with ⟨_ | _, disk⟩
    · rwa [hrun] at hmove
    · rwa [hrun] at hmove

omit [Crates] [LawfulObjectId Oid] [LawfulCrates] [AcyclicObjectId Oid] in
theorem Richer.guarded (h : Richer u v w) (bucketTime : Nat) (l : Layer1 Oid) :
    Richer u (v.guarded bucketTime l) (w.guarded bucketTime l) := by
  have hheld : w.guarded bucketTime l = (v.guarded bucketTime l).holding w.store := by
    rw [h.rest]
    exact foldl_holding (quarantineFile_holding _) l.quarantines v w.store
  refine ⟨?_, ?_⟩
  · rw [hheld]
    rfl
  · rw [hheld, (filed_guarded v bucketTime l).store]
    exact h.stores

theorem Richer.commitLocalChanges {bucketTime now : Nat} (h : Richer u v w)
    (hmain : v.mainRef.isSome) (hreads : ∀ o, o ∈ v.state.known ∨ v.mainRef = some o →
      Same v.store w.store o) (hnames : v.disk.NulFree)
    (hnow : now < 2 ^ 64) (hd : Takes v.disk)
    (hu : (commitLocalChanges bucketTime now v).2.store.Extends u) :
    Matched (Richer u) (commitLocalChanges bucketTime now v) (commitLocalChanges bucketTime now w) := by
  obtain ⟨m, hm⟩ := Option.isSome_iff_exists.mp hmain
  have hsame := hreads m (.inr hm)
  have hfresh : Richer u v.refreshScope w.refreshScope := by
    refine ⟨?_, h.stores⟩
    rw [h.rest]
    rfl
  have hfiles : w.refreshScope.workingFiles = v.refreshScope.workingFiles := by
    rw [h.rest]
    rfl
  rw [commitLocalChanges_run bucketTime now hm] at hu ⊢
  rw [commitLocalChanges_run bucketTime now (h.mainRef.trans hm), hsame.mainTree, h.state, hfiles]
  split_ifs with hb
  · exact ⟨rfl, h⟩
  rw [if_neg hb] at hu
  cases hwork : v.refreshScope.workingFiles with
  | error e => exact ⟨rfl, hfresh⟩
  | ok files =>
    rw [hwork] at hu
    cases htree : mainTree v.store m with
    | error e => exact ⟨rfl, hfresh⟩
    | ok tree =>
      rw [htree] at hu
      simp only at hu ⊢
      rw [hsame.layer1 (hsame.of_mainTree htree)]
      cases hl : layer1 v.store m tree v.state.materialized files with
      | error e => exact ⟨rfl, hfresh⟩
      | ok l =>
        rw [hl] at hu
        have hguard := hfresh.guarded bucketTime l
        have hfiled := filed_guarded v.refreshScope bucketTime l
        have hguardSame : ∀ o, Same v.store w.store o →
            Same (v.refreshScope.guarded bucketTime l).store
            (w.refreshScope.guarded bucketTime l).store o := by
          rw [hfiled.store, (filed_guarded w.refreshScope bucketTime l).store]
          exact fun o => id
        have hfiles : ∀ p ∈ l.filtered.keys, Framable p := fun p hp =>
          framable_workingFiles (v := v.refreshScope) hnames hwork p (mem_of_mem_filtered hl hp)
        have hguardTakes := hd.of_refuses (refuses_guarded bucketTime l v.refreshScope)
        have hguardKnown : (v.refreshScope.guarded bucketTime l).state.known = v.state.known :=
            hfiled.known
        -- of the guarded vaults only what was said of them is used
        dsimp only at hu ⊢
        generalize v.refreshScope.guarded bucketTime l = v₁ at hguard hguardSame hguardTakes hguardKnown hu ⊢
        generalize w.refreshScope.guarded bucketTime l = w₁ at hguard hguardSame ⊢
        rw [hguard.state]
        -- the record is the same on both sides, and so is the decision
        by_cases hg : genuineChange v₁.state.materialized l.filtered = true
        · have hauthor := hguard.author (hguardSame m hsame)
            (fun o ho => hguardSame o (hreads o (.inl (hguardKnown ▸ ho)))) hfiles hnow hguardTakes
          rw [if_pos hg] at hu
          rw [if_pos hg, if_pos hg]
          rcases hs : Vault.author m l now v₁ with ⟨r, v'⟩
          rcases ht : Vault.author m l now w₁ with ⟨r', w'⟩
          rw [hs] at hu
          rw [hs, ht] at hauthor
          obtain ⟨hresult, hstates⟩ := hauthor (by cases r <;> exact hu)
          cases hresult
          cases r with
          | error e => exact ⟨rfl, hstates⟩
          | ok o => exact ⟨rfl, hstates⟩
        · rw [if_neg hg, if_neg hg]
          split_ifs with hq
          · obtain ⟨hresult, hsaved⟩ := blind_save.matched hguard
            rcases hs : save v₁ with ⟨r, v'⟩
            rcases ht : save w₁ with ⟨r', w'⟩
            rw [hs, ht] at hresult hsaved
            cases hresult
            cases r with
            | error e => exact ⟨rfl, hsaved⟩
            | ok => exact ⟨rfl, hsaved⟩
          · exact ⟨rfl, hguard⟩

omit [LawfulObjectId Oid] [LawfulCrates] [AcyclicObjectId Oid] in
theorem putEach_of_granted (hd : Takes v.disk) (n : Nat) (raws : List Bytes) :
    putEach n raws v = withStore (putRaws raws) v := by
  induction raws generalizing n v with
  | nil => rfl
  | cons r rs ih =>
    rw [putEach, run_bind, withPuts_of_granted (hd.raw n), withStore, withStore, putRaws, run_bind]
    rcases StoreM.putRaw r v.store with ⟨e | o, s⟩
    · rfl
    · exact ih (v := v.holding s) hd (n + 1)

omit [LawfulObjectId Oid] [LawfulCrates] [AcyclicObjectId Oid] in
theorem integrate_undecodable (hd : Takes v.disk) {err : CspError}
    (hdec : (decoded raws : List (GitObject Oid) × Option CspError).2 = some err) :
    Vault.integrate raws v = (.error err, v.holding (v.store.putAll (decoded raws).1)) := by
  rw [Vault.integrate, run_bind, putEach_of_granted hd, Vault.withStore, putRaws_run, hdec]
  rfl

omit [LawfulObjectId Oid] [LawfulCrates] [AcyclicObjectId Oid] in
theorem extends_settle (hput : v.disk.refuses .putFold = false) (n : Nat) :
    v.store.Extends (settle n v).2.store := by
  unfold settle
  split_ifs
  · rw [store_bind fun _ => blind_save.store]
    exact extends_recomputeAndMaterialize hput
  · rw [blind_save.store]
    exact .refl v.store

theorem Richer.settle (h : Richer u v w) (hreads : ∀ o ∈ v.state.known, Same v.store w.store o)
    (hput : v.disk.refuses .putFold = false) (n : Nat) (hu : (Vault.settle n v).2.store.Extends u) :
    Matched (Richer u) (Vault.settle n v) (Vault.settle n w) := by
  unfold Vault.settle at hu ⊢
  split_ifs at hu ⊢
  · rw [store_bind fun _ => blind_save.store] at hu
    exact (h.recompute hreads hput hu).bind fun _ _ _ _ _ h' => blind_save.matched h'
  · exact blind_save.matched h

theorem Richer.integrate (h : Richer u v w) (hreads : BatchReads raws v.state.known v.store w.store)
    (hd : Takes v.disk) (hu : (integrate raws v).2.store.Extends u) :
    Matched (Richer u) (integrate raws v) (integrate raws w) := by
  have henc : ∀ x ∈ (decoded raws : List (GitObject Oid) × Option CspError).1, x.Encodable :=
    fun x hx => encodable_of_mem_decoded hx
  have hd' : Takes w.disk := h.disk ▸ hd
  have hricher : (v.store.putAll (decoded raws).1).Extends u →
      Richer u (v.holding (v.store.putAll (decoded raws).1))
      (w.holding (w.store.putAll (decoded raws).1)) := by
    refine fun hput => ⟨?_, h.stores.putAll henc hput⟩
    rw [h.rest]
    rfl
  cases hdec : (decoded raws : List (GitObject Oid) × Option CspError).2 with
  | some e =>
    rw [integrate_undecodable hd hdec] at hu ⊢
    rw [integrate_undecodable hd' hdec]
    exact ⟨rfl, hricher hu⟩
  | none =>
    have hput : ∀ v : Vault Oid, Takes v.disk →
        putEach 0 raws v = (.ok (), v.holding (v.store.putAll (decoded raws).1)) := fun v hd => by
      rw [putEach_of_granted hd, Vault.withStore, putRaws_run, hdec]
      rfl
    have hverified := extends_verifyBatch raws (v.store.putAll (decoded raws).1)
    -- the synthetic commits of the batch read alike in both stores, so they are judged alike
    have hverify : (verifyBatch raws (v.store.putAll (decoded raws).1)).2.Extends u →
        Paired u (v.store.putAll (decoded raws).1) (w.store.putAll (decoded raws).1)
          (verifyBatch raws (v.store.putAll (decoded raws).1))
          (verifyBatch raws (w.store.putAll (decoded raws).1)) :=
      fun hu => paired_verifyBatch (h.stores.putAll henc (hverified.trans hu))
        (fun r hr o ho => hreads o (.inr (commit_of_synthetic hdec hr ho))) hu
    obtain ⟨b, s', hs⟩ := verifyBatch_total raws (v.store.putAll (decoded raws).1)
    obtain ⟨b', t', ht⟩ := verifyBatch_total raws (w.store.putAll (decoded raws).1)
    rw [hs, ht] at hverify
    have hfalse : ∀ (v : Vault Oid) s', Takes v.disk →
        verifyBatch raws (v.store.putAll (decoded raws).1) = (.ok false, s') →
        Vault.integrate raws v = (.ok 0, v.holding s') := fun v s' hd hs => by
      rw [integrate_put (hput v hd),
        show verifyBatch raws (v.holding (v.store.putAll (decoded raws).1)).store = _ from hs]
      rfl
    cases b with
    | false =>
      rw [hfalse v s' hd hs] at hu ⊢
      have hpair := hverify hu
      obtain rfl := Except.ok.inj hpair.result
      rw [hfalse w t' hd' ht]
      refine ⟨rfl, ?_, hpair.richer⟩
      rw [h.rest]
      rfl
    | true =>
      rw [integrate_settle (hput v hd) hs, store_bind fun _ _ => rfl] at hu
      have hpair := hverify ((extends_settle
        (v := { v with store := s', state := (raws.foldl admitOne (v.state, 0)).1 })
        hd.fold _).trans hu)
      obtain rfl := Except.ok.inj hpair.result
      rw [integrate_settle (hput v hd) hs, integrate_settle (hput w hd') ht, h.state]
      -- what was read alike before verification still is, and the fold reads nothing else
      have hadmitted : Richer u { v with store := s', state := (raws.foldl admitOne (v.state, 0)).1 }
          { w with store := t', state := (raws.foldl admitOne (v.state, 0)).1 } := by
        refine ⟨?_, hpair.richer⟩
        rw [h.rest]
        rfl
      refine (hadmitted.settle (fun o ho => hpair.kept o (hreads o ?_)) hd.fold _ hu).bind
        fun _ _ _ _ _ h' => ⟨rfl, h'⟩
      rw [(admits_foldl raws v.state 0).known] at ho
      exact (mem_foldl_addNew.mp ho).imp_right (commit_of_accepted hdec)

end Spec

/-- What is not read off the store is as it may be, and the next commit does not meet what the one
has more. -/
structure CommitsAs (bucketTime now : Nat) (v w : Vault Oid) : Prop where
  reads : ∀ o, o ∈ v.state.known ∨ v.mainRef = some o → Same v.store w.store o
  agrees : ∀ (o : Oid) x y, (commitLocalChanges bucketTime now v).2.store.get o = .ok x →
    w.store.get o = .ok y → y = x
  takes : Takes v.disk
  names : v.disk.NulFree
  clock : now < 2 ^ 64

structure TakesAs (raws : List Bytes) (v w : Vault Oid) : Prop where
  reads : BatchReads raws v.state.known v.store w.store
  agrees : ∀ (o : Oid) x y, (integrate raws v).2.store.get o = .ok x → w.store.get o = .ok y → y = x
  takes : Takes v.disk

/-- A vault without the batches that it refused, and the same vault with them. -/
inductive Alongside : Vault Oid → Vault Oid → Prop
  | start {seen scanned : List (List Bytes)} {v : Vault Oid} (h : Runs seen scanned v) :
    Alongside v v
  | refused {v w w' : Vault Oid} {raws : List Bytes} {err : CspError} (h : Alongside v w)
      (hrun : integrate raws w = (.error err, w')) (hrec : w.Recovers raws) : Alongside v w'
  | edit {v w : Vault Oid} (h : Alongside v w) (disk : Disk) (config : VaultConfig) :
      Alongside { v with disk, config } { w with disk, config }
  | commit {v w : Vault Oid} (h : Alongside v w) {bucketTime now : Nat}
    (hc : v.CommitsAs bucketTime now w) :
      Alongside (commitLocalChanges bucketTime now v).2 (commitLocalChanges bucketTime now w).2
  | integrate {v w : Vault Oid} (h : Alongside v w) {raws : List Bytes} (ht : v.TakesAs raws w) :
      Alongside (integrate raws v).2 (integrate raws w).2

section Runs
variable [LawfulObjectId Oid] [LawfulCrates] [AcyclicObjectId Oid]

theorem Alongside.richer (h : v.Alongside w) : Richer v.store v w ∧ v.mainRef.isSome := by
  induction h with
  | start h => exact ⟨⟨rfl, .refl h.vouched.sound⟩, h.vouched.main⟩
  | @refused v w w' raws err _ hrun hrec ih =>
    obtain ⟨⟨hrest, hstores⟩, hmain⟩ := ih
    have hleft := (w.integrate_atomic raws).mpr hrec err w' hrun
    have hlearns := learns_integrate (P := fun _ => True) hstores.right raws
    rw [hrun] at hlearns
    refine ⟨⟨?_, hstores.more hlearns.gains.sound
      ((w.store.extends_putAll _).trans hlearns.gains.ext)⟩, hmain⟩
    rw [hleft, hrest]
    rfl
  | edit _ disk config ih =>
    obtain ⟨⟨hrest, hstores⟩, hmain⟩ := ih
    refine ⟨⟨?_, hstores⟩, hmain⟩
    rw [hrest]
    rfl
  | @commit v w _ bucketTime now hc ih =>
    obtain ⟨⟨hrest, hstores⟩, hmain⟩ := ih
    have hstep := Richer.commitLocalChanges ⟨hrest, hstores.of_agrees hc.agrees⟩ hmain hc.reads
      hc.names hc.clock
      hc.takes (.refl _)
    have hlearns := learns_commitLocalChanges (P := fun _ => True) hstores.left
      (fun _ _ => trivial) hmain hc.names
      bucketTime hc.clock
    exact ⟨hstep.states, hlearns.main hmain⟩
  | @integrate v w _ raws ht ih =>
    obtain ⟨⟨hrest, hstores⟩, hmain⟩ := ih
    have hstep := Richer.integrate ⟨hrest, hstores.of_agrees ht.agrees⟩ ht.reads ht.takes (.refl _)
    exact ⟨hstep.states, (learns_integrate (P := fun _ => True) hstores.left raws).main hmain⟩

end Runs
end Vault

end Csp

/-! ### A file whose batch is refused, and which is committed later -/

namespace Csp.Small

def staged (e : MemEngine Digest) : MemEngine Digest := { e with working := oneFile }

end Csp.Small
