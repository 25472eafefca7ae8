import Csp.Vault

/-! What materializing leaves alone: the vault's knowledge, its identity and its settings. -/

namespace Csp
open Result
variable {Oid : Type} [ObjectId Oid]

namespace Vault

/-- The second vault differs from the first at most in its disk, its object store, its refs,
its materialized record and its state file. -/
structure Frame (v w : Vault Oid) : Prop where
  root : w.root = v.root
  scope : w.scope = v.scope
  identity : w.identity = v.identity
  config : w.config = v.config
  known : w.state.known = v.state.known
  observed : w.state.observed = v.state.observed
  counter : w.state.counter = v.state.counter
  snapshots : w.state.snapshots = v.state.snapshots
  bootstrapPending : w.state.bootstrapPending = v.state.bootstrapPending

variable {u v w : Vault Oid}

theorem Frame.refl (v : Vault Oid) : v.Frame v := ⟨rfl, rfl, rfl, rfl, rfl, rfl, rfl, rfl, rfl⟩

theorem Frame.trans (h : u.Frame v) (h' : v.Frame w) : u.Frame w where
  root := h'.root.trans h.root
  scope := h'.scope.trans h.scope
  identity := h'.identity.trans h.identity
  config := h'.config.trans h.config
  known := h'.known.trans h.known
  observed := h'.observed.trans h.observed
  counter := h'.counter.trans h.counter
  snapshots := h'.snapshots.trans h.snapshots
  bootstrapPending := h'.bootstrapPending.trans h.bootstrapPending

/-- The second vault differs from the first at most in its disk, its materialized record, its
node tips and its state file. -/
structure Filed (v w : Vault Oid) : Prop extends Frame v w where
  store : w.store = v.store
  mainRef : w.mainRef = v.mainRef

theorem Filed.refl (v : Vault Oid) : v.Filed v := ⟨.refl v, rfl, rfl⟩

theorem Filed.trans (h : u.Filed v) (h' : v.Filed w) : u.Filed w :=
  ⟨h.toFrame.trans h'.toFrame, h'.store.trans h.store, h'.mainRef.trans h.mainRef⟩

theorem filed_disk (disk : Disk) (v : Vault Oid) : v.Filed { v with disk } :=
  ⟨⟨rfl, rfl, rfl, rfl, rfl, rfl, rfl, rfl, rfl⟩, rfl, rfl⟩

theorem filed_record (p : Path) (content : Bytes) (v : Vault Oid) : v.Filed (record p content v) :=
  ⟨⟨rfl, rfl, rfl, rfl, rfl, rfl, rfl, rfl, rfl⟩, rfl, rfl⟩

theorem filed_save (v : Vault Oid) : v.Filed (save v).2 := by
  rw [save]
  split_ifs
  · exact .refl v
  · exact ⟨⟨rfl, rfl, rfl, rfl, rfl, rfl, rfl, rfl, rfl⟩, rfl, rfl⟩

@[simp] theorem save_disk (v : Vault Oid) : (save v).2.disk = v.disk := by
  rw [save]
  split_ifs
  · rfl
  · rfl

theorem save_ok (h : save v = (.ok (), w)) : w = { v with saved := v.savedState } := by
  rw [save] at h
  split_ifs at h
  · cases (Prod.mk.inj h).1
  · exact (Prod.mk.inj h).2.symm

theorem save_error {e : CspError} (h : save v = (.error e, w)) : w = v := by
  rw [save] at h
  split_ifs at h
  · exact (Prod.mk.inj h).2.symm
  · cases (Prod.mk.inj h).1

/-! ### What is put -/

theorem withPuts_cases {α : Type} (call : Call) (x : StoreM Oid α) (v : Vault Oid) :
    (v.disk.refuses call = true ∧ withPuts call x v = (.error ioError, v)) ∨
      withPuts call x v = ((x v.store).1, { v with store := (x v.store).2 }) := by
  rw [withPuts]
  simp only
  split_ifs with h
  · exact .inl ⟨(Bool.and_eq_true_iff.mp h).2, rfl⟩
  · exact .inr rfl

theorem withPuts_ok {α : Type} {call : Call} {x : StoreM Oid α} {r : α}
    (h : withPuts call x v = (.ok r, w)) :
    x v.store = (.ok r, w.store) ∧ w = { v with store := w.store } := by
  rcases withPuts_cases call x v with ⟨-, hrun⟩ | hrun
  · cases (Prod.mk.inj (hrun.symm.trans h)).1
  · obtain ⟨hr, rfl⟩ := Prod.mk.inj (hrun.symm.trans h)
    exact ⟨Prod.ext hr rfl, rfl⟩

theorem frame_withPuts {α : Type} (call : Call) (x : StoreM Oid α) (v : Vault Oid) :
    v.Frame (withPuts call x v).2 := by
  rcases withPuts_cases call x v with ⟨-, hrun⟩ | hrun
  · rw [hrun]
    exact .refl v
  · rw [hrun]
    exact ⟨rfl, rfl, rfl, rfl, rfl, rfl, rfl, rfl, rfl⟩

theorem setMain_ok {m : Oid} (h : setMain m v = (.ok (), w)) :
    w = { v with mainRef := some m } := by
  rw [setMain] at h
  split_ifs at h
  · cases (Prod.mk.inj h).1
  · exact (Prod.mk.inj h).2.symm

theorem setMain_of_granted (h : v.disk.refuses .setMain = false) (m : Oid) :
    setMain m v = (.ok (), { v with mainRef := some m }) := by
  rw [setMain, if_neg (by simp [h])]

theorem frame_setMain (m : Oid) (v : Vault Oid) : v.Frame (setMain m v).2 := by
  rw [setMain]
  split_ifs
  · exact .refl v
  · exact ⟨rfl, rfl, rfl, rfl, rfl, rfl, rfl, rfl, rfl⟩

/-! ### Materializing -/

theorem filed_materializeRemoval (want : FileMap) (v : Vault Oid) (p : Path) :
    v.Filed (materializeRemoval want v p) := by
  unfold materializeRemoval
  split_ifs
  · exact .refl v
  · exact ⟨⟨rfl, rfl, rfl, rfl, rfl, rfl, rfl, rfl, rfl⟩, rfl, rfl⟩

theorem filed_foldl {f : Vault Oid → Path → Vault Oid} (hf : ∀ (v : Vault Oid) p, v.Filed (f v p))
    (ps : List Path) (v : Vault Oid) : v.Filed (ps.foldl f v) := by
  induction ps generalizing v with
  | nil => exact .refl v
  | cons p ps ih => exact (hf v p).trans (ih _)

theorem filed_removals (want : FileMap) (ps : List Path) (v : Vault Oid) :
    v.Filed (ps.foldl (materializeRemoval want) v) :=
  filed_foldl (filed_materializeRemoval want) ps v

theorem materializeWrite_run (p : Path) (content : Bytes) (v : Vault Oid) :
    materializeWrite (p, content) v =
      let write := match DiskM.writeAtomic v.root p content v.disk with
        | (.ok (), disk) => (.ok (), record p content { v with disk })
        | (.error e, disk) => (.error e, { v with disk })
      match v.disk.readPath v.root p with
      | some d =>
        if some (blobHash d) ≠ v.state.materialized[p]? ∧ d ≠ content then (.ok (), v)
        else if d = content then (.ok (), record p content v)
        else write
      | none => write := by
  have hwrite : (do
      withDisk (DiskM.writeAtomic v.root p content)
      modify (record p content) : VaultM Oid Unit) v =
      match DiskM.writeAtomic v.root p content v.disk with
        | (.ok (), disk) => (.ok (), record p content { v with disk })
        | (.error e, disk) => (.error e, { v with disk }) := by
    rw [run_bind, withDisk]
    rcases DiskM.writeAtomic v.root p content v.disk with ⟨_ | _, disk⟩
    · rfl
    · rfl
  rw [materializeWrite, run_bind_of_ok (run_get v)]
  simp only
  cases v.disk.readPath v.root p with
  | none => exact hwrite
  | some d =>
    simp only [Bool.and_eq_true, decide_eq_true_eq]
    by_cases h1 : some (blobHash d) ≠ v.state.materialized[p]? ∧ d ≠ content
    · rw [if_pos h1, if_pos h1]
      rfl
    · rw [if_neg h1, if_neg h1]
      by_cases h2 : d = content
      · rw [if_pos h2, if_pos h2]
        rfl
      · rw [if_neg h2, if_neg h2]
        exact hwrite

theorem filed_materializeWrite (f : Path × Bytes) (v : Vault Oid) :
    v.Filed (materializeWrite f v).2 := by
  obtain ⟨p, content⟩ := f
  have hwrite : v.Filed (match DiskM.writeAtomic v.root p content v.disk with
      | (.ok (), disk) => ((.ok (), record p content { v with disk }) : CspResult Unit × Vault Oid)
      | (.error e, disk) => (.error e, { v with disk })).2 := by
    split
    · exact (filed_disk _ v).trans (filed_record p content _)
    · exact filed_disk _ v
  rw [materializeWrite_run]
  simp only
  split
  · split_ifs
    · exact .refl v
    · exact filed_record p content v
    · exact hwrite
  · exact hwrite

theorem filed_writes (fs : List (Path × Bytes)) (v : Vault Oid) :
    v.Filed (fs.forM materializeWrite v).2 :=
  run_forM_induction Filed .refl (fun _ _ _ => .trans) filed_materializeWrite fs v

theorem materialize_run (v : Vault Oid) :
    materialize v = match v.mainRef with
      | none => (.ok (), v)
      | some main =>
        match mainTree v.store main with
        | .error e => (.error e, v)
        | .ok tree =>
          match treeFiles v.store tree with
          | .error e => (.error e, v)
          | .ok want =>
            match want.toList.forM materializeWrite
                (v.state.materialized.keys.foldl (materializeRemoval want) v) with
            | (.ok _, w) => save w
            | (.error e, w) => (.error e, w) := by
  rw [materialize, run_bind_of_ok (run_get v)]
  cases v.mainRef with
  | none => rfl
  | some main =>
    simp only
    rw [run_bind, withStore, StoreM.read]
    cases mainTree v.store main with
    | error e => rfl
    | ok tree =>
      simp only
      rw [run_bind, withStore, StoreM.read]
      cases treeFiles v.store tree with
      | error e => rfl
      | ok want =>
        simp only
        rw [run_bind_of_ok (run_modify _ _), run_bind]
        rcases want.toList.forM materializeWrite
          (v.state.materialized.keys.foldl (materializeRemoval want) v) with ⟨_ | _, w⟩
        · rfl
        · rfl

theorem filed_materialize (v : Vault Oid) : v.Filed (materialize v).2 := by
  rw [materialize_run]
  split
  · exact .refl v
  · split
    · exact .refl v
    · split
      · exact .refl v
      · rename_i want _
        have h := (filed_removals want v.state.materialized.keys v).trans
          (filed_writes want.toList _)
        split
        · rename_i w hw
          rw [hw] at h
          exact h.trans (filed_save w)
        · rename_i w hw
          rw [hw] at h
          exact h

theorem filed_quarantineFile (ts : Str) (v : Vault Oid) (p : Path) :
    v.Filed (quarantineFile ts v p) := by
  unfold quarantineFile
  split
  · exact ⟨⟨rfl, rfl, rfl, rfl, rfl, rfl, rfl, rfl, rfl⟩, rfl, rfl⟩
  · exact filed_disk _ v

variable [Crates]

theorem recomputeAndMaterialize_ok (h : recomputeAndMaterialize v = (.ok (), w)) :
    ∃ m t, computeMain v.state.known v.store = (.ok m, t) ∧
      materialize { v with store := t, mainRef := some m } = (.ok (), w) := by
  rw [recomputeAndMaterialize, run_bind_of_ok (run_get v)] at h
  obtain ⟨m, u, hput, h⟩ := run_bind_ok.mp h
  obtain ⟨⟨⟩, u', hset, h⟩ := run_bind_ok.mp h
  obtain ⟨hm, hu⟩ := withPuts_ok hput
  obtain rfl := setMain_ok hset
  refine ⟨m, u.store, hm, ?_⟩
  rw [hu] at h
  exact h

theorem recomputeAndMaterialize_induction (P : Vault Oid → Vault Oid → Prop)
    (htrans : ∀ u v w, P u v → P v w → P u w)
    (hput : ∀ v : Vault Oid, P v (withPuts .putFold (computeMain v.state.known) v).2)
    (hset : ∀ (m : Oid) (v : Vault Oid), P v (setMain m v).2)
    (hmat : ∀ v : Vault Oid, P v (materialize v).2) (v : Vault Oid) :
    P v (recomputeAndMaterialize v).2 := by
  rw [recomputeAndMaterialize, run_bind_of_ok (run_get v)]
  apply run_bind_induction P htrans (hput v)
  intro m u _
  exact run_bind_induction P htrans (hset m u) fun _ u' _ => hmat u'

theorem frame_recomputeAndMaterialize (v : Vault Oid) : v.Frame (recomputeAndMaterialize v).2 :=
  recomputeAndMaterialize_induction Frame (fun _ _ _ => .trans)
    (fun v => frame_withPuts _ _ v) frame_setMain
    (fun v => (filed_materialize v).toFrame) v

theorem create_ok {root : Key} {disk : Disk} {id : Identity} {vaultId : Str}
    (h : create root disk id vaultId = .ok v) :
    ∃ (d : Disk) (scope : Scope), DiskM.createDirAll (root ++ [contextDir]).path disk = (.ok (), d) ∧ v =
      { root, disk := d, store := (genesis (Store.empty .disk)).2,
        mainRef := some (GitObject.commit genesisCommit).oid,
        nodeTips := ∅, state := { vaultId }, saved := { vaultId }, scope, identity := id,
        config := { vaultId, name := [] } } := by
  unfold create at h
  split at h
  · cases h
  · rename_i d hrun
    split_ifs at h
    exact ⟨d, _, hrun, (Except.ok.inj h).symm⟩

end Vault

end Csp
