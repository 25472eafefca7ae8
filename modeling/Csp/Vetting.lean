import Csp.HonestVault
import Csp.StateFile

/-! What an opened vault knows. The known list is rebuilt from the state file and from a scan
of the object store, and the store also keeps what an integrate turned away. -/

namespace Csp
open Result
variable {Oid : Type} [ObjectId Oid] [Crates]

/-- The commit verifies. -/
def Vetted (c : CommitObj Oid) : Prop := ∃ node, verifyPrimitive c = .ok node

/-- The objects that a batch leaves in the store bring no primitive that does not verify. -/
def Signed (Oid : Type) [ObjectId Oid] (raws : List Bytes) : Prop :=
  ∀ c : CommitObj Oid, .commit c ∈ (decoded raws).1 → isPrimitive c = true → Vetted c

/-! ### What enters a store -/

/-- The store grew, and its new primitives are of a kind. -/
structure Gains (P : CommitObj Oid → Prop) (s t : Store Oid) : Prop where
  ext : s.Extends t
  sound : t.Sound
  new : ∀ o c, loadCommit t o = .ok c → isPrimitive c = true → loadCommit s o = .ok c ∨ P c

section Gains
variable {P : CommitObj Oid → Prop} {s t u : Store Oid}

theorem Gains.refl (hs : s.Sound) : Gains P s s := ⟨.refl s, hs, fun _ _ hc _ => .inl hc⟩

theorem Gains.trans (h : Gains P s t) (h' : Gains P t u) : Gains P s u := by
  refine ⟨h.ext.trans h'.ext, h'.sound, fun o c hc hp => ?_⟩
  rcases h'.new o c hc hp with hc | hP
  · exact h.new o c hc hp
  · exact .inr hP

omit [Crates] in
theorem notMem_commit_buildTree {n : Nat} {pre : Str} {files : FileMap} {c : CommitObj Oid} :
    .commit c ∉ (buildTree n pre files : List (GitObject Oid) × Oid).1 := by
  induction n generalizing pre with
  | zero => exact List.not_mem_nil
  | succ n ih =>
    intro h
    rcases mem_buildTree_fst.mp h with ⟨rel, b, -, hb⟩ | ⟨d, -, hd⟩ | ht
    · cases hb
    · exact ih hd
    · cases ht

omit [ObjectId Oid] [Crates] in
theorem commit_of_canon {x : GitObject Oid} {c : CommitObj Oid}
    (h : x.canon = (GitObject.commit c).canon) :
    x = .commit c := by
  cases x with
  | commit d => exact congrArg GitObject.commit (GitObject.commit.inj h)
  | _ => cases h

variable [LawfulObjectId Oid] [LawfulCrates]

theorem loadCommit_putAll (hs : s.Sound) {xs : List (GitObject Oid)} (henc : ∀ x ∈ xs, x.Encodable)
    {c : CommitObj Oid} (hc : .commit c ∈ xs) :
    loadCommit (s.putAll xs) (GitObject.commit c).oid = .ok c := by
  obtain ⟨y, hy, hcanon⟩ := hs.get_putAll henc hc
  rw [commit_of_canon hcanon] at hy
  exact loadCommit_ok.mpr hy

theorem gains_putAll (hs : s.Sound) {xs : List (GitObject Oid)} (henc : ∀ x ∈ xs, x.Encodable)
    (hP : ∀ c, .commit c ∈ xs → isPrimitive c = true → P c) : Gains P s (s.putAll xs) := by
  refine ⟨s.extends_putAll xs, hs.putAll henc, fun o c hc hp => ?_⟩
  rcases Store.getElem?_putAll (Store.get_eq_ok.mp (loadCommit_ok.mp hc)) with hold | ⟨x, hx, -, hr⟩
  · exact .inl (loadCommit_ok.mpr (Store.get_eq_ok.mpr hold))
  · obtain ⟨y, hy, hcanon, -⟩ := Store.reread_eq s.backend (henc x hx)
    obtain rfl := Except.ok.inj (hy.symm.trans hr.symm)
    rw [commit_of_canon hcanon.symm] at hx
    exact .inr (hP c hx hp)

theorem gains_refold (hs : s.Sound) (ps : List Oid) : Gains P s (refold ps s).2 := by
  rw [refold_run]
  split
  · rename_i objs c hf
    refine gains_putAll hs (written_foldObjects hs hf).encodable fun c' hc' hp => ?_
    obtain ⟨⟨tree, time, -, rfl⟩, ⟨tip, -, rfl, -⟩ | ⟨acc, tk, m, -, -, rfl, -⟩⟩ :=
      foldObjects_commit hf
    · obtain rfl := GitObject.commit.inj (List.mem_singleton.mp hc')
      rw [isPrimitive_foldCommit] at hp
      cases hp
    · rcases List.mem_append.mp hc' with hc' | hc'
      · exact absurd hc' notMem_commit_buildTree
      · obtain rfl := GitObject.commit.inj (List.mem_singleton.mp hc')
        rw [isPrimitive_foldCommit] at hp
        cases hp
  · exact .refl hs

theorem gains_genesis (hs : s.Sound) : Gains P s (genesis s).2 := by
  rw [genesis_run]
  refine gains_putAll hs written_genesis.encodable fun c hc hp => ?_
  rcases List.mem_cons.mp hc with hc | hc
  · cases hc
  · obtain rfl := GitObject.commit.inj (List.mem_singleton.mp hc)
    rw [isPrimitive_genesis] at hp
    cases hp

theorem gains_verifyBatch (hs : s.Sound) (raws : List Bytes) : Gains P s (verifyBatch raws s).2 :=
  verifyBatch_induction (fun s t => s.Sound → Gains P s t) (fun _ => .refl)
    (fun _ _ _ h h' hs => (h hs).trans (h' (h hs).sound))
    (fun ps _ hs => gains_refold hs ps) raws s hs

theorem gains_computeMain (hs : s.Sound) (known : List Oid) : Gains P s (computeMain known s).2 :=
  computeMain_induction (fun s t => s.Sound → Gains P s t) (fun _ => .refl)
    (fun _ _ _ h h' hs => (h hs).trans (h' (h hs).sound)) (fun ps _ hs => gains_refold hs ps)
    (fun _ hs => gains_genesis hs) known s hs

end Gains

/-! ### What an operation makes known -/

namespace Vault
variable {P : CommitObj Oid → Prop} {u v w : Vault Oid} {o : Oid}

/-- An operation of the vault. What it makes known verifies, and what is known stays so. -/
structure Learns (P : CommitObj Oid → Prop) (v w : Vault Oid) : Prop where
  gains : Gains P v.store w.store
  main : v.mainRef.isSome → w.mainRef.isSome
  keeps : ∀ o ∈ v.state.known, o ∈ w.state.known
  learnt : ∀ o, o ∈ w.state.known ∨ o ∈ w.saved.known →
    (o ∈ v.state.known ∨ o ∈ v.saved.known) ∨ ∃ c, loadCommit w.store o = .ok c ∧ Vetted c

theorem Learns.refl (hs : v.store.Sound) : Learns P v v :=
  ⟨.refl hs, id, fun _ ho => ho, fun _ ho => .inl ho⟩

theorem Learns.trans (h : Learns P u v) (h' : Learns P v w) : Learns P u w := by
  refine ⟨h.gains.trans h'.gains, fun hm => h'.main (h.main hm), fun o ho =>
    h'.keeps o (h.keeps o ho), fun o ho => ?_⟩
  rcases h'.learnt o ho with ho | ho
  · rcases h.learnt o ho with ho | ⟨c, hc, hv⟩
    · exact .inl ho
    · exact .inr ⟨c, loadCommit_extends h'.gains.ext hc, hv⟩
  · exact .inr ho

theorem Filed.learns (h : v.Filed w) (hs : v.store.Sound)
    (hsaved : ∀ o ∈ w.saved.known, o ∈ v.state.known ∨ o ∈ v.saved.known) : Learns P v w := by
  refine ⟨?_, ?_, ?_, fun o ho => .inl ?_⟩
  · rw [h.store]
    exact .refl hs
  · rw [h.mainRef]
    exact id
  · rw [h.known]
    exact fun o ho => ho
  · rw [h.known] at ho
    exact ho.elim .inl (hsaved o)

omit [Crates] in
theorem mem_known_saved_save (h : o ∈ (save v).2.saved.known) : o ∈ v.state.known ∨
    o ∈ v.saved.known := by
  rw [save] at h
  split_ifs at h
  · exact .inr h
  · simp only [savedState] at h
    split_ifs at h
    · exact .inl h
    · exact (mem_known_mergeSaved v.state v.saved).mp h

theorem learns_save (hs : v.store.Sound) : Learns P v (save v).2 :=
  (filed_save v).learns hs fun _ => mem_known_saved_save

/-- Neither the state file nor the refs of the nodes change. -/
structure Beside (v w : Vault Oid) : Prop where
  saved : w.saved = v.saved
  nodeTips : w.nodeTips = v.nodeTips

omit [Crates] in
theorem Beside.refl (v : Vault Oid) : v.Beside v := ⟨rfl, rfl⟩

omit [Crates] in
theorem Beside.trans (h : u.Beside v) (h' : v.Beside w) : u.Beside w :=
  ⟨h'.saved.trans h.saved, h'.nodeTips.trans h.nodeTips⟩

omit [Crates] in
theorem beside_foldl {f : Vault Oid → Path → Vault Oid} (hf : ∀ (v : Vault Oid) p, v.Beside (f v p))
    (ps : List Path) (v : Vault Oid) : v.Beside (ps.foldl f v) := by
  induction ps generalizing v with
  | nil => exact .refl v
  | cons p ps ih => exact (hf v p).trans (ih (f v p))

omit [Crates] in
theorem beside_materializeRemoval (want : FileMap) (v : Vault Oid) (p : Path) :
    v.Beside (materializeRemoval want v p) := by
  unfold materializeRemoval
  split_ifs
  · exact .refl v
  · exact ⟨rfl, rfl⟩

omit [Crates] in
theorem beside_guarded (v : Vault Oid) (bucketTime : Nat) (l : Layer1 Oid) :
    v.Beside (v.guarded bucketTime l) := by
  refine beside_foldl (fun v p => ?_) l.quarantines v
  unfold quarantineFile
  split
  · exact ⟨rfl, rfl⟩
  · exact ⟨rfl, rfl⟩

omit [Crates] in
theorem beside_materializeWrite (f : Path × Bytes) (v : Vault Oid) :
    v.Beside (materializeWrite f v).2 := by
  obtain ⟨p, content⟩ := f
  rw [materializeWrite_run]
  simp only
  split
  · split_ifs
    · exact .refl v
    · exact ⟨rfl, rfl⟩
    · split
      · exact ⟨rfl, rfl⟩
      · exact ⟨rfl, rfl⟩
  · split
    · exact ⟨rfl, rfl⟩
    · exact ⟨rfl, rfl⟩

omit [Crates] in
theorem beside_files (want : FileMap) (v : Vault Oid) : v.Beside
    (want.toList.forM materializeWrite (v.state.materialized.keys.foldl
      (materializeRemoval want) v)).2 :=
  (beside_foldl (beside_materializeRemoval want) _ v).trans
    (run_forM_induction Beside .refl (fun _ _ _ => .trans) beside_materializeWrite want.toList _)

omit [Crates] in
theorem mem_known_saved_materialize (h : o ∈ (materialize v).2.saved.known) : o ∈ v.state.known ∨
    o ∈ v.saved.known := by
  rw [materialize_run] at h
  split at h
  · exact .inr h
  · split at h
    · exact .inr h
    · split at h
      · exact .inr h
      · next want _ =>
        have hfiled := (filed_removals want v.state.materialized.keys v).trans
          (filed_writes want.toList _)
        have hsaved := (beside_files want v).saved
        split at h
        · next w hw =>
          rw [hw] at hfiled hsaved
          rcases mem_known_saved_save h with h | h
          · rw [hfiled.known] at h
            exact .inl h
          · rw [hsaved] at h
            exact .inr h
        · next w hw =>
          rw [hw] at hsaved
          rw [hsaved] at h
          exact .inr h

variable [LawfulObjectId Oid] [LawfulCrates]

theorem learns_recompute (hs : v.store.Sound) : Learns P v (recomputeAndMaterialize v).2 := by
  have hparts := recomputeAndMaterialize_induction (fun v w : Vault Oid => v.store.Sound →
      Learns P v w)
    (fun _ _ _ h h' hs => (h hs).trans (h' (h hs).gains.sound)) (fun v hs => ?_) (fun m v hs => ?_)
    (fun v hs => (filed_materialize v).learns hs fun o ho => mem_known_saved_materialize ho) v
  · exact hparts hs
  · rcases withPuts_cases .putFold (computeMain v.state.known) v with ⟨-, hrun⟩ | hrun
    · rw [hrun]
      exact .refl hs
    · rw [hrun]
      exact ⟨gains_computeMain hs v.state.known, id, fun o ho => ho, fun o ho => .inl ho⟩
  · rw [setMain]
    split_ifs
    · exact .refl hs
    · exact ⟨.refl hs, fun _ => rfl, fun o ho => ho, fun o ho => .inl ho⟩

theorem learns_author (hs : v.store.Sound) (hP : ∀ c, Vetted c → P c) (m : Oid) {l : Layer1 Oid}
    (hfr : ∀ p ∈ l.filtered.keys, Framable p) {now : Nat} (hnow : now < 2 ^ 64) :
    Learns P v (author m l now v).2 := by
  have hvetted : Vetted (authored v.identity v.state m l now) :=
    ⟨_, verifyPrimitive_signed _ _ _ (counter_lt v.state) _ _ _⟩
  have hload := (load_putAll_authored v.identity v.state m hs hfr hnow).1
  have hobjects : ∀ x ∈ authoredObjects l (authored v.identity v.state m l now), x.Encodable :=
    encodable_authoredObjects _ _ _ hfr hnow
  have hknown : Learns P v { v.published l (authored v.identity v.state m l now)
      with nodeTips := v.nodeTips } := by
    refine ⟨gains_putAll hs hobjects ?_, id, fun o ho => ?_, fun o ho => ?_⟩
    · intro c hc hp
      rcases List.mem_append.mp hc with hc | hc
      · exact absurd hc notMem_commit_buildTree
      · obtain rfl := GitObject.commit.inj (List.mem_singleton.mp hc)
        exact hP _ hvetted
    · unfold published
      rw [known_addKnown]
      exact mem_addNew.mpr (.inl ho)
    · unfold published at ho
      rw [known_addKnown, mem_addNew] at ho
      rcases ho with (ho | rfl) | ho
      · exact .inl (.inl ho)
      · exact .inr ⟨_, hload, hvetted⟩
      · exact .inl (.inr ho)
  have hbegun : ∀ w, Begun l (authored v.identity v.state m l now) v w → v.store.Sound →
      Learns P v w := by
    intro w hw hs
    cases hw with
    | refused => exact .refl hs
    | tree =>
      refine ⟨gains_putAll hs (fun x hx => hobjects x (List.mem_append_left _ hx)) fun c hc _ => ?_,
        id, fun o ho => ho,
        fun o ho => .inl ho⟩
      exact absurd hc notMem_commit_buildTree
    | known => exact hknown
  have hpublished : v.store.Sound → Learns P v
      (v.published l (authored v.identity v.state m l now)) := fun _ =>
    ⟨hknown.gains, hknown.main, hknown.keeps, hknown.learnt⟩
  exact author_induction (fun v w : Vault Oid => v.store.Sound → Learns P v w)
    (fun _ _ _ h h' hs => (h hs).trans (h' (h hs).gains.sound)) hbegun hpublished
    (fun v hs => learns_recompute hs) (fun v hs => learns_save hs) hs

theorem learns_commitLocalChanges (hs : v.store.Sound) (hP : ∀ c, Vetted c → P c)
    (hm : v.mainRef.isSome) (hnames : v.disk.NulFree) (bucketTime : Nat) {now : Nat}
    (hnow : now < 2 ^ 64) :
    Learns P v (commitLocalChanges bucketTime now v).2 := by
  obtain ⟨m, hm⟩ := Option.isSome_iff_exists.mp hm
  have hfresh : Learns P v v.refreshScope := ⟨.refl hs, id, fun o ho => ho, fun o ho => .inl ho⟩
  have hguarded : ∀ l : Layer1 Oid, Learns P v (v.refreshScope.guarded bucketTime l) := by
    intro l
    refine hfresh.trans ((filed_guarded v.refreshScope bucketTime l).learns hs fun o ho => .inr ?_)
    rw [(beside_guarded v.refreshScope bucketTime l).saved] at ho
    exact ho
  rw [commitLocalChanges_run _ _ hm]
  split_ifs with hb
  · exact ⟨.refl hs, id, fun o ho => ho, fun o ho => .inl ho⟩
  split
  · exact hfresh
  · next files hfiles =>
    split
    · exact hfresh
    · split
      · exact hfresh
      · next l hl =>
        have hfr : ∀ p ∈ l.filtered.keys, Framable p := fun p hp =>
          framable_workingFiles (v := v.refreshScope) hnames hfiles p (mem_of_mem_filtered hl hp)
        have hauthored := (hguarded l).trans (learns_author (hguarded l).gains.sound hP m hfr hnow)
        split_ifs
        · split
          · next hu =>
            rw [hu] at hauthored
            exact hauthored
          · next hu =>
            rw [hu] at hauthored
            exact hauthored
        · have hsaved := (hguarded l).trans (learns_save (hguarded l).gains.sound)
          split
          · next hu =>
            rw [hu] at hsaved
            exact hsaved
          · next hu =>
            rw [hu] at hsaved
            exact hsaved
        · exact hguarded l

theorem learns_integrate (hs : v.store.Sound) (raws : List Bytes) :
    Learns P { v with store := v.store.putAll (decoded (putPart 0 raws v)).1 }
    (Vault.integrate raws v).2 := by
  have henc : ∀ raws : List Bytes, ∀ x ∈ (decoded raws : List (GitObject Oid) × Option CspError).1,
      x.Encodable :=
    fun _ x hx => encodable_of_mem_decoded hx
  obtain ⟨r, hput, hok⟩ := putEach_run 0 raws v
  have hstored : (v.store.putAll (decoded (putPart 0 raws v)).1).Sound := hs.putAll (henc _)
  cases r with
  | error e =>
    rw [Vault.integrate, run_bind, hput]
    exact .refl hstored
  | ok _ =>
    obtain ⟨hkept, hall⟩ := hok rfl
    rw [Vault.integrate_put hput]
    rw [hkept] at hstored ⊢
    have hverified : Gains P (v.store.putAll (decoded raws).1)
        (verifyBatch raws (v.store.putAll (decoded raws).1)).2 :=
      gains_verifyBatch hstored raws
    have hgrown : ∀ {t : Store Oid}, Gains P (v.store.putAll (decoded raws).1) t →
        Learns P { v with store := v.store.putAll (decoded raws).1 } { v with store := t } :=
      fun h => ⟨h, id, fun o ho => ho, fun o ho => .inl ho⟩
    rcases hv : verifyBatch raws (v.store.putAll (decoded raws).1) with ⟨e | ok, t⟩
    · rw [hv] at hverified
      exact hgrown hverified
    rw [hv] at hverified
    cases ok with
    | false => exact hgrown hverified
    | true =>
      -- what is admitted is stored as it was sent
      have hadmitted : Learns P { v with store := v.store.putAll (decoded raws).1 }
          { v with store := t, state := (raws.foldl admitOne (v.state, 0)).1 } := by
        have hknown := (admits_foldl raws v.state 0).known
        refine ⟨hverified, id, fun o ho => ?_, fun o ho => ?_⟩
        · simp only [hknown]
          exact mem_foldl_addNew.mpr (.inl ho)
        · simp only [hknown, mem_foldl_addNew] at ho
          rcases ho with (ho | ho) | ho
          · exact .inl (.inl ho)
          · obtain ⟨r, hr, c, hc, -, hvetted, rfl⟩ := mem_accepted.mp ho
            obtain ⟨x, hx, hx'⟩ := decoded_of_all hall r hr
            obtain rfl : GitObject.commit c = x := Except.ok.inj (hc.symm.trans hx')
            exact .inr ⟨c, loadCommit_extends hverified.ext
              (loadCommit_putAll hs (henc _) hx), hvetted⟩
          · exact .inl (.inr ho)
      have hrest : ∀ (n : Nat) {w : Vault Oid},
          Learns P { v with store := v.store.putAll (decoded raws).1 } w →
          Learns P { v with store := v.store.putAll (decoded raws).1 }
            ((do save; pure n : VaultM Oid Nat) w).2 := by
        intro n w hw
        have hsaved := hw.trans (learns_save hw.gains.sound)
        rw [run_bind]
        rcases hsave : save w with ⟨_ | _, x⟩
        · rwa [hsave] at hsaved
        · rwa [hsave] at hsaved
      simp only
      by_cases h0 : (raws.foldl admitOne (v.state, 0)).2 > 0
      · rw [if_pos h0, run_bind]
        have hfolded := hadmitted.trans (learns_recompute hverified.sound)
        rcases hfold : recomputeAndMaterialize
          { v with store := t, state := (raws.foldl admitOne (v.state, 0)).1 } with
          ⟨_ | _, x⟩
        · rwa [hfold] at hfolded
        · rw [hfold] at hfolded
          exact hrest _ hfolded
      · rw [if_neg h0]
        exact hrest _ hadmitted

end Vault

/-! ### Runs with restarts -/

/-- The vaults that a run leads to, with the batches that it was given, as far as they were put,
and those after which its store was scanned. Names on disk hold no NUL and the clock is one of 64
bits. -/
inductive Vault.Runs : List (List Bytes) → List (List Bytes) → Vault Oid → Prop
  | create {root : Key} {disk : Disk} {id : Identity} {vaultId : Str} {v : Vault Oid}
      (hv : create root disk id vaultId = .ok v) : Runs [] [] v
  | edit {seen scanned : List (List Bytes)} {v : Vault Oid} (h : Runs seen scanned v) (disk : Disk)
      (config : VaultConfig) : Runs seen scanned { v with disk, config }
  | join {seen scanned : List (List Bytes)} {v : Vault Oid} (h : Runs seen scanned v) :
      Runs seen scanned (markBootstrapPending v).2
  | caughtUp {seen scanned : List (List Bytes)} {v : Vault Oid} (h : Runs seen scanned v) :
      Runs seen scanned (markBootstrapComplete v).2
  | commit {seen scanned : List (List Bytes)} {v : Vault Oid} (h : Runs seen scanned v)
    (bucketTime : Nat) {now : Nat}
      (hnames : v.disk.NulFree) (hnow : now < 2 ^ 64) : Runs seen scanned
      (commitLocalChanges bucketTime now v).2
  | integrate {seen scanned : List (List Bytes)} {v : Vault Oid} (h : Runs seen scanned v)
    (raws : List Bytes) :
      Runs (putPart 0 raws v :: seen) scanned (Vault.integrate raws v).2
  | reopen {seen scanned : List (List Bytes)} {v : Vault Oid} (h : Runs seen scanned v)
    (id : Identity) :
      Runs seen seen (v.reopen id)

/-- The commit came with one of the batches. -/
def CameIn (raws : List (List Bytes)) (c : CommitObj Oid) : Prop :=
  ∃ r ∈ raws, .commit c ∈ (decoded r).1

/-- What holds along a run. A stored primitive verifies or came with a batch, and one that came
before the last scan is known. -/
structure Vault.Vouched (seen scanned : List (List Bytes)) (v : Vault Oid) : Prop where
  sound : v.store.Sound
  main : v.mainRef.isSome
  subset : scanned ⊆ seen
  stored : ∀ o c, loadCommit v.store o = .ok c → isPrimitive c = true → Vetted c ∨ CameIn seen c
  loads : ∀ c, CameIn seen c → loadCommit v.store (GitObject.commit c).oid = .ok c
  known : ∀ o, o ∈ v.state.known ∨ o ∈ v.saved.known →
    ∃ c, loadCommit v.store o = .ok c ∧ (Vetted c ∨ isPrimitive c = true ∧ CameIn scanned c)
  scanned : ∀ c, CameIn scanned c → isPrimitive c = true → (GitObject.commit c).oid ∈ v.state.known

namespace Vault
variable {seen scanned : List (List Bytes)} {v w : Vault Oid}

theorem Vouched.learns (h : v.Vouched seen scanned) {seen' : List (List Bytes)}
    (hsub : seen ⊆ seen') (hl : Learns (fun c => Vetted c ∨ CameIn seen' c) v w)
    (hloads : ∀ c, CameIn seen' c → loadCommit w.store (GitObject.commit c).oid = .ok c) :
    w.Vouched seen' scanned := by
  refine ⟨hl.gains.sound, hl.main h.main, fun r hr => hsub (h.subset hr), fun o c hc hp => ?_,
    hloads, fun o ho => ?_,
    fun c hc hp => hl.keeps _ (h.scanned c hc hp)⟩
  · rcases hl.gains.new o c hc hp with hold | hnew
    · exact (h.stored o c hold hp).imp_right fun ⟨r, hr, hc⟩ => ⟨r, hsub hr, hc⟩
    · exact hnew
  · rcases hl.learnt o ho with ho | ⟨c, hc, hv⟩
    · obtain ⟨c, hc, hv⟩ := h.known o ho
      exact ⟨c, loadCommit_extends hl.gains.ext hc, hv⟩
    · exact ⟨c, hc, .inl hv⟩

theorem Vouched.learns_same (h : v.Vouched seen scanned)
    (hl : Learns (fun c => Vetted c ∨ CameIn seen c) v w) :
    w.Vouched seen scanned :=
  h.learns (List.Subset.refl seen) hl fun c hc => loadCommit_extends hl.gains.ext (h.loads c hc)

theorem rescan_known (s : Store Oid) (st : EngineState Oid) (o : Oid) :
    (rescan s st o).known = addNew st.known o := by
  unfold rescan
  rw [← known_addKnown]
  split
  · split
    · rfl
    · rfl
  · rfl

theorem known_reopen (v : Vault Oid) (id : Identity) {o : Oid} :
    o ∈ (v.reopen id).state.known ↔ o ∈ v.saved.known ∨ o ∈ scanPrimitives v.store := by
  have hfold : ∀ (os : List Oid) (st : EngineState Oid),
      (os.foldl (rescan v.store) st).known = os.foldl addNew st.known := by
    intro os
    induction os with
    | nil => exact fun st => rfl
    | cons a os ih =>
      intro st
      rw [List.foldl_cons, ih, rescan_known]
      rfl
  rw [← mem_foldl_addNew, ← hfold]
  rfl

theorem mem_scanPrimitives {s : Store Oid} {o : Oid} :
    o ∈ scanPrimitives s ↔ ∃ c, loadCommit s o = .ok c ∧ isPrimitive c = true := by
  unfold scanPrimitives
  rw [List.mem_filter]
  constructor
  · rintro ⟨-, hp⟩
    unfold isPrimitiveOid at hp
    split at hp
    · next c hc => exact ⟨c, hc, hp⟩
    · cases hp
  · rintro ⟨c, hc, hp⟩
    refine ⟨?_, by rw [isPrimitiveOid, hc]; exact hp⟩
    have hget := Store.get_eq_ok.mp (loadCommit_ok.mp hc)
    exact Std.ExtTreeMap.mem_keys.mpr (Std.ExtTreeMap.isSome_getElem?_iff_mem.mp
        (by rw [hget]; rfl))

/-- The scan makes every primitive in the store known, verified or not. -/
theorem Vouched.reopen (h : v.Vouched seen scanned) (id : Identity) :
    (v.reopen id).Vouched seen seen := by
  have hstate : ∀ o ∈ (v.reopen id).state.known,
      ∃ c, loadCommit v.store o = .ok c ∧ (Vetted c ∨ isPrimitive c = true ∧ CameIn seen c) := by
    intro o ho
    rcases (known_reopen v id).mp ho with ho | ho
    · obtain ⟨c, hc, hv⟩ := h.known o (.inr ho)
      exact ⟨c, hc, hv.imp_right fun ⟨hp, r, hr, hd⟩ => ⟨hp, r, h.subset hr, hd⟩⟩
    · obtain ⟨c, hc, hp⟩ := mem_scanPrimitives.mp ho
      exact ⟨c, hc, (h.stored o c hc hp).imp_right fun hd => ⟨hp, hd⟩⟩
  refine ⟨h.sound, h.main, List.Subset.refl seen, h.stored, h.loads, fun o ho => ?_,
    fun c hc hp => ?_⟩
  · rcases ho with ho | ho
    · exact hstate o ho
    · rcases (mem_known_mergeSaved _ v.saved).mp ho with ho | ho
      · exact hstate o ho
      · exact hstate o ((known_reopen v id).mpr (.inl ho))
  · exact (known_reopen v id).mpr (.inr (mem_scanPrimitives.mpr ⟨c, h.loads c hc, hp⟩))

variable [LawfulObjectId Oid] [LawfulCrates]

theorem vouched_create {root : Key} {disk : Disk} {id : Identity} {vaultId : Str}
    (hv : create root disk id vaultId = .ok v) : v.Vouched [] [] := by
  have hgains : Gains (fun _ => False) (Store.empty .disk : Store Oid)
      (genesis (Store.empty .disk)).2 :=
    gains_genesis (Store.sound_empty .disk)
  obtain ⟨d, scope, -, rfl⟩ := create_ok hv
  refine ⟨hgains.sound, rfl, List.Subset.refl [], fun o c hc hp => ?_, fun c hc => ?_, fun o ho =>
    ?_, fun c hc => ?_⟩
  · rcases hgains.new o c hc hp with hc | hc
    · simp [loadCommit_ok, Store.get, Store.empty] at hc
    · exact hc.elim
  · obtain ⟨r, hr, -⟩ := hc
    cases hr
  · rcases ho with ho | ho
    · cases ho
    · cases ho
  · obtain ⟨r, hr, -⟩ := hc
    cases hr

theorem Vouched.integrate (h : v.Vouched seen scanned) (raws : List Bytes) :
    (Vault.integrate raws v).2.Vouched (putPart 0 raws v :: seen) scanned := by
  have hl := learns_integrate (P := fun c => Vetted c ∨ CameIn (putPart 0 raws v :: seen) c) h.sound raws
  generalize putPart 0 raws v = put at hl ⊢
  have henc : ∀ x ∈ (decoded put : List (GitObject Oid) × Option CspError).1, x.Encodable :=
    fun x hx => encodable_of_mem_decoded hx
  have hput : Learns (fun c => Vetted c ∨ CameIn (put :: seen) c) v
      { v with store := v.store.putAll (decoded put).1 } :=
    ⟨gains_putAll h.sound henc fun c hc _ => .inr ⟨put, List.mem_cons_self, hc⟩, id,
      fun o ho => ho, fun o ho => .inl ho⟩
  refine h.learns (List.subset_cons_self put seen) (hput.trans hl) fun c hc =>
    loadCommit_extends hl.gains.ext ?_
  obtain ⟨r, hr, hc⟩ := hc
  rcases List.mem_cons.mp hr with rfl | hr
  · exact loadCommit_putAll h.sound henc hc
  · exact loadCommit_extends hput.gains.ext (h.loads c ⟨r, hr, hc⟩)

theorem Runs.vouched (h : Runs seen scanned v) : v.Vouched seen scanned := by
  induction h with
  | create hv => exact vouched_create hv
  | edit _ disk config ih => exact ⟨ih.sound, ih.main, ih.subset, ih.stored, ih.loads,
    ih.known, ih.scanned⟩
  | @join seen scanned v _ ih =>
    refine ih.learns_same ?_
    have hset : Learns (fun c => Vetted c ∨ CameIn seen c) v
        { v with state := { v.state with bootstrapPending := true } } :=
      ⟨.refl ih.sound, id, fun o ho => ho, fun o ho => .inl ho⟩
    exact hset.trans (learns_save ih.sound)
  | @caughtUp seen scanned v _ ih =>
    refine ih.learns_same ?_
    have hset : Learns (fun c => Vetted c ∨ CameIn seen c) v
        { v with state := { v.state with bootstrapPending := false } } :=
      ⟨.refl ih.sound, id, fun o ho => ho, fun o ho => .inl ho⟩
    rw [markBootstrapComplete_run]
    dsimp only
    split_ifs
    · exact hset.trans (learns_save ih.sound)
    · exact ⟨.refl ih.sound, id, fun o ho => ho, fun o ho => .inl ho⟩
  | commit _ bucketTime hnames hnow ih =>
    exact ih.learns_same (learns_commitLocalChanges ih.sound
        (fun _ => .inl) ih.main hnames bucketTime hnow)
  | integrate _ raws ih => exact ih.integrate raws
  | reopen _ id ih => exact ih.reopen id

/-- Everything that is known verifies if and only if no batch that came before the last scan of
the store brought a primitive that does not. -/
theorem Runs.known_verifies_iff (h : Runs seen scanned v) :
    (∀ o ∈ v.state.known, ∃ c node, loadCommit v.store o = .ok c ∧ verifyPrimitive c = .ok node) ↔
      ∀ raws ∈ scanned, Signed Oid raws := by
  have hv := h.vouched
  constructor
  · intro hknown raws hraws c hc hp
    have hin : CameIn scanned c := ⟨raws, hraws, hc⟩
    obtain ⟨d, node, hd, hnode⟩ := hknown _ (hv.scanned c hin hp)
    have hload := hv.loads c ⟨raws, hv.subset hraws, hc⟩
    obtain rfl : d = c := Except.ok.inj (hd.symm.trans hload)
    exact ⟨node, hnode⟩
  · intro hsigned o ho
    obtain ⟨c, hc, ⟨node, hnode⟩ | ⟨hp, raws, hraws, hd⟩⟩ := hv.known o (.inl ho)
    · exact ⟨c, node, hc, hnode⟩
    · obtain ⟨node, hnode⟩ := hsigned raws hraws c hd hp
      exact ⟨c, node, hc, hnode⟩

end Vault

end Csp

/-! ### A primitive that nobody signed -/

namespace Csp.Small
open Vault

def vettedObjects : List (GitObject (Num [])) :=
  [emptyTree, .commit (foldCommit 0 [] 0 genesisMsg),
    .commit (signedPrimitive ⟨[2]⟩ 0 1 1 0 "ctx edit".toList []),
    .commit (unsignedPrimitive ⟨[2]⟩ 0 1 1 0 "ctx edit".toList [])]

abbrev Vetting : Type := Num (vettedObjects.map GitObject.framed)

def signedBatch : List Bytes := ((vettedObjects.drop 2).take 1).map fun x => x.compress
def unsignedBatch : List Bytes := (vettedObjects.drop 3).map fun x => x.compress

def founded : CspResult (Vault Vetting) :=
  Vault.create [] { files := ∅, dirs := ∅, refuses := fun _ => false } ⟨[1]⟩ []

def took (raws : List Bytes) : CspResult (CspResult Nat × Vault Vetting) :=
  founded.map (Vault.integrate raws)

def reopened (raws : List Bytes) : CspResult (Vault Vetting) :=
  (took raws).map fun r => r.2.reopen ⟨[1]⟩

def roll (v : Vault Vetting) : List Vetting × Bool :=
  (v.state.known, v.state.known.all fun o => ((loadCommit v.store o).bind verifyPrimitive).isOk)

theorem roll_spec : (took signedBatch).toOption.map (fun r => (r.1.toOption, roll r.2)) = some
    (some 1, [2], true) ∧ (reopened signedBatch).toOption.map roll = some ([2], true) ∧
    (took unsignedBatch).toOption.map (fun r => (r.1.toOption, roll r.2)) = some
    (some 0, [], true) ∧ (reopened unsignedBatch).toOption.map roll = some ([3], false) := by
  decide +kernel

theorem ok_of_toOption {α β : Type} {x : CspResult α} {f : α → β} {b : β}
    (h : x.toOption.map f = some b) :
    ∃ a, x = .ok a ∧ f a = b := by
  cases x with
  | error e => cases h
  | ok a => exact ⟨a, rfl, Option.some.inj h⟩

theorem runs_reopened {raws : List Bytes} {v : Vault Vetting} (h : reopened raws = .ok v) {n : Nat}
    {x : List Vetting × Bool}
    (htook : (took raws).toOption.map (fun r => (r.1.toOption, roll r.2)) = some (some n, x)) :
    Runs [raws] [raws] v := by
  unfold reopened took at h
  unfold took at htook
  cases hc : founded with
  | error e =>
    rw [hc] at h
    cases h
  | ok u =>
    rw [hc] at h htook
    obtain rfl := Except.ok.inj h
    have hcount : (integrate raws u).1.toOption = some n := (Prod.mk.inj (Option.some.inj htook)).1
    rcases hrun : integrate raws u with ⟨_ | n', w⟩
    · rw [hrun] at hcount
      cases hcount
    · have hruns := Runs.reopen (.integrate (.create hc) raws) ⟨[1]⟩
      rw [putPart_of_ok hrun] at hruns
      rwa [← hrun]

theorem verifies_of_roll {v : Vault Vetting} : (roll v).2 = true ↔
    ∀ o ∈ v.state.known, ∃ c node, loadCommit v.store o = .ok c ∧ verifyPrimitive c = .ok node := by
  unfold roll
  rw [List.all_eq_true]
  refine forall₂_congr fun o ho => ?_
  cases loadCommit v.store o with
  | error e => simp [Except.bind, Except.isOk, Except.toBool]
  | ok c =>
    cases hv : verifyPrimitive c <;> simp [Except.bind, Except.isOk, Except.toBool, hv]

/-- What a vault took in of a signed batch verifies after a restart too. -/
theorem known_verifies_iff_signed : ∃ v : Vault Vetting, Runs [signedBatch] [signedBatch] v ∧
    v.state.known = [2] ∧ ∀ raws ∈ [signedBatch], Signed Vetting raws := by
  obtain ⟨v, hv, hroll⟩ := ok_of_toOption roll_spec.2.1
  have hruns := runs_reopened hv roll_spec.1
  refine ⟨v, hruns, congrArg Prod.fst hroll, ?_⟩
  exact (Runs.known_verifies_iff hruns).mp (verifies_of_roll.mp (congrArg Prod.snd hroll))

/-- A primitive that an integrate dropped for its signature is known after a restart. -/
theorem known_unsigned : (∃ w : Vault Vetting, took unsignedBatch = .ok (.ok 0, w) ∧
      w.state.known = []) ∧
    ∃ v : Vault Vetting, Runs [unsignedBatch] [unsignedBatch] v ∧ v.state.known = [3] ∧
      ¬∀ o ∈ v.state.known, ∃ c node, loadCommit v.store o = .ok c ∧
      verifyPrimitive c = .ok node := by
  obtain ⟨-, -, htook, hreopened⟩ := roll_spec
  constructor
  · obtain ⟨⟨r, w⟩, hr, hroll⟩ := ok_of_toOption htook
    obtain ⟨hcount, hroll⟩ := Prod.mk.inj hroll
    cases r with
    | error e => cases hcount
    | ok n =>
      obtain rfl : n = 0 := Option.some.inj hcount
      exact ⟨w, hr, congrArg Prod.fst hroll⟩
  · obtain ⟨v, hv, hroll⟩ := ok_of_toOption hreopened
    refine ⟨v, runs_reopened hv htook, congrArg Prod.fst hroll, fun h => ?_⟩
    cases (congrArg Prod.snd hroll).symm.trans (verifies_of_roll.mpr h)

end Csp.Small
