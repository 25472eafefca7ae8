import Csp.Honest
import Csp.SessionFacts
import Csp.VaultCommit

/-! Honest engines behind a session. What an in-memory engine and a vault both keep, as long as
the batches that they take in are gathered from honest exports: their known primitives are
genuine, and come with all that is below them. -/

namespace Csp
open Result
variable {Oid : Type} [ObjectId Oid] [Crates]

/-! ### The names on a disk -/

omit [Crates] in
theorem Split.mem_of_mem_join {α : Type} {sep x : α} {segs : List (List α)}
    (h : x ∈ Split.join sep segs) :
    x = sep ∨ ∃ seg ∈ segs, x ∈ seg := by
  induction segs with
  | nil => cases h
  | cons p segs ih =>
    cases segs with
    | nil => exact .inr ⟨p, List.mem_cons_self, h⟩
    | cons q ps =>
      rcases List.mem_append.mp h with h | h
      · exact .inr ⟨p, List.mem_cons_self, h⟩
      · rcases List.mem_cons.mp h with rfl | h
        · exact .inl rfl
        · obtain hsep | ⟨seg, hseg, hx⟩ := ih h
          · exact .inl hsep
          · exact .inr ⟨seg, List.mem_cons_of_mem _ hseg, hx⟩

omit [Crates] in
theorem framable_relPath {comps : Key} (h : ∀ seg ∈ comps, Char.ofNat 0 ∉ seg) :
    Framable (relPath comps) := by
  intro hmem
  obtain ⟨c, hc, heq⟩ := List.mem_map.mp hmem
  split_ifs at heq with hslash
  · exact absurd heq (by decide)
  · subst heq
    rcases Split.mem_of_mem_join hc with hsep | ⟨seg, hseg, hx⟩
    · exact absurd hsep (by decide)
    · exact h seg hseg hx

omit [Crates] in
theorem Disk.NulFree.walk {d : Disk} (h : d.NulFree) {root : Key} {f : Path × Key}
    (hf : f ∈ d.walkFiles root ∨ f ∈ d.walkDirs root) : Framable f.1 := by
  have key : ∀ keys : List Key, (∀ k ∈ keys, k ∈ d.files.keys ∨ k ∈ d.dirs.keys) →
      f ∈ (keys.filterMap fun k => if underContext (relPath (k.drop root.length)) then none
        else some (relPath (k.drop root.length), k)) → Framable f.1 := by
    intro keys hkeys hf
    obtain ⟨k, hk, heq⟩ := List.mem_filterMap.mp hf
    split_ifs at heq
    obtain rfl := Option.some.inj heq
    exact framable_relPath fun seg hseg => h k (hkeys k hk) seg (List.mem_of_mem_drop hseg)
  rcases hf with hf | hf
  · exact key _ (fun k hk => .inl (List.mem_of_mem_filter hk)) hf
  · exact key _ (fun k hk => .inr (List.mem_of_mem_filter hk)) hf

omit [Crates] in
theorem framable_insert {files : FileMap} (h : ∀ p ∈ files.keys, Framable p) {p : Path}
    (hp : Framable p) (c : Bytes) : ∀ q ∈ (files.insert p c).keys, Framable q := by
  intro q hq
  rcases Std.ExtTreeMap.mem_insert.mp (Std.ExtTreeMap.mem_keys.mp hq) with heq | hq
  · rw [← Std.LawfulEqCmp.eq_of_compare heq]
    exact hp
  · exact h q (Std.ExtTreeMap.mem_keys.mpr hq)

omit [Crates] in
theorem framable_scan {v : Vault Oid} (h : v.disk.NulFree) {files : FileMap}
    (hs : v.scan = .ok files) :
    ∀ p ∈ files.keys, Framable p := by
  refine foldlM_ok_induction (fun files : FileMap => ∀ p ∈ files.keys, Framable p) hs (by simp) ?_
  rintro out ⟨rel, k⟩ out' hmem hout hstep
  simp only at hstep
  split at hstep
  · cases hstep
  · obtain rfl := Except.ok.inj hstep
    split_ifs
    · exact framable_insert hout (h.walk (.inl hmem)) _
    · exact hout

omit [Crates] in
theorem framable_injectEmptyDirKeeps {v : Vault Oid} (h : v.disk.NulFree) {files : FileMap}
    (hfiles : ∀ p ∈ files.keys, Framable p) : ∀ p ∈ (v.injectEmptyDirKeeps files).keys,
    Framable p := by
  have key : ∀ (dirs : List (Path × Key)) (files : FileMap), (∀ f ∈ dirs, Framable f.1) →
      (∀ p ∈ files.keys, Framable p) → ∀ p ∈ (dirs.foldl (fun files d =>
        if d.1 = [] || !v.scope.pathInScope d.1 then files
        else if v.disk.isEmptyDir d.2 then files.insert (d.1 ++ '/' :: keep) [] else files)
        files).keys, Framable p := by
    intro dirs
    induction dirs with
    | nil => exact fun files _ hfiles => hfiles
    | cons f dirs ih =>
      intro files hdirs hfiles
      refine ih _ (fun g hg => hdirs g (List.mem_cons_of_mem _ hg)) ?_
      obtain ⟨rel, k⟩ := f
      simp only
      split_ifs
      · exact hfiles
      · refine framable_insert hfiles (fun hmem => ?_) []
        rcases List.mem_append.mp hmem with hmem | hmem
        · exact hdirs _ List.mem_cons_self hmem
        · exact absurd hmem (by decide)
      · exact hfiles
  exact key _ files (fun f hf => h.walk (.inr hf)) hfiles

omit [Crates] in
theorem framable_workingFiles {v : Vault Oid} (h : v.disk.NulFree) {files : FileMap}
    (hw : v.workingFiles = .ok files) : ∀ p ∈ files.keys, Framable p := by
  obtain ⟨scanned, hs, hp⟩ := bind_ok.mp hw
  obtain rfl := pure_ok.mp hp
  exact fun p hp => framable_injectEmptyDirKeeps h (framable_scan h hs) p
    (mem_of_mem_canonicalizeKeeps hp)

/-! ### Honest vaults -/

/-- A vault whose known list has its history, and whose `main` is genuine. -/
structure Vault.Honest (v : Vault Oid) : Prop where
  history : History v.store v.state.known
  main : ∃ m, v.mainRef = some m ∧ Genuine v.store m ∧ Covered v.store v.state.known m

theorem Vault.Honest.filed {v w : Vault Oid} (h : v.Honest) (hf : v.Filed w) : w.Honest := by
  obtain ⟨hhist, m, hm, hgen, hcov⟩ := h
  refine ⟨?_, m, hf.mainRef.trans hm, ?_, ?_⟩
  · rwa [hf.store, hf.known]
  · rwa [hf.store]
  · rwa [hf.store, hf.known]

variable [LawfulObjectId Oid] [LawfulCrates]

omit [LawfulObjectId Oid] [LawfulCrates] in
theorem Vault.Honest.grow {v w : Vault Oid} (h : v.Honest) (hext : v.store.Extends w.store)
    (ht : w.store.Tidy) (hk : w.state.known = v.state.known) (hm : w.mainRef = v.mainRef) :
    w.Honest := by
  obtain ⟨hhist, m, hmain, hgen, hcov⟩ := h
  refine ⟨?_, m, hm.trans hmain, hgen.extends hext, ?_⟩
  · rw [hk]
    exact hhist.extends hext ht
  · rw [hk]
    exact hcov.extends hext hgen.commitIn

theorem Vault.honest_create {root : Key} {disk : Disk} {id : Identity} {vaultId : Str}
    {v : Vault Oid} (h : Vault.create root disk id vaultId = .ok v) : v.Honest := by
  obtain ⟨hhist, -, hgen, hcov⟩ := @history_genesis Oid _ _ _ _ .disk
  obtain ⟨d, scope, -, rfl⟩ := Vault.create_ok h
  exact ⟨hhist, _, rfl, hgen, hcov⟩

theorem Vault.honest_recompute {v w : Vault Oid} (h : History v.store v.state.known)
    (hr : recomputeAndMaterialize v = (.ok (), w)) :
    w.Honest ∧ v.store.Extends w.store ∧ w.state.known = v.state.known := by
  obtain ⟨m, t, hm, hext, hhist, hgen, hcov, -⟩ := h.computeMain
  obtain ⟨m', t', hm', hmat⟩ := recomputeAndMaterialize_ok hr
  obtain ⟨ho, rfl⟩ := Prod.mk.inj (hm.symm.trans hm')
  obtain rfl := Except.ok.inj ho
  have hf := filed_materialize { v with store := t, mainRef := some m }
  rw [hmat] at hf
  have hmain : Vault.Honest { v with store := t, mainRef := some m } := ⟨hhist, m, rfl, hgen, hcov⟩
  refine ⟨hmain.filed hf, ?_, hf.known⟩
  rw [hf.store]
  exact hext

theorem Vault.Honest.author {v w : Vault Oid} (h : v.Honest) {m : Oid} (hm : v.mainRef = some m)
    {l : Layer1 Oid} (hfr : ∀ p ∈ l.filtered.keys, Framable p) {now : Nat}
    (hnow : now < 2 ^ 64) {o : Oid} (ha : Vault.author m l now v = (.ok o, w)) :
    w.Honest ∧ v.store.Extends w.store ∧ w.state.known = addNew v.state.known o := by
  obtain ⟨m', hm', hgen, hcov⟩ := h.main
  obtain rfl := Option.some.inj (hm.symm.trans hm')
  obtain ⟨rfl, u, hu, hsave⟩ := author_ok ha
  have hknown : (v.published l (authored v.identity v.state m l now)).state.known =
      addNew v.state.known (GitObject.commit (authored v.identity v.state m l now)).oid :=
      known_addKnown _ _
  have hhist : History (v.store.putAll (authoredObjects l (authored v.identity v.state m l now)))
      (addNew v.state.known (GitObject.commit (authored v.identity v.state m l now)).oid) :=
    h.history.author hgen hcov hfr hnow
  rw [← hknown] at hhist
  obtain ⟨hhon, hext, hk⟩ := honest_recompute hhist hu
  have hfiled := filed_save u
  rw [hsave] at hfiled
  refine ⟨hhon.filed hfiled, ?_, hfiled.known.trans (hk.trans hknown)⟩
  rw [hfiled.store]
  exact (v.store.extends_putAll _).trans hext

theorem Vault.Honest.commitLocalChanges {v w : Vault Oid} (h : v.Honest) (hnames : v.disk.NulFree)
    {bucketTime now : Nat} (hnow : now < 2 ^ 64) {r : Option Oid}
    (hc : Vault.commitLocalChanges bucketTime now v = (.ok r, w)) :
    w.Honest ∧ v.store.Extends w.store ∧ w.state.known = r.elim v.state.known
    (addNew v.state.known) := by
  obtain ⟨m, hm, -, -⟩ := h.main
  -- a run that commits nothing has touched the disk and the record only
  have same : ∀ {u : Vault Oid}, v.refreshScope.Filed u → u.Honest ∧ v.store.Extends u.store ∧
      u.state.known = v.state.known := by
    intro u hu
    have hfresh : v.refreshScope.Honest := ⟨h.history, h.main⟩
    refine ⟨hfresh.filed hu, ?_, hu.known⟩
    rw [hu.store]
    exact .refl _
  rw [commitLocalChanges_run _ _ hm] at hc
  split_ifs at hc with hb
  · obtain ⟨hr, rfl⟩ := Prod.mk.inj hc
    obtain rfl := Except.ok.inj hr
    exact ⟨h, .refl _, rfl⟩
  split at hc
  · cases hc
  · rename_i files hfiles
    split at hc
    · cases hc
    · split at hc
      · cases hc
      · rename_i l hl
        have hfr : ∀ p ∈ l.filtered.keys, Framable p := fun p hp =>
          framable_workingFiles (v := v.refreshScope) hnames hfiles p (mem_of_mem_filtered hl hp)
        have hguarded := filed_guarded v.refreshScope bucketTime l
        obtain ⟨hhon, hext, hknown⟩ := same hguarded
        split_ifs at hc with hg hq
        · split at hc
          · rename_i o u hu
            obtain ⟨hr, rfl⟩ := Prod.mk.inj hc
            obtain rfl := Except.ok.inj hr
            obtain ⟨hhon', hext', hknown'⟩ := hhon.author (hguarded.mainRef.trans hm) hfr hnow hu
            exact ⟨hhon', hext.trans hext', hknown'.trans (by rw [hknown]; rfl)⟩
          · cases hc
        · have hfiled := filed_save (v.refreshScope.guarded bucketTime l)
          split at hc
          · rename_i u hu
            obtain ⟨hr, rfl⟩ := Prod.mk.inj hc
            obtain rfl := Except.ok.inj hr
            rw [hu] at hfiled
            exact same (hguarded.trans hfiled)
          · cases hc
        · obtain ⟨hr, rfl⟩ := Prod.mk.inj hc
          obtain rfl := Except.ok.inj hr
          exact ⟨hhon, hext, hknown⟩

theorem Vault.Honest.integrate {v w : Vault Oid} (h : v.Honest) {raws : List Bytes}
    (hb : HonestBatch v.store raws) {n : Nat} (hi : Vault.integrate raws v = (.ok n, w)) :
    w.Honest ∧ v.store.Extends w.store ∧ w.state.known = (accepted raws).foldl addNew v.state.known := by
  have hhist := h.history.batch hb
  have hadm := admits_foldl raws v.state 0
  have hext := v.store.extends_putAll (decoded raws : List (GitObject Oid) × Option CspError).1
  obtain ⟨u, hu, hext', htidy⟩ := hb.verified
  obtain ⟨-, ⟨-, s, hverify, -⟩ | ⟨hn, s, x, hverify, hx, hsave⟩⟩ := Vault.integrate_ok hi
  · cases (Prod.mk.inj (hu.symm.trans hverify)).1
  obtain ⟨-, rfl⟩ := Prod.mk.inj (hu.symm.trans hverify)
  have hfiled := filed_save x
  rw [hsave] at hfiled
  have hstored : ∀ {y : Store Oid}, y.Extends x.store → y.Extends w.store := fun h => by rwa [hfiled.store]
  by_cases h0 : n = 0
  · rw [if_pos h0] at hx
    subst hx
    have hsame : (accepted raws).foldl addNew v.state.known = v.state.known :=
      foldl_addNew_eq_self.mpr (hadm.count_eq_zero.mp (hn.symm.trans h0))
    have hgrown : Vault.Honest { v with store := u, state := (raws.foldl admitOne (v.state, 0)).1 } :=
      h.grow (hext.trans hext') htidy (hadm.known.trans hsame) rfl
    exact ⟨hgrown.filed hfiled, hstored (hext.trans hext'), hfiled.known.trans hadm.known⟩
  · rw [if_neg h0] at hx
    have hknown := hhist.extends hext' htidy
    rw [← hadm.known] at hknown
    obtain ⟨hhon, hext'', hk⟩ := honest_recompute
      (v := { v with store := u, state := (raws.foldl admitOne (v.state, 0)).1 }) hknown hx
    exact ⟨hhon.filed hfiled, hstored ((hext.trans hext').trans hext''), hfiled.known.trans
      (hk.trans hadm.known)⟩

/-! ### Both engines -/

/-- An engine with a notion of honesty that honest batches keep. -/
class HonestVault (V : Type) {Oid : outParam Type} [ObjectId Oid] [SessionVault V Oid]
    [Replica V Oid] where
  honest : V → Prop
  history : ∀ {v : V}, honest v → History (Replica.store v) (SessionVault.known v)
  exportClosure_eq : ∀ (v : V) tips, SessionVault.exportClosure v tips = closureOf
    (Replica.store v) tips
  integrate_honest : ∀ {raws n} {v v' : V}, honest v → Gathered Oid raws →
    SessionVault.integrate raws v = (.ok n, v') →
    honest v' ∧ (Replica.store v).Extends (Replica.store v') ∧
      SessionVault.known v' = (accepted raws).foldl addNew (SessionVault.known v)
  markBootstrapComplete_honest : ∀ {v : V}, honest v →
    honest (SessionVault.markBootstrapComplete v).2
  admitPeer_honest : ∀ {peerSsh b now} {v : V}, honest v →
    honest (SessionVault.admitPeer peerSsh b now v).2

instance : HonestVault (MemEngine Oid) where
  honest := Honest
  history h := h.history
  exportClosure_eq _ _ := rfl
  integrate_honest h hr hi := by
    obtain ⟨n, e', hrun, htook⟩ := h.integrate_gathered hr
    obtain ⟨-, rfl⟩ := Prod.mk.inj (hrun.symm.trans hi)
    exact ⟨htook.honest, htook.ext, htook.known⟩
  markBootstrapComplete_honest h := h.quiet ⟨rfl, rfl, rfl⟩
  admitPeer_honest h := h.quiet ⟨rfl, rfl, rfl⟩

instance : HonestVault (KeyedVault Oid) where
  honest v := v.vault.Honest
  history h := h.history
  exportClosure_eq _ _ := rfl
  integrate_honest {raws n v v'} h hr hi := by
    rcases hrun : Vault.integrate raws v.vault with ⟨r, w⟩
    have hi : (r, { v with vault := w }) = ((.ok n, v') : CspResult Nat × KeyedVault Oid) := by
      rw [← hi]
      show _ = KeyedVault.withVault (Vault.integrate raws) v
      rw [KeyedVault.withVault, hrun]
    obtain ⟨rfl, rfl⟩ := Prod.mk.inj hi
    exact h.integrate (hr.honestBatch h.history.store) hrun
  markBootstrapComplete_honest {v} h := by
    show Vault.Honest (Vault.markBootstrapComplete v.vault).2
    rw [Vault.markBootstrapComplete_run]
    dsimp only
    split_ifs
    · exact Vault.Honest.filed (v := { v.vault
        with state := { v.vault.state with bootstrapPending := false } })
        ⟨h.history, h.main⟩ (Vault.filed_save _)
    · exact h
  admitPeer_honest h := h

end Csp
