import Csp.Authoring
import Csp.VaultFacts

/-! The commit of a vault, written out. -/

namespace Csp
open Result
variable {Oid : Type} [ObjectId Oid] [Crates]

namespace Vault

omit [Crates] in
theorem withStore_read {α : Type} (f : Store Oid → CspResult α) (v : Vault Oid) :
    withStore (StoreM.read f) v = (f v.store, v) := rfl

/-- The vault once the objects of a commit are put and its id is known. -/
def published (v : Vault Oid) (l : Layer1 Oid) (c : CommitObj Oid) : Vault Oid :=
  { v with
    store := v.store.putAll (authoredObjects l c)
    state := v.state.nextCounter.2.addKnown (GitObject.commit c).oid
    nodeTips := v.nodeTips.insert v.identity.nodeId (GitObject.commit c).oid }

/-- A commit that the system stops before it folds: nothing is written, the tree is, or all but
the node's ref. -/
inductive Begun (l : Layer1 Oid) (c : CommitObj Oid) (v : Vault Oid) : Vault Oid → Prop
  | refused : Begun l c v v
  | tree : Begun l c v
    { v with
      store := v.store.putAll (writeTreeFromFiles l.filtered).1, state := v.state.nextCounter.2 }
  | known : Begun l c v { v.published l c with nodeTips := v.nodeTips }

theorem writeTree_cases (files : FileMap) (v : Vault Oid) :
    writeTree files v = (.error ioError, v) ∨
      writeTree files v = (.ok (writeTreeFromFiles files).2,
        { v with store := v.store.putAll (writeTreeFromFiles files).1 }) := by
  have htree : writeTree files v = (do
      withPuts .putTree (StoreM.putAll (writeTreeFromFiles files).1)
      pure (writeTreeFromFiles files).2 : VaultM Oid Oid) v := rfl
  rw [htree, run_bind]
  rcases withPuts_cases .putTree (StoreM.putAll (writeTreeFromFiles files).1) v with ⟨-,
    hrun⟩ | hrun
  · rw [hrun]
    exact .inl rfl
  · rw [hrun]
    exact .inr rfl

theorem author_cases (parent : Oid) (l : Layer1 Oid) (now : Nat) (v : Vault Oid) :
    (∃ w, author parent l now v = (.error ioError, w) ∧
      Begun l (authored v.identity v.state parent l now) v w) ∨
      author parent l now v = (do
        recomputeAndMaterialize
        save
        pure (GitObject.commit (authored v.identity v.state parent l now)).oid : VaultM Oid Oid)
        (v.published l (authored v.identity v.state parent l now)) := by
  rw [published, authoredObjects, Store.putAll_append, author]
  rcases writeTree_cases l.filtered v with htree | htree
  · refine .inl ⟨v, ?_, .refused⟩
    rw [run_bind, htree]
  rw [run_bind_of_ok htree, run_bind_of_ok (run_get _)]
  simp only [buildPrimitiveWithReadd_eq]
  rw [run_bind_of_ok (run_set _ _)]
  rcases withPuts_cases .putPrimitive (StoreM.put (.commit (authored v.identity v.state parent l now)))
    ({ v with
      store := v.store.putAll (writeTreeFromFiles l.filtered).1
      state := v.state.nextCounter.2 } : Vault Oid) with ⟨-, hprim⟩ | hprim
  · rw [authored] at hprim
    refine .inl ⟨_, ?_, .tree⟩
    rw [run_bind, hprim]
  have hstored := hprim.trans (show _ = ((.ok (GitObject.commit (authored v.identity v.state parent l now)).oid,
    { v with
      store := (v.store.putAll (writeTreeFromFiles l.filtered).1).putAll
        [.commit (authored v.identity v.state parent l now)]
      state := v.state.nextCounter.2 }) : CspResult Oid × Vault Oid) from rfl)
  rw [authored] at hstored
  rw [run_bind_of_ok hstored, run_bind_of_ok (run_modify _ _), run_bind, setNodeTip]
  split_ifs
  · refine .inl ⟨_, rfl, ?_⟩
    have hknown := Begun.known (l := l) (c := authored v.identity v.state parent l now) (v := v)
    rw [published, authoredObjects, Store.putAll_append] at hknown
    exact hknown
  · exact .inr rfl

theorem author_ok {parent o : Oid} {l : Layer1 Oid} {now : Nat} {v w : Vault Oid}
    (h : author parent l now v = (.ok o, w)) :
    o = (GitObject.commit (authored v.identity v.state parent l now)).oid ∧
      ∃ u, recomputeAndMaterialize (v.published l (authored v.identity v.state parent l now)) =
      (.ok (), u) ∧
        save u = (.ok (), w) := by
  rcases author_cases parent l now v with ⟨u, hrun, -⟩ | hrun
  · cases (Prod.mk.inj (hrun.symm.trans h)).1
  · obtain ⟨⟨⟩, u, hfold, hrest⟩ := run_bind_ok.mp (hrun.symm.trans h)
    obtain ⟨⟨⟩, x, hsave, hend⟩ := run_bind_ok.mp hrest
    obtain ⟨ho, rfl⟩ := Prod.mk.inj hend
    exact ⟨(Except.ok.inj ho).symm, u, hfold, hsave⟩

theorem author_induction (P : Vault Oid → Vault Oid → Prop)
    (htrans : ∀ u v w, P u v → P v w → P u w) {parent : Oid} {l : Layer1 Oid} {now : Nat}
    {v : Vault Oid} (hbegun : ∀ w, Begun l (authored v.identity v.state parent l now) v w → P v w)
    (hpublished : P v (v.published l (authored v.identity v.state parent l now)))
    (hfold : ∀ v : Vault Oid, P v (recomputeAndMaterialize v).2)
    (hsave : ∀ v : Vault Oid, P v (save v).2) :
    P v (author parent l now v).2 := by
  rcases author_cases parent l now v with ⟨w, hrun, hw⟩ | hrun
  · rw [hrun]
    exact hbegun w hw
  · rw [hrun]
    refine htrans _ _ _ hpublished (run_bind_induction P htrans (hfold _) fun _ u _ => ?_)
    rcases hrest : save u with ⟨e | _, x⟩
    · have := hsave u
      rw [hrest] at this
      rw [run_bind, hrest]
      exact this
    · have := hsave u
      rw [hrest] at this
      rw [run_bind, hrest]
      exact this

def guarded (v : Vault Oid) (bucketTime : Nat) (l : Layer1 Oid) : Vault Oid :=
  l.quarantines.foldl (quarantineFile (orphansBucket bucketTime)) v

omit [Crates] in
theorem filed_guarded (v : Vault Oid) (bucketTime : Nat) (l : Layer1 Oid) :
    v.Filed (v.guarded bucketTime l) :=
  filed_foldl (filed_quarantineFile _) l.quarantines v

theorem commitLocalChanges_run (bucketTime now : Nat) {v : Vault Oid} {m : Oid}
    (hm : v.mainRef = some m) :
    commitLocalChanges bucketTime now v =
      if v.state.bootstrapPending then (.ok none, v)
      else match v.refreshScope.workingFiles with
        | .error e => (.error e, v.refreshScope)
        | .ok files =>
          match mainTree v.store m with
          | .error e => (.error e, v.refreshScope)
          | .ok tree =>
            match layer1 v.store m tree v.state.materialized files with
            | .error e => (.error e, v.refreshScope)
            | .ok l =>
              if genuineChange (v.refreshScope.guarded bucketTime l).state.materialized
              l.filtered then
                match author m l now (v.refreshScope.guarded bucketTime l) with
                | (.ok o, w) => (.ok (some o), w)
                | (.error e, w) => (.error e, w)
              else if l.quarantines ≠ [] then
                match save (v.refreshScope.guarded bucketTime l) with
                | (.ok (), w) => (.ok none, w)
                | (.error e, w) => (.error e, w)
              else (.ok none, v.refreshScope.guarded bucketTime l) := by
  rw [commitLocalChanges, run_bind_of_ok (run_get v)]
  by_cases hb : v.state.bootstrapPending = true
  · rw [if_pos hb, if_pos hb]
    rfl
  rw [if_neg hb, if_neg hb, run_bind_of_ok (run_modify _ v), run_bind_of_ok (run_get _)]
  refine (run_bind (fun v : Vault Oid => (v.workingFiles, v)) _ _).trans ?_
  cases v.refreshScope.workingFiles with
  | error e => rfl
  | ok files =>
    have hm' : v.refreshScope.mainRef = some m := hm
    simp only [hm']
    have hstore : v.refreshScope.store = v.store := rfl
    have hmat : v.refreshScope.state.materialized = v.state.materialized := rfl
    rw [run_bind_of_ok (run_pure m _), run_bind, withStore_read, hstore]
    cases mainTree v.store m with
    | error e => rfl
    | ok tree =>
      simp only
      rw [run_bind, withStore_read, hstore, hmat]
      cases layer1 v.store m tree v.state.materialized files with
      | error e => rfl
      | ok l =>
        simp only
        rw [run_bind_of_ok (run_modify _ _), run_bind_of_ok (run_get _)]
        have hguarded : v.refreshScope.guarded bucketTime l =
          l.quarantines.foldl (quarantineFile (orphansBucket bucketTime)) v.refreshScope := rfl
        rw [← hguarded]
        by_cases hg : genuineChange (v.refreshScope.guarded bucketTime l).state.materialized
          l.filtered = true
        · rw [if_pos hg, if_pos hg, run_bind]
          rcases author m l now (v.refreshScope.guarded bucketTime l) with ⟨_ | o, w⟩
          · rfl
          · rfl
        · rw [if_neg hg, if_neg hg]
          by_cases hq : l.quarantines = []
          · rw [if_neg (not_not.mpr hq), if_neg (not_not.mpr hq)]
            rfl
          · rw [if_pos hq, if_pos hq, run_bind]
            rcases save (v.refreshScope.guarded bucketTime l) with ⟨_ | _, w⟩
            · rfl
            · rfl

end Vault

end Csp
