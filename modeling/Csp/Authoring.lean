import Csp.Commit
import Csp.Coverage

/-! What a commit authors: one signed primitive on `main` that holds the published files,
that no store takes for a ghost-add, and that the frontier shrinks to. -/

namespace Csp
open Result
variable {Oid : Type} [ObjectId Oid] [Crates] {s t : Store Oid}

def authored (id : Identity) (st : EngineState Oid) [DecidableEq Oid] (parent : Oid)
    (l : Layer1 Oid) (now : Nat) : CommitObj Oid :=
  signedPrimitive id (writeTreeFromFiles l.filtered : List (GitObject Oid) × Oid).2 parent
    st.nextCounter.1 now "ctx edit".toList l.readds

def authoredObjects (l : Layer1 Oid) (c : CommitObj Oid) : List (GitObject Oid) :=
  (writeTreeFromFiles l.filtered).1 ++ [.commit c]

omit [ObjectId Oid] [Crates] in
theorem counter_lt (st : EngineState Oid) : st.nextCounter.1 < 2 ^ 64 := Nat.mod_lt _ (by decide)

omit [ObjectId Oid] [Crates] in
theorem exists_lastOf_of_mem {l : List (Path × Bytes)} {p : Path} {c : Bytes} (h : (p, c) ∈ l) :
    ∃ d, lastOf l p = some d := by
  induction l with
  | nil => cases h
  | cons f l ih =>
    rw [lastOf]
    rcases List.mem_cons.mp h with rfl | h
    · cases hl : lastOf l p with
      | none => exact ⟨c, by simp⟩
      | some d => exact ⟨d, rfl⟩
    · obtain ⟨d, hd⟩ := ih h
      exact ⟨d, by rw [hd, Option.some_or]⟩

/-! ### The commit body -/

namespace MemEngine

/-- The engine once the objects of a commit are put and its id is known. -/
def published (e : MemEngine Oid) (l : Layer1 Oid) (c : CommitObj Oid) : MemEngine Oid :=
  { e with
    store := e.store.putAll (authoredObjects l c)
    state := e.state.nextCounter.2.addKnown (GitObject.commit c).oid }

theorem author_run (parent : Oid) (l : Layer1 Oid) (now : Nat) (e : MemEngine Oid) :
    author parent l now e =
      match computeMain (e.published l (authored e.identity e.state parent l now)).state.known
          (e.published l (authored e.identity e.state parent l now)).store with
      | (.ok m, t) => (.ok (GitObject.commit (authored e.identity e.state parent l now)).oid,
          { e.published l (authored e.identity e.state parent l now) with
            store := t
            main := some m
            state := { (e.published l (authored e.identity e.state parent l now)).state with
              materialized := recordOf l.filtered } })
      | (.error err, t) => (.error err,
          { e.published l (authored e.identity e.state parent l now) with store := t }) := by
  have hput : author parent l now e = (do
      recompute
      modify fun e => { e with state := { e.state with materialized := recordOf l.filtered } }
      pure (GitObject.commit (authored e.identity e.state parent l now)).oid : EngineM Oid Oid)
      (e.published l (authored e.identity e.state parent l now)) := by
    rw [published, authoredObjects, Store.putAll_append, author]
    simp only [buildPrimitiveWithReadd_eq]
    rfl
  rw [hput, run_bind, recompute_run]
  rcases computeMain _ _ with ⟨_ | m, t⟩
  · rfl
  · rfl

theorem commitScoped_run (files : FileMap) (now : Nat) {e : MemEngine Oid} {m : Oid}
    (hm : e.main = some m) :
    commitScoped files now e =
      if e.state.bootstrapPending then (.ok none, e)
      else match mainTree e.store m with
        | .error err => (.error err, e)
        | .ok tree =>
          match layer1 e.store m tree e.state.materialized files with
          | .error err => (.error err, e)
          | .ok l =>
            let e' := e.dropQuarantined (orphansBucket now) l.quarantines
            if genuineChange e'.state.materialized l.filtered then
              match author m l now e' with
              | (.ok o, e'') => (.ok (some o), e'')
              | (.error err, e'') => (.error err, e'')
            else (.ok none, e') := by
  rw [commitScoped, run_bind_of_ok (run_get e)]
  by_cases hb : e.state.bootstrapPending = true
  · rw [if_pos hb, if_pos hb]
    rfl
  · rw [if_neg hb, if_neg hb, hm]
    simp only
    rw [run_bind_of_ok (run_pure m e), run_bind, withStore, StoreM.read]
    cases mainTree e.store m with
    | error err => rfl
    | ok tree =>
      simp only
      rw [run_bind, withStore, StoreM.read]
      cases layer1 e.store m tree e.state.materialized files with
      | error err => rfl
      | ok l =>
        simp only
        rw [run_bind_of_ok (run_modify _ _), run_bind_of_ok (run_get _)]
        split_ifs
        · rw [run_bind]
          rcases author m l now _ with ⟨_ | _, e''⟩ <;> rfl
        · rfl

end MemEngine

section Spec
variable [LawfulObjectId Oid] [LawfulCrates] {id : Identity} {st : EngineState Oid} {parent : Oid}
  {l : Layer1 Oid} {now : Nat}

omit [LawfulObjectId Oid] [LawfulCrates] in
variable (id st parent) in
theorem encodable_authoredObjects [LawfulCrates] (hfr : ∀ p ∈ l.filtered.keys, Framable p)
    (hnow : now < 2 ^ 64) :
    ∀ x ∈ authoredObjects l (authored id st parent l now), x.Encodable := by
  intro x hx
  rcases List.mem_append.mp hx with hx | hx
  · exact encodable_of_mem_buildTree hfr hx
  · rw [List.mem_singleton] at hx
    subst hx
    exact encodable_signedPrimitive id _ parent _ hnow _ _

/-- What the store holds once the objects of a commit are put. -/
structure AuthoredIn (s t : Store Oid) (id : Identity) (st : EngineState Oid) (parent : Oid)
    (l : Layer1 Oid) (now : Nat) : Prop where
  ext : s.Extends t
  sound : t.Sound
  load : loadCommit t (GitObject.commit (authored id st parent l now)).oid = .ok
    (authored id st parent l now)
  commitIn : CommitIn t (GitObject.commit (authored id st parent l now)).oid
  files : treeFiles t (authored id st parent l now).tree = .ok (storedFiles l.filtered)

variable (id st parent) in
theorem load_putAll_authored (hs : s.Sound) (hfr : ∀ p ∈ l.filtered.keys, Framable p)
    (hnow : now < 2 ^ 64) :
    loadCommit (s.putAll (authoredObjects l (authored id st parent l now)))
        (GitObject.commit (authored id st parent l now)).oid = .ok (authored id st parent l now) ∧
      TreeIn (s.putAll (authoredObjects l (authored id st parent l now)))
      (authored id st parent l now).tree ∧
      treeFiles (s.putAll (authoredObjects l (authored id st parent l now)))
      (authored id st parent l now).tree =
        .ok (storedFiles l.filtered) := by
  have htree : (s.putAll (writeTreeFromFiles l.filtered).1).Extends
      (s.putAll (authoredObjects l (authored id st parent l now))) := by
    rw [authoredObjects, Store.putAll_append]
    exact Store.extends_putAll _ _
  refine ⟨?_, treeFiles_writeTree hs hfr htree⟩
  obtain ⟨y, hy, hc⟩ := hs.get_putAll (encodable_authoredObjects id st parent hfr hnow)
    (x := .commit (authored id st parent l now))
    (List.mem_append_right _ List.mem_cons_self)
  cases y with
  | blob b => cases hc
  | tree es => cases hc
  | commit d =>
    rw [GitObject.commit.inj hc] at hy
    exact loadCommit_ok.mpr hy

theorem authoredIn_putAll (hs : s.Sound) (hp : CommitIn s parent)
    (hfr : ∀ p ∈ l.filtered.keys, Framable p) (hnow : now < 2 ^ 64) :
    AuthoredIn s (s.putAll (authoredObjects l (authored id st parent l now))) id st
    parent l now := by
  obtain ⟨hload, hin, hfiles⟩ := load_putAll_authored id st parent hs hfr hnow
  have hext := s.extends_putAll (authoredObjects l (authored id st parent l now))
  refine ⟨hext, hs.putAll (encodable_authoredObjects id st parent hfr hnow), hload,
    .mk hload hin fun p hpp => ?_, hfiles⟩
  obtain rfl : p = parent := List.mem_singleton.mp hpp
  exact hp.extends hext

omit [LawfulObjectId Oid] [LawfulCrates] in
theorem AuthoredIn.extends (h : AuthoredIn s t id st parent l now) {u : Store Oid}
    (he : t.Extends u) (hu : u.Sound) : AuthoredIn s u id st parent l now :=
  ⟨h.ext.trans he, hu, loadCommit_extends he h.load, h.commitIn.extends he,
    he.carries.treeFiles (fun _ => Tidy.flat) trivial h.files⟩

theorem isPrimitive_authored : isPrimitive (authored id st parent l now) = true :=
  isPrimitive_signed _ _ _ (counter_lt st) _ _ _

theorem AuthoredIn.isPrimitiveOid (h : AuthoredIn s t id st parent l now) :
    isPrimitiveOid t (GitObject.commit (authored id st parent l now)).oid = true := by
  rw [Csp.isPrimitiveOid, h.load]
  exact isPrimitive_authored

theorem names_of_writeTree {files : FileMap} (hs : s.Sound) (hfr : ∀ p ∈ files.keys, Framable p)
    (he : (s.putAll (writeTreeFromFiles files).1).Extends t) (o : Oid) (es : List (TreeEntry Oid))
    (ho : ∃ x ∈ (writeTreeFromFiles files : List (GitObject Oid) × Oid).1, x.oid = o)
    (hes : t.get o = .ok (.tree es)) (e : TreeEntry Oid) (hmem : e ∈ es) :
    '/' ∉ e.name ∧ ∃ x ∈ (writeTreeFromFiles files : List (GitObject Oid) × Oid).1,
    x.oid = e.oid := by
  obtain ⟨x, hx, rfl⟩ := ho
  obtain ⟨y, hy, hc⟩ := hs.get_putAll (fun x hx => encodable_of_mem_buildTree hfr hx) hx
  obtain rfl := Except.ok.inj ((he.get hy).symm.trans hes)
  have hflat : Flat es := by
    cases x with
    | blob b => cases hc
    | commit c => cases hc
    | tree es₀ =>
      have hp : es₀.Perm es := (sortEntries_perm es₀).symm.trans
        (GitObject.tree.inj hc ▸ sortEntries_perm es)
      exact (tidy_of_mem_buildTree hx).flat.perm hp
  refine ⟨hflat.1 e hmem, refs_of_mem_writeTree hx ?_⟩
  exact (mem_refs_of_canon hc).mp (List.mem_map_of_mem hmem)

/-- The guard of the author and the predicate of the reader agree: what the guard publishes
is no ghost-add. -/
theorem AuthoredIn.not_ghost (hs : s.Sound) (hfr : ∀ p ∈ l.filtered.keys, Framable p)
    (h : AuthoredIn s t id st parent l now) (he :
      (s.putAll (writeTreeFromFiles l.filtered).1).Extends t)
    (hp : CommitIn s parent) {pc : CommitObj Oid} (hpc : loadCommit s parent = .ok pc)
    (hnamed : Named s parent pc.tree l) :
    isGhostAddClosureOnlyUncached t (GitObject.commit (authored id st parent l now)).oid =
    .ok false := by
  have hreadds : parsePrimitiveReadds (authored id st parent l now) = l.readds :=
    parsePrimitiveReadds_signed _ _ _ _ _ noReadd_edit _
  obtain ⟨c, hc, ⟨-, p, pc', added, hps, hpc', hadded, hghost⟩ | ⟨-, hghost⟩⟩ :=
    isGhost_eq h.commitIn
  · obtain rfl := Except.ok.inj (h.load.symm.trans hc)
    obtain rfl : parent = p := List.head_eq_of_cons_eq hps
    obtain rfl := Except.ok.inj ((loadCommit_extends h.ext hpc).symm.trans hpc')
    rw [hghost, Except.ok.injEq, List.any_eq_false, hreadds]
    intro q hq
    obtain ⟨listed, hlisted, hfiles⟩ := treeFiles_ok.mp h.files
    obtain ⟨q, x, rfl, hmem, habs⟩ := treePathsAdded_spec
      (fun o es => names_of_writeTree hs hfr he o es) (root_mem_writeTree _) hadded hlisted hq
    have habsent : presentAt t pc.tree (Split.splitOn '/' q) = .ok false := habs pc.tree rfl
    obtain ⟨b, hb⟩ := presentAt_ok (hp.grounded.tree hpc) (Split.splitOn '/' q)
    have hcarry := h.ext.carries
    obtain rfl : b = false := Except.ok.inj
      ((hcarry.presentAt (fun _ h => h) trivial hb).symm.trans habsent)
    obtain ⟨x', hx'⟩ : ∃ x', l.filtered[q]? = some x' := by
      obtain ⟨x', hx'⟩ := exists_lastOf_of_mem hmem
      have hget : (storedFiles l.filtered)[q]? = some x' := by
        rw [hfiles, getElem?_insertAll, hx', Option.some_or]
      exact ⟨x', (getElem?_storedFiles.mp hget).2⟩
    rw [hcarry.ghostAt (fun _ h => h) trivial hp, Csp.ghostAt]
    -- what the reader takes for a ghost is what the guard of the author names
    split
    · rename_i o htouch
      simpa using hnamed q x' o hx' hb htouch
    · exact Bool.false_ne_true
  · exact hghost

end Spec

end Csp
