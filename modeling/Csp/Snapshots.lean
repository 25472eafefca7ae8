import Csp.Honest
import Csp.Materializable
import Csp.Recovery

/-! Snapshots keep a frontier only, and that is enough: the frontier of a frontier is itself,
so it folds to what the whole known list folded to, on any store that has grown since. -/

namespace Csp
open Result
variable {Oid : Type} [ObjectId Oid] [Crates] {s t : Store Oid}

/-! ### The frontier of a frontier -/

omit [Crates] in
theorem dominated_of_subset {table table' : List (Oid × List Oid)}
    (h : ∀ x ∈ table', x ∈ table) {p : Oid} (hp : dominated table p = false) :
    dominated table' p = false := by
  rw [dominated, List.any_eq_false] at hp ⊢
  exact fun x hx => hp x (h x hx)

omit [Crates] in
theorem View.frontier_frontier (v : View Oid) (hsha : ∀ o, (v.key o).sha = o) (known : List Oid) :
    v.frontier (v.frontier known) = v.frontier known := by
  set prims := (known.filter fun o => !v.ghost o).filter v.prim with hprims
  set kept := prims.filter fun o => !dominated (prims.map fun q => (q, v.anc q)) o with hkept
  set keys := (kept.map v.key).insertionSort (· ≤ ·) with hkeys
  have hfront : v.frontier known = keys.map (·.sha) := rfl
  have hkey : ∀ k ∈ keys, v.key k.sha = k := by
    intro k hk
    obtain ⟨o, -, rfl⟩ := List.mem_map.mp ((List.perm_insertionSort _ _).mem_iff.mp hk)
    rw [hsha]
  have hmem : ∀ o ∈ keys.map (·.sha), o ∈ kept := by
    intro o ho
    obtain ⟨k, hk, rfl⟩ := List.mem_map.mp ho
    obtain ⟨o', ho', rfl⟩ := List.mem_map.mp ((List.perm_insertionSort _ _).mem_iff.mp hk)
    rwa [hsha]
  have hin : ∀ o ∈ keys.map (·.sha), o ∈ prims := fun o ho => List.mem_of_mem_filter (hmem o ho)
  -- nothing of the frontier is filtered out again
  have hghost : (keys.map (·.sha)).filter (fun o => !v.ghost o) = keys.map (·.sha) :=
    List.filter_eq_self.mpr fun o ho => (List.mem_filter.mp (List.mem_of_mem_filter (hin o ho))).2
  have hprim : (keys.map (·.sha)).filter v.prim = keys.map (·.sha) :=
    List.filter_eq_self.mpr fun o ho => (List.mem_filter.mp (hin o ho)).2
  have hmax : (keys.map (·.sha)).filter (fun o =>
        !dominated ((keys.map (·.sha)).map fun q => (q, v.anc q)) o) =
      keys.map (·.sha) := by
    refine List.filter_eq_self.mpr fun o ho => ?_
    have hnot : dominated (prims.map fun q => (q, v.anc q)) o = false := by
      simpa using (List.mem_filter.mp (hmem o ho)).2
    rw [dominated_of_subset (fun x hx => ?_) hnot, Bool.not_false]
    obtain ⟨q, hq, rfl⟩ := List.mem_map.mp hx
    exact List.mem_map.mpr ⟨q, hin q hq, rfl⟩
  have hsorted : ((keys.map (·.sha)).map v.key).insertionSort (· ≤ ·) = keys := by
    have hmap : (keys.map (·.sha)).map v.key = keys := by
      rw [List.map_map]
      exact (List.map_congr_left hkey).trans (List.map_id _)
    rw [hmap]
    exact (List.pairwise_insertionSort (· ≤ ·) _).insertionSort_eq
  rw [hfront, View.frontier]
  simp only [hghost, hprim, hmax, hsorted]

theorem sha_key_viewOf (o : Oid) : ((viewOf s).key o).sha = o := by
  show ((orderKey s o).toOption.getD _).sha = o
  cases h : orderKey s o with
  | error e => rfl
  | ok k => exact sha_orderKey h

theorem frontier_frontier {known f : List Oid} (hin : ∀ o ∈ known, CommitIn s o)
    (hf : frontier s known = .ok f) :
    frontier s f = .ok f := by
  obtain rfl := Except.ok.inj ((frontier_eq hin).symm.trans hf)
  rw [frontier_eq fun o ho => hin o (mem_of_mem_frontier hf ho).1,
    View.frontier_frontier _ sha_key_viewOf]

/-! ### Folding again -/

section Again
variable {u : Store Oid}

theorem putAll_of_mem {xs : List (GitObject Oid)} (h : ∀ x ∈ xs, s.objs[x.oid]? ≠ none) :
    s.putAll xs = s := by
  induction xs with
  | nil => rfl
  | cons x xs ih =>
    rw [Store.putAll_cons, Store.put_of_mem (h x List.mem_cons_self)]
    exact ih fun y hy => h y (List.mem_cons_of_mem _ hy)

theorem objs_putAll_ne_none {xs : List (GitObject Oid)} {x : GitObject Oid} (hx : x ∈ xs) :
    (s.putAll xs).objs[x.oid]? ≠ none := by
  induction xs generalizing s with
  | nil => cases hx
  | cons y ys ih =>
    rw [Store.putAll_cons]
    rcases List.mem_cons.mp hx with rfl | hx
    · intro hnone
      cases hput : (s.put x).objs[x.oid]? with
      | none =>
        rw [Store.getElem?_put] at hput
        split_ifs at hput with h
        exact h ⟨rfl, hput⟩
      | some r =>
        rw [((s.put x).extends_putAll ys).objs _ _ hput] at hnone
        cases hnone
    · exact ih hx

theorem Store.Extends.putAll_eq {xs : List (GitObject Oid)} (he : (s.putAll xs).Extends u) :
    u.putAll xs = u := by
  refine putAll_of_mem fun x hx hnone => ?_
  obtain ⟨r, hr⟩ := Option.ne_none_iff_exists'.mp (objs_putAll_ne_none (s := s) hx)
  rw [he.objs _ _ hr] at hnone
  cases hnone

theorem refold_again {ps : List Oid} {o : Oid} (h : refold ps s = (.ok o, t)) (he : t.Extends u) :
    refold ps u = (.ok o, u) := by
  obtain ⟨objs, c, hf, rfl, rfl⟩ := refold_ok h
  rw [refold_run, foldObjects_extends ((s.extends_putAll _).trans he) hf]
  simp only [he.putAll_eq]

theorem foldlM_again {rest : List Oid} {acc o : Oid} (h : rest.foldlM foldStep acc s = (.ok o, t))
    (he : t.Extends u) :
    rest.foldlM foldStep acc u = (.ok o, u) := by
  induction rest generalizing s acc with
  | nil =>
    obtain ⟨rfl, rfl⟩ : acc = o ∧ s = t := by simpa using h
    rfl
  | cons tk rest ih =>
    rw [List.foldlM_cons] at h ⊢
    obtain ⟨acc', s', hstep, hrest⟩ := run_bind_ok.mp h
    have hext : s'.Extends t := by
      have hrest' := run_foldlM_induction (f := foldStep) Store.Extends Store.Extends.refl
        (fun _ _ _ => Store.Extends.trans)
        (fun acc tk v => extends_refold [acc, tk] v) rest acc' s'
      rwa [hrest] at hrest'
    have hpair : refold [acc, tk] s = (.ok acc', s') := hstep
    rw [run_bind_of_ok (show foldStep acc tk u = (.ok acc', u) from refold_again hpair
        (hext.trans he))]
    exact ih hrest

theorem foldTips_again {tips : List Oid} {o : Oid} (h : foldTips tips s = (.ok o, t))
    (he : t.Extends u) :
    foldTips tips u = (.ok o, u) := by
  match tips, h with
  | [], h =>
    rw [foldTips, genesis_run] at h ⊢
    obtain ⟨ho, rfl⟩ := Prod.mk.inj h
    rw [he.putAll_eq, ho]
  | [tip], h => exact refold_again (show refold [tip] s = (.ok o, t) from h) he
  | acc :: tk :: rest, h => exact foldlM_again h he

theorem frontier_of_extends {known f : List Oid} (hin : ∀ o ∈ known, CommitIn s o)
    (he : s.Extends u) (hf : frontier s known = .ok f) : frontier u known = .ok f := by
  rw [he.carries.frontier (fun _ hq => hq) (fun _ _ => trivial) hin (.refl _), hf]

theorem computeMain_again {known : List Oid} (hin : ∀ o ∈ known, CommitIn s o) {m : Oid}
    (h : computeMain known s = (.ok m, t)) (he : t.Extends u) :
    computeMain known u = (.ok m, u) := by
  obtain ⟨f, hf, hfold⟩ := computeMain_ok.mp h
  have hext : s.Extends t := by
    have := extends_computeMain known s
    rwa [h] at this
  rw [computeMain_run (frontier_of_extends hin (hext.trans he) hf)]
  exact foldTips_again hfold he

/-- The frontier of complete primitives folds to what they fold to, wherever their store grows. -/
theorem computeMain_frontier {known f : List Oid} (hin : ∀ o ∈ known, CommitIn s o)
    (hf : frontier s known = .ok f) (he : s.Extends u) : computeMain f u = computeMain known u := by
  have hinf : ∀ o ∈ f, CommitIn s o := fun o ho => hin o (mem_of_mem_frontier hf ho).1
  rw [computeMain_run (frontier_of_extends hin he hf),
    computeMain_run (frontier_of_extends hinf he (frontier_frontier hin hf))]

end Again

/-! ### What the operations of an engine keep -/

theorem extends_foldSubset (subset : List Oid) (s : Store Oid) :
    s.Extends (foldSubset subset s).2 := by
  refine run_bind_induction Store.Extends (fun _ _ _ => .trans)
    (extends_computeMain subset s) fun m t _ => ?_
  exact run_bind_induction Store.Extends (fun _ _ _ => .trans) (.refl t) fun tree u _ => .refl u

theorem sound_foldSubset [LawfulObjectId Oid] [LawfulCrates] (hs : s.Sound)
    (subset : List Oid) :
    (foldSubset subset s).2.Sound := by
  refine run_bind_induction (fun s t : Store Oid => s.Sound → t.Sound)
    (fun _ _ _ h h' hs => h' (h hs))
    (fun hs => hs.computeMain subset) (fun m t _ => ?_) hs
  exact run_bind_induction (fun s t : Store Oid => s.Sound → t.Sound)
    (fun _ _ _ h h' hs => h' (h hs)) id fun _ _ _ => id

namespace MemEngine

structure SameHost (e e' : MemEngine Oid) : Prop where
  config : e'.config = e.config
  scope : e'.scope = e.scope
  identity : e'.identity = e.identity

omit [Crates] in
theorem SameHost.refl (e : MemEngine Oid) : e.SameHost e := ⟨rfl, rfl, rfl⟩

structure Grows (e e' : MemEngine Oid) : Prop where
  ext : e.store.Extends e'.store
  snapshots : e'.state.snapshots = e.state.snapshots
  host : e.SameHost e'

omit [Crates] in
theorem Grows.refl (e : MemEngine Oid) : e.Grows e := ⟨.refl _, rfl, .refl e⟩

omit [Crates] in
theorem Grows.trans (e₁ e₂ e₃ : MemEngine Oid) (h : e₁.Grows e₂) (h' : e₂.Grows e₃) : e₁.Grows e₃ :=
  ⟨h.ext.trans h'.ext, h'.snapshots.trans h.snapshots, h'.host.config.trans h.host.config,
    h'.host.scope.trans h.host.scope, h'.host.identity.trans h.host.identity⟩

omit [Crates] in
theorem grows_withStore {α : Type} {x : StoreM Oid α} (hx : ∀ s : Store Oid, s.Extends (x s).2)
    (e : MemEngine Oid) :
    e.Grows (withStore x e).2 := ⟨hx e.store, rfl, rfl, rfl, rfl⟩

omit [Crates] in
theorem grows_read {α : Type} (f : Store Oid → CspResult α) (e : MemEngine Oid) :
    e.Grows (withStore (StoreM.read f) e).2 := grows_withStore (fun s => .refl s) e

theorem grows_author (parent : Oid) (l : Layer1 Oid) (now : Nat) (e : MemEngine Oid) :
    e.Grows (author parent l now e).2 := by
  have hpub : e.Grows (e.published l (authored e.identity e.state parent l now)) :=
    ⟨e.store.extends_putAll _, snapshots_addKnown _ _, rfl, rfl, rfl⟩
  have hext := extends_computeMain (e.published l
      (authored e.identity e.state parent l now)).state.known
    (e.published l (authored e.identity e.state parent l now)).store
  rw [author_run]
  split
  · rename_i m t hm
    rw [hm] at hext
    exact ⟨hpub.ext.trans hext, hpub.snapshots, rfl, rfl, rfl⟩
  · rename_i err t hm
    rw [hm] at hext
    exact ⟨hpub.ext.trans hext, hpub.snapshots, rfl, rfl, rfl⟩

theorem grows_commitScoped (files : FileMap) (now : Nat) (e : MemEngine Oid) :
    e.Grows (commitScoped files now e).2 := by
  have rest : ∀ (parent : Oid) (t : MemEngine Oid), t.Grows ((do
      let parentTree ← withStore (StoreM.read fun s => mainTree s parent)
      let l ← withStore (StoreM.read fun s => layer1 s parent parentTree e.state.materialized files)
      modify fun e => e.dropQuarantined (orphansBucket now) l.quarantines
      let e ← get
      if genuineChange e.state.materialized l.filtered then
        let oid ← author parent l now
        pure (some oid)
      else pure none : EngineM Oid (Option Oid)) t).2 := by
    intro parent t
    refine run_bind_induction _ Grows.trans (grows_read _ t) fun tree u _ => ?_
    refine run_bind_induction _ Grows.trans (grows_read _ u) fun l u' _ => ?_
    have hdrop : u'.Grows (u'.dropQuarantined (orphansBucket now) l.quarantines) :=
        ⟨.refl _, rfl, rfl, rfl, rfl⟩
    refine run_bind_induction _ Grows.trans hdrop fun _ v _ => ?_
    refine run_bind_induction _ Grows.trans (.refl v) fun _ v' _ => ?_
    split
    · exact run_bind_induction _ Grows.trans (grows_author parent l now v') fun _ w _ => .refl w
    · exact .refl v'
  rw [commitScoped, run_bind_of_ok (run_get e)]
  split
  · exact .refl e
  split
  · exact run_bind_induction _ Grows.trans (.refl e) fun m t _ => rest m t
  · exact run_bind_induction _ Grows.trans
      (grows_withStore (fun s => by rw [genesis_run]; exact s.extends_putAll _) e)
      fun m t _ => rest m t

theorem grows_commitStaged (now : Nat) (e : MemEngine Oid) : e.Grows (commitStaged now e).2 :=
  grows_commitScoped _ now e

theorem grows_integrate (raws : List Bytes) (e : MemEngine Oid) : e.Grows (integrate raws e).2 := by
  have hput := e.store.extends_putAll (decoded raws : List (GitObject Oid) × Option CspError).1
  have hver := extends_verifyBatch raws (e.store.putAll (decoded raws).1)
  have hsnap : (raws.foldl admitOne (e.state, 0)).1.snapshots = e.state.snapshots :=
    (admits_foldl raws e.state 0).same.snapshots
  rw [integrate_run]
  split
  · exact ⟨hput, rfl, rfl, rfl, rfl⟩
  split
  · rename_i err u hu
    rw [hu] at hver
    exact ⟨hput.trans hver, rfl, rfl, rfl, rfl⟩
  · rename_i u hu
    rw [hu] at hver
    exact ⟨hput.trans hver, rfl, rfl, rfl, rfl⟩
  · rename_i u hu
    rw [hu] at hver
    split_ifs
    · exact ⟨hput.trans hver, hsnap, rfl, rfl, rfl⟩
    · have hext := extends_computeMain (raws.foldl admitOne (e.state, 0)).1.known u
      split
      · rename_i m t hm
        rw [hm] at hext
        exact ⟨(hput.trans hver).trans hext, hsnap, rfl, rfl, rfl⟩
      · rename_i err t hm
        rw [hm] at hext
        exact ⟨(hput.trans hver).trans hext, hsnap, rfl, rfl, rfl⟩

theorem grows_materializePlan (onDisk : FileMap) (e : MemEngine Oid) :
    e.Grows (materializePlan onDisk e).2 := by
  rw [materializePlan_run]
  split
  · exact ⟨.refl _, rfl, rfl, rfl, rfl⟩
  split
  · exact ⟨.refl _, rfl, rfl, rfl, rfl⟩
  split <;> exact ⟨.refl _, rfl, rfl, rfl, rfl⟩

theorem grows_materializeStaged (e : MemEngine Oid) : e.Grows (materializeStaged e).2 :=
  run_bind_induction _ Grows.trans (.refl e) fun _ t _ =>
    run_bind_induction _ Grows.trans (grows_materializePlan _ t) fun _ _ _ =>
    ⟨.refl _, rfl, rfl, rfl, rfl⟩

theorem grows_foldSubset (subset : List Oid) (e : MemEngine Oid) :
    e.Grows (withStore (foldSubset subset) e).2 :=
  grows_withStore (extends_foldSubset subset) e

/-- Everything an engine can do after a snapshot but take another of that name, as it ends or
fails. -/
inductive Later (name : Str) (e : MemEngine Oid) : MemEngine Oid → Prop
  | refl : Later name e e
  | stage {e' : MemEngine Oid} (files : FileMap) (h : Later name e e') :
    Later name e { e' with working := files }
  | commit {e' : MemEngine Oid} (now : Nat) (h : Later name e e') :
    Later name e (commitStaged now e').2
  | integrate {e' : MemEngine Oid} (raws : List Bytes) (h : Later name e e') :
    Later name e (integrate raws e').2
  | materialize {e' : MemEngine Oid} (h : Later name e e') : Later name e (materializeStaged e').2
  | snapshot {e' : MemEngine Oid} {other : Str} (hne : other ≠ name) (now : Nat)
    (h : Later name e e') :
    Later name e (snapshot other now e').2
  | restore {e' : MemEngine Oid} (any : Str) (h : Later name e e') :
    Later name e (restoreSnapshot any e').2

theorem snapshot_run {e : MemEngine Oid} {f : List Oid}
    (hf : frontier e.store e.state.known = .ok f) (name : Str) (now : Nat) :
    snapshot name now e = (.ok (), { e with state := e.state.addSnapshot name f now }) := by
  have htips : (fun e => (e.frontierTips, e) : EngineM Oid (List Oid)) e = (.ok f, e) :=
      Prod.ext hf rfl
  exact run_bind_of_ok htips

theorem snapshot_failed {e : MemEngine Oid} {err : CspError}
    (hf : frontier e.store e.state.known = .error err) (name : Str) (now : Nat) :
    snapshot name now e = (.error err, e) := by
  have htips : (fun e => (e.frontierTips, e) : EngineM Oid (List Oid)) e = (.error err, e) :=
      Prod.ext hf rfl
  exact run_bind_of_error htips

theorem grows_restoreSnapshot (name : Str) (e : MemEngine Oid) :
    e.Grows (restoreSnapshot name e).2 := by
  rw [restoreSnapshot, run_bind_of_ok (run_get e)]
  cases e.state.snapshots[name]? with
  | none => exact .refl e
  | some snap => exact grows_foldSubset snap.frontier e

/-- Run lemma: the objects and the record of the snapshot are still there. -/
theorem Later.keeps {name : Str} {e e' : MemEngine Oid} (h : Later name e e') :
    e.store.Extends e'.store ∧ e'.state.snapshots[name]? = e.state.snapshots[name]? := by
  have grow : ∀ {e₁ e₂ : MemEngine Oid}, e₁.Grows e₂ →
      e.store.Extends e₁.store ∧ e₁.state.snapshots[name]? = e.state.snapshots[name]? →
      e.store.Extends e₂.store ∧ e₂.state.snapshots[name]? = e.state.snapshots[name]? := by
    intro e₁ e₂ hg ⟨hext, hsnap⟩
    exact ⟨hext.trans hg.ext, by rw [hg.snapshots, hsnap]⟩
  induction h with
  | refl => exact ⟨.refl _, rfl⟩
  | stage files _ ih => exact ih
  | commit now _ ih => exact grow (grows_commitStaged now _) ih
  | integrate raws _ ih => exact grow (grows_integrate raws _) ih
  | materialize _ ih => exact grow (grows_materializeStaged _) ih
  | restore any _ ih => exact grow (grows_restoreSnapshot any _) ih
  | @snapshot e' other hne now _ ih =>
    cases hf : frontier e'.store e'.state.known with
    | error err =>
      rw [snapshot_failed hf]
      exact ih
    | ok f =>
      rw [snapshot_run hf]
      refine ⟨ih.1, ?_⟩
      have hother : (e'.state.addSnapshot other f now).snapshots[name]? =
          e'.state.snapshots[name]? := by
        rw [EngineState.addSnapshot, Std.ExtTreeMap.getElem?_insert, if_neg (by simpa using hne)]
      exact hother.trans ih.2

end MemEngine

/-! ### The fold of an engine that is reached -/

/-- `main` is what the known primitives fold to, and the fold is stored. -/
def Refolds (e : MemEngine Oid) (m : Oid) : Prop :=
  e.main = some m ∧ computeMain e.state.known e.store = (.ok m, e.store)

section Spec
variable [LawfulObjectId Oid] [LawfulCrates]

omit [LawfulObjectId Oid] [LawfulCrates] in
theorem computeMain_of_wrapper (hs : s.Sound) {known : List Oid} {o m : Oid} {c : CommitObj Oid}
    (hf : frontier s known = .ok [o]) (hc : loadCommit s o = .ok c)
    (hm : loadCommit s m = .ok (foldCommit c.tree [o] c.committerTime foldMsg)) :
    computeMain known s = (.ok m, s) := by
  have hget := loadCommit_ok.mp hm
  have hoid : (GitObject.commit (foldCommit c.tree [o] c.committerTime foldMsg)).oid = m :=
      (hs.get hget).1
  have htime : maxCommitterTime s [o] = .ok c.committerTime := by
    rw [maxCommitterTime, List.foldlM_cons, hc]
    rfl
  have hobjs : foldObjects s [o] = .ok ([], foldCommit c.tree [o] c.committerTime foldMsg) := by
    rw [foldObjects, commitTree, hc, htime]
    rfl
  rw [computeMain_run hf]
  show thinWrapper o s = _
  rw [thinWrapper_run, hobjs]
  have hput : s.putAll ([] ++ [.commit (foldCommit c.tree [o] c.committerTime foldMsg)]) = s := by
    refine putAll_of_mem fun x hx => ?_
    rw [List.mem_singleton.mp hx, hoid, Store.get_eq_ok.mp hget]
    simp
  simp only [hput, hoid]

omit [LawfulObjectId Oid] [LawfulCrates] in
theorem refolds_create (id : Identity) (vaultId name : Str) :
    ∃ m, Refolds (MemEngine.create id vaultId name : MemEngine Oid) m := by
  have hrun : computeMain [] (Store.empty .mem : Store Oid) =
      (.ok (GitObject.commit genesisCommit).oid, (genesis (Store.empty .mem)).2) := by
    rw [computeMain_run (f := []) rfl]
    rfl
  exact ⟨_, rfl, computeMain_again (List.forall_mem_nil _) hrun (.refl _)⟩

theorem Reached.refolds {e : MemEngine Oid} (h : Reached e) : ∃ m, Refolds e m := by
  induction h with
  | create id vaultId name => exact refolds_create id vaultId name
  | quiet _ hq ih =>
    obtain ⟨m, hm, hrun⟩ := ih
    exact ⟨m, hq.main.trans hm, by rw [hq.known, hq.store, hrun]⟩
  | @commit e e' now r hr hnames hnow hc ih =>
    obtain ⟨hlin, hnone, hsome⟩ := hr.linear.commitStaged hnames hnow hc
    cases r with
    | none =>
      obtain ⟨m, hm, hrun⟩ := ih
      have hq := hnone rfl
      exact ⟨m, hq.main.trans hm, by rw [hq.known, hq.store, hrun]⟩
    | some o =>
      obtain ⟨m, mc, l, e₁, -, -, -, -, -, -, rfl, hlines⟩ := hsome o rfl
      obtain ⟨m', hm', hload⟩ := hlines.wrapper
      exact ⟨m', hm', computeMain_of_wrapper hlin.sound hlines.frontier hlines.held.load hload⟩
  | @integrate e e' raws n hr hraws hi ih =>
    have hlin' := hr.linear.integrate hraws hi
    cases MemEngine.integrate_cases hi with
    | kept ext sound known main =>
      obtain ⟨m, hm, hrun⟩ := ih
      refine ⟨m, main.trans hm, ?_⟩
      rw [known]
      exact computeMain_again hr.linear.commitIn hrun ((e.store.extends_putAll _).trans ext)
    | @folded u m ext sound known run main =>
      have hin : ∀ o ∈ e'.state.known, CommitIn u o := by
        intro o ho
        rw [known] at ho
        rcases mem_foldl_addNew.mp ho with ho | ho
        · exact (hr.linear.commitIn o ho).extends ((e.store.extends_putAll _).trans ext)
        · exact (hraws.2 o ho).extends ext
      exact ⟨m, main, computeMain_again hin run (.refl _)⟩

omit [LawfulObjectId Oid] [LawfulCrates] in
theorem foldSubset_run {subset : List Oid} {m : Oid} {files : FileMap}
    (hm : computeMain subset s = (.ok m, t)) (hfiles : filesOf t m = .ok files) :
    foldSubset subset s = (.ok files, t) := by
  obtain ⟨c, hc, hfiles⟩ := filesOf_ok.mp hfiles
  have htree : subsetTree t m = .ok c.tree := by
    rw [subsetTree, loadCommit_ok.mp hc]
    rfl
  rw [foldSubset, run_bind_of_ok hm,
    run_bind_of_ok (show StoreM.read (fun s => subsetTree s m) t =
      (.ok c.tree, t) from Prod.ext htree rfl)]
  exact Prod.ext hfiles rfl

/-- A snapshot brings back the files of `main` as they were when it was taken, whatever came
after it. It can, since the frontier of primitives folds to what they all fold to. -/
theorem restoreSnapshot_exact {e : MemEngine Oid} (h : Reached e) (name : Str) (now : Nat) :
    (∃ e₁ m files, MemEngine.snapshot name now e = (.ok (), e₁) ∧ e.main = some m ∧
      filesOf e.store m = .ok files ∧
      ∀ e', MemEngine.Later name e₁ e' → MemEngine.restoreSnapshot name e' = (.ok files, e')) ∧
    ∀ (s u : Store Oid) (known : List Oid), s.Sound → (∀ o ∈ known, CommitIn s o) → s.Extends u → u.Sound →
      ∃ f, frontier s known = .ok f ∧ computeMain f u = computeMain known u ∧
        ∀ m, (computeMain known s).1 = .ok m → (computeMain f u).1 = .ok m := by
  constructor
  · obtain ⟨m, hm, hrun⟩ := h.refolds
    have hin := h.linear.commitIn
    obtain ⟨m', hm', hmin, -⟩ := h.linear.main
    obtain rfl := Option.some.inj (hm.symm.trans hm')
    obtain ⟨c, hc, htree, -⟩ := hmin.load
    obtain ⟨files, hfiles⟩ := htree.treeFiles
    have hof : filesOf e.store m = .ok files := filesOf_ok.mpr ⟨c, hc, hfiles⟩
    have hf := frontier_eq hin
    refine ⟨_, m, files, MemEngine.snapshot_run hf name now, hm, hof, fun e' hlater => ?_⟩
    obtain ⟨hext, hsnap⟩ := hlater.keeps
    have hrecord : e'.state.snapshots[name]? =
        some { label := name, frontier := (viewOf e.store).frontier e.state.known, createdUnix := now } := by
      rw [hsnap]
      exact Std.ExtTreeMap.getElem?_insert_self
    have hfold : computeMain ((viewOf e.store).frontier e.state.known) e'.store =
        (.ok m, e'.store) := by
      rw [computeMain_frontier hin hf hext, computeMain_again hin hrun hext]
    rw [MemEngine.restoreSnapshot, run_bind_of_ok (run_get e')]
    simp only [hrecord, MemEngine.withStore, foldSubset_run hfold (filesOf_extends hof hext)]
  · intro s u known hs hin he hu
    have hf := frontier_eq hin
    refine ⟨_, hf, computeMain_frontier hin hf he, fun m hm => ?_⟩
    rw [computeMain_frontier hin hf he]
    exact computeMain_carries he.carries hs hu (fun _ _ => trivial) hin
      (frontier_of_extends hin he hf |>.trans hf.symm) hm

end Spec

end Csp

namespace Csp.Small

def mainAt (e : MemEngine Shadow) (p : Path) : Option Bytes :=
  match e.main.map (filesOf e.store) with
  | some (.ok files) => files[p]?
  | _ => none

theorem mainAt_eq {e : MemEngine Shadow} {m : Shadow} {files : FileMap} (hm : e.main = some m)
    (hfiles : filesOf e.store m = .ok files) (p : Path) : mainAt e p = files[p]? := by
  rw [mainAt, hm, Option.map_some, hfiles]

/-- The two files are there again after both were deleted. -/
theorem restoreSnapshot_exact_shadowed :
    ∃ e₁ files, MemEngine.snapshot ['s'] 5 (publish fresh shadowed).2 = (.ok (), e₁) ∧
      files[['x']]? = some [49] ∧ files[['x', '/', 'y']]? = some [50] ∧
      MemEngine.restoreSnapshot ['s'] (publish e₁ ∅).2 = (.ok files, (publish e₁ ∅).2) := by
  have hrun : (∀ p ∈ shadowed.keys, Framable p) ∧ (publish fresh shadowed).1.isOk = true ∧
      mainAt (publish fresh shadowed).2 ['x'] = some [49] ∧
      mainAt (publish fresh shadowed).2 ['x', '/', 'y'] = some [50] := by decide +kernel
  obtain ⟨hnames, hok, hx, hy⟩ := hrun
  have hreached : Reached (publish fresh shadowed).2 :=
      reached_publish (.create owner [] []) hnames hok
  obtain ⟨⟨e₁, m, files, hsnap, hm, hfiles, hlater⟩, -⟩ := restoreSnapshot_exact hreached ['s'] 5
  rw [mainAt_eq hm hfiles] at hx hy
  exact ⟨e₁, files, hsnap, hx, hy, hlater _ (.commit 0 (.stage ∅ .refl))⟩

end Csp.Small
