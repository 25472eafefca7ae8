import Csp.ConfigFacts
import Csp.Snapshots

/-! Persistence of an engine: what the host stores of it, and the engine that it gets back.
Working files and pending quarantines are not stored. -/

namespace Csp
open Result
variable {Oid : Type} [ObjectId Oid]

/-- What the host stores. MessagePack and JSON give back what they were given, and so the
state stands for its bytes. -/
structure Persisted (Oid : Type) where
  configToml : Str
  stateJson : EngineState Oid
  authorized : Str
  objects : List Bytes
  main : Option Str

namespace MemEngine
variable [Crates]

def filesAtMain (e : MemEngine Oid) : CspResult FileMap :=
  match e.main with
  | none => .ok ∅
  | some main => do
    let tree ← mainTree e.store main
    treeFiles e.store tree

def toBytes (e : MemEngine Oid) : CspResult (Persisted Oid) := do
  let objects ← e.store.objs.keys.mapM e.store.getRaw
  pure { configToml := e.config.toTomlString, stateJson := e.state, authorized := e.authorized,
         objects, main := e.main.map toHex }

def storeOf (objects : List Bytes) : CspResult (Store Oid) :=
  match putRaws objects (Store.empty .mem) with
  | (.ok _, s) => .ok s
  | (.error err, _) => .error err

def mainOf : Option Str → CspResult (Option Oid)
  | none => .ok none
  | some h => do
    let o ← fromHex h
    pure (some o)

def fromBytes (identity : Identity) (p : Persisted Oid) (ignore : List Str) :
    CspResult (MemEngine Oid) := do
  let store ← storeOf p.objects
  let config ← VaultConfig.fromTomlStr p.configToml
  let main ← mainOf p.main
  let engine : MemEngine Oid :=
    { store, state := p.stateJson, scope := rebuildScope config ignore, identity, authorized := p.authorized,
      main, config, working := ∅, pendingQuarantines := [] }
  let working ← engine.filesAtMain
  pure { engine with working }

end MemEngine

/-! ### The objects -/

/-- The store with the entries of each tree in the order of their encoding. -/
def Store.recoded (s : Store Oid) : Store Oid := ⟨.mem, s.objs.map fun _ r => r.map GitObject.canon⟩

def Store.objectAt (s : Store Oid) (o : Oid) : GitObject Oid := (s.get o).toOption.getD emptyTree

section Objects
variable {s : Store Oid}

theorem Store.Sound.objectAt (hs : s.Sound) {o : Oid} (ho : o ∈ s.objs.keys) :
    s.objs[o]? = some (.ok (s.objectAt o)) ∧ (s.objectAt o).oid = o ∧ (s.objectAt o).Encodable := by
  rw [Std.ExtTreeMap.mem_keys, Std.ExtTreeMap.mem_iff_isSome_getElem?,
    Option.isSome_iff_exists] at ho
  obtain ⟨r, hr⟩ := ho
  obtain ⟨x, rfl, hoid, henc⟩ := hs o r hr
  have hat : s.objectAt o = x := by
    rw [Store.objectAt, Store.get_eq_ok.mpr hr]
    rfl
  rw [hat]
  exact ⟨hr, hoid, henc⟩

variable [Crates]

theorem Store.Sound.mapM_getRaw (hs : s.Sound) :
    s.objs.keys.mapM s.getRaw = .ok ((s.objs.keys.map s.objectAt).map GitObject.compress) := by
  rw [mapM_ok_iff, List.map_map, List.forall₂_map_right_iff, List.forall₂_same]
  intro o ho
  rw [Store.getRaw, Store.get_eq_ok.mpr (hs.objectAt ho).1]
  rfl

variable [LawfulObjectId Oid] [LawfulCrates]

theorem decoded_compress {xs : List (GitObject Oid)} (h : ∀ x ∈ xs, x.Encodable) :
    decoded (xs.map GitObject.compress) = (xs.map GitObject.canon, none) := by
  induction xs with
  | nil => rfl
  | cons x xs ih =>
    rw [List.map_cons, decoded, decompressAndParse_compress (h x List.mem_cons_self),
      ih fun y hy => h y (List.mem_cons_of_mem _ hy)]
    rfl

theorem Store.Sound.storeOf (hs : s.Sound) :
    MemEngine.storeOf ((s.objs.keys.map s.objectAt).map GitObject.compress) = .ok s.recoded := by
  have henc : ∀ x ∈ s.objs.keys.map s.objectAt, x.Encodable := by
    intro x hx
    obtain ⟨o, ho, rfl⟩ := List.mem_map.mp hx
    exact (hs.objectAt ho).2.2
  set xs := (s.objs.keys.map s.objectAt).map GitObject.canon with hxs
  have hmem : ∀ y ∈ xs, ∃ o ∈ s.objs.keys, y = (s.objectAt o).canon ∧ y.oid = o := by
    intro y hy
    obtain ⟨x, hx, rfl⟩ := List.mem_map.mp hy
    obtain ⟨o, ho, rfl⟩ := List.mem_map.mp hx
    exact ⟨o, ho, rfl, by rw [GitObject.oid_canon, (hs.objectAt ho).2.1]⟩
  have hobjs : ((Store.empty .mem).putAll xs).objs = s.recoded.objs := by
    refine Std.ExtTreeMap.ext_getElem? fun o => ?_
    show _ = (s.objs.map fun _ r => r.map GitObject.canon)[o]?
    rw [Std.ExtTreeMap.getElem?_map]
    by_cases ho : o ∈ s.objs.keys
    · have hin : (s.objectAt o).canon ∈ xs := List.mem_map_of_mem (List.mem_map_of_mem ho)
      have hoid : (s.objectAt o).canon.oid = o := by rw [GitObject.oid_canon, (hs.objectAt ho).2.1]
      have hsome := objs_putAll_ne_none (s := Store.empty .mem) hin
      rw [hoid] at hsome
      obtain ⟨r, hr⟩ := Option.ne_none_iff_exists'.mp hsome
      rcases Store.getElem?_putAll hr with hnone | ⟨y, hy, hyo, rfl⟩
      · simp [Store.empty] at hnone
      · obtain ⟨o', -, rfl, hyo'⟩ := hmem y hy
        obtain rfl : o' = o := hyo'.symm.trans hyo
        rw [hr, (hs.objectAt ho).1]
        rfl
    · have hnone : s.objs[o]? = none := by
        rw [Std.ExtTreeMap.mem_keys, Std.ExtTreeMap.mem_iff_isSome_getElem?, Bool.not_eq_true,
          Option.isSome_eq_false_iff, Option.isNone_iff_eq_none] at ho
        exact ho
      rw [hnone, Option.map_none]
      by_contra hne
      obtain ⟨r, hr⟩ := Option.ne_none_iff_exists'.mp hne
      rcases Store.getElem?_putAll hr with hsome | ⟨y, hy, hyo, -⟩
      · simp [Store.empty] at hsome
      · obtain ⟨o', ho', -, hyo'⟩ := hmem y hy
        exact ho (hyo ▸ hyo' ▸ ho')
  have hback : ((Store.empty .mem).putAll xs).backend = .mem :=
      ((Store.empty .mem).extends_putAll xs).backend
  rw [MemEngine.storeOf, putRaws_run, decoded_compress henc]
  simp only [← hxs]
  rw [Except.ok.injEq]
  rcases hput : (Store.empty .mem : Store Oid).putAll xs with ⟨b, objs⟩
  rw [hput] at hobjs hback
  obtain rfl : b = .mem := hback
  exact congrArg (Store.mk .mem) hobjs

omit [LawfulObjectId Oid] [LawfulCrates] [Crates] in
theorem Store.Sound.recoded (hs : s.Sound) : s.recoded.Sound := by
  intro o r hr
  have hr' : (s.objs.map fun _ r => r.map GitObject.canon)[o]? = some r := hr
  rw [Std.ExtTreeMap.getElem?_map, Option.map_eq_some_iff] at hr'
  obtain ⟨r₀, hr₀, rfl⟩ := hr'
  obtain ⟨x, rfl, hoid, henc⟩ := hs o r₀ hr₀
  exact ⟨x.canon, rfl, by rw [GitObject.oid_canon, hoid], henc.canon⟩

end Objects

/-! ### Trees that can be read -/

theorem treeIn_of_listing {n : Nat} {t : Oid} {l : List (Path × Bytes)}
    (h : listing s.get n t = .ok l) :
    TreeIn s t := by
  induction n generalizing t l with
  | zero => cases h
  | succ n ih =>
    obtain ⟨es, segs, hes, hsegs, -⟩ := (listing_ok _).mp h
    have hentry : ∀ e ∈ es, ∃ x, entryListing s.get (listing s.get n) e = .ok x := by
      intro e he
      obtain ⟨x, -, hx⟩ := mapM_ok_mem hsegs he
      exact ⟨x, hx⟩
    refine .mk hes (fun e he hm => ?_) fun e he hm => ?_
    · obtain ⟨x, hx⟩ := hentry e he
      rw [entryListing, if_pos hm] at hx
      obtain ⟨l', hl', -⟩ := bind_ok.mp hx
      exact ih hl'
    · obtain ⟨x, hx⟩ := hentry e he
      rw [entryListing, if_neg hm] at hx
      obtain ⟨y, hy, hfile⟩ := bind_ok.mp hx
      cases y with
      | blob b => exact ⟨b, hy⟩
      | tree es => cases hfile
      | commit c => cases hfile

theorem treeIn_of_treeFiles {t : Oid} {m : FileMap} (h : treeFiles s t = .ok m) : TreeIn s t := by
  obtain ⟨l, hl, -⟩ := treeFiles_ok.mp h
  exact treeIn_of_listing hl

/-! ### The engines that a host has -/

namespace MemEngine
variable [Crates]

def restored (e : MemEngine Oid) (identity : Identity) (ignore : List Str) : MemEngine Oid :=
  { e with store := e.store.recoded, scope := rebuildScope e.config ignore, identity, working := ∅,
           pendingQuarantines := [] }

/-- The store is sound, and there is a `main`. -/
structure Rooted (e : MemEngine Oid) : Prop where
  sound : e.store.Sound
  main : ∃ m, e.main = some m

/-- What holds of an engine whatever its host and its peers have done. -/
structure Kept (e : MemEngine Oid) : Prop extends Rooted e where
  backend : e.store.backend = .mem
  scope : e.scope = rebuildScope e.config e.scope.ignore
  bounded : e.config.Bounded

omit [Crates] in
theorem Kept.grow {e e' : MemEngine Oid} (h : e.Kept) (hg : e.Grows e') (hr : e'.Rooted) :
    e'.Kept where
  toRooted := hr
  backend := by rw [hg.ext.backend, h.backend]
  scope := by rw [hg.host.scope, hg.host.config, ← h.scope]
  bounded := by
    rw [hg.host.config]
    exact h.bounded

/-- An engine with the host's steps and those of its peers so far, as they end or fail. -/
inductive Hosted : MemEngine Oid → Prop
  | create (id : Identity) (vaultId name : Str) : Hosted (MemEngine.create id vaultId name)
  | configure {e : MemEngine Oid} (h : Hosted e) {config : VaultConfig} (hb : config.Bounded)
    (ignore : List Str) :
    Hosted ({ e with config }.setIgnore ignore)
  | authorize {e : MemEngine Oid} (h : Hosted e) (authorized : Str) : Hosted { e with authorized }
  | bootstrap {e : MemEngine Oid} (h : Hosted e) (bootstrapPending : Bool) :
    Hosted { e with state := { e.state with bootstrapPending } }
  | stage {e : MemEngine Oid} (h : Hosted e) (working : FileMap) : Hosted { e with working }
  | commit {e : MemEngine Oid} (h : Hosted e) (names : ∀ p ∈ e.working.keys, Framable p) {now : Nat}
    (clock : now < 2 ^ 64) : Hosted (commitStaged now e).2
  | integrate {e : MemEngine Oid} (h : Hosted e) (raws : List Bytes) : Hosted (integrate raws e).2
  | plan {e : MemEngine Oid} (h : Hosted e) (onDisk : FileMap) : Hosted (materializePlan onDisk e).2
  | materialize {e : MemEngine Oid} (h : Hosted e) : Hosted (materializeStaged e).2
  | snapshot {e : MemEngine Oid} (h : Hosted e) (name : Str) (now : Nat) :
    Hosted (snapshot name now e).2
  | restoreSnapshot {e : MemEngine Oid} (h : Hosted e) (name : Str) :
    Hosted (restoreSnapshot name e).2
  | restoreTime {e : MemEngine Oid} (h : Hosted e) (time : Nat) : Hosted (restoreTime time e).2
  | restart {e e' : MemEngine Oid} (h : Hosted e) {p : Persisted Oid} (hp : e.toBytes = .ok p)
    {id : Identity}
    {ignore : List Str} (hr : fromBytes id p ignore = .ok e') : Hosted e'

section Spec
variable [LawfulObjectId Oid] [LawfulCrates]

theorem Kept.fromBytes_toBytes {e : MemEngine Oid} (h : e.Kept) : ∃ p, e.toBytes = .ok p ∧
    ∀ (id : Identity) (ignore : List Str), fromBytes id p ignore = (do
      let working ← (e.restored id ignore).filesAtMain
      pure { e.restored id ignore with working }) := by
  obtain ⟨m, hm⟩ := h.main
  have hmain : mainOf (e.main.map toHex) = .ok e.main := by
    rw [hm, Option.map_some, mainOf, fromHex_toHex]
    rfl
  refine ⟨_, by rw [toBytes, h.sound.mapM_getRaw]; rfl, fun id ignore => ?_⟩
  rw [fromBytes, h.sound.storeOf, (VaultConfig.reads_toTomlString h.bounded).fromTomlStr,
    VaultConfig.finish_drafted,
    hmain]
  rfl

omit [LawfulObjectId Oid] [LawfulCrates] in
theorem grows_restoreTime (time : Nat) (e : MemEngine Oid) : e.Grows (restoreTime time e).2 := by
  refine run_bind_induction Grows Grows.trans (.refl e) fun e' t _ => ?_
  refine run_bind_induction Grows Grows.trans (grows_read _ t) fun subset u _ => ?_
  exact grows_foldSubset subset u

theorem Rooted.author {e : MemEngine Oid} (h : e.Rooted) {m : Oid} {l : Layer1 Oid}
    (hfr : ∀ p ∈ l.filtered.keys, Framable p) {now : Nat} (hnow : now < 2 ^ 64) :
    (author m l now e).2.Rooted := by
  have hsound := (h.sound.putAll (encodable_authoredObjects e.identity e.state m hfr
      hnow)).computeMain (e.published l (authored e.identity e.state m l now)).state.known
  rw [author_run]
  split
  · rename_i m' t ht
    rw [show computeMain _ (e.store.putAll _) = _ from ht] at hsound
    exact ⟨hsound, m', rfl⟩
  · rename_i err t ht
    rw [show computeMain _ (e.store.putAll _) = _ from ht] at hsound
    exact ⟨hsound, h.main⟩

theorem Rooted.commitStaged {e : MemEngine Oid} (h : e.Rooted)
    (hnames : ∀ p ∈ e.working.keys, Framable p) {now : Nat} (hnow : now < 2 ^ 64) :
    (commitStaged now e).2.Rooted := by
  obtain ⟨m, hm⟩ := h.main
  have hrun := commitScoped_run (canonicalizeKeeps e.working e.scope) now hm
  rw [show MemEngine.commitStaged now e =
    commitScoped (canonicalizeKeeps e.working e.scope) now e from rfl, hrun]
  split_ifs with hb
  · exact h
  split
  · exact h
  split
  · exact h
  · rename_i tree _ l hl
    have hdrop : (e.dropQuarantined (orphansBucket now) l.quarantines).Rooted := ⟨h.sound, h.main⟩
    have hauthor := hdrop.author (m := m) (framable_filtered hnames hl) hnow
    dsimp only
    split_ifs
    · split
      · rename_i hrun'
        rwa [hrun'] at hauthor
      · rename_i hrun'
        rwa [hrun'] at hauthor
    · exact hdrop

theorem Rooted.integrate {e : MemEngine Oid} (h : e.Rooted) (raws : List Bytes) :
    (integrate raws e).2.Rooted := by
  have hput := h.sound.putAll fun x (hx : x ∈ (decoded raws).1) => encodable_of_mem_decoded hx
  have hver := hput.verifyBatch raws
  rw [integrate_run]
  split
  · exact ⟨hput, h.main⟩
  split
  · rename_i hu
    exact ⟨by rwa [hu] at hver, h.main⟩
  · rename_i hu
    exact ⟨by rwa [hu] at hver, h.main⟩
  · rename_i u hu
    rw [hu] at hver
    split_ifs
    · exact ⟨hver, h.main⟩
    · have hmain := hver.computeMain (raws.foldl admitOne (e.state, 0)).1.known
      split
      · rename_i hm
        exact ⟨by rwa [hm] at hmain, _, rfl⟩
      · rename_i hm
        exact ⟨by rwa [hm] at hmain, h.main⟩

omit [LawfulObjectId Oid] [LawfulCrates] in
theorem Rooted.materializePlan {e : MemEngine Oid} (h : e.Rooted) (onDisk : FileMap) :
    (materializePlan onDisk e).2.Rooted := by
  rw [materializePlan_run]
  split
  · exact ⟨h.sound, h.main⟩
  split
  · exact ⟨h.sound, h.main⟩
  split <;> exact ⟨h.sound, h.main⟩

/-- Run lemma: a fresh engine has it, and nothing that is done to an engine takes it away. -/
theorem Hosted.kept {e : MemEngine Oid} (h : Hosted e) : e.Kept := by
  induction h with
  | create id vaultId name =>
    refine ⟨⟨?_, _, rfl⟩, ?_, rfl, show 1000 < 2 ^ 64 by decide, fun d hd => by cases hd⟩
    · rw [MemEngine.create, genesis_run]
      exact (Store.sound_empty .mem).putAll written_genesis.encodable
    · rw [MemEngine.create, genesis_run]
      exact ((Store.empty .mem).extends_putAll _).backend
  | configure _ hb ignore ih => exact ⟨⟨ih.sound, ih.main⟩, ih.backend, rfl, hb⟩
  | authorize _ authorized ih => exact ⟨⟨ih.sound, ih.main⟩, ih.backend, ih.scope, ih.bounded⟩
  | bootstrap _ pending ih => exact ⟨⟨ih.sound, ih.main⟩, ih.backend, ih.scope, ih.bounded⟩
  | stage _ working ih => exact ⟨⟨ih.sound, ih.main⟩, ih.backend, ih.scope, ih.bounded⟩
  | commit _ hnames hclock ih =>
    exact ih.grow (grows_commitStaged _ _) (ih.toRooted.commitStaged hnames hclock)
  | integrate _ raws ih => exact ih.grow (grows_integrate raws _) (ih.toRooted.integrate raws)
  | plan _ onDisk ih =>
    exact ih.grow (grows_materializePlan onDisk _) (ih.toRooted.materializePlan onDisk)
  | @materialize e _ ih =>
    have hplan := ih.toRooted.materializePlan e.working
    refine ih.grow (grows_materializeStaged e) ?_
    rw [materializeStaged, run_bind_of_ok (run_get e), run_bind]
    split
    · rename_i hrun
      rw [hrun] at hplan
      exact ⟨hplan.sound, hplan.main⟩
    · rename_i hrun
      rwa [hrun] at hplan
  | @snapshot e _ name now ih =>
    cases hf : frontier e.store e.state.known with
    | error err =>
      rw [snapshot_failed hf]
      exact ih
    | ok f =>
      rw [snapshot_run hf]
      exact ⟨⟨ih.sound, ih.main⟩, ih.backend, ih.scope, ih.bounded⟩
  | @restoreSnapshot e _ name ih =>
    have hg := grows_restoreSnapshot name e
    rw [MemEngine.restoreSnapshot, run_bind_of_ok (run_get e)] at hg ⊢
    cases hsnap : e.state.snapshots[name]? with
    | none => exact ih
    | some snap =>
      rw [hsnap] at hg
      exact ih.grow hg ⟨sound_foldSubset ih.sound snap.frontier, ih.main⟩
  | @restoreTime e _ time ih =>
    have hg := grows_restoreTime time e
    rw [MemEngine.restoreTime, run_bind_of_ok (run_get e), run_bind] at hg ⊢
    have hread : withStore (StoreM.read fun s => authoredBy s time e.state.known) e =
        (authoredBy e.store time e.state.known, e) := rfl
    rw [hread] at hg ⊢
    cases hsub : authoredBy e.store time e.state.known with
    | error err => exact ih
    | ok subset =>
      rw [hsub] at hg
      exact ih.grow hg ⟨sound_foldSubset ih.sound subset, ih.main⟩
  -- what was written is read back, by the round trip of the engine before it
  | @restart e e' _ p hp id ignore hr ih =>
    obtain ⟨p', hp', hback⟩ := ih.fromBytes_toBytes
    obtain rfl := Except.ok.inj (hp.symm.trans hp')
    rw [hback] at hr
    obtain ⟨w, -, hw⟩ := bind_ok.mp hr
    obtain rfl := pure_ok.mp hw
    exact ⟨⟨ih.sound.recoded, ih.main⟩, rfl, rfl, ih.bounded⟩

/-! ### The engine that comes back -/

/-- Two engines that differ at most in their working files and in the quarantine moves that wait. -/
structure SameEngine (e e' : MemEngine Oid) : Prop where
  host : e.SameHost e'
  state : e'.state = e.state
  authorized : e'.authorized = e.authorized
  main : e'.main = e.main
  store : e'.store = e.store

/-- The engine comes back as it was, and takes in every batch and commits every file map as
it would have done. -/
def Restores (e : MemEngine Oid) : Prop :=
  ∃ p e', e.toBytes = .ok p ∧ fromBytes e.identity p e.scope.ignore = .ok e' ∧ e.SameEngine e' ∧
    (∀ raws, (MemEngine.integrate raws e').1 = (MemEngine.integrate raws e).1 ∧
      (MemEngine.integrate raws e).2.SameEngine (MemEngine.integrate raws e').2) ∧
    ∀ files now, (commitFromFiles files now e').1 = (commitFromFiles files now e).1 ∧
      (commitFromFiles files now e).2.SameEngine (commitFromFiles files now e').2

/-- The store holds the files of `main`. -/
def MainHeld (e : MemEngine Oid) : Prop :=
  ∃ m c, e.main = some m ∧ loadCommit e.store m = .ok c ∧ TreeIn e.store c.tree

/-- Each tree has its entries in the order in which they are encoded. -/
def TreesInOrder (s : Store Oid) : Prop := ∀ o es, s.get o = .ok (.tree es) → sortEntries es = es

omit [LawfulObjectId Oid] [LawfulCrates] [Crates] in
theorem sameEngine_iff {e e' : MemEngine Oid} : e.SameEngine e' ↔
    e' = { e with working := e'.working, pendingQuarantines := e'.pendingQuarantines } := by
  obtain ⟨store, state, scope, identity, authorized, main, config, working, pending⟩ := e
  obtain ⟨store', state', scope', identity', authorized', main', config', working', pending'⟩ := e'
  constructor
  · rintro ⟨⟨rfl, rfl, rfl⟩, rfl, rfl, rfl, rfl⟩
    rfl
  · intro h
    injection h with h1 h2 h3 h4 h5 h6 h7
    exact ⟨⟨h7, h3, h4⟩, h2, h5, h6, h1⟩

omit [LawfulObjectId Oid] [LawfulCrates] in
theorem integrate_with (raws : List Bytes) (e : MemEngine Oid) (w : FileMap)
    (q : List MaterializeOp) :
    MemEngine.integrate raws { e with working := w, pendingQuarantines := q } =
      ((MemEngine.integrate raws e).1,
        { (MemEngine.integrate raws e).2 with working := w, pendingQuarantines := q }) := by
  rw [integrate_run, integrate_run]
  dsimp only
  rcases (decoded raws : List (GitObject Oid) × Option CspError) with ⟨xs, _ | err⟩
  · dsimp only
    rcases verifyBatch raws (e.store.putAll xs) with ⟨err | b, s⟩
    · rfl
    cases b with
    | false => rfl
    | true =>
      dsimp only
      split_ifs
      · rfl
      · rcases computeMain (raws.foldl admitOne (e.state, 0)).1.known s with ⟨err | m, t⟩ <;> rfl
  · rfl

omit [LawfulObjectId Oid] [LawfulCrates] in
theorem main_integrate_working (raws : List Bytes) (e : MemEngine Oid) (w : FileMap) :
    (MemEngine.integrate raws { e with working := w }).2.main =
    (MemEngine.integrate raws e).2.main :=
  congrArg (fun r => r.2.main) (integrate_with raws e w e.pendingQuarantines)

omit [LawfulObjectId Oid] [LawfulCrates] in
theorem author_with (m : Oid) (l : Layer1 Oid) (now : Nat) (e : MemEngine Oid) (w : FileMap)
    (q : List MaterializeOp) :
    MemEngine.author m l now { e with working := w, pendingQuarantines := q } =
      ((MemEngine.author m l now e).1,
        { (MemEngine.author m l now e).2 with working := w, pendingQuarantines := q }) := by
  rw [author_run, author_run]
  have hpub : ({ e with working := w, pendingQuarantines := q } : MemEngine Oid).published l
      (authored e.identity e.state m l now) =
      { e.published l (authored e.identity e.state m l now) with
        working := w, pendingQuarantines := q } := rfl
  dsimp only
  rw [hpub]
  dsimp only
  rcases computeMain (e.published l (authored e.identity e.state m l now)).state.known
      (e.published l (authored e.identity e.state m l now)).store with ⟨err | m', t⟩ <;> rfl

omit [LawfulObjectId Oid] [LawfulCrates] in
theorem SameEngine.integrate {e e' : MemEngine Oid} (h : e.SameEngine e') (raws : List Bytes) :
    (MemEngine.integrate raws e').1 = (MemEngine.integrate raws e).1 ∧
      (MemEngine.integrate raws e).2.SameEngine (MemEngine.integrate raws e').2 := by
  rw [sameEngine_iff.mp h, integrate_with]
  exact ⟨rfl, sameEngine_iff.mpr rfl⟩

omit [LawfulObjectId Oid] [LawfulCrates] in
theorem SameEngine.commitFromFiles {e e' : MemEngine Oid} (h : e.SameEngine e') {m : Oid}
    (hm : e.main = some m) (files : FileMap) (now : Nat) :
    (MemEngine.commitFromFiles files now e').1 = (MemEngine.commitFromFiles files now e).1 ∧
      (MemEngine.commitFromFiles files now e).2.SameEngine
      (MemEngine.commitFromFiles files now e').2 := by
  have hrun := commitScoped_run (canonicalizeKeeps files e.scope) now
    (e := { e with working := files }) hm
  have hrun' := commitScoped_run (canonicalizeKeeps files e.scope) now
    (e := { e with working := files, pendingQuarantines := e'.pendingQuarantines }) hm
  rw [sameEngine_iff.mp h]
  change (commitScoped (canonicalizeKeeps files e.scope) now
      { e with working := files, pendingQuarantines := e'.pendingQuarantines }).1 =
      (commitScoped (canonicalizeKeeps files e.scope) now { e with working := files }).1 ∧
    (commitScoped (canonicalizeKeeps files e.scope) now { e with working := files }).2.SameEngine
      (commitScoped (canonicalizeKeeps files e.scope) now
        { e with working := files, pendingQuarantines := e'.pendingQuarantines }).2
  rw [hrun, hrun']
  dsimp only
  split_ifs with hb
  · exact ⟨rfl, sameEngine_iff.mpr rfl⟩
  split
  · exact ⟨rfl, sameEngine_iff.mpr rfl⟩
  split
  · exact ⟨rfl, sameEngine_iff.mpr rfl⟩
  · rename_i tree _ l hl
    have hdrop : ({ e with working := files, pendingQuarantines := e'.pendingQuarantines } :
          MemEngine Oid).dropQuarantined
        (orphansBucket now) l.quarantines =
      { ({ e with working := files } : MemEngine Oid).dropQuarantined
      (orphansBucket now) l.quarantines with
        pendingQuarantines := e'.pendingQuarantines ++
          l.quarantines.map fun p => .quarantine p (orphanPath (orphansBucket now) p) } := rfl
    rw [hdrop]
    generalize ({ e with working := files } : MemEngine Oid).dropQuarantined
      (orphansBucket now) l.quarantines = d
    split_ifs
    · have hauthor := author_with m l now d d.working (e'.pendingQuarantines ++
        l.quarantines.map fun p => .quarantine p (orphanPath (orphansBucket now) p))
      rw [hauthor]
      rcases MemEngine.author m l now d with ⟨err | o, t⟩
      · exact ⟨rfl, sameEngine_iff.mpr rfl⟩
      · exact ⟨rfl, sameEngine_iff.mpr rfl⟩
    · exact ⟨rfl, sameEngine_iff.mpr rfl⟩

omit [LawfulObjectId Oid] [LawfulCrates] [Crates] in
theorem recoded_eq_iff {s : Store Oid} (hs : s.Sound) (hb : s.backend = .mem) : s.recoded = s ↔
    TreesInOrder s := by
  obtain ⟨backend, objs⟩ := s
  obtain rfl : backend = .mem := hb
  constructor
  · intro h o es hes
    have hat : (Store.recoded ⟨.mem, objs⟩).objs[o]? = some (.ok (.tree es)) := by
      rw [h]
      exact Store.get_eq_ok.mp hes
    rw [show (Store.recoded ⟨.mem, objs⟩).objs[o]? = objs[o]?.map fun r =>
      r.map GitObject.canon from
      Std.ExtTreeMap.getElem?_map, show objs[o]? = some
      (.ok (.tree es)) from Store.get_eq_ok.mp hes] at hat
    exact GitObject.tree.inj (Except.ok.inj (Option.some.inj hat))
  · intro h
    refine congrArg (Store.mk .mem) (Std.ExtTreeMap.ext_getElem? fun o => ?_)
    rw [Std.ExtTreeMap.getElem?_map]
    cases hr : objs[o]? with
    | none => rfl
    | some r =>
      obtain ⟨x, rfl, -, -⟩ := hs o r hr
      cases x with
      | blob b => rfl
      | commit c => rfl
      | tree es =>
        have hsorted := h o es (Store.get_eq_ok.mpr hr)
        rw [Option.map_some]
        exact congrArg (fun es => some (Except.ok (GitObject.tree es))) hsorted

omit [LawfulObjectId Oid] [LawfulCrates] [Crates] in
theorem mainTree_ok {s : Store Oid} {m t : Oid} : mainTree s m = .ok t ↔ ∃ c,
    loadCommit s m = .ok c ∧ c.tree = t := by
  rw [mainTree]
  constructor
  · intro h
    obtain ⟨x, hx, ht⟩ := bind_ok.mp h
    cases x with
    | commit c => exact ⟨c, loadCommit_ok.mpr hx, pure_ok.mp ht⟩
    | blob b => cases ht
    | tree es => cases ht
  · rintro ⟨c, hc, rfl⟩
    exact bind_ok.mpr ⟨_, loadCommit_ok.mp hc, rfl⟩

omit [LawfulObjectId Oid] [LawfulCrates] [Crates] in
theorem filesAtMain_ok_iff {e : MemEngine Oid} (hmain : ∃ m, e.main = some m) :
    (∃ w, e.filesAtMain = .ok w) ↔ e.MainHeld := by
  obtain ⟨m, hm⟩ := hmain
  rw [filesAtMain, hm]
  constructor
  · rintro ⟨w, hw⟩
    obtain ⟨tree, htree, hfiles⟩ := bind_ok.mp hw
    obtain ⟨c, hc, rfl⟩ := mainTree_ok.mp htree
    exact ⟨m, c, hm, hc, treeIn_of_treeFiles hfiles⟩
  · rintro ⟨m', c, hm', hc, ht⟩
    obtain rfl := Option.some.inj (hm.symm.trans hm')
    obtain ⟨w, hw⟩ := ht.treeFiles
    exact ⟨w, bind_ok.mpr ⟨_, mainTree_ok.mpr ⟨c, hc, rfl⟩, hw⟩⟩

/-- An engine comes back from its bytes as it was exactly if it holds the files of `main` and
has all its trees in order. -/
theorem restores_iff {e : MemEngine Oid} (h : Hosted e) : e.Restores ↔ e.MainHeld ∧
    TreesInOrder e.store := by
  have hkept := h.kept
  obtain ⟨p, hp, hback⟩ := hkept.fromBytes_toBytes
  have hscope := hkept.scope
  constructor
  · rintro ⟨p', e', hp', he', hsame, -, -⟩
    obtain rfl := Except.ok.inj (hp.symm.trans hp')
    rw [hback] at he'
    obtain ⟨w, hw, he'⟩ := bind_ok.mp he'
    obtain rfl := pure_ok.mp he'
    have hstore : e.store.recoded = e.store := hsame.store
    refine ⟨(filesAtMain_ok_iff hkept.main).mp ⟨w, ?_⟩,
      (recoded_eq_iff hkept.sound hkept.backend).mp hstore⟩
    rwa [filesAtMain, show (e.restored e.identity e.scope.ignore).store = e.store from hstore] at hw
  · rintro ⟨hheld, horder⟩
    have hstore := (recoded_eq_iff hkept.sound hkept.backend).mpr horder
    obtain ⟨w, hw⟩ := (filesAtMain_ok_iff hkept.main).mpr hheld
    have hread : (e.restored e.identity e.scope.ignore).filesAtMain = .ok w := by
      rwa [filesAtMain, show (e.restored e.identity e.scope.ignore).store = e.store from hstore]
    have hsame : e.SameEngine { e.restored e.identity e.scope.ignore with working := w } :=
      ⟨⟨rfl, hscope.symm, rfl⟩, rfl, rfl, rfl, hstore⟩
    obtain ⟨m, hm⟩ := hkept.main
    refine ⟨p, _, hp, ?_, hsame, hsame.integrate, hsame.commitFromFiles hm⟩
    rw [hback, hread]
    rfl

end Spec

end MemEngine

end Csp

/-! ### An engine that does not come back, and one that comes back different -/

namespace Csp.Small
open MemEngine Result

def sender : Identity := ⟨[2]⟩

/-- An engine's own commit, and what a peer sends it, where one tree is missing. -/
def restartObjects : List (GitObject (Num [])) :=
  [emptyTree, .commit (foldCommit 0 [] 0 genesisMsg), .blob [49], .blob [50],
    .tree [⟨fileMode, ['x'], 3⟩], .tree [⟨fileMode, ['z'], 2⟩, ⟨treeMode, ['a'], 4⟩],
    .commit (signedPrimitive owner 5 1 1 0 "ctx edit".toList []),
    .commit (foldCommit 5 [6] 0 foldMsg),
    .tree [⟨fileMode, ['z'], 2⟩, ⟨treeMode, ['a'], 99⟩],
    .commit (signedPrimitive sender 8 1 1 0 "ctx edit".toList []),
    .commit (signedPrimitive sender 0 9 2 0 "ctx edit".toList []),
    .commit (signedPrimitive sender 5 10 3 0 "ctx edit".toList [])]

abbrev Restart : Type := Num (restartObjects.map GitObject.framed)

def started : MemEngine Restart := MemEngine.create owner [] []

def ownEngine (files : FileMap) : MemEngine Restart :=
  (commitStaged 0 { started with working := files }).2

/-- A directory and a file, of which the one is written last and encoded first. -/
def unordered : FileMap := ((∅ : FileMap).insert ['z'] [49]).insert ['a', '/', 'x'] [50]

def ordered : FileMap := ((∅ : FileMap).insert ['a'] [49]).insert ['b', '/', 'x'] [50]

def thinBatch : List Bytes :=
  [(GitObject.commit (signedPrimitive sender 99 1 1 0 "ctx edit".toList []) :
      GitObject Restart).compress]

/-- A file and a directory that is missing, their deletion, and the engine's own tree again. -/
def peerBatch : List Bytes := (restartObjects.drop 8).map fun x => x.compress

def thinEngine : MemEngine Restart := (MemEngine.integrate thinBatch started).2

theorem hosted_ownEngine {files : FileMap} (hnames : ∀ p ∈ files.keys, Framable p) :
    Hosted (ownEngine files) :=
  .commit (.stage (.create owner [] []) files) hnames (by decide)

theorem hosted_thinEngine : Hosted thinEngine := .integrate (.create owner [] []) thinBatch

def inOrder (s : Store Restart) : Bool :=
  s.objs.toList.all fun p => match p.2 with
    | .ok (.tree es) => sortEntries es = es
    | _ => true

theorem treesInOrder_of_inOrder {s : Store Restart} (h : inOrder s = true) : TreesInOrder s := by
  intro o es hes
  have hmem := Std.ExtTreeMap.mem_toList_iff_getElem?_eq_some.mpr (Store.get_eq_ok.mp hes)
  simpa using List.all_eq_true.mp h _ hmem

theorem restart_spec : (∀ p ∈ ordered.keys, Framable p) ∧ (∀ p ∈ unordered.keys, Framable p) ∧
    (ownEngine ordered).filesAtMain.isOk = true ∧ inOrder (ownEngine ordered).store = true ∧
    ((ownEngine unordered).restored owner []).filesAtMain.isOk = true ∧
    (thinEngine.restored owner []).filesAtMain.isOk = false ∧
    (MemEngine.integrate peerBatch ((ownEngine unordered).restored owner [])).2.main ≠
      (MemEngine.integrate peerBatch (ownEngine unordered)).2.main := by
  decide +kernel

theorem exists_of_isOk {α : Type} {r : CspResult α} (h : r.isOk = true) : ∃ a, r = .ok a := by
  cases r with
  | ok a => exact ⟨a, rfl⟩
  | error e => cases h

/-- An engine whose trees are in order comes back. -/
theorem restores_iff_ordered : (ownEngine ordered).Restores := by
  obtain ⟨hnames, -, hfiles, horder, -⟩ := restart_spec
  have hhosted := hosted_ownEngine hnames
  exact (restores_iff hhosted).mpr ⟨(filesAtMain_ok_iff hhosted.kept.main).mp
    (exists_of_isOk hfiles),
    treesInOrder_of_inOrder horder⟩

/-- A peer's primitive without its tree becomes `main`, and the engine does not come back. An
engine with a file beside a directory does come back, with the two in the other order, and
computes another `main` from the same batch. -/
theorem restart_fails :
    Hosted thinEngine ∧ (∃ p, thinEngine.toBytes = .ok p ∧ ∀ e', fromBytes owner p [] ≠ .ok e') ∧
      Hosted (ownEngine unordered) ∧ ∃ p e', (ownEngine unordered).toBytes = .ok p ∧
      fromBytes owner p [] = .ok e' ∧
        (MemEngine.integrate peerBatch e').2.main ≠
        (MemEngine.integrate peerBatch (ownEngine unordered)).2.main := by
  obtain ⟨-, hnames, -, -, hread, hlost, hmain⟩ := restart_spec
  have hhosted := hosted_ownEngine hnames
  refine ⟨hosted_thinEngine, ?_, hhosted, ?_⟩
  · obtain ⟨p, hp, hback⟩ := hosted_thinEngine.kept.fromBytes_toBytes
    refine ⟨p, hp, fun e' he' => ?_⟩
    rw [hback] at he'
    obtain ⟨w, hw, -⟩ := bind_ok.mp he'
    rw [hw] at hlost
    cases hlost
  · obtain ⟨p, hp, hback⟩ := hhosted.kept.fromBytes_toBytes
    obtain ⟨w, hw⟩ := exists_of_isOk hread
    refine ⟨p, _, hp, by rw [hback, hw]; rfl, ?_⟩
    rwa [main_integrate_working]

end Csp.Small
