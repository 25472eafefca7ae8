import Csp.Persist
import Mathlib.Order.Bounds.Lattice

/-! Logical counters. What an engine has observed is the greatest counter of its known
primitives, whatever its host and its peers do and over restarts. What it authors comes
after all of them, up to the end of the 64-bit range, and after the primitives below
`main` that it never admitted as far as their counters were observed too. -/

namespace Csp
open Result
variable {Oid : Type} [ObjectId Oid] [Crates] {s t : Store Oid}

omit [ObjectId Oid] [Crates] in
theorem OrderKey.lt_of_counter_lt [LinearOrder Oid] {k k' : OrderKey Oid}
    (h : k.counter < k'.counter) : k < k' :=
  show k.lex < k'.lex from Prod.Lex.toLex_lt_toLex.mpr (.inl h)

omit [ObjectId Oid] [Crates] in
theorem OrderKey.counter_le_of_lt [LinearOrder Oid] {k k' : OrderKey Oid} (h : k < k') :
    k.counter ≤ k'.counter := by
  have hlex : k.lex < k'.lex := h
  rcases Prod.Lex.toLex_lt_toLex.mp hlex with h | h
  · exact h.le
  · exact h.1.le

theorem orderKey_ok {o : Oid} {k : OrderKey Oid} : orderKey s o = .ok k ↔
    ∃ c, loadCommit s o = .ok c ∧ parsePrimitiveMeta c = some (k.counter, k.node) ∧ k.sha = o := by
  unfold orderKey
  rw [bind_ok]
  refine exists_congr fun c => and_congr_right fun _ => ?_
  obtain ⟨counter, node, sha⟩ := k
  cases parsePrimitiveMeta c with
  | none => simp
  | some m =>
    rw [Option.some.injEq, Prod.ext_iff, and_assoc]
    simp only [pure_ok, OrderKey.mk.injEq]
    exact and_congr_right fun _ => and_congr_right fun _ => eq_comm

theorem orderKey_extends (he : s.Extends t) {o : Oid} {k : OrderKey Oid}
    (h : orderKey s o = .ok k) :
    orderKey t o = .ok k := by
  obtain ⟨c, hc, hk⟩ := orderKey_ok.mp h
  exact orderKey_ok.mpr ⟨c, loadCommit_extends he hc, hk⟩

def countersOf (s : Store Oid) (known : List Oid) : Set Nat :=
  {n | ∃ o ∈ known, ∃ k, orderKey s o = .ok k ∧ k.counter = n}

/-- The known primitives load, and what was observed is their greatest counter. -/
structure Observes (s : Store Oid) (st : EngineState Oid) : Prop where
  loads : ∀ o ∈ st.known, ∃ k, orderKey s o = .ok k
  greatest : IsGreatest (insert 0 (countersOf s st.known)) st.observed

theorem Observes.le {st : EngineState Oid} (h : Observes s st) {o : Oid} (ho : o ∈ st.known)
    {k : OrderKey Oid} (hk : orderKey s o = .ok k) : k.counter ≤ st.observed :=
  h.greatest.2 (.inr ⟨o, ho, k, hk, rfl⟩)

theorem observes_of_known_nil {st : EngineState Oid} (hk : st.known = []) (ho : st.observed = 0) :
    Observes s st := by
  have hnone : countersOf s st.known = ∅ := by
    rw [hk]
    exact Set.eq_empty_of_forall_notMem fun n ⟨o, ho, _⟩ => absurd ho List.not_mem_nil
  refine ⟨fun o h => absurd (hk ▸ h) List.not_mem_nil, ?_⟩
  rw [hnone, ho, insert_empty_eq]
  exact isGreatest_singleton

theorem Observes.carry {st : EngineState Oid} (h : Observes s st)
    (hst : ∀ o k, orderKey s o = .ok k → orderKey t o = .ok k) : Observes t st := by
  have hsame : countersOf t st.known = countersOf s st.known := by
    ext n
    refine exists_congr fun o => and_congr_right fun hmem => exists_congr fun k =>
      and_congr_left fun _ => ?_
    obtain ⟨k', hk'⟩ := h.loads o hmem
    rw [hk', hst o k' hk']
  refine ⟨fun o hmem => ?_, ?_⟩
  · obtain ⟨k, hk⟩ := h.loads o hmem
    exact ⟨k, hst o k hk⟩
  · rw [hsame]
    exact h.greatest

theorem Observes.extends {st st' : EngineState Oid} (h : Observes s st) (he : s.Extends t)
    (hk : st'.known = st.known) (ho : st'.observed = st.observed) : Observes t st' := by
  obtain ⟨hloads, hgreatest⟩ := h.carry fun o k => orderKey_extends he (o := o) (k := k)
  exact ⟨hk ▸ hloads, by rw [hk, ho]; exact hgreatest⟩

theorem Observes.learn {st st' : EngineState Oid} (h : Observes s st) {o : Oid} {k : OrderKey Oid}
    (hk : orderKey s o = .ok k) (hknown : st'.known = addNew st.known o)
    (hobs : st'.observed = max st.observed k.counter) : Observes s st' := by
  have hset : countersOf s st'.known = insert k.counter (countersOf s st.known) := by
    ext n
    simp only [countersOf, hknown, mem_addNew, Set.mem_ofPred_eq, Set.mem_insert_iff]
    constructor
    · rintro ⟨p, hp | rfl, kp, hkp, rfl⟩
      · exact .inr ⟨p, hp, kp, hkp, rfl⟩
      · exact .inl (congrArg OrderKey.counter (Except.ok.inj (hkp.symm.trans hk)))
    · rintro (rfl | ⟨p, hp, kp, hkp, rfl⟩)
      · exact ⟨o, .inr rfl, k, hk, rfl⟩
      · exact ⟨p, .inl hp, kp, hkp, rfl⟩
  refine ⟨fun p hp => ?_, ?_⟩
  · rw [hknown, mem_addNew] at hp
    rcases hp with hp | rfl
    · exact h.loads p hp
    · exact ⟨k, hk⟩
  · rw [hset, Set.insert_comm, hobs, max_comm]
    exact h.greatest.insert k.counter

section Spec

/-! ### Updates of the state -/

theorem Observes.admitOne {st : EngineState Oid} (h : Observes s st) (n : Nat) {r : Bytes}
    (hstored : ∀ c, decompressAndParse r = .ok (.commit c) →
      loadCommit s (GitObject.commit c).oid = .ok c) :
    Observes s (Csp.admitOne (st, n) r).1 := by
  unfold Csp.admitOne
  cases hr : (decompressAndParse r : CspResult (GitObject Oid)) with
  | error err => exact h
  | ok x =>
    cases x with
    | blob b => exact h
    | tree es => exact h
    | commit c =>
      dsimp only
      cases hmeta : parsePrimitiveMeta c with
      | none => exact h
      | some m =>
        dsimp only
        cases verifyPrimitive c with
        | error err => exact h
        | ok node =>
          have hkey : orderKey s (GitObject.commit c).oid = .ok
              ⟨m.1, m.2, (GitObject.commit c).oid⟩ :=
            orderKey_ok.mpr ⟨c, hstored c hr, hmeta, rfl⟩
          refine h.learn hkey ?_ ?_
          · dsimp only
            split_ifs with hk
            · exact (if_pos hk).symm
            · exact known_addKnown st _
          · dsimp only
            split_ifs with hk
            · rfl
            · unfold EngineState.addKnown
              rw [if_neg hk]
              rfl

theorem Observes.admitBatch {raws : List Bytes} {st : EngineState Oid} (h : Observes s st) (n : Nat)
    (hstored : ∀ r ∈ raws, ∀ c, decompressAndParse r = .ok (.commit c) →
      loadCommit s (GitObject.commit c).oid = .ok c) :
    Observes s (raws.foldl Csp.admitOne (st, n)).1 := by
  induction raws generalizing st n with
  | nil => exact h
  | cons r rs ih =>
    exact ih (h.admitOne n (hstored r List.mem_cons_self)) _ fun r' hr' =>
      hstored r' (List.mem_cons_of_mem _ hr')

namespace MemEngine

structure Uncounted (e e' : MemEngine Oid) : Prop where
  ext : e.store.Extends e'.store
  known : e'.state.known = e.state.known
  observed : e'.state.observed = e.state.observed

omit [Crates] in
theorem Uncounted.refl (e : MemEngine Oid) : e.Uncounted e := ⟨.refl _, rfl, rfl⟩

theorem Uncounted.observes {e e' : MemEngine Oid} (hu : e.Uncounted e')
    (h : Observes e.store e.state) :
    Observes e'.store e'.state :=
  h.extends hu.ext hu.known hu.observed

theorem uncounted_materializePlan (onDisk : FileMap) (e : MemEngine Oid) :
    e.Uncounted (materializePlan onDisk e).2 := by
  rw [materializePlan_run]
  split
  · exact ⟨.refl _, rfl, rfl⟩
  split
  · exact ⟨.refl _, rfl, rfl⟩
  split <;> exact ⟨.refl _, rfl, rfl⟩

theorem uncounted_materializeStaged (e : MemEngine Oid) : e.Uncounted (materializeStaged e).2 := by
  have hplan := uncounted_materializePlan e.working e
  rw [materializeStaged, run_bind_of_ok (run_get e), run_bind]
  split
  · rename_i hrun
    rw [hrun] at hplan
    exact ⟨hplan.ext, hplan.known, hplan.observed⟩
  · rename_i hrun
    rwa [hrun] at hplan

theorem uncounted_snapshot (name : Str) (now : Nat) (e : MemEngine Oid) :
    e.Uncounted (snapshot name now e).2 := by
  cases hf : frontier e.store e.state.known with
  | error err =>
    rw [snapshot_failed hf]
    exact .refl e
  | ok f =>
    rw [snapshot_run hf]
    exact ⟨.refl _, rfl, rfl⟩

theorem uncounted_foldSubset (subset : List Oid) (e : MemEngine Oid) :
    e.Uncounted (withStore (foldSubset subset) e).2 := ⟨extends_foldSubset subset e.store, rfl, rfl⟩

theorem uncounted_restoreSnapshot (name : Str) (e : MemEngine Oid) :
    e.Uncounted (restoreSnapshot name e).2 := by
  rw [restoreSnapshot, run_bind_of_ok (run_get e)]
  cases e.state.snapshots[name]? with
  | none => exact .refl e
  | some snap => exact uncounted_foldSubset snap.frontier e

theorem uncounted_restoreTime (time : Nat) (e : MemEngine Oid) :
    e.Uncounted (restoreTime time e).2 := by
  have hread : withStore (StoreM.read fun s => authoredBy s time e.state.known) e =
      (authoredBy e.store time e.state.known, e) := rfl
  rw [restoreTime, run_bind_of_ok (run_get e), run_bind, hread]
  cases authoredBy e.store time e.state.known with
  | error err => exact .refl e
  | ok subset => exact uncounted_foldSubset subset e

/-- What authoring leaves behind, whether `main` could then be computed or not. -/
theorem author_leaves (m : Oid) (l : Layer1 Oid) (now : Nat) (e : MemEngine Oid) :
    (e.published l (authored e.identity e.state m l now)).Uncounted (author m l now e).2 ∧
      ∀ o, (author m l now e).1 = .ok o → o = (GitObject.commit
        (authored e.identity e.state m l now)).oid := by
  have hext := extends_computeMain (e.published l (authored e.identity e.state m l now)).state.known
    (e.published l (authored e.identity e.state m l now)).store
  rw [author_run]
  split
  · rename_i m' t ht
    rw [ht] at hext
    exact ⟨⟨hext, rfl, rfl⟩, fun o ho => (Except.ok.inj ho).symm⟩
  · rename_i err t ht
    rw [ht] at hext
    exact ⟨⟨hext, rfl, rfl⟩, fun o ho => by cases ho⟩

theorem known_published (e : MemEngine Oid) (l : Layer1 Oid) (c : CommitObj Oid) :
    (e.published l c).state.known = addNew e.state.known (GitObject.commit c).oid :=
  known_addKnown e.state.nextCounter.2 _

theorem observed_published (e : MemEngine Oid) (l : Layer1 Oid) (c : CommitObj Oid) :
    (e.published l c).state.observed = max e.state.observed e.state.nextCounter.1 := by
  show (e.state.nextCounter.2.addKnown (GitObject.commit c).oid).observed = _
  unfold EngineState.addKnown
  split_ifs <;> rfl

theorem commitStaged_cases {e : MemEngine Oid} {m : Oid} (hm : e.main = some m)
    (hnames : ∀ p ∈ e.working.keys, Framable p) (now : Nat) :
    (e.Uncounted (commitStaged now e).2 ∧ ∀ o, (commitStaged now e).1 ≠ .ok (some o)) ∨
      ∃ l d, (∀ p ∈ l.filtered.keys, Framable p) ∧ d.store = e.store ∧ d.identity = e.identity ∧
        d.state.known = e.state.known ∧ d.state.observed = e.state.observed ∧
        (commitStaged now e).2 = (author m l now d).2 ∧
        ∀ o, (commitStaged now e).1 = .ok (some o) → (author m l now d).1 = .ok o := by
  rw [show commitStaged now e = commitScoped (canonicalizeKeeps e.working e.scope) now e from rfl,
    commitScoped_run (canonicalizeKeeps e.working e.scope) now hm]
  split_ifs with hb
  · exact .inl ⟨.refl e, fun o h => by cases h⟩
  split
  · exact .inl ⟨.refl e, fun o h => by cases h⟩
  split
  · exact .inl ⟨.refl e, fun o h => by cases h⟩
  · rename_i tree _ l hl
    dsimp only
    split_ifs
    · refine .inr ⟨l, e.dropQuarantined (orphansBucket now) l.quarantines,
        framable_filtered hnames hl, rfl, rfl, rfl, rfl, ?_⟩
      rcases author m l now (e.dropQuarantined (orphansBucket now) l.quarantines) with ⟨err | o, e'⟩
      · exact ⟨rfl, fun o h => by cases h⟩
      · exact ⟨rfl, fun o' h => congrArg Except.ok (Option.some.inj (Except.ok.inj h))⟩
    · exact .inl ⟨⟨.refl _, rfl, rfl⟩, fun o h => by cases h⟩

section Steps
variable [LawfulObjectId Oid] [LawfulCrates]

theorem orderKey_authored {e : MemEngine Oid} (hs : e.store.Sound) (m : Oid) {l : Layer1 Oid}
    (hfr : ∀ p ∈ l.filtered.keys, Framable p) {now : Nat} (hnow : now < 2 ^ 64) :
    orderKey (e.published l (authored e.identity e.state m l now)).store
        (GitObject.commit (authored e.identity e.state m l now)).oid =
      .ok ⟨e.state.nextCounter.1, e.identity.nodeId,
      (GitObject.commit (authored e.identity e.state m l now)).oid⟩ := by
  have hload := (load_putAll_authored e.identity e.state m hs hfr hnow).1
  exact orderKey_ok.mpr ⟨_, hload, parsePrimitiveMeta_signed _ _ _ (counter_lt e.state) _ _ _, rfl⟩

theorem observes_commitStaged {e : MemEngine Oid} (hr : e.Rooted) (h : Observes e.store e.state)
    (hnames : ∀ p ∈ e.working.keys, Framable p) {now : Nat} (hnow : now < 2 ^ 64) :
    Observes (commitStaged now e).2.store (commitStaged now e).2.state := by
  obtain ⟨m, hm⟩ := hr.main
  rcases commitStaged_cases hm hnames now with ⟨hu, -⟩ | ⟨l, d, hfr, hstore, hid, hknown,
    hobs, hrun, -⟩
  · exact hu.observes h
  · have hd : Observes d.store d.state := h.extends (hstore ▸ .refl _) hknown hobs
    have hkey := orderKey_authored (hstore ▸ hr.sound : d.store.Sound) m hfr hnow
    have hput : Observes (d.published l (authored d.identity d.state m l now)).store d.state :=
      hd.extends (d.store.extends_putAll _) rfl rfl
    have hlearn := hput.learn hkey (known_published d l _) (observed_published d l _)
    rw [hrun]
    exact (author_leaves m l now d).1.observes hlearn

theorem observes_integrate {e : MemEngine Oid} (hs : e.store.Sound) (h : Observes e.store e.state)
    (raws : List Bytes) :
    Observes (integrate raws e).2.store (integrate raws e).2.state := by
  have hput : e.store.Extends (e.store.putAll (decoded raws).1) := e.store.extends_putAll _
  have hver := extends_verifyBatch raws (e.store.putAll (decoded raws).1)
  rw [integrate_run]
  cases hd : (decoded raws : List (GitObject Oid) × Option CspError).2 with
  | some err => exact h.extends hput rfl rfl
  | none =>
    dsimp only
    rcases hv : verifyBatch raws (e.store.putAll (decoded raws).1) with ⟨err | b, u⟩
    · rw [hv] at hver
      exact h.extends (hput.trans hver) rfl rfl
    rw [hv] at hver
    cases b with
    | false => exact h.extends (hput.trans hver) rfl rfl
    | true =>
      have hstored : ∀ r ∈ raws, ∀ c, decompressAndParse r = .ok (.commit c) →
          loadCommit u (GitObject.commit c).oid = .ok c := by
        intro r hr c hc
        obtain ⟨x, hx, hx'⟩ := decoded_of_all hd r hr
        obtain rfl : GitObject.commit c = x := Except.ok.inj (hc.symm.trans hx')
        obtain ⟨y, hy, hyc⟩ := hs.get_putAll (fun x hx => encodable_of_mem_decoded hx) hx
        obtain rfl : y = .commit c := by cases y <;> simp_all [GitObject.canon]
        exact loadCommit_ok.mpr (hver.get hy)
      have hadm := (h.extends (hput.trans hver) rfl rfl).admitBatch 0 hstored
      dsimp only
      split_ifs
      · exact hadm
      · have hext := extends_computeMain (raws.foldl admitOne (e.state, 0)).1.known u
        rcases hc : computeMain (raws.foldl admitOne (e.state, 0)).1.known u with ⟨err | m, t⟩
        · rw [hc] at hext
          exact hadm.extends hext rfl rfl
        · rw [hc] at hext
          exact hadm.extends hext rfl rfl

omit [LawfulObjectId Oid] [LawfulCrates] [Crates] in
theorem loadCommit_recoded {s : Store Oid} {o : Oid} {c : CommitObj Oid}
    (h : loadCommit s o = .ok c) :
    loadCommit s.recoded o = .ok c := by
  have hat := Store.get_eq_ok.mp (loadCommit_ok.mp h)
  refine loadCommit_ok.mpr (Store.get_eq_ok.mpr ?_)
  show (s.objs.map fun _ r => r.map GitObject.canon)[o]? = _
  rw [Std.ExtTreeMap.getElem?_map, hat]
  rfl

/-- Run lemma: an engine has observed the greatest counter it knows, whatever was done to it. -/
theorem Hosted.observes {e : MemEngine Oid} (h : Hosted e) : Observes e.store e.state := by
  induction h with
  | create id vaultId name => exact observes_of_known_nil rfl rfl
  | configure _ hb ignore ih => exact ih
  | authorize _ authorized ih => exact ih
  | bootstrap _ pending ih => exact ih.extends (.refl _) rfl rfl
  | stage _ working ih => exact ih
  | commit h hnames hclock ih => exact observes_commitStaged h.kept.toRooted ih hnames hclock
  | integrate h raws ih => exact observes_integrate h.kept.sound ih raws
  | plan _ onDisk ih => exact (uncounted_materializePlan onDisk _).observes ih
  | materialize _ ih => exact (uncounted_materializeStaged _).observes ih
  | snapshot _ name now ih => exact (uncounted_snapshot name now _).observes ih
  | restoreSnapshot _ name ih => exact (uncounted_restoreSnapshot name _).observes ih
  | restoreTime _ time ih => exact (uncounted_restoreTime time _).observes ih
  | @restart e e' h p hp id ignore hr ih =>
    obtain ⟨p', hp', hback⟩ := h.kept.fromBytes_toBytes
    obtain rfl := Except.ok.inj (hp.symm.trans hp')
    rw [hback] at hr
    obtain ⟨w, -, hw⟩ := bind_ok.mp hr
    obtain rfl := pure_ok.mp hw
    exact ih.carry fun o k hk => by
      obtain ⟨c, hc, hmeta⟩ := orderKey_ok.mp hk
      exact orderKey_ok.mpr ⟨c, loadCommit_recoded hc, hmeta⟩

/-! ### What is authored -/

/-- The commit authors the primitive: it returns it, or knows it although it failed. -/
def Authors (e : MemEngine Oid) (now : Nat) (o : Oid) : Prop :=
  (commitStaged now e).1 = .ok (some o) ∨ o ∈ (commitStaged now e).2.state.known ∧ o ∉ e.state.known

/-- In the closure of `main`, on which the engine authors. -/
def BelowMain (e : MemEngine Oid) (q : Oid) : Prop := ∃ m, e.main = some m ∧ Descends e.store m q

/-- The counter is the successor of the observed one, with no wrap, and the key comes after
those of all known primitives and of all in the closure of the parent. -/
def ComesAfter (e : MemEngine Oid) (now : Nat) (o : Oid) : Prop :=
  ∃ k, orderKey (commitStaged now e).2.store o = .ok k ∧ k.counter = e.state.observed + 1 ∧
    ∀ q, q ∈ e.state.known ∨ e.BelowMain q → ∀ kq, orderKey e.store q = .ok kq → kq < k

/-- There is a next counter, and no primitive below `main` that was never admitted has a
counter that was not observed. -/
structure Caught (e : MemEngine Oid) : Prop where
  room : e.state.observed < 2 ^ 64 - 1
  below : ∀ q, e.BelowMain q → q ∉ e.state.known → ∀ k, orderKey e.store q = .ok k →
    k.counter ≤ e.state.observed

theorem orderKey_of_authors {e : MemEngine Oid} (h : e.Rooted)
    (hnames : ∀ p ∈ e.working.keys, Framable p) {now : Nat} (hnow : now < 2 ^ 64) {o : Oid}
    (ha : e.Authors now o) :
    orderKey (commitStaged now e).2.store o = .ok
    ⟨(e.state.observed + 1) % 2 ^ 64, e.identity.nodeId, o⟩ := by
  obtain ⟨m, hm⟩ := h.main
  rcases commitStaged_cases hm hnames now with ⟨hu, hnone⟩ | ⟨l, d, hfr, hstore, hid, hknown,
    hobs, hrun, hres⟩
  · rcases ha with ha | ⟨ha, hnew⟩
    · exact absurd ha (hnone o)
    · exact absurd (hu.known ▸ ha) hnew
  · obtain ⟨hleft, hret⟩ := author_leaves m l now d
    have hkey := orderKey_extends hleft.ext (orderKey_authored
        (hstore ▸ h.sound : d.store.Sound) m hfr hnow)
    obtain rfl : o = (GitObject.commit (authored d.identity d.state m l now)).oid := by
      rcases ha with ha | ⟨ha, hnew⟩
      · exact hret o (hres o ha)
      · rw [hrun, hleft.known, known_published, hknown, mem_addNew] at ha
        exact ha.resolve_left hnew
    rw [hrun, hkey, hid, EngineState.nextCounter, hobs]

/-- From every state that an engine can be in: what it authors comes after all it knows and
builds on, with no wrap, if there is a next counter and it has observed the counters below
`main`. Otherwise the next counter wraps, or it is not beyond what it builds on. -/
theorem authored_comes_after {e : MemEngine Oid} (h : Hosted e)
    (hnames : ∀ p ∈ e.working.keys, Framable p) {now : Nat} (hnow : now < 2 ^ 64) {o : Oid}
    (ha : e.Authors now o) :
    (e.Caught → e.ComesAfter now o) ∧
      (e.ComesAfter now o → e.state.observed < 2 ^ 64 - 1 ∧
        ∀ q, e.BelowMain q → q ∉ e.state.known → ∀ k, orderKey e.store q = .ok k →
        k.counter ≤ e.state.observed + 1) := by
  have hkey := orderKey_of_authors h.kept.toRooted hnames hnow ha
  have hobs := h.observes
  constructor
  · rintro ⟨hroom, hbelow⟩
    have hmod : (e.state.observed + 1) % 2 ^ 64 = e.state.observed + 1 :=
        Nat.mod_eq_of_lt (by omega)
    rw [hmod] at hkey
    refine ⟨_, hkey, rfl, fun q hq kq hkq => OrderKey.lt_of_counter_lt (Nat.lt_succ_of_le ?_)⟩
    by_cases hknown : q ∈ e.state.known
    · exact hobs.le hknown hkq
    · exact hbelow q (hq.resolve_left hknown) hknown kq hkq
  · rintro ⟨k, hk, hcounter, hafter⟩
    obtain rfl := Except.ok.inj (hkey.symm.trans hk)
    have hlt : (e.state.observed + 1) % 2 ^ 64 < 2 ^ 64 := Nat.mod_lt _ (by decide)
    refine ⟨by dsimp only at hcounter; omega, fun q hq _ kq hkq => ?_⟩
    rw [← hcounter]
    exact OrderKey.counter_le_of_lt (hafter q (.inr hq) kq hkq)

end Steps

end MemEngine

end Spec

end Csp

/-! ### The last counter, and an ancestor that was never admitted -/

namespace Csp.Small
open MemEngine

/-- A peer's primitive with the last counter; one that nobody signed, and the peer's
primitive on top of the fold of it; a peer's primitive with the counter 3. -/
def counterObjects : List (GitObject (Num [])) :=
  [emptyTree, .commit (foldCommit 0 [] 0 genesisMsg),
    .commit (signedPrimitive sender 0 1 (2 ^ 64 - 1) 0 "ctx edit".toList []),
    .commit (foldCommit 0 [1] 0 (primitiveBody sender.nodeId 7 "ctx edit".toList
      ([] : List (Num [])))),
    .commit (foldCommit 0 [3] 0 foldMsg), .commit
    (signedPrimitive sender 0 4 1 0 "ctx edit".toList []),
    .commit (signedPrimitive sender 0 1 3 0 "ctx edit".toList [])]

abbrev Counted : Type := Num (counterObjects.map GitObject.framed)

def lastBatch : List Bytes := [(counterObjects.drop 2).head?.elim [] fun x => x.compress]
def forgedBatch : List Bytes := ((counterObjects.drop 3).take 3).map fun x => x.compress
def admittedBatch : List Bytes := (counterObjects.drop 6).map fun x => x.compress

def afterBatch (raws : List Bytes) : MemEngine Counted :=
  { (MemEngine.integrate raws (MemEngine.create owner [] [])).2 with
    working := (∅ : FileMap).insert ['a'] [49] }

def newest (raws : List Bytes) : Counted :=
  match (commitStaged 0 (afterBatch raws)).1 with
  | .ok (some o) => o
  | _ => 0

def behind (raws : List Bytes) (q : Counted) : Bool :=
  match orderKey (commitStaged 0 (afterBatch raws)).2.store (newest raws),
    orderKey (afterBatch raws).store q with
  | .ok k, .ok kq => k < kq
  | _, _ => false

def belowKnown (e : MemEngine Counted) : Bool :=
  e.main.any fun m => match ancestors e.store m with
    | .ok l => (m :: l).all fun q => q ∈ e.state.known || (orderKey e.store q).toOption.isNone
    | .error _ => false

theorem counter_spec : (∀ p ∈ (afterBatch admittedBatch).working.keys, Framable p) ∧
    ((∀ raws ∈ [admittedBatch, lastBatch, forgedBatch],
        (commitStaged 0 (afterBatch raws)).1 = .ok (some (newest raws))) ∧
      6 ∈ (afterBatch admittedBatch).state.known ∧ (afterBatch admittedBatch).state.observed = 3 ∧
      belowKnown (afterBatch admittedBatch) = true) ∧
    (2 ∈ (afterBatch lastBatch).state.known ∧ (afterBatch lastBatch).state.observed = 2 ^ 64 - 1 ∧
      behind lastBatch 2 = true) ∧
    (((afterBatch forgedBatch).main.any fun m => decide (5 ∈ parentsOf (afterBatch forgedBatch).store m)) = true ∧
      4 ∈ parentsOf (afterBatch forgedBatch).store 5 ∧ 3 ∈ parentsOf (afterBatch forgedBatch).store 4 ∧
      3 ∉ (afterBatch forgedBatch).state.known ∧ behind forgedBatch 3 = true) := by
  decide +kernel

theorem hosted_afterBatch (raws : List Bytes) : Hosted (afterBatch raws) :=
  .stage (.integrate (.create owner [] []) raws) _

theorem exists_lt_of_behind {raws : List Bytes} {q : Counted} (h : behind raws q = true) :
    ∃ k kq, orderKey (commitStaged 0 (afterBatch raws)).2.store (newest raws) = .ok k ∧
      orderKey (afterBatch raws).store q = .ok kq ∧ k < kq := by
  unfold behind at h
  split at h
  · rename_i k kq hk hkq
    exact ⟨k, kq, hk, hkq, of_decide_eq_true h⟩
  · cases h

/-- What is authored after a peer's primitive comes after it. -/
theorem authored_comes_after_admitted : 6 ∈ (afterBatch admittedBatch).state.known ∧
    (afterBatch admittedBatch).Caught ∧ (afterBatch admittedBatch).ComesAfter 0
    (newest admittedBatch) := by
  obtain ⟨hnames, ⟨hrun, hknown, hobs, hbelow⟩, -⟩ := counter_spec
  have hcaught : (afterBatch admittedBatch).Caught := by
    refine ⟨by rw [hobs]; decide, ?_⟩
    rintro q ⟨m, hm, hq⟩ hnew k hk
    rw [belowKnown, hm, Option.any_some] at hbelow
    split at hbelow
    · rename_i l hl
      have hmem : q ∈ m :: l := by
        rw [List.mem_cons, (ancestors_spec hl).2]
        exact Relation.reflTransGen_iff_eq_or_transGen.mp hq
      have hall := List.all_eq_true.mp hbelow q hmem
      rw [hk] at hall
      simp [hnew, Except.toOption] at hall
    · cases hbelow
  exact ⟨hknown, hcaught, (authored_comes_after (hosted_afterBatch admittedBatch) hnames (by decide)
    (.inl (hrun _ List.mem_cons_self))).1 hcaught⟩

/-- After a peer's primitive with the last counter the next one wraps to zero. And a forged
primitive that came below a peer's valid one was not observed, so what is authored above it
has the lesser key. -/
theorem authored_behind :
    (∃ (e : MemEngine Counted) (o q : Counted) (k kq : OrderKey Counted), Hosted e ∧ e.Authors 0 o ∧
      q ∈ e.state.known ∧ e.state.observed = 2 ^ 64 - 1 ∧ e.state.nextCounter.1 = 0 ∧
      orderKey (commitStaged 0 e).2.store o = .ok k ∧ orderKey e.store q = .ok kq ∧ k < kq) ∧
    ∃ (e : MemEngine Counted) (o q : Counted) (k kq : OrderKey Counted), Hosted e ∧ e.Authors 0 o ∧
      e.BelowMain q ∧ q ∉ e.state.known ∧
      orderKey (commitStaged 0 e).2.store o = .ok k ∧ orderKey e.store q = .ok kq ∧ k < kq := by
  obtain ⟨-, ⟨hrun, -⟩, ⟨hknown, hobs, hlast⟩, hmain, h5, h4, hnew, hforged⟩ := counter_spec
  constructor
  · obtain ⟨k, kq, hk, hkq, hlt⟩ := exists_lt_of_behind hlast
    refine ⟨_, _, 2, k, kq, hosted_afterBatch lastBatch, .inl (hrun _ (by simp)), hknown, hobs, ?_,
      hk, hkq, hlt⟩
    show (_ + 1) % 2 ^ 64 = 0
    rw [hobs]
    decide
  · obtain ⟨k, kq, hk, hkq, hlt⟩ := exists_lt_of_behind hforged
    obtain ⟨m, hm, h⟩ := (Option.any_eq_true _ _).mp hmain
    have hbelow : (afterBatch forgedBatch).BelowMain 3 :=
      ⟨m, hm, .head (of_decide_eq_true h) (.head h5 (.single h4))⟩
    exact ⟨_, _, 3, k, kq, hosted_afterBatch forgedBatch, .inl (hrun _ (by simp)), hbelow, hnew,
      hk, hkq, hlt⟩

end Csp.Small
