import Csp.Export
import Csp.Lineage

/-! Honest engines. Their known primitives are genuine and closed under ancestry, and `main` is
what they fold to. A batch of closures that honest engines export is taken in without an
error, and leaves the engine honest. -/

namespace Csp
open Result
variable {Oid : Type} [ObjectId Oid] [Crates] {s s' t : Store Oid}

/-- A known list with its history: genuine primitives, each with every primitive below it. -/
structure History (s : Store Oid) (known : List Oid) : Prop where
  store : s.Tidy
  nodup : known.Nodup
  primitive : ∀ o ∈ known, isPrimitiveOid s o = true
  genuine : ∀ o ∈ known, Genuine s o
  covered : ∀ o ∈ known, Covered s known o

/-- An engine whose `main` is the fold of a known list with its history. -/
structure Honest (e : MemEngine Oid) : Prop where
  history : History e.store e.state.known
  main : ∃ m, e.main = some m ∧ (computeMain e.state.known e.store).1 = .ok m ∧ Genuine e.store m ∧
    Covered e.store e.state.known m

theorem History.commitIn {known : List Oid} (h : History s known) {o : Oid} (ho : o ∈ known) :
    CommitIn s o :=
  (h.genuine o ho).commitIn

theorem History.extends {known : List Oid} (h : History s known) (he : s.Extends t) (ht : t.Tidy) :
    History t known where
  store := ht
  nodup := h.nodup
  primitive o ho := isPrimitiveOid_extends he (h.primitive o ho)
  genuine o ho := (h.genuine o ho).extends he
  covered o ho := (h.covered o ho).extends he (h.commitIn ho)

section Spec
variable [LawfulObjectId Oid] [LawfulCrates]

/-- A store that carries a known list folds it, in any order, to the same `main`. -/
theorem computeMain_carries {R : Oid → Prop} (h : Carries Tidy R s s') (hs : s.Sound)
    (hs' : s'.Sound) {known known' : List Oid} (hR : ∀ o ∈ known, R o)
    (hin : ∀ o ∈ known, CommitIn s o) (hf : frontier s' known' = frontier s known) {m : Oid}
    (hm : (computeMain known s).1 = .ok m) :
    (computeMain known' s').1 = .ok m := by
  have htwins : Twins R s s' := ⟨h.mono fun _ => Tidy.flat, hs, hs'⟩
  obtain ⟨-, t', hrun, -⟩ := htwins.computeMain hf hR hin (Prod.ext hm rfl)
  rw [hrun]

theorem History.main_extends {known : List Oid} (h : History s known) (he : s.Extends t)
    (ht : t.Sound) {m : Oid} (hm : (computeMain known s).1 = .ok m) :
    (computeMain known t).1 = .ok m :=
  computeMain_carries he.carries h.store.sound ht (fun _ _ => trivial) (fun _ => h.commitIn)
    (he.carries.frontier (fun _ hq => hq) (fun _ _ => trivial) (fun _ => h.commitIn) (.refl _)) hm

theorem History.computeMain {known : List Oid} (h : History s known) :
    ∃ m t, Csp.computeMain known s = (.ok m, t) ∧ s.Extends t ∧ History t known ∧ Genuine t m ∧
      Covered t known m ∧ (Csp.computeMain known t).1 = .ok m := by
  obtain ⟨m, t, hm⟩ := computeMain_total h.store.sound (fun _ => h.commitIn)
    fun o ho => (h.genuine o ho).descends h.store.sound
  obtain ⟨f, hf, hfold⟩ := computeMain_ok.mp hm
  have hstage : Stage s t known m := stage_foldTips h.store.sound (fun p hp => by
    have hp := (mem_of_mem_frontier hf hp).1
    exact ⟨h.genuine p hp, h.covered p hp⟩) hfold
  have htidy : t.Tidy := by
    have := h.store.computeMain known
    rwa [hm] at this
  have hfst : (Csp.computeMain known s).1 = .ok m := by rw [hm]
  exact ⟨m, t, hm, hstage.ext, h.extends hstage.ext htidy, hstage.genuine, hstage.covered,
    h.main_extends hstage.ext hstage.sound hfst⟩

omit [LawfulObjectId Oid] [LawfulCrates] in
theorem Honest.quiet {e e' : MemEngine Oid} (h : Honest e) (hq : Quiet e e') : Honest e' := by
  constructor
  · rw [hq.store, hq.known]
    exact h.history
  · rw [hq.store, hq.known, hq.main]
    exact h.main

theorem Honest.grow {e e' : MemEngine Oid} (h : Honest e) (hext : e.store.Extends e'.store)
    (ht : e'.store.Tidy) (hk : e'.state.known = e.state.known) (hm : e'.main = e.main) :
    Honest e' := by
  obtain ⟨m, hmain, hrun, hgen, hcov⟩ := h.main
  constructor
  · rw [hk]
    exact h.history.extends hext ht
  · rw [hk]
    exact ⟨m, hm.trans hmain, h.history.main_extends hext ht.sound hrun, hgen.extends hext,
      hcov.extends hext hgen.commitIn⟩

omit [Crates] [LawfulObjectId Oid] [LawfulCrates] in
theorem tidy_empty (b : Backend) : (Store.empty b : Store Oid).Tidy :=
  ⟨Store.sound_empty b, fun o es hes => by simp [Store.get, Store.empty] at hes⟩

theorem history_genesis (b : Backend) :
    History (genesis (Store.empty b : Store Oid)).2 [] ∧
      (Csp.computeMain [] (genesis (Store.empty b : Store Oid)).2).1 = .ok
      (GitObject.commit genesisCommit).oid ∧
      Genuine (genesis (Store.empty b : Store Oid)).2 (GitObject.commit genesisCommit).oid ∧
      Covered (genesis (Store.empty b : Store Oid)).2 [] (GitObject.commit genesisCommit).oid := by
  have hempty : History (Store.empty b : Store Oid) [] := by
    refine ⟨tidy_empty b, List.nodup_nil, ?_, ?_, ?_⟩ <;> rintro _ ⟨⟩
  obtain ⟨m, t, hm, -, hhist, hgen, hcov, hagain⟩ := hempty.computeMain
  have hrun : (.ok m, t) = genesis (Store.empty b : Store Oid) :=
    hm.symm.trans (computeMain_run (f := []) (by simp [frontier_eq, View.frontier]))
  have hstore : (genesis (Store.empty b : Store Oid)).2 = t := congrArg Prod.snd hrun.symm
  obtain rfl : m = (GitObject.commit genesisCommit).oid :=
    Except.ok.inj (congrArg Prod.fst (hrun.trans genesis_run))
  rw [hstore]
  exact ⟨hhist, hagain, hgen, hcov⟩

theorem honest_create (id : Identity) (vaultId name : Str) :
    Honest (MemEngine.create id vaultId name : MemEngine Oid) := by
  obtain ⟨hhist, hagain, hgen, hcov⟩ := @history_genesis Oid _ _ _ _ .mem
  exact ⟨hhist, _, rfl, hagain, hgen, hcov⟩

/-! ### Taking a batch in -/

theorem verifyBatch_genuine {raws : List Bytes} (hs : s.Sound)
    (h : ∀ r ∈ raws, ∀ o, (syntheticOf r : Option Oid) = some o → Genuine s o) :
    ∃ t, verifyBatch raws s = (.ok true, t) := by
  induction raws generalizing s with
  | nil => exact ⟨s, rfl⟩
  | cons r raws ih =>
    rw [verifyBatch_cons]
    cases ho : (syntheticOf r : Option Oid) with
    | none => exact ih hs fun r' hr' => h r' (List.mem_cons_of_mem _ hr')
    | some o =>
      obtain ⟨t, ht, hver⟩ := verifyFoldCommit_of_reproduces hs
        ((h r List.mem_cons_self o ho).reproduces hs)
      simp only [ht]
      exact ih hver.sound fun r' hr' o' ho' =>
        (h r' (List.mem_cons_of_mem _ hr') o' ho').extends hver.ext

omit [LawfulCrates] in
theorem HonestBatch.load {raws : List Bytes} (hb : HonestBatch s raws) {c : CommitObj Oid}
    (hc : .commit c ∈ (decoded raws : List (GitObject Oid) × Option CspError).1) :
    loadCommit (s.putAll (decoded raws).1) (GitObject.commit c).oid = .ok c := by
  obtain ⟨d, hd, -⟩ := (hb.genuine c hc).commitIn.load
  have hget := hb.tidy.sound.get (loadCommit_ok.mp hd)
  have hcanon := canon_eq_of_oid_eq hget.2 (encodable_of_mem_decoded hc) hget.1
  obtain rfl : d = c := GitObject.commit.inj hcanon
  exact hd

omit [LawfulCrates] in
theorem HonestBatch.descends {raws : List Bytes} (hb : HonestBatch s raws) {c : CommitObj Oid}
    (hc : .commit c ∈ (decoded raws : List (GitObject Oid) × Option CspError).1) {p : Oid}
    (hp : Descends (s.putAll (decoded raws).1) (GitObject.commit c).oid p) :
    ∃ d, .commit d ∈ (decoded raws : List (GitObject Oid) × Option CspError).1 ∧
    (GitObject.commit d).oid = p := by
  induction hp with
  | refl => exact ⟨c, hc, rfl⟩
  | @tail a b _ hab ih =>
    obtain ⟨d, hd, rfl⟩ := ih
    rw [parentsOf_of_load (hb.load hd)] at hab
    exact hb.parents d hd b hab

omit [LawfulCrates] in
theorem HonestBatch.mem_accepted {raws : List Bytes} (hb : HonestBatch s raws) {o : Oid} :
    o ∈ accepted raws ↔ ∃ c, .commit c ∈ (decoded raws : List (GitObject Oid) × Option CspError).1 ∧
      isPrimitive c = true ∧ (GitObject.commit c).oid = o := by
  rw [Csp.mem_accepted]
  constructor
  · rintro ⟨r, hr, c, hc, hprim, -, rfl⟩
    obtain ⟨x, hx, hx'⟩ := decoded_of_all hb.decodes r hr
    obtain rfl : GitObject.commit c = x := Except.ok.inj (hc.symm.trans hx')
    exact ⟨c, hx, hprim, rfl⟩
  · rintro ⟨c, hc, hprim, rfl⟩
    obtain ⟨r, hr, hparse⟩ := mem_decoded hc
    exact ⟨r, hr, c, hparse, hprim, (hb.genuine c hc).verifies (hb.load hc) hprim, rfl⟩

omit [LawfulCrates] in
theorem History.batch {known : List Oid} (h : History s known) {raws : List Bytes}
    (hb : HonestBatch s raws) :
    History (s.putAll (decoded raws).1) ((accepted raws).foldl addNew known) := by
  have hext := s.extends_putAll (decoded raws : List (GitObject Oid) × Option CspError).1
  have hold := h.extends hext hb.tidy
  have hnew : ∀ o ∈ accepted raws, isPrimitiveOid (s.putAll (decoded raws).1) o = true ∧
      Genuine (s.putAll (decoded raws).1) o ∧ Covered (s.putAll (decoded raws).1)
      (accepted raws) o := by
    intro o ho
    obtain ⟨c, hc, hprim, rfl⟩ := hb.mem_accepted.mp ho
    refine ⟨?_, hb.genuine c hc, fun p hp hpp => ?_⟩
    · rw [isPrimitiveOid, hb.load hc]
      exact hprim
    · obtain ⟨d, hd, rfl⟩ := hb.descends hc hp
      rw [isPrimitiveOid, hb.load hd] at hpp
      exact hb.mem_accepted.mpr ⟨d, hd, hpp, rfl⟩
  refine ⟨hb.tidy, nodup_foldl_addNew _ h.nodup, fun o ho => ?_, fun o ho => ?_, fun o ho => ?_⟩
  · rcases mem_foldl_addNew.mp ho with ho | ho
    · exact hold.primitive o ho
    · exact (hnew o ho).1
  · rcases mem_foldl_addNew.mp ho with ho | ho
    · exact hold.genuine o ho
    · exact (hnew o ho).2.1
  · rcases mem_foldl_addNew.mp ho with ho | ho
    · exact (hold.covered o ho).mono fun p hp => mem_foldl_addNew.mpr (.inl hp)
    · exact (hnew o ho).2.2.mono fun p hp => mem_foldl_addNew.mpr (.inr hp)

/-- What taking an honest batch in does: the primitives in it become known, and `main` follows. -/
structure TookIn (raws : List Bytes) (n : Nat) (e e' : MemEngine Oid) : Prop where
  honest : Honest e'
  ext : e.store.Extends e'.store
  known : e'.state.known = (accepted raws).foldl addNew e.state.known
  count : n + e.state.known.length = e'.state.known.length
  same : n = 0 → e'.main = e.main

theorem HonestBatch.verified {raws : List Bytes} (hb : HonestBatch s raws) :
    ∃ u, verifyBatch raws (s.putAll (decoded raws).1) = (.ok true, u) ∧
      (s.putAll (decoded raws).1).Extends u ∧ u.Tidy := by
  obtain ⟨u, hu⟩ := verifyBatch_genuine hb.tidy.sound fun r (hr : r ∈ raws) o ho => by
    obtain ⟨x, hx, hx'⟩ := decoded_of_all hb.decodes r hr
    rw [syntheticOf, hx'] at ho
    cases x with
    | commit c =>
      simp only at ho
      split_ifs at ho
      obtain rfl := Option.some.inj ho
      exact hb.genuine c hx
    | _ => cases ho
  have hext := extends_verifyBatch raws (s.putAll (decoded raws).1)
  have htidy := hb.tidy.verifyBatch raws
  rw [hu] at hext htidy
  exact ⟨u, hu, hext, htidy⟩

theorem Honest.integrate {e : MemEngine Oid} (h : Honest e) {raws : List Bytes}
    (hb : HonestBatch e.store raws) :
    ∃ n e', MemEngine.integrate raws e = (.ok n, e') ∧ TookIn raws n e e' := by
  have hhist := h.history.batch hb
  have hadm := admits_foldl raws e.state 0
  have hext := e.store.extends_putAll (decoded raws : List (GitObject Oid) × Option CspError).1
  obtain ⟨u, hu, hext', htidy⟩ := hb.verified
  have hcount := hadm.count
  rw [MemEngine.integrate_run, hb.decodes]
  simp only [hu]
  by_cases h0 : (raws.foldl admitOne (e.state, 0)).2 = 0
  · have hsame : (accepted raws).foldl addNew e.state.known = e.state.known :=
      foldl_addNew_eq_self.mpr (hadm.count_eq_zero.mp h0)
    refine ⟨0, _, if_pos h0, h.grow (hext.trans hext') htidy ?_ rfl, hext.trans hext', hadm.known,
      ?_, fun _ => rfl⟩
    · exact hadm.known.trans hsame
    · show 0 + e.state.known.length = (raws.foldl admitOne (e.state, 0)).1.known.length
      rw [hadm.known, hsame, Nat.zero_add]
  · have hknown := hhist.extends hext' htidy
    rw [← hadm.known] at hknown
    obtain ⟨m, t, hm, hext'', hhist', hgen, hcov, hagain⟩ := hknown.computeMain
    exact ⟨_, _, (if_neg h0).trans (by rw [hm]), ⟨hhist', m, rfl, hagain, hgen, hcov⟩,
      (hext.trans hext').trans hext'', hadm.known, hcount.trans (Nat.zero_add _), fun hn =>
      absurd hn h0⟩

/-! ### Committing -/

omit [LawfulObjectId Oid] [LawfulCrates] [Crates] in
theorem tidy_of_mem_authoredObjects {l : Layer1 Oid} {c : CommitObj Oid}
    {es : List (TreeEntry Oid)} (h : .tree es ∈ authoredObjects l c) : Tidy es := by
  rcases List.mem_append.mp h with h | h
  · exact tidy_of_mem_buildTree h
  · cases List.mem_singleton.mp h

/-- What a commit does to an honest engine: its known list is as before, or has one more. -/
structure Published (r : Option Oid) (e e' : MemEngine Oid) : Prop where
  honest : Honest e'
  ext : e.store.Extends e'.store
  known : e'.state.known = r.elim e.state.known (addNew e.state.known)

theorem History.author {known : List Oid} (h : History s known) {m : Oid} (hgen : Genuine s m)
    (hcov : Covered s known m) {id : Identity} {st : EngineState Oid} {l : Layer1 Oid}
    (hfr : ∀ p ∈ l.filtered.keys, Framable p) {now : Nat} (hnow : now < 2 ^ 64) :
    History (s.putAll (authoredObjects l (authored id st m l now)))
      (addNew known (GitObject.commit (authored id st m l now)).oid) := by
  set c := authored id st m l now with hc
  set t := s.putAll (authoredObjects l c) with ht
  have hau : AuthoredIn s t id st m l now := authoredIn_putAll h.store.sound hgen.commitIn hfr hnow
  have htidy : t.Tidy :=
    h.store.putAll (encodable_authoredObjects _ _ _ hfr hnow) fun es => tidy_of_mem_authoredObjects
  have hold := h.extends hau.ext htidy
  have hmem : ∀ q, q ∈ addNew known (GitObject.commit c).oid ↔ q ∈ known ∨
      q = (GitObject.commit c).oid :=
    fun q => mem_addNew
  have hparents : parentsOf t (GitObject.commit c).oid = [m] := parentsOf_of_load hau.load
  -- the new primitive is signed, has one parent, and that parent is genuine
  have hnew : Genuine t (GitObject.commit c).oid := by
    obtain ⟨d, hd, htree, -⟩ := hau.commitIn.load
    obtain rfl : c = d := Except.ok.inj (hau.load.symm.trans hd)
    refine .primitive hau.load htree isPrimitive_authored
      (verifyPrimitive_signed _ _ _ (counter_lt _) _ _ _) (List.cons_ne_nil _ _) fun p hp => ?_
    obtain rfl : p = m := List.mem_singleton.mp hp
    exact hgen.extends hau.ext
  have hcovered : Covered t (addNew known (GitObject.commit c).oid) (GitObject.commit c).oid := by
    refine covered_of_parents (fun _ => (hmem _).mpr (.inr rfl)) fun p hp => ?_
    rw [hparents] at hp
    obtain rfl := List.mem_singleton.mp hp
    exact (hcov.extends hau.ext hgen.commitIn).mono fun q hq => (hmem q).mpr (.inl hq)
  refine ⟨htidy, nodup_foldl_addNew [_] h.nodup, fun q hq => ?_, fun q hq => ?_, fun q hq => ?_⟩
  · rcases (hmem q).mp hq with hq | rfl
    · exact hold.primitive q hq
    · exact hau.isPrimitiveOid
  · rcases (hmem q).mp hq with hq | rfl
    · exact hold.genuine q hq
    · exact hnew
  · rcases (hmem q).mp hq with hq | rfl
    · exact (hold.covered q hq).mono fun p hp => (hmem p).mpr (.inl hp)
    · exact hcovered

theorem Honest.author {e : MemEngine Oid} (h : Honest e) {m : Oid} (hm : e.main = some m)
    {l : Layer1 Oid} (hfr : ∀ p ∈ l.filtered.keys, Framable p) {now : Nat} (hnow : now < 2 ^ 64) :
    ∃ o e', MemEngine.author m l now e = (.ok o, e') ∧ Published (some o) e e' := by
  obtain ⟨m', hm', -, hgen, hcov⟩ := h.main
  obtain rfl := Option.some.inj (hm.symm.trans hm')
  set c := authored e.identity e.state m l now with hc
  set e₁ := e.published l c with he₁
  have hext : e.store.Extends e₁.store := e.store.extends_putAll _
  have hknown : e₁.state.known = addNew e.state.known (GitObject.commit c).oid := known_addKnown _ _
  have hhist : History e₁.store e₁.state.known := by
    rw [hknown]
    exact h.history.author hgen hcov hfr hnow
  obtain ⟨m₁, t, hm₁, hext₁, hhist', hgen', hcov', hagain⟩ := hhist.computeMain
  rw [MemEngine.author_run, ← hc, ← he₁, hm₁]
  exact ⟨_, _, rfl, ⟨hhist', m₁, rfl, hagain, hgen', hcov'⟩, hext.trans hext₁, hknown⟩

theorem Honest.commitStaged {e : MemEngine Oid} (h : Honest e)
    (hnames : ∀ p ∈ e.working.keys, Framable p) {now : Nat} (hnow : now < 2 ^ 64) :
    ∃ r e', MemEngine.commitStaged now e = (.ok r, e') ∧ Published r e e' := by
  obtain ⟨m, hm, -, hgen, -⟩ := h.main
  obtain ⟨mc, hmc, htree, -⟩ := hgen.commitIn.load
  have hmt : mainTree e.store m = .ok mc.tree := by rw [mainTree, loadCommit_ok.mp hmc]; rfl
  obtain ⟨l, hl⟩ := layer1_total hgen.commitIn htree e.state.materialized
    (canonicalizeKeeps e.working e.scope)
  have hfr := framable_filtered hnames hl
  have hquiet : Quiet e (e.dropQuarantined (orphansBucket now) l.quarantines) := ⟨rfl, rfl, rfl⟩
  rw [MemEngine.commitStaged, run_bind_of_ok (run_get e), MemEngine.commitScoped_run _ _ hm]
  split_ifs with hb
  · exact ⟨none, e, rfl, h, .refl _, rfl⟩
  rw [hmt]
  simp only [hl]
  split_ifs with hg
  · obtain ⟨o, e', ha, hpub⟩ := (h.quiet hquiet).author hm hfr hnow
    rw [ha]
    exact ⟨some o, e', rfl, hpub.honest, hpub.ext, hpub.known⟩
  · exact ⟨none, _, rfl, h.quiet hquiet, .refl _, rfl⟩

/-! ### Exporting -/

theorem Honest.exportClosure {e : MemEngine Oid} (h : Honest e) {tips : List Oid}
    (ht : ∀ o ∈ tips, o ∈ e.state.known) :
    ∃ raws, MemEngine.exportClosure e tips = .ok raws ∧ Gathered Oid raws ∧
      ∀ o, o ∈ accepted raws ↔ isPrimitiveOid e.store o = true ∧ ∃ k ∈ tips, Descends e.store k o :=
  closureOf_genuine h.history.store fun o ho => h.history.genuine o (ht o ho)

/-- An honest engine takes in any batch that is gathered from such exports. -/
theorem Honest.integrate_gathered {e : MemEngine Oid} (h : Honest e) {raws : List Bytes}
    (hr : Gathered Oid raws) :
    ∃ n e', MemEngine.integrate raws e = (.ok n, e') ∧ TookIn raws n e e' :=
  h.integrate (hr.honestBatch h.history.store)

/-! ### Agreement -/

omit [Crates] [LawfulObjectId Oid] [LawfulCrates] in
def kept (s : Store Oid) (known : List Oid) : List Oid := known.filter fun o => !(viewOf s).ghost o

omit [LawfulObjectId Oid] [LawfulCrates] in
theorem mem_kept {known : List Oid} (hin : ∀ o ∈ known, CommitIn s o) {o : Oid} :
    o ∈ kept s known ↔ o ∈ known ∧ Effective s o := by
  rw [kept, List.mem_filter, Bool.not_eq_true']
  exact and_congr_right fun ho => (effective_iff (hin o ho)).symm

omit [LawfulObjectId Oid] [LawfulCrates] in
theorem frontier_kept {known : List Oid} (hin : ∀ o ∈ known, CommitIn s o) :
    frontier s (kept s known) = frontier s known := by
  rw [frontier_eq hin, frontier_eq fun o (ho : o ∈ kept s known) =>
    hin o (List.mem_of_mem_filter ho),
    Except.ok.injEq]
  simp only [View.frontier, kept, List.filter_filter, Bool.and_self]

omit [Crates] [LawfulCrates] in
theorem carries_tidy (hs : s.Tidy) (hs' : s'.Tidy) {os : List Oid} (hin : ∀ o ∈ os, CommitIn s o)
    (hin' : ∀ o ∈ os, CommitIn s' o) : Carries Tidy (Below s os) s s' :=
  carries_below hs.sound hs'.sound hin hin' fun o es es' _ hes hes' =>
    .inr ⟨hs.tidy o es hes, hs'.tidy o es' hes'⟩

omit [Crates] [LawfulObjectId Oid] [LawfulCrates] in
theorem below_self {os : List Oid} {o : Oid} (ho : o ∈ os) : Below s os o := ⟨o, ho, .refl⟩

omit [LawfulCrates] in
theorem effective_tidy (hs : s.Tidy) (hs' : s'.Tidy) {o : Oid} (hin : CommitIn s o)
    (hin' : CommitIn s' o) :
    Effective s' o ↔ Effective s o := by
  have hcar := carries_tidy hs hs' (fun p (hp : p ∈ [o]) => List.mem_singleton.mp hp ▸ hin)
    fun p hp => List.mem_singleton.mp hp ▸ hin'
  obtain ⟨b, hb⟩ := isGhost_total hin
  have hb' := hcar.isGhost (fun _ hq => hq) (below_self (List.mem_singleton.mpr rfl)) hin hb
  rw [Effective, Effective, isGhost_ok hb, isGhost_ok hb']

omit [Crates] [LawfulCrates] in
theorem descends_tidy (hs : s.Tidy) (hs' : s'.Tidy) {o p : Oid} (hin : CommitIn s o)
    (hin' : CommitIn s' o) (h : Descends s o p) : Descends s' o p := by
  induction h with
  | refl => exact .refl
  | @tail a b hoa hab ih =>
    obtain ⟨c, hc, -⟩ := (hin.ancestor hoa).load
    obtain ⟨c', hc', -⟩ := (hin'.ancestor ih).load
    obtain rfl := load_eq_of_sound hs.sound hs'.sound hc hc'
    rw [parentsOf_of_load hc] at hab
    exact ih.tail (by rwa [parentsOf_of_load hc'])

omit [LawfulCrates] in
theorem isPrimitiveOid_sound {s t : Store Oid} (hs : s.Sound) (ht : t.Sound) {o : Oid}
    (hin : CommitIn s o) (hin' : CommitIn t o) : isPrimitiveOid t o = isPrimitiveOid s o := by
  obtain ⟨c, hc, -⟩ := hin.load
  obtain ⟨c', hc', -⟩ := hin'.load
  obtain rfl := load_eq_of_sound hs ht hc hc'
  rw [isPrimitiveOid, isPrimitiveOid, hc, hc']

/-- Honest engines that keep the same primitives have one `main`, with one tree. -/
theorem Honest.main_eq {e e' : MemEngine Oid} (h : Honest e) (h' : Honest e')
    (hkept : ∀ o, o ∈ kept e.store e.state.known ↔ o ∈ kept e'.store e'.state.known) :
    ∃ m c files, e.main = some m ∧ e'.main = some m ∧ loadCommit e.store m = .ok c ∧
    loadCommit e'.store m = .ok c ∧
      treeFiles e.store c.tree = .ok files ∧ treeFiles e'.store c.tree = .ok files := by
  obtain ⟨m, hm, hrun, hgen, -⟩ := h.main
  obtain ⟨m', hm', hrun', hgen', -⟩ := h'.main
  have hin : ∀ o ∈ kept e.store e.state.known, CommitIn e.store o := fun o ho =>
    h.history.commitIn (List.mem_of_mem_filter ho)
  have hin' : ∀ o ∈ kept e.store e.state.known, CommitIn e'.store o := fun o ho =>
    h'.history.commitIn (List.mem_of_mem_filter ((hkept o).mp ho))
  have hperm : (kept e.store e.state.known).Perm (kept e'.store e'.state.known) :=
    (List.perm_ext_iff_of_nodup (h.history.nodup.filter _) (h'.history.nodup.filter _)).mpr hkept
  have hcar := carries_tidy h.history.store h'.history.store hin hin'
  have hfront := frontier_kept fun o (ho : o ∈ e.state.known) => h.history.commitIn ho
  have hfront' : frontier e'.store e'.state.known = frontier e.store
      (kept e.store e.state.known) := by
    rw [← frontier_kept fun _ => h'.history.commitIn]
    exact hcar.frontier (fun _ hq => hq) (fun _ ho => below_self ho) hin hperm
  have hrunKept : (computeMain (kept e.store e.state.known) e.store).1 = .ok m := by
    obtain ⟨f, hf, hfold⟩ := computeMain_ok.mp (Prod.ext hrun rfl)
    rw [computeMain_run (hfront.trans hf), hfold]
  have heq := computeMain_carries hcar h.history.store.sound h'.history.store.sound
    (fun _ ho => below_self ho)
    hin hfront' hrunKept
  obtain rfl : m' = m := Except.ok.inj (hrun'.symm.trans heq)
  obtain ⟨c, hc, htree, -⟩ := hgen.commitIn.load
  have hmem : m' ∈ [m'] := List.mem_singleton.mpr rfl
  have hcarm := carries_tidy h.history.store h'.history.store
    (fun p (hp : p ∈ [m']) => List.mem_singleton.mp hp ▸ hgen.commitIn) fun p hp =>
    List.mem_singleton.mp hp ▸ hgen'.commitIn
  obtain ⟨hc', htree', -⟩ := hcarm.loadCommit (below_self hmem) hc
  obtain ⟨files, hfiles⟩ := htree.treeFiles
  exact ⟨m', c, files, hm, hm', hc, hc', hfiles, hcarm.treeFiles (fun _ => Tidy.flat) htree' hfiles⟩

end Spec

end Csp
