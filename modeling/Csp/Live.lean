import Csp.CatchUp
import Csp.Edits
import Csp.Increment

/-! Live pushes between two engines. Each new primitive is pushed once, as an increment, to the
other engine, which takes the pushes in as they come. What the receiver lacks of the parent it has
to have folded itself, and whether it has depends on the order of commits and deliveries. -/

namespace Csp
open Result
section Spec
variable {Oid : Type} [ObjectId Oid] [Crates] [LawfulObjectId Oid] [LawfulCrates] {s t : Store Oid}

/-! ### Engines with nothing unaccounted for -/

omit [LawfulObjectId Oid] [LawfulCrates] in
theorem Complete.quiet {e e' : MemEngine Oid} (h : Complete e) (hq : Quiet e e') : Complete e' := by
  refine ⟨h.honest.quiet hq, ?_⟩
  rw [hq.store, hq.known]
  exact h.accounted

theorem complete_create (id : Identity) (vaultId name : Str) :
    Complete (MemEngine.create id vaultId name : MemEngine Oid) := by
  refine ⟨honest_create id vaultId name, ?_⟩
  have hempty : Accounted (Store.empty .mem : Store Oid) [] := by
    intro o c hc
    simp [loadCommit, Store.get, Store.empty] at hc
  exact hempty.genesis (Store.sound_empty _)

/-- A batch of whole closures is taken in, and leaves nothing unaccounted for. -/
theorem Complete.integrate_gathered {e : MemEngine Oid} (h : Complete e) {raws : List Bytes}
    (hr : Gathered Oid raws) :
    ∃ n e', MemEngine.integrate raws e = (.ok n, e') ∧ Complete e' := by
  have hb := hr.honestBatch h.honest.history.store
  obtain ⟨n, e', hrun, htook⟩ := h.honest.integrate hb
  refine ⟨n, e', hrun, htook.honest, ?_⟩
  have hput : Accounted (e.store.putAll (decoded raws).1) e'.state.known := by
    rw [htook.known]
    refine h.accounted.putAll (fun o ho => mem_foldl_addNew.mpr (.inl ho))
      (fun x hx => encodable_of_mem_decoded hx)
      fun c hc => ⟨hb.genuine c hc, fun p hp hprim => mem_foldl_addNew.mpr (.inr ?_)⟩
    obtain ⟨d, hd, rfl⟩ := hb.descends hc hp
    rw [isPrimitiveOid, hb.load hd] at hprim
    exact hb.mem_accepted.mpr ⟨d, hd, hprim, rfl⟩
  obtain ⟨u, hu, hext, hutidy⟩ := hb.verified
  have hver : Accounted u e'.state.known := by
    have := (verifyBatch_induction
      (fun s t : Store Oid => s.Sound ∧ Accounted s e'.state.known → t.Sound ∧
        Accounted t e'.state.known) (fun _ => id)
      (fun _ _ _ h h' => h' ∘ h) (fun ps _ hs => ⟨(gains_refold (P := fun _ => True) hs.1 ps).sound,
      hs.2.refold hs.1 ps⟩)
      raws _ ⟨hb.tidy.sound, hput⟩).2
    rwa [hu] at this
  rw [MemEngine.integrate_run, hb.decodes] at hrun
  simp only [hu] at hrun
  split_ifs at hrun with h0
  · obtain ⟨-, rfl⟩ := Prod.mk.inj hrun
    exact hver
  · have hmain := hver.computeMain hutidy.sound (raws.foldl admitOne (e.state, 0)).1.known
    split at hrun
    · rename_i m t hm
      rw [hm] at hmain
      obtain ⟨-, rfl⟩ := Prod.mk.inj hrun
      exact hmain
    · cases (Prod.mk.inj hrun).1

omit [LawfulObjectId Oid] [LawfulCrates] [Crates] in
theorem commit_of_authoredObjects {l : Layer1 Oid} {c d : CommitObj Oid}
    (h : .commit d ∈ authoredObjects l c) : d = c := by
  rcases List.mem_append.mp h with h | h
  · exact absurd h notMem_commit_buildTree
  · exact GitObject.commit.inj (List.mem_singleton.mp h)

theorem Accounted.author {known : List Oid} (h : Accounted s known) (hh : History s known) {m : Oid}
    (hgen : Genuine s m) (hcov : Covered s known m) {id : Identity} {st : EngineState Oid}
    {l : Layer1 Oid} (hfr : ∀ p ∈ l.filtered.keys, Framable p) {now : Nat} (hnow : now < 2 ^ 64) :
    Accounted (s.putAll (authoredObjects l (authored id st m l now)))
      (addNew known (GitObject.commit (authored id st m l now)).oid) := by
  have hhist : History (s.putAll (authoredObjects l (authored id st m l now)))
      (addNew known (GitObject.commit (authored id st m l now)).oid) := hh.author hgen hcov hfr hnow
  refine h.putAll (fun q hq => mem_addNew.mpr (.inl hq))
    (encodable_authoredObjects id st m hfr hnow) fun d hd => ?_
  have hself := mem_addNew.mpr (.inr rfl : (GitObject.commit (authored id st m l now)).oid ∈ known ∨
      _)
  rw [commit_of_authoredObjects hd]
  exact ⟨hhist.genuine _ hself, hhist.covered _ hself⟩

theorem Complete.author {e e' : MemEngine Oid} (h : Complete e) {m o : Oid} (hm : e.main = some m)
    {l : Layer1 Oid} (hfr : ∀ p ∈ l.filtered.keys, Framable p) {now : Nat} (hnow : now < 2 ^ 64)
    (ha : MemEngine.author m l now e = (.ok o, e')) :
    Received o e e' ∧ ∃ c pc raws, e'.exportPrimitive o = .ok raws ∧
    Exported e'.store raws o m c pc := by
  obtain ⟨m', hm', -, hgen, hcov⟩ := h.honest.main
  obtain rfl := Option.some.inj (hm.symm.trans hm')
  obtain ⟨o', e₁, ha', hpub⟩ := h.honest.author hm hfr hnow
  obtain ⟨ho, rfl⟩ := Prod.mk.inj (ha'.symm.trans ha)
  obtain rfl := Except.ok.inj ho
  have hacc : Accounted (e.store.putAll (authoredObjects l (authored e.identity e.state m l now)))
      (addNew e.state.known (GitObject.commit (authored e.identity e.state m l now)).oid) :=
    h.accounted.author h.honest.history hgen hcov hfr hnow
  have hau : AuthoredIn e.store (e.store.putAll
        (authoredObjects l (authored e.identity e.state m l now)))
      e.identity e.state m l now :=
      authoredIn_putAll h.honest.history.store.sound hgen.commitIn hfr hnow
  have hstored : Accounted e₁.store e₁.state.known ∧
      (e.store.putAll (authoredObjects l (authored e.identity e.state m l now))).Extends e₁.store ∧
      o' = (GitObject.commit (authored e.identity e.state m l now)).oid := by
    have hknown : (e.published l (authored e.identity e.state m l now)).state.known =
        addNew e.state.known (GitObject.commit (authored e.identity e.state m l now)).oid :=
        known_addKnown _ _
    have hmain := hacc.computeMain hau.sound (e.published l
        (authored e.identity e.state m l now)).state.known
    have hext := extends_computeMain (e.published l
        (authored e.identity e.state m l now)).state.known
      (e.published l (authored e.identity e.state m l now)).store
    rw [MemEngine.author_run] at ha
    split at ha
    · rename_i k t hk
      obtain ⟨ho, rfl⟩ := Prod.mk.inj ha
      rw [hk] at hext
      rw [show e.store.putAll (authoredObjects l (authored e.identity e.state m l now)) =
        (e.published l (authored e.identity e.state m l now)).store from rfl, hk, ← hknown] at hmain
      exact ⟨hmain, hext, (Except.ok.inj ho).symm⟩
    · cases (Prod.mk.inj ha).1
  obtain ⟨hacc', hext, rfl⟩ := hstored
  have hload := loadCommit_extends hext hau.load
  have hself : (GitObject.commit (authored e.identity e.state m l now)).oid ∈ e₁.state.known := by
    rw [hpub.known]
    exact mem_addNew.mpr (.inr rfl)
  have hnew := hpub.honest.history.genuine _ hself
  have hparent := hgen.extends hpub.ext
  obtain ⟨d, hd, htree, -⟩ := hnew.commitIn.load
  obtain rfl := Except.ok.inj (hload.symm.trans hd)
  obtain ⟨pc, hpc, hptree, -⟩ := hparent.commitIn.load
  obtain ⟨rest, hexp, hinc⟩ := MemEngine.exportPrimitive_spec hload rfl hpc htree hptree
  exact ⟨⟨⟨hpub.honest, hacc'⟩, hpub.ext, hpub.known⟩, _, pc, _, hexp,
    hpub.honest.history.store, hnew, hload, isPrimitive_authored, rfl, hpc, ⟨rest, rfl⟩, hinc⟩

theorem Complete.commitStaged {e : MemEngine Oid} (h : Complete e)
    (hnames : ∀ p ∈ e.working.keys, Framable p) {now : Nat} (hnow : now < 2 ^ 64) :
    ∃ r e', MemEngine.commitStaged now e = (.ok r, e') ∧ (r = none → Quiet e e') ∧ ∀ o, r = some o →
      ∃ m c pc raws, e.main = some m ∧ Received o e e' ∧ e'.exportPrimitive o = .ok raws ∧
      Exported e'.store raws o m c pc := by
  cases hb : e.state.bootstrapPending with
  | true =>
    obtain ⟨m, hm, -⟩ := h.honest.main
    have hrun := MemEngine.commitScoped_run e.scopedFiles now hm
    rw [if_pos hb] at hrun
    exact ⟨none, e, hrun, fun _ => ⟨rfl, rfl, rfl⟩, fun o ho => by cases ho⟩
  | false =>
    obtain ⟨m, tree, l, d, hm, -, hl, hd, hcase⟩ :=
      MemEngine.commitStaged_sorted h.honest.linear hb hnames hnow
    have hquiet : Quiet e d := by
      rw [hd]
      exact ⟨rfl, rfl, rfl⟩
    rcases hcase with ⟨-, hrun⟩ | ⟨-, o, e', ha, hrun, -, -⟩
    · exact ⟨none, d, hrun, fun _ => hquiet, fun o ho => by cases ho⟩
    · obtain ⟨hrec, c, pc, raws, hexp, hx⟩ := (h.quiet hquiet).author (hquiet.main.trans hm)
        (framable_filtered hnames hl) hnow ha
      refine ⟨some o, e', hrun, fun ho => absurd ho (Option.some_ne_none o), fun o' ho => ?_⟩
      obtain rfl := Option.some.inj ho
      refine ⟨m, c, pc, raws, hm, ⟨hrec.complete, ?_, ?_⟩, hexp, hx⟩
      · rw [← hquiet.store]
        exact hrec.ext
      · rw [hrec.known, hquiet.known]

/-! ### An increment against the closure -/

theorem Honest.main_eq_of_known {e e' : MemEngine Oid} (h : Honest e) (h' : Honest e')
    (hknown : ∀ o, o ∈ e.state.known ↔ o ∈ e'.state.known) :
    ∃ m c files, e.main = some m ∧ e'.main = some m ∧ loadCommit e.store m = .ok c ∧
    loadCommit e'.store m = .ok c ∧
      treeFiles e.store c.tree = .ok files ∧ treeFiles e'.store c.tree = .ok files := by
  apply h.main_eq h'
  intro o
  rw [mem_kept fun _ => h.history.commitIn, mem_kept fun _ => h'.history.commitIn, hknown o]
  refine and_congr_right fun ho => ?_
  exact (effective_tidy h.history.store h'.history.store (h.history.commitIn ((hknown o).mpr ho))
      (h'.history.commitIn ho)).symm

theorem oid_eq_of_compress_eq (hs : s.Sound) {o o' : Oid} {x y : GitObject Oid}
    (hx : s.get o = .ok x) (hy : s.get o' = .ok y) (h : x.compress = y.compress) : o = o' := by
  have hparse := decompressAndParse_compress (hs.get hx).2
  rw [h, decompressAndParse_compress (hs.get hy).2] at hparse
  rw [← (hs.get hx).1, ← (hs.get hy).1, ← x.oid_canon, ← y.oid_canon, Except.ok.inj hparse]

theorem Exported.omits {raws : List Bytes} {o m : Oid} {c pc : CommitObj Oid}
    (h : Exported s raws o m c pc) {q : Oid} {x : GitObject Oid} (hq : Below s [pc.tree] q)
    (hx : s.get q = .ok x) : x.compress ∉ raws := by
  intro hr
  rcases (h.objects _).mp hr with heq | ⟨q', y, -, hout, hy, heq⟩
  · obtain rfl := oid_eq_of_compress_eq h.tidy.sound hx (loadCommit_ok.mp h.load) heq
    have hparent : CommitIn s m := by
      obtain ⟨d, hd, -, hparents⟩ := h.genuine.commitIn.load
      obtain rfl := Except.ok.inj (h.load.symm.trans hd)
      exact hparents m (by rw [h.parents]; exact List.mem_cons_self)
    obtain ⟨d, hd, htree, -⟩ := hparent.load
    obtain rfl := Except.ok.inj (h.parent.symm.trans hd)
    rcases htree.of_below hq with ⟨hes, -, -⟩ | ⟨b, hb⟩
    · cases (loadCommit_ok.mp h.load).symm.trans hes
    · cases (loadCommit_ok.mp h.load).symm.trans hb
  · exact hout (oid_eq_of_compress_eq h.tidy.sound hx hy heq ▸ hq)

/-- A receiver that has the parent ends with the same known list from the increment as from the
closure, which holds the increment. -/
theorem Exported.agrees {e p : MemEngine Oid} (hp : Complete p) {raws : List Bytes} {o m : Oid}
    {c pc : CommitObj Oid} (hx : Exported e.store raws o m c pc)
    (hm : ∃ d, loadCommit p.store m = .ok d) :
    ∃ all n p₁ p₂, e.exportClosure [o] = .ok all ∧ (∀ r ∈ raws, r ∈ all) ∧
      MemEngine.integrate raws p = (.ok n, p₁) ∧ MemEngine.integrate all p = (.ok n, p₂) ∧
      Received o p p₁ ∧ Honest p₂ ∧ p₂.state.known = p₁.state.known := by
  have htips : ∀ k ∈ [o], Genuine e.store k := fun k hk => List.mem_singleton.mp hk ▸ hx.genuine
  obtain ⟨all, hall, hspec⟩ := closureOf_total fun k hk => (htips k hk).commitIn.grounded
  obtain ⟨all', hall', hgathered, hacc⟩ := closureOf_genuine hx.tidy htips
  obtain rfl := Except.ok.inj (hall.symm.trans hall')
  obtain ⟨n, p₁, hrun, hcount, hrec⟩ := hp.integrate hx hm
  obtain ⟨k, p₂, hrun', htook⟩ := hp.honest.integrate_gathered hgathered
  -- all that the closure brings besides the primitive lies below its parent, so it is known
  have hold : ∀ q ∈ accepted all, q ∈ p.state.known ∨ q = o := by
    intro q hq
    obtain ⟨hprim, k, hk, hdesc⟩ := (hacc q).mp hq
    obtain rfl := List.mem_singleton.mp hk
    rcases Relation.ReflTransGen.cases_head hdesc with rfl | ⟨p', hp', hdesc⟩
    · exact .inr rfl
    · rw [parentsOf_of_load hx.load, hx.parents] at hp'
      obtain rfl := List.mem_singleton.mp hp'
      obtain ⟨d, hd⟩ := hm
      obtain ⟨hgen, hcov⟩ := hp.accounted _ d hd
      have hin : CommitIn e.store p' :=
        (hx.genuine.parent hx.load (by rw [hx.parents]; exact List.mem_cons_self)).commitIn
      have hdesc' := descends_tidy hx.tidy hp.honest.history.store hin hgen.commitIn hdesc
      refine .inl (hcov q hdesc' ?_)
      rwa [isPrimitiveOid_sound hx.tidy.sound hp.honest.history.store.sound (hin.ancestor hdesc)
        (hgen.commitIn.ancestor hdesc')]
  have hself : o ∈ accepted all := by
    refine (hacc o).mpr ⟨?_, o, List.mem_cons_self, .refl⟩
    rw [isPrimitiveOid, hx.load]
    exact hx.primitive
  have hknown : p₂.state.known = p₁.state.known := by
    rw [htook.known, hrec.known, foldl_addNew_of_forall hold hself]
  obtain rfl : k = n := by
    have := htook.count
    rw [hknown] at this
    omega
  refine ⟨all, k, p₁, p₂, hall, fun r hr => ?_, hrun, hrun', hrec, htook.honest, hknown⟩
  rw [hspec]
  rcases (hx.objects r).mp hr with rfl | ⟨q, x, hin, -, hget, rfl⟩
  · exact ⟨o, _, below_self List.mem_cons_self, loadCommit_ok.mp hx.load, rfl⟩
  · exact ⟨q, x, (below_cons (loadCommit_ok.mp hx.load)).mpr
      (.inr ⟨_, List.mem_cons_self, hin⟩), hget, rfl⟩

/-- A live push. What a commit authors can be exported both ways. The increment is part of the
closure and repeats nothing of the tree of the parent, and a receiver that has the parent takes in
either, with the same result. -/
theorem push_agrees {e e' p : MemEngine Oid} (he : Complete e) (hp : Complete p)
    (hnames : ∀ q ∈ e.working.keys, Framable q) {now : Nat} (hnow : now < 2 ^ 64) {m o : Oid}
    (hm : e.main = some m) (hrun : MemEngine.commitStaged now e = (.ok (some o), e'))
    (hparent : ∃ d, loadCommit p.store m = .ok d) :
    ∃ raws all n p₁ p₂, e'.exportPrimitive o = .ok raws ∧ e'.exportClosure [o] = .ok all ∧
    (∀ r ∈ raws, r ∈ all) ∧
      (∀ tree q x, mainTree e.store m = .ok tree → Below e'.store [tree] q →
        e'.store.get q = .ok x → x.compress ∉ raws) ∧
      MemEngine.integrate raws p = (.ok n, p₁) ∧ MemEngine.integrate all p = (.ok n, p₂) ∧
      p₁.state.known = addNew p.state.known o ∧ p₂.state.known = p₁.state.known ∧
      ∃ k c files, p₁.main = some k ∧ p₂.main = some k ∧ loadCommit p₁.store k = .ok c ∧
      loadCommit p₂.store k = .ok c ∧
        treeFiles p₁.store c.tree = .ok files ∧ treeFiles p₂.store c.tree = .ok files := by
  obtain ⟨r, e₁, hrun', -, hpush⟩ := he.commitStaged hnames hnow
  obtain ⟨hr, rfl⟩ := Prod.mk.inj (hrun'.symm.trans hrun)
  obtain ⟨m', c, pc, raws, hm', hrec, hexp, hx⟩ := hpush o (Except.ok.inj hr)
  obtain rfl := Option.some.inj (hm.symm.trans hm')
  obtain ⟨all, n, p₁, p₂, hall, hsub, h₁, h₂, hrec₁, hp₂, hknown⟩ := hx.agrees hp hparent
  refine ⟨raws, all, n, p₁, p₂, hexp, hall, hsub, fun tree q x htree hq hget => ?_, h₁, h₂,
    hrec₁.known, hknown,
    hrec₁.complete.honest.main_eq_of_known hp₂ fun q => by rw [hknown]⟩
  obtain ⟨d, hd, rfl⟩ := MemEngine.mainTree_ok.mp htree
  obtain rfl := Except.ok.inj ((loadCommit_extends hrec.ext hd).symm.trans hx.parent)
  exact hx.omits hq hget

/-! ### Two engines and what is in flight -/

def HasParent (s : Store Oid) (raws : List Bytes) : Prop :=
  ∀ r c, raws.head? = some r → decompressAndParse r = .ok (.commit c) → ∀ p ∈ c.parents, ∃ d,
    loadCommit s p = .ok d

omit [LawfulObjectId Oid] [LawfulCrates] in
theorem HasParent.extends {raws : List Bytes} (h : HasParent s raws) (he : s.Extends t) :
    HasParent t raws := by
  intro r c hr hc p hp
  obtain ⟨d, hd⟩ := h r c hr hc p hp
  exact ⟨d, loadCommit_extends he hd⟩

theorem Exported.hasParent_iff {raws : List Bytes} {o m : Oid} {c pc : CommitObj Oid}
    (h : Exported s raws o m c pc) :
    HasParent t raws ↔ ∃ d, loadCommit t m = .ok d := by
  obtain ⟨rest, hhead⟩ := h.head
  have hparse := decompressAndParse_compress (h.tidy.sound.get (loadCommit_ok.mp h.load)).2
  constructor
  · intro hp
    exact hp _ c (by rw [hhead, List.head?_cons]) hparse m
      (by rw [h.parents]; exact List.mem_cons_self)
  · rintro hm r d hr hd p hp
    rw [hhead, List.head?_cons] at hr
    obtain rfl := Option.some.inj hr
    obtain rfl := GitObject.commit.inj (Except.ok.inj (hd.symm.trans hparse))
    rw [h.parents] at hp
    rwa [List.mem_singleton.mp hp]

/-- Two engines, each with the pushes on their way to it, oldest first; and has one of the pushes
been taken in with an error? -/
structure Pair (Oid : Type) [ObjectId Oid] where
  engine : Bool → MemEngine Oid
  inbox : Bool → List (List Bytes)
  failed : Bool

namespace Pair

def goes (w : Pair Oid) (b : Bool) (e : MemEngine Oid) : Pair Oid :=
  { w with engine := Function.update w.engine b e }

def pushed (w : Pair Oid) (b : Bool) (e : MemEngine Oid) (raws : List Bytes) : Pair Oid where
  engine := Function.update w.engine b e
  inbox := Function.update w.inbox (!b) (w.inbox (!b) ++ [raws])
  failed := w.failed

/-- One end has taken its oldest push in, with an error or without. -/
def taken (w : Pair Oid) (b : Bool) (e : MemEngine Oid) (rest : List (List Bytes)) (ok : Bool) :
    Pair Oid where
  engine := Function.update w.engine b e
  inbox := Function.update w.inbox b rest
  failed := w.failed || !ok

/-- A step of either end; a commit may be subject to a condition. Staging, materializing, and a
commit that authors nothing are steps of the host. -/
inductive Step (ready : Pair Oid → Bool → Prop) (w : Pair Oid) : Pair Oid → Prop
  | host {b : Bool} {e : MemEngine Oid} (quiet : Quiet (w.engine b) e) : Step ready w (w.goes b e)
  | push {b : Bool} {now : Nat} {o : Oid} {e : MemEngine Oid} {raws : List Bytes}
      (names : ∀ p ∈ (w.engine b).working.keys, Framable p) (clock : now < 2 ^ 64) (may : ready w b)
      (run : MemEngine.commitStaged now (w.engine b) = (.ok (some o), e))
      (sends : e.exportPrimitive o = .ok raws) :
      Step ready w (w.pushed b e raws)
  | take {b : Bool} {raws : List Bytes} {rest : List (List Bytes)} {r : CspResult Nat}
    {e : MemEngine Oid}
      (head : w.inbox b = raws :: rest) (run : MemEngine.integrate raws (w.engine b) = (r, e)) :
      Step ready w (w.taken b e rest r.isOk)

abbrev Runs (ready : Pair Oid → Bool → Prop) : Pair Oid → Pair Oid → Prop :=
  Relation.ReflTransGen (Step ready)

omit [LawfulObjectId Oid] [LawfulCrates] in
theorem Step.failed {ready : Pair Oid → Bool → Prop} {w w' : Pair Oid} (h : Step ready w w')
    (hf : w'.failed = false) : w.failed = false := by
  cases h with
  | host => exact hf
  | push => exact hf
  | take => exact (Bool.or_eq_false_iff.mp hf).1

/-- Two engines with nothing unaccounted for that know the same, and nothing in flight. -/
structure Level (w : Pair Oid) : Prop where
  complete : ∀ b, Complete (w.engine b)
  known : ∀ o, o ∈ (w.engine true).state.known ↔ o ∈ (w.engine false).state.known
  drained : ∀ b, w.inbox b = []
  failed : w.failed = false

/-- The other end has the `main` that a commit would be authored on. -/
def Ready (w : Pair Oid) (b : Bool) : Prop :=
  ∀ m, (w.engine b).main = some m → ∃ d, loadCommit (w.engine (!b)).store m = .ok d

section Updates
variable (w : Pair Oid) (b : Bool) (e : MemEngine Oid) (raws : List Bytes)
    (rest : List (List Bytes)) (ok : Bool)

omit [Crates] [LawfulObjectId Oid] [LawfulCrates]

@[simp] theorem goes_engine : (w.goes b e).engine b = e := Function.update_self ..
@[simp] theorem goes_engine_not : (w.goes b e).engine (!b) = w.engine (!b) :=
  Function.update_of_ne (by cases b <;> decide) ..
@[simp] theorem goes_inbox : (w.goes b e).inbox = w.inbox := rfl
@[simp] theorem pushed_engine : (w.pushed b e raws).engine b = e := Function.update_self ..
@[simp] theorem pushed_engine_not : (w.pushed b e raws).engine (!b) = w.engine (!b) :=
  Function.update_of_ne (by cases b <;> decide) ..
@[simp] theorem pushed_inbox : (w.pushed b e raws).inbox b = w.inbox b :=
  Function.update_of_ne (by cases b <;> decide) ..
@[simp] theorem pushed_inbox_not : (w.pushed b e raws).inbox (!b) = w.inbox (!b) ++ [raws] :=
  Function.update_self ..
@[simp] theorem taken_engine : (w.taken b e rest ok).engine b = e := Function.update_self ..
@[simp] theorem taken_engine_not : (w.taken b e rest ok).engine (!b) = w.engine (!b) :=
  Function.update_of_ne (by cases b <;> decide) ..
@[simp] theorem taken_inbox : (w.taken b e rest ok).inbox b = rest := Function.update_self ..
@[simp] theorem taken_inbox_not : (w.taken b e rest ok).inbox (!b) = w.inbox (!b) :=
  Function.update_of_ne (by cases b <;> decide) ..

end Updates

/-! ### The invariant -/

/-- What holds all the time: each push is an increment that its sender knows, and what one end knows
and the other does not is on its way. -/
structure Steady (w : Pair Oid) : Prop where
  complete : ∀ b, Complete (w.engine b)
  exported : ∀ b, ∀ raws ∈ w.inbox b, ∃ (s : Store Oid) (o m : Oid) (c pc : CommitObj Oid),
    Exported s raws o m c pc
  sent : ∀ b, ∀ raws ∈ w.inbox b, ∀ o ∈ accepted raws, o ∈ (w.engine (!b)).state.known
  shared : ∀ b, ∀ o ∈ (w.engine b).state.known,
    o ∈ (w.engine (!b)).state.known ∨ ∃ raws ∈ w.inbox (!b), o ∈ accepted raws

omit [LawfulObjectId Oid] [LawfulCrates] in
theorem Level.steady {w : Pair Oid} (h : w.Level) : w.Steady where
  complete := h.complete
  exported b raws hr := by
    rw [h.drained] at hr
    cases hr
  sent b raws hr := by
    rw [h.drained] at hr
    cases hr
  shared b o ho := by
    cases b with
    | true => exact .inl ((h.known o).mp ho)
    | false => exact .inl ((h.known o).mpr ho)

theorem Steady.pushed {w : Pair Oid} (h : w.Steady) {b : Bool} {e : MemEngine Oid}
    {raws : List Bytes} {o m : Oid} {c pc : CommitObj Oid} (hrec : Received o (w.engine b) e)
    (hx : Exported e.store raws o m c pc) :
    (w.pushed b e raws).Steady := by
  have hmono : ∀ q ∈ (w.engine b).state.known, q ∈ e.state.known := fun q hq => by
    rw [hrec.known]
    exact mem_addNew.mpr (.inl hq)
  constructor
  · refine Link.forall_end (b := b) ?_ ?_
    · rw [pushed_engine]
      exact hrec.complete
    · rw [pushed_engine_not]
      exact h.complete (!b)
  · refine Link.forall_end (b := b) ?_ ?_
    · rw [pushed_inbox]
      exact h.exported b
    · intro raws' hr
      rw [pushed_inbox_not] at hr
      rcases List.mem_append.mp hr with hr | hr
      · exact h.exported (!b) raws' hr
      · obtain rfl := List.mem_singleton.mp hr
        exact ⟨_, _, _, _, _, hx⟩
  · refine Link.forall_end (b := b) ?_ ?_
    · rw [pushed_inbox, pushed_engine_not]
      exact h.sent b
    · intro raws' hr q hq
      rw [Bool.not_not, pushed_engine]
      rw [pushed_inbox_not] at hr
      rcases List.mem_append.mp hr with hr | hr
      · have := h.sent (!b) raws' hr q hq
        rw [Bool.not_not] at this
        exact hmono q this
      · obtain rfl := List.mem_singleton.mp hr
        rw [hx.mem_accepted.mp hq, hrec.known]
        exact mem_addNew.mpr (.inr rfl)
  · refine Link.forall_end (b := b) ?_ ?_
    · intro q hq
      rw [pushed_engine, hrec.known] at hq
      rw [pushed_engine_not, pushed_inbox_not]
      rcases mem_addNew.mp hq with hq | rfl
      · exact (h.shared b q hq).imp id fun ⟨raws', hr, ha⟩ => ⟨raws', List.mem_append_left _ hr, ha⟩
      · exact .inr ⟨raws, List.mem_append_right _ List.mem_cons_self, hx.mem_accepted.mpr rfl⟩
    · intro q hq
      rw [pushed_engine_not] at hq
      have := h.shared (!b) q hq
      rw [Bool.not_not] at this ⊢
      rw [pushed_engine, pushed_inbox]
      exact this.imp (hmono q) id

omit [LawfulObjectId Oid] [LawfulCrates] in
theorem Steady.taken {w : Pair Oid} (h : w.Steady) {b : Bool} {e : MemEngine Oid}
    {raws : List Bytes} {rest : List (List Bytes)} (head : w.inbox b = raws :: rest) {o : Oid}
    (hrec : Received o (w.engine b) e) (hacc : ∀ q, q ∈ accepted raws ↔ q = o) (ok : Bool) :
    (w.taken b e rest ok).Steady := by
  have hmono : ∀ q ∈ (w.engine b).state.known, q ∈ e.state.known := fun q hq => by
    rw [hrec.known]
    exact mem_addNew.mpr (.inl hq)
  have hmem : ∀ raws' ∈ rest, raws' ∈ w.inbox b := fun raws' hr => by
    rw [head]
    exact List.mem_cons_of_mem _ hr
  have hhead : raws ∈ w.inbox b := by
    rw [head]
    exact List.mem_cons_self
  constructor
  · refine Link.forall_end (b := b) ?_ ?_
    · rw [taken_engine]
      exact hrec.complete
    · rw [taken_engine_not]
      exact h.complete (!b)
  · refine Link.forall_end (b := b) ?_ ?_
    · rw [taken_inbox]
      exact fun raws' hr => h.exported b raws' (hmem raws' hr)
    · rw [taken_inbox_not]
      exact h.exported (!b)
  · refine Link.forall_end (b := b) ?_ ?_
    · rw [taken_inbox, taken_engine_not]
      exact fun raws' hr => h.sent b raws' (hmem raws' hr)
    · intro raws' hr q hq
      rw [taken_inbox_not] at hr
      have := h.sent (!b) raws' hr q hq
      rw [Bool.not_not] at this ⊢
      rw [taken_engine]
      exact hmono q this
  · refine Link.forall_end (b := b) ?_ ?_
    · intro q hq
      rw [taken_engine, hrec.known] at hq
      rw [taken_engine_not, taken_inbox_not]
      rcases mem_addNew.mp hq with hq | rfl
      · exact h.shared b q hq
      · exact .inl (h.sent b raws hhead q ((hacc q).mpr rfl))
    · intro q hq
      rw [taken_engine_not] at hq
      have := h.shared (!b) q hq
      rw [Bool.not_not] at this ⊢
      rw [taken_engine, taken_inbox]
      rcases this with hq | ⟨raws', hr, hq⟩
      · exact .inl (hmono q hq)
      · rw [head] at hr
        rcases List.mem_cons.mp hr with rfl | hr
        · rw [(hacc q).mp hq, hrec.known]
          exact .inl (mem_addNew.mpr (.inr rfl))
        · exact .inr ⟨raws', hr, hq⟩

variable {ready : Pair Oid → Bool → Prop}

theorem Steady.commits {w : Pair Oid} (h : w.Steady) {b : Bool} {now : Nat} {o : Oid}
    {e : MemEngine Oid} (names : ∀ p ∈ (w.engine b).working.keys, Framable p) (clock : now < 2 ^ 64)
    (run : MemEngine.commitStaged now (w.engine b) = (.ok (some o), e)) :
    ∃ m c pc raws, (w.engine b).main = some m ∧ Received o (w.engine b) e ∧
    e.exportPrimitive o = .ok raws ∧
      Exported e.store raws o m c pc := by
  obtain ⟨r, e', hrun, -, hpush⟩ := (h.complete b).commitStaged names clock
  obtain ⟨hr, rfl⟩ := Prod.mk.inj (hrun.symm.trans run)
  exact hpush o (Except.ok.inj hr)

/-- Step lemma. Besides, no store loses anything. -/
theorem Steady.step {w w' : Pair Oid} (h : w.Steady) (hs : Step ready w w')
    (hf : w'.failed = false) :
    w'.Steady ∧ ∀ b, (w.engine b).store.Extends (w'.engine b).store := by
  cases hs with
  | @host b e quiet =>
    have hknown := quiet.known
    refine ⟨⟨?_, fun c => h.exported c, ?_, ?_⟩, ?_⟩
    · refine Link.forall_end (b := b) ?_ ?_
      · rw [goes_engine]
        exact (h.complete b).quiet quiet
      · rw [goes_engine_not]
        exact h.complete (!b)
    · refine Link.forall_end (b := b) ?_ ?_
      · rw [goes_engine_not]
        exact h.sent b
      · have := h.sent (!b)
        rw [Bool.not_not] at this ⊢
        rw [goes_engine, hknown]
        exact this
    · refine Link.forall_end (b := b) ?_ ?_
      · rw [goes_engine, goes_engine_not, hknown]
        exact h.shared b
      · have := h.shared (!b)
        rw [Bool.not_not] at this ⊢
        rw [goes_engine, goes_engine_not, hknown]
        exact this
    · refine Link.forall_end (b := b) ?_ ?_
      · rw [goes_engine, quiet.store]
        exact .refl _
      · rw [goes_engine_not]
        exact .refl _
  -- a commit adds one primitive, and what it exports is that primitive's increment
  | @push b now o e raws names clock may run sends =>
    obtain ⟨m, c, pc, raws', -, hrec, hexp, hx⟩ := h.commits names clock run
    obtain rfl := Except.ok.inj (hexp.symm.trans sends)
    refine ⟨h.pushed hrec hx, Link.forall_end (b := b) ?_ ?_⟩
    · rw [pushed_engine]
      exact hrec.ext
    · rw [pushed_engine_not]
      exact .refl _
  | @take b raws rest r e head run =>
    obtain ⟨s, o, m, c, pc, hx⟩ := h.exported b raws (by rw [head]; exact List.mem_cons_self)
    -- a delivery that fails is recorded, and this one is not
    have hok : ∃ n e, MemEngine.integrate raws (w.engine b) = (.ok n, e) := by
      cases r with
      | error err => cases (Bool.or_eq_false_iff.mp hf).2
      | ok n => exact ⟨n, e, run⟩
    obtain ⟨n', e', hrun, -, hrec⟩ := (h.complete b).integrate hx
      (((h.complete b).integrate_iff hx).mp hok)
    obtain ⟨-, rfl⟩ := Prod.mk.inj (hrun.symm.trans run)
    refine ⟨h.taken head hrec (fun q => hx.mem_accepted) _, Link.forall_end (b := b) ?_ ?_⟩
    · rw [taken_engine]
      exact hrec.ext
    · rw [taken_engine_not]
      exact .refl _

theorem Steady.runs {w w' : Pair Oid} (h : w.Steady) (hr : Runs ready w w')
    (hf : w'.failed = false) :
    w'.Steady := by
  induction hr with
  | refl => exact h
  | tail _ hs ih => exact ((ih (hs.failed hf)).step hs hf).1

theorem Steady.take_iff {w : Pair Oid} (h : w.Steady) {b : Bool} {raws : List Bytes}
    {rest : List (List Bytes)} (head : w.inbox b = raws :: rest) :
    (∃ n e, MemEngine.integrate raws (w.engine b) = (.ok n, e)) ↔
    HasParent (w.engine b).store raws := by
  obtain ⟨s, o, m, c, pc, hx⟩ := h.exported b raws (by rw [head]; exact List.mem_cons_self)
  rw [(h.complete b).integrate_iff hx, hx.hasParent_iff]

theorem Steady.agree {w : Pair Oid} (h : w.Steady) (hd : ∀ b, w.inbox b = []) :
    (∀ o, o ∈ (w.engine true).state.known ↔ o ∈ (w.engine false).state.known) ∧
      ∃ m c files, ∀ b, (w.engine b).main = some m ∧ loadCommit (w.engine b).store m = .ok c ∧
        treeFiles (w.engine b).store c.tree = .ok files := by
  have hsub : ∀ b, ∀ o ∈ (w.engine b).state.known, o ∈ (w.engine (!b)).state.known := by
    intro b o ho
    rcases h.shared b o ho with ho | ⟨raws, hr, -⟩
    · exact ho
    · rw [hd] at hr
      cases hr
  have hknown : ∀ o, o ∈ (w.engine true).state.known ↔ o ∈ (w.engine false).state.known :=
    fun o => ⟨hsub true o, hsub false o⟩
  obtain ⟨m, c, files, hm, hm', hc, hc', hf, hf'⟩ := (h.complete true).honest.main_eq_of_known
    (h.complete false).honest hknown
  exact ⟨hknown, m, c, files, Link.forall_end (b := true) ⟨hm, hc, hf⟩ ⟨hm', hc', hf'⟩⟩

/-- Live pushes between two engines that start level, in any order of commits and deliveries. As
long as no delivery has failed, what is committed can be pushed; the oldest push is taken in
without an error if and only if its receiver has the parent of the primitive; and whenever nothing
is in flight the two know the same and have one `main`. -/
theorem live_exact {w₀ w : Pair Oid} (h₀ : w₀.Level) (hr : Runs ready w₀ w)
    (hf : w.failed = false) :
    (∀ b now, (∀ p ∈ (w.engine b).working.keys, Framable p) → now < 2 ^ 64 →
      ∃ r e, MemEngine.commitStaged now (w.engine b) = (.ok r, e) ∧ ∀ o, r = some o → ∃ raws,
      e.exportPrimitive o = .ok raws) ∧
    (∀ b raws rest, w.inbox b = raws :: rest →
      ((∃ n e, MemEngine.integrate raws (w.engine b) = (.ok n, e)) ↔
        HasParent (w.engine b).store raws)) ∧
    ((∀ b, w.inbox b = []) → (∀ o, o ∈ (w.engine true).state.known ↔
      o ∈ (w.engine false).state.known) ∧
      ∃ m c files, ∀ b, (w.engine b).main = some m ∧ loadCommit (w.engine b).store m = .ok c ∧
        treeFiles (w.engine b).store c.tree = .ok files) := by
  have h := h₀.steady.runs hr hf
  refine ⟨fun b now names clock => ?_, fun b raws rest head => h.take_iff head, h.agree⟩
  obtain ⟨r, e, hrun, -, hpush⟩ := (h.complete b).commitStaged names clock
  refine ⟨r, e, hrun, fun o ho => ?_⟩
  obtain ⟨m, c, pc, raws, -, -, hexp, -⟩ := hpush o ho
  exact ⟨raws, hexp⟩

/-! ### Commits on what the other end has -/

/-- A push whose commit was ready stays ready to be taken in, and is taken in. -/
theorem Steady.landing {w w' : Pair Oid} (h : w.Steady) (hw : w.failed = false)
    (hland : ∀ b, ∀ raws ∈ w.inbox b, HasParent (w.engine b).store raws) (hs : Step Ready w w') :
    w'.failed = false ∧ ∀ b, ∀ raws ∈ w'.inbox b, HasParent (w'.engine b).store raws := by
  have hf : w'.failed = false := by
    cases hs with
    | host quiet => exact hw
    | push names clock may run sends => exact hw
    | @take b raws rest r e head run =>
      obtain ⟨n, e', hrun⟩ :=
        (h.take_iff head).mpr (hland b raws (by rw [head]; exact List.mem_cons_self))
      obtain ⟨rfl, -⟩ := Prod.mk.inj (hrun.symm.trans run)
      exact Bool.or_eq_false_iff.mpr ⟨hw, rfl⟩
  refine ⟨hf, ?_⟩
  have hext := (h.step hs hf).2
  have hold : ∀ b, ∀ raws ∈ w.inbox b, HasParent (w'.engine b).store raws := fun b raws hr =>
    (hland b raws hr).extends (hext b)
  cases hs with
  | host quiet => exact hold
  | @push b now o e raws names clock may run sends =>
    obtain ⟨m, c, pc, raws', hm, -, hexp, hx⟩ := h.commits names clock run
    obtain rfl := Except.ok.inj (hexp.symm.trans sends)
    refine Link.forall_end (b := b) ?_ fun raws hr => ?_
    · rw [pushed_inbox]
      exact hold b
    · rw [pushed_inbox_not] at hr
      rcases List.mem_append.mp hr with hr | hr
      · exact hold (!b) raws hr
      · rw [List.mem_singleton.mp hr, hx.hasParent_iff, pushed_engine_not]
        exact may m hm
  | @take b raws rest r e head run =>
    refine Link.forall_end (b := b) (fun raws' hr => ?_) ?_
    · rw [taken_inbox] at hr
      exact hold b raws' (by rw [head]; exact List.mem_cons_of_mem _ hr)
    · rw [taken_inbox_not]
      exact hold (!b)

/-- If each commit is authored on a `main` that the other end has by then, no push ever fails.
That is so for a commit that is made while nothing is in flight. -/
theorem calm_lands {w₀ w : Pair Oid} (h₀ : w₀.Level) (hr : Runs Ready w₀ w) :
    w.failed = false ∧
    (∀ b raws rest, w.inbox b = raws :: rest → ∃ n e, MemEngine.integrate raws (w.engine b) =
      (.ok n, e)) ∧
    ((∀ b, w.inbox b = []) → ∀ b, w.Ready b) := by
  have hland : w.failed = false ∧ ∀ b, ∀ raws ∈ w.inbox b, HasParent (w.engine b).store raws := by
    induction hr with
    | refl =>
      refine ⟨h₀.failed, fun b raws hr => ?_⟩
      rw [h₀.drained] at hr
      cases hr
    | tail hr hs ih => exact (h₀.steady.runs hr ih.1).landing ih.1 ih.2 hs
  have h := h₀.steady.runs hr hland.1
  refine ⟨hland.1, fun b raws rest head => ?_, ?_⟩
  · exact (h.take_iff head).mpr (hland.2 b raws (by rw [head]; exact List.mem_cons_self))
  intro hd b m hm
  obtain ⟨-, m', c, files, hall⟩ := h.agree hd
  obtain rfl := Option.some.inj (hm.symm.trans (hall b).1)
  exact ⟨c, (hall (!b)).2.1⟩

end Pair

end Spec

end Csp

/-! ### A first commit and a new engine -/

namespace Csp.Small
open Pair

def neighbour : MemEngine Shadow := MemEngine.create ⟨[2]⟩ [] []

def neighbours : Pair Shadow where
  engine b := cond b drafted neighbour
  inbox _ := []
  failed := false

theorem complete_drafted : Complete drafted :=
  (complete_create owner [] [] : Complete fresh).quiet quiet_drafted

theorem complete_neighbour : Complete neighbour := complete_create ⟨[2]⟩ [] []

theorem level_neighbours : neighbours.Level :=
  ⟨fun b => b.rec complete_neighbour complete_drafted, fun _ => Iff.rfl, fun _ => rfl, rfl⟩

theorem ready_neighbours : neighbours.Ready true := by
  intro m hm
  obtain ⟨m', hm', -, hgen, -⟩ := complete_neighbour.honest.main
  obtain rfl := Option.some.inj (hm.symm.trans hm')
  obtain ⟨c, hc, -⟩ := hgen.commitIn.load
  exact ⟨c, hc⟩

theorem pushed_neighbours : ∃ e raws, ∀ ready : Pair Shadow → Bool → Prop, ready neighbours true →
    Runs ready neighbours (neighbours.pushed true e raws) := by
  obtain ⟨o, e, hrun⟩ := committed_drafted
  obtain ⟨m, c, pc, raws, -, -, hexp, -⟩ := level_neighbours.steady.commits
    (b := true) framable_nested (Nat.two_pow_pos 64) hrun
  exact ⟨e, raws, fun ready may => .single (.push framable_nested
      (Nat.two_pow_pos 64) may hrun hexp)⟩

theorem push_agrees_drafted : ∃ o e raws n p m, MemEngine.commitStaged 0 drafted =
    (.ok (some o), e) ∧ e.exportPrimitive o = .ok raws ∧ MemEngine.integrate raws neighbour =
    (.ok n, p) ∧ p.main = some m := by
  obtain ⟨o, e, hrun⟩ := committed_drafted
  obtain ⟨m, hm, -⟩ := complete_drafted.honest.main
  obtain ⟨raws, all, n, p₁, p₂, hexp, -, -, -, h₁, -, -, -, k, c, files, hk, -⟩ :=
    push_agrees complete_drafted
    complete_neighbour framable_nested (Nat.two_pow_pos 64) hm hrun (ready_neighbours m hm)
  exact ⟨o, e, raws, n, p₁, k, hrun, hexp, h₁, hk⟩

theorem live_exact_neighbours : ∃ w raws, Runs (fun _ _ => True) neighbours w ∧
    w.inbox false = [raws] ∧ ((∃ n e, MemEngine.integrate raws (w.engine false) = (.ok n, e)) ↔
      HasParent (w.engine false).store raws) := by
  obtain ⟨e, raws, hruns⟩ := pushed_neighbours
  obtain ⟨-, htake, -⟩ := live_exact level_neighbours (hruns (fun _ _ => True) trivial) rfl
  exact ⟨_, raws, hruns _ trivial, rfl, htake false raws [] rfl⟩

theorem calm_lands_neighbours : ∃ w raws n e, Runs Ready neighbours w ∧ w.inbox false = [raws] ∧
    MemEngine.integrate raws (w.engine false) = (.ok n, e) := by
  obtain ⟨e, raws, hruns⟩ := pushed_neighbours
  obtain ⟨-, hland, -⟩ := calm_lands level_neighbours (hruns Ready ready_neighbours)
  obtain ⟨n, e', hrun⟩ := hland false raws [] rfl
  exact ⟨_, raws, n, e', hruns Ready ready_neighbours, rfl, hrun⟩

end Csp.Small
