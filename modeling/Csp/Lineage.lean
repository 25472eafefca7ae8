import Csp.Atomic
import Csp.Authoring
import Csp.Materialize
import Csp.Numbered
import Csp.Readings

/-! An engine's own commits line up. `main` descends from everything that is known, so that
what is authored on `main` is the only tip there is. -/

namespace Csp
open Result
variable {Oid : Type} [ObjectId Oid] [Crates] {s t : Store Oid}

/-- What staging, scope changes, the bootstrap flag and materialize plans do: the objects,
the known list and `main` stay. -/
structure Quiet (e e' : MemEngine Oid) : Prop where
  store : e'.store = e.store
  known : e'.state.known = e.state.known
  main : e'.main = e.main

/-- The batch decodes, and with it the store holds each primitive that is accepted in full. -/
def CompleteBatch (s : Store Oid) (raws : List Bytes) : Prop :=
  (decoded raws : List (GitObject Oid) × Option CspError).2 = none ∧
    ∀ o ∈ accepted raws, CommitIn (s.putAll (decoded raws).1) o

/-- The engines that honest commits and integrates of complete batches lead to. Working
paths hold no NUL and the clock is one of 64 bits. -/
inductive Reached : MemEngine Oid → Prop
  | create (id : Identity) (vaultId name : Str) : Reached (MemEngine.create id vaultId name)
  | quiet {e e' : MemEngine Oid} (h : Reached e) (hq : Quiet e e') : Reached e'
  | commit {e e' : MemEngine Oid} {now : Nat} {r : Option Oid} (h : Reached e)
      (hnames : ∀ p ∈ e.working.keys, Framable p) (hnow : now < 2 ^ 64)
      (hc : MemEngine.commitStaged now e = (.ok r, e')) : Reached e'
  | integrate {e e' : MemEngine Oid} {raws : List Bytes} {n : Nat} (h : Reached e)
      (hraws : CompleteBatch e.store raws) (hi : MemEngine.integrate raws e =
        (.ok n, e')) : Reached e'

/-- What holds of such an engine: each known id is a primitive held in full, and `main` is a
commit above all of them that are no ghost-adds. -/
structure Linear (e : MemEngine Oid) : Prop where
  sound : e.store.Sound
  nodup : e.state.known.Nodup
  commitIn : ∀ o ∈ e.state.known, CommitIn e.store o
  primitive : ∀ o ∈ e.state.known, isPrimitiveOid e.store o = true
  main : ∃ m, e.main = some m ∧ CommitIn e.store m ∧
    ∀ o ∈ e.state.known, Effective e.store o → Above e.store m o

theorem Linear.quiet {e e' : MemEngine Oid} (h : Linear e) (hq : Quiet e e') : Linear e' := by
  constructor
  · rw [hq.store]
    exact h.sound
  · rw [hq.known]
    exact h.nodup
  · rw [hq.store, hq.known]
    exact h.commitIn
  · rw [hq.store, hq.known]
    exact h.primitive
  · rw [hq.store, hq.known, hq.main]
    exact h.main

/-! ### What keeps the invariant -/

section Spec
variable [LawfulObjectId Oid] [LawfulCrates]

omit [LawfulObjectId Oid] [LawfulCrates] in
theorem effective_of_extends {o : Oid} (he : s.Extends t) (h : CommitIn s o) :
    Effective t o ↔ Effective s o := by
  obtain ⟨b, hb⟩ := isGhost_total h
  have hb' := he.carries.isGhost (fun _ hq => hq) trivial h hb
  rw [Effective, Effective, isGhost_ok hb, isGhost_ok hb']

omit [LawfulObjectId Oid] [LawfulCrates] in
theorem isPrimitiveOid_extends {o : Oid} (he : s.Extends t) (h : isPrimitiveOid s o = true) :
    isPrimitiveOid t o = true := by
  unfold isPrimitiveOid at h ⊢
  cases hc : loadCommit s o with
  | error err => simp [hc] at h
  | ok c =>
    rw [loadCommit_extends he hc]
    simpa [hc] using h

theorem commitIn_computeMain (hs : s.Sound) {known : List Oid} (hin : ∀ o ∈ known, CommitIn s o)
    {m : Oid} (h : computeMain known s = (.ok m, t)) : CommitIn t m := by
  have htwins : Twins (fun _ => True) s s :=
    ⟨(Store.Extends.refl s).carries.mono fun _ => Tidy.flat, hs, hs⟩
  obtain ⟨-, -, -, -, -, hm⟩ := htwins.computeMain rfl (fun _ _ => trivial) hin h
  exact hm

theorem linear_of_computeMain {e : MemEngine Oid} (hs : s.Sound) (hnd : e.state.known.Nodup)
    (hin : ∀ o ∈ e.state.known, CommitIn s o) (hprim : ∀ o ∈ e.state.known,
      isPrimitiveOid s o = true)
    {m : Oid} (hm : e.main = some m) (h : computeMain e.state.known s = (.ok m, e.store)) :
    Linear e := by
  have hext : s.Extends e.store := by
    have := extends_computeMain e.state.known s
    rwa [h] at this
  have hsound : e.store.Sound := by
    have := hs.computeMain e.state.known
    rwa [h] at this
  refine ⟨hsound, hnd, fun o ho => (hin o ho).extends hext,
    fun o ho => isPrimitiveOid_extends hext (hprim o ho), m, hm, commitIn_computeMain hs hin h,
    fun o ho heff => ?_⟩
  exact computeMain_above hs hin hprim h ho ((effective_of_extends hext (hin o ho)).mp heff)

omit [LawfulObjectId Oid] [LawfulCrates] in
theorem Linear.grow {e e' : MemEngine Oid} (h : Linear e) (hext : e.store.Extends e'.store)
    (hs : e'.store.Sound) (hk : e'.state.known = e.state.known) (hm : e'.main = e.main) :
    Linear e' := by
  obtain ⟨m, hmain, hmin, habove⟩ := h.main
  refine ⟨hs, hk ▸ h.nodup, ?_, ?_, m, hm.trans hmain, hmin.extends hext, ?_⟩
  · rw [hk]
    exact fun o ho => (h.commitIn o ho).extends hext
  · rw [hk]
    exact fun o ho => isPrimitiveOid_extends hext (h.primitive o ho)
  · rw [hk]
    intro o ho heff
    exact (habove o ho ((effective_of_extends hext (h.commitIn o ho)).mp heff)).extends hext

theorem linear_create (id : Identity) (vaultId name : Str) :
    Linear (MemEngine.create id vaultId name : MemEngine Oid) := by
  have hs : (Store.empty .mem : Store Oid).Sound := Store.sound_empty _
  have hstore : (genesis (Store.empty .mem : Store Oid)).2 =
      (Store.empty .mem).putAll [emptyTree, .commit genesisCommit] := by rw [genesis_run]
  refine ⟨?_, List.nodup_nil, by simp [MemEngine.create], by simp [MemEngine.create], _, rfl, ?_,
    by simp [MemEngine.create]⟩
  · rw [MemEngine.create, hstore]
    exact hs.putAll written_genesis.encodable
  · rw [MemEngine.create, hstore]
    exact (commitIn_genesis hs).2

theorem isPrimitiveOid_accepted (hs : s.Sound) {raws : List Bytes}
    (hraws : CompleteBatch s raws) {o : Oid} (ho : o ∈ accepted raws) :
    isPrimitiveOid (s.putAll (decoded raws).1) o = true := by
  obtain ⟨r, hr, c, hc, hprim, -, rfl⟩ := mem_accepted.mp ho
  obtain ⟨x, hx, hx'⟩ := decoded_of_all hraws.1 r hr
  obtain rfl : GitObject.commit c = x := Except.ok.inj (hc.symm.trans hx')
  obtain ⟨d, hd, -⟩ := (hraws.2 _ ho).load
  have hget := (hs.putAll fun x hx => encodable_of_mem_decoded hx).get (loadCommit_ok.mp hd)
  have hcan := canon_eq_of_oid_eq hget.2 (encodable_of_mem_decoded hx) hget.1
  obtain rfl : d = c := GitObject.commit.inj hcan
  rw [isPrimitiveOid, hd]
  exact hprim

/-- What an integrate that returned did: it stored objects, or also recomputed `main` from a
longer known list on a store that has them. -/
inductive Ingested (raws : List Bytes) (e e' : MemEngine Oid) : Prop
  | kept (ext : (e.store.putAll (decoded raws).1).Extends e'.store) (sound : e.store.Sound →
      e'.store.Sound)
      (known : e'.state.known = e.state.known) (main : e'.main = e.main)
  | folded {u : Store Oid} {m : Oid} (ext : (e.store.putAll (decoded raws).1).Extends u)
      (sound : e.store.Sound → u.Sound) (known :
        e'.state.known = (accepted raws).foldl addNew e.state.known)
      (run : computeMain e'.state.known u = (.ok m, e'.store)) (main : e'.main = some m)

theorem MemEngine.integrate_cases {e e' : MemEngine Oid} {raws : List Bytes} {n : Nat}
    (hi : MemEngine.integrate raws e = (.ok n, e')) : Ingested raws e e' := by
  have hadm := admits_foldl raws e.state 0
  have hext := extends_verifyBatch raws (e.store.putAll (decoded raws).1)
  have hsound : e.store.Sound → (verifyBatch raws (e.store.putAll (decoded raws).1)).2.Sound :=
      fun hs =>
    (hs.putAll fun x hx => encodable_of_mem_decoded hx).verifyBatch raws
  rw [MemEngine.integrate_run] at hi
  split at hi
  · cases hi
  rcases hv : verifyBatch raws (e.store.putAll (decoded raws).1) with ⟨err | b, u⟩
  · rw [hv] at hi
    cases hi
  rw [hv] at hi hext hsound
  cases b with
  | false =>
    obtain ⟨-, rfl⟩ := Prod.mk.inj hi
    exact .kept hext hsound rfl rfl
  | true =>
    simp only at hi
    split_ifs at hi with h0
    · obtain ⟨-, rfl⟩ := Prod.mk.inj hi
      have hsame := foldl_addNew_eq_self.mpr (hadm.count_eq_zero.mp h0)
      exact .kept hext hsound (hadm.known.trans hsame) rfl
    · split at hi
      · rename_i m v hm
        obtain ⟨-, rfl⟩ := Prod.mk.inj hi
        exact .folded hext hsound hadm.known hm rfl
      · cases hi

theorem Linear.integrate {e e' : MemEngine Oid} (h : Linear e) {raws : List Bytes} {n : Nat}
    (hraws : CompleteBatch e.store raws) (hi : MemEngine.integrate raws e = (.ok n, e')) :
    Linear e' := by
  have hext := e.store.extends_putAll (decoded raws : List (GitObject Oid) × Option CspError).1
  cases MemEngine.integrate_cases hi with
  | kept hext' hsound hknown hmain => exact h.grow (hext.trans hext') (hsound h.sound) hknown hmain
  | @folded u m hext' hsound hknown hrun hmain =>
    have hall : ∀ o ∈ e'.state.known, CommitIn u o ∧ isPrimitiveOid u o = true := by
      intro o ho
      rw [hknown, mem_foldl_addNew] at ho
      rcases ho with ho | ho
      · exact ⟨((h.commitIn o ho).extends hext).extends hext', isPrimitiveOid_extends
          (hext.trans hext') (h.primitive o ho)⟩
      · exact ⟨(hraws.2 o ho).extends hext', isPrimitiveOid_extends hext'
          (isPrimitiveOid_accepted h.sound hraws ho)⟩
    refine linear_of_computeMain (hsound h.sound) ?_ (fun o ho => (hall o ho).1)
      (fun o ho => (hall o ho).2) hmain hrun
    rw [hknown]
    exact nodup_foldl_addNew _ h.nodup

/-! ### A commit -/

omit [LawfulObjectId Oid] [LawfulCrates] in
theorem nodup_frontier {known f : List Oid} (hnd : known.Nodup) (hin : ∀ q ∈ known, CommitIn t q)
    (hf : frontier t known = .ok f) : f.Nodup := by
  obtain ⟨keys, hkeys, hlt⟩ := frontier_sorted hnd hin hf
  have hmap : f.mapM (orderKey t) = .ok (f.map (viewOf t).key) := by
    refine mapM_eq_ok_map fun q hq => ?_
    obtain ⟨k, -, hk⟩ := mapM_ok_mem hkeys hq
    simp [viewOf, hk, Except.toOption]
  obtain rfl := Except.ok.inj (hkeys.symm.trans hmap)
  exact List.Nodup.of_map _ (hlt.imp fun h => ne_of_lt h)

omit [LawfulObjectId Oid] [LawfulCrates] in
theorem frontier_authored {m o : Oid} {known : List Oid} (hnd : known.Nodup)
    (hin : ∀ q ∈ known, CommitIn t q) (hprim : ∀ q ∈ known, isPrimitiveOid t q = true)
    (habove : ∀ q ∈ known, Effective t q → Above t m q) (ho : CommitIn t o)
    (hop : isPrimitiveOid t o = true) (heff : Effective t o) (hm : m ∈ parentsOf t o) :
    frontier t (addNew known o) = .ok [o] := by
  have hknown : ∀ q, q ∈ addNew known o ↔ q ∈ known ∨ q = o := fun q => mem_addNew
  have hin' : ∀ q ∈ addNew known o, CommitIn t q := fun q hq =>
    ((hknown q).mp hq).elim (hin q) fun h => h ▸ ho
  have hprim' : ∀ q ∈ addNew known o, isPrimitiveOid t q = true := fun q hq =>
    ((hknown q).mp hq).elim (hprim q) fun h => h ▸ hop
  have hf := frontier_eq hin'
  have hmem := mem_frontier hin' hprim' hf
  -- every effective known primitive lies below the new one
  have hbelow : ∀ q ∈ known, Effective t q → Above t o q := fun q hq hqe =>
    .head hm (habove q hq hqe)
  have honly : ∀ q ∈ (viewOf t).frontier (addNew known o), q = o := by
    intro q hq
    obtain ⟨⟨hqk, hqe⟩, hmax⟩ := (hmem q).mp hq
    rcases (hknown q).mp hqk with hqk | rfl
    · exact absurd (hbelow q hqk hqe) (hmax o ((hknown o).mpr (.inr rfl)) heff)
    · rfl
  have hself : o ∈ (viewOf t).frontier (addNew known o) := by
    refine (hmem o).mpr ⟨⟨(hknown o).mpr (.inr rfl), heff⟩, fun q hq hqe hqo => ?_⟩
    rcases (hknown q).mp hq with hqk | rfl
    · exact (hin q hqk).history.acyclic (hqo.trans (hbelow q hqk hqe))
    · exact ho.history.acyclic hqo
  have hnodup := nodup_frontier (nodup_foldl_addNew [o] hnd) hin' hf
  have hperm : ((viewOf t).frontier (addNew known o)).Perm [o] := by
    apply (List.perm_ext_iff_of_nodup hnodup (List.nodup_singleton o)).mpr
    intro q
    rw [List.mem_singleton]
    exact ⟨honly q, fun h => h ▸ hself⟩
  rw [hf, List.perm_singleton.mp hperm]

omit [Crates] [LawfulObjectId Oid] [LawfulCrates] in
theorem mem_of_mem_canonicalizeKeeps {files : FileMap} {sc : Scope} {p : Path}
    (h : p ∈ (canonicalizeKeeps files sc).keys) : p ∈ files.keys := by
  suffices ∀ (ks : List Path) (out : FileMap), (∀ q ∈ ks, q ∈ files.keys) →
      (∀ q ∈ out.keys, q ∈ files.keys) →
      ∀ q ∈ (ks.foldl (fun out p =>
        if !isKeep p || !sc.pathInScope p then out
        else if occupied out (keepDir p) then out
        else out.insert p []) out).keys, q ∈ files.keys by
    refine this files.keys _ (fun _ => id) (fun q hq => ?_) p h
    rw [Std.ExtTreeMap.mem_keys, Std.ExtTreeMap.mem_filter] at hq
    exact Std.ExtTreeMap.mem_keys.mpr hq.1
  intro ks
  induction ks with
  | nil => exact fun out _ hout => hout
  | cons k ks ih =>
    intro out hks hout
    refine ih _ (fun q hq => hks q (List.mem_cons_of_mem _ hq)) fun q hq => ?_
    simp only at hq
    split_ifs at hq
    · exact hout q hq
    · exact hout q hq
    · rw [Std.ExtTreeMap.mem_keys, Std.ExtTreeMap.mem_insert] at hq
      rcases hq with hq | hq
      · rw [Std.compare_eq_iff_eq] at hq
        exact hq ▸ hks k List.mem_cons_self
      · exact hout q (Std.ExtTreeMap.mem_keys.mpr hq)

theorem wrapper_of_computeMain (hs : s.Sound) {known : List Oid} {o m : Oid} {c : CommitObj Oid}
    (hf : frontier s known = .ok [o]) (ho : CommitIn s o) (hc : loadCommit s o = .ok c)
    (h : computeMain known s = (.ok m, t)) :
    loadCommit t m = .ok (foldCommit c.tree [o] c.committerTime foldMsg) := by
  have hwrap : refold [o] s = (.ok m, t) := by
    rw [← h, computeMain_run hf]
    rfl
  obtain ⟨objs, d, hobjs, rfl, rfl⟩ := refold_ok hwrap
  obtain ⟨-, hload, -⟩ := hs.foldObjects (by simpa using ho) hobjs
  obtain ⟨⟨tree, time, hmax, rfl⟩, ⟨tip, htip, -, htree⟩ | ⟨_, _, _, htip, -⟩⟩ :=
    foldObjects_commit hobjs
  · obtain rfl := List.singleton_inj.mp htip
    obtain ⟨c', hc', htree⟩ := bind_ok.mp htree
    obtain rfl := Except.ok.inj (hc.symm.trans hc')
    obtain rfl : c.tree = tree := pure_ok.mp htree
    have htime : maxCommitterTime s [o] = .ok c.committerTime := by
      rw [maxCommitterTime, List.foldlM_cons, hc]
      rfl
    obtain rfl : time = c.committerTime := Except.ok.inj (hmax.symm.trans htime)
    exact hload
  · cases htip

/-- What is left once a commit is authored on `main`. -/
structure Lines (e e' : MemEngine Oid) (m : Oid) (l : Layer1 Oid) (now : Nat) : Prop where
  held : AuthoredIn e.store e'.store e.identity e.state m l now
  written : (e.store.putAll (writeTreeFromFiles l.filtered).1).Extends e'.store
  frontier : frontier e'.store e'.state.known =
    .ok [(GitObject.commit (authored e.identity e.state m l now)).oid]
  wrapper : ∃ m', e'.main = some m' ∧ loadCommit e'.store m' =
    .ok (foldCommit (authored e.identity e.state m l now).tree
      [(GitObject.commit (authored e.identity e.state m l now)).oid] now foldMsg)

/-- The engine with a new commit on `main`, before `main` is computed again. -/
structure OnTop (e : MemEngine Oid) (m : Oid) (l : Layer1 Oid) (now : Nat)
    (e₁ : MemEngine Oid) : Prop where
  held : AuthoredIn e.store e₁.store e.identity e.state m l now
  written : (e.store.putAll (writeTreeFromFiles l.filtered).1).Extends e₁.store
  nodup : e₁.state.known.Nodup
  known : ∀ q ∈ e₁.state.known, CommitIn e₁.store q ∧ isPrimitiveOid e₁.store q = true
  frontier : frontier e₁.store e₁.state.known =
    .ok [(GitObject.commit (authored e.identity e.state m l now)).oid]

theorem Linear.published {e : MemEngine Oid} (h : Linear e) {m : Oid} (hm : e.main = some m)
    {mc : CommitObj Oid} (hmc : loadCommit e.store m = .ok mc) {l : Layer1 Oid}
    (hnamed : Named e.store m mc.tree l) (hfr : ∀ p ∈ l.filtered.keys, Framable p) {now : Nat}
    (hnow : now < 2 ^ 64) : OnTop e m l now (e.published l
      (authored e.identity e.state m l now)) := by
  obtain ⟨m', hm', hmin, habove⟩ := h.main
  obtain rfl := Option.some.inj (hm.symm.trans hm')
  set c := authored e.identity e.state m l now with hc
  set e₁ := e.published l c with he₁
  have hau : AuthoredIn e.store e₁.store e.identity e.state m l now :=
    authoredIn_putAll h.sound hmin hfr hnow
  have hwritten : (e.store.putAll (writeTreeFromFiles l.filtered).1).Extends e₁.store := by
    rw [he₁, MemEngine.published, authoredObjects, Store.putAll_append]
    exact Store.extends_putAll _ _
  have hknown : e₁.state.known = addNew e.state.known (GitObject.commit c).oid := known_addKnown _ _
  have hin : ∀ q ∈ e.state.known, CommitIn e₁.store q := fun q hq =>
      (h.commitIn q hq).extends hau.ext
  have hprim : ∀ q ∈ e.state.known, isPrimitiveOid e₁.store q = true := fun q hq =>
    isPrimitiveOid_extends hau.ext (h.primitive q hq)
  have heff : Effective e₁.store (GitObject.commit c).oid :=
    isGhost_ok (hau.not_ghost h.sound hfr hwritten hmin hmc hnamed)
  have hparent : m ∈ parentsOf e₁.store (GitObject.commit c).oid := by
    rw [parentsOf_of_load hau.load]
    exact List.mem_singleton.mpr rfl
  refine ⟨hau, hwritten, ?_, fun q hq => ?_, ?_⟩
  · rw [hknown]
    exact nodup_foldl_addNew [_] h.nodup
  · rw [hknown] at hq
    rcases mem_addNew.mp hq with hq | rfl
    · exact ⟨hin q hq, hprim q hq⟩
    · exact ⟨hau.commitIn, hau.isPrimitiveOid⟩
  · rw [hknown]
    refine frontier_authored h.nodup hin hprim (fun q hq hqe => ?_) hau.commitIn hau.isPrimitiveOid
      heff hparent
    exact (habove q hq ((effective_of_extends hau.ext (h.commitIn q hq)).mp hqe)).extends hau.ext

theorem Linear.author {e e' : MemEngine Oid} (h : Linear e) {m o : Oid} (hm : e.main = some m)
    {mc : CommitObj Oid} (hmc : loadCommit e.store m = .ok mc) {l : Layer1 Oid}
    (hnamed : Named e.store m mc.tree l) (hfr : ∀ p ∈ l.filtered.keys, Framable p) {now : Nat}
    (hnow : now < 2 ^ 64) (ha : MemEngine.author m l now e = (.ok o, e')) :
    o = (GitObject.commit (authored e.identity e.state m l now)).oid ∧ Linear e' ∧
    Lines e e' m l now := by
  have htop := h.published hm hmc hnamed hfr hnow
  set c := authored e.identity e.state m l now with hc
  set e₁ := e.published l c with he₁
  rw [MemEngine.author_run, ← hc, ← he₁] at ha
  rcases hmain : computeMain e₁.state.known e₁.store with ⟨err | m₁, t⟩
  · rw [hmain] at ha
    simp at ha
  rw [hmain] at ha
  obtain ⟨ho, rfl⟩ := Prod.mk.inj ha
  have hext : e₁.store.Extends t := by
    have := extends_computeMain e₁.state.known e₁.store
    rwa [hmain] at this
  have hsound : t.Sound := by
    have := htop.held.sound.computeMain e₁.state.known
    rwa [hmain] at this
  have hwrap := wrapper_of_computeMain htop.held.sound htop.frontier htop.held.commitIn
    htop.held.load hmain
  refine ⟨(Except.ok.inj ho).symm, ?_, htop.held.extends hext hsound, htop.written.trans hext, ?_,
    m₁, rfl, hwrap⟩
  · exact linear_of_computeMain htop.held.sound htop.nodup (fun q hq => (htop.known q hq).1)
      (fun q hq => (htop.known q hq).2) rfl hmain
  · show Csp.frontier t e₁.state.known = _
    rw [hext.carries.frontier (fun _ hq => hq) (fun _ _ => trivial)
      (fun q hq => (htop.known q hq).1) (.refl _),
      htop.frontier]

theorem Linear.author_total {e : MemEngine Oid} (h : Linear e) {m : Oid} (hm : e.main = some m)
    {mc : CommitObj Oid} (hmc : loadCommit e.store m = .ok mc) {l : Layer1 Oid}
    (hnamed : Named e.store m mc.tree l) (hfr : ∀ p ∈ l.filtered.keys, Framable p) {now : Nat}
    (hnow : now < 2 ^ 64) : ∃ o e', MemEngine.author m l now e = (.ok o, e') := by
  have htop := h.published hm hmc hnamed hfr hnow
  obtain ⟨m₁, t, hrun, -⟩ := thinWrapper_total htop.held.sound htop.held.commitIn .refl
  rw [MemEngine.author_run, computeMain_run htop.frontier]
  simp only [foldTips, hrun]
  exact ⟨_, _, rfl⟩

omit [LawfulObjectId Oid] [LawfulCrates] in
theorem framable_filtered {files : FileMap} {sc : Scope} (hnames : ∀ p ∈ files.keys, Framable p)
    {m tree : Oid} {mat : Std.ExtTreeMap Path Oid compare} {l : Layer1 Oid}
    (hl : layer1 s m tree mat (canonicalizeKeeps files sc) = .ok l) : ∀ p ∈ l.filtered.keys,
    Framable p :=
  fun p hp => hnames p (mem_of_mem_canonicalizeKeeps (mem_of_mem_filtered hl hp))

/-- What a commit did that returned: either nothing was authored, or the guard sorted the
staged files and what it published was authored on `main`. -/
theorem Linear.commitStaged {e e' : MemEngine Oid} (h : Linear e)
    (hnames : ∀ p ∈ e.working.keys, Framable p) {now : Nat} (hnow : now < 2 ^ 64) {r : Option Oid}
    (hc : MemEngine.commitStaged now e = (.ok r, e')) :
    Linear e' ∧ (r = none → Quiet e e') ∧ ∀ o, r = some o → ∃ m mc l e₁, e.main = some m ∧
    loadCommit e.store m = .ok mc ∧
      layer1 e.store m mc.tree e.state.materialized (canonicalizeKeeps e.working e.scope) = .ok l ∧
      e₁ = e.dropQuarantined (orphansBucket now) l.quarantines ∧
      (∀ p ∈ l.filtered.keys, Framable p) ∧ Named e.store m mc.tree l ∧
      o = (GitObject.commit (authored e.identity e.state m l now)).oid ∧ Lines e₁ e' m l now := by
  obtain ⟨m, hm, hmin, habove⟩ := h.main
  obtain ⟨mc, hmc, htree, -⟩ := hmin.load
  have hmt : mainTree e.store m = .ok mc.tree := by rw [mainTree, loadCommit_ok.mp hmc]; rfl
  obtain ⟨l, hl⟩ := layer1_total hmin htree e.state.materialized
    (canonicalizeKeeps e.working e.scope)
  have hfr := framable_filtered hnames hl
  have hquiet : Quiet e (e.dropQuarantined (orphansBucket now) l.quarantines) := ⟨rfl, rfl, rfl⟩
  rw [MemEngine.commitStaged, run_bind_of_ok (run_get e), MemEngine.commitScoped_run _ _ hm] at hc
  split_ifs at hc with hb
  · obtain ⟨hr, rfl⟩ := Prod.mk.inj hc
    refine ⟨h, fun _ => ⟨rfl, rfl, rfl⟩, fun o ho => ?_⟩
    obtain rfl := Except.ok.inj hr
    cases ho
  rw [hmt] at hc
  simp only [hl] at hc
  split_ifs at hc with hg
  · rcases ha : MemEngine.author m l now (e.dropQuarantined (orphansBucket now) l.quarantines)
      with ⟨err | o, e₂⟩
    · rw [ha] at hc
      simp at hc
    rw [ha] at hc
    obtain ⟨hr, rfl⟩ := Prod.mk.inj hc
    obtain ⟨ho, hlin, hlines⟩ := (h.quiet hquiet).author hm hmc (layer1_named hl) hfr hnow ha
    obtain rfl := Except.ok.inj hr
    refine ⟨hlin, (by rintro ⟨⟩), fun o' ho' =>
      ⟨m, mc, l, _, hm, hmc, hl, rfl, hfr, layer1_named hl, ?_, hlines⟩⟩
    rw [← Option.some.inj ho']
    exact ho
  · obtain ⟨hr, rfl⟩ := Prod.mk.inj hc
    refine ⟨h.quiet hquiet, fun _ => hquiet, fun o ho => ?_⟩
    obtain rfl := Except.ok.inj hr
    cases ho

/-- Run lemma: every engine that is reached is linear. -/
theorem Reached.linear {e : MemEngine Oid} (h : Reached e) : Linear e := by
  induction h with
  | create id vaultId name => exact linear_create id vaultId name
  | quiet _ hq ih => exact ih.quiet hq
  | commit _ hnames hnow hc ih => exact (ih.commitStaged hnames hnow hc).1
  | integrate _ hraws hi ih => exact ih.integrate hraws hi

/-! ### What another store makes of a commit -/

omit [LawfulObjectId Oid] [LawfulCrates] in
/-- The second store reads no path as added that the first one does not, and of each it reads
alike which commits at or below the parent added or deleted it. -/
def JudgesAlike (s s' : Store Oid) (parent : Oid) (mc c : CommitObj Oid) : Prop :=
  ∀ added added', treePathsAdded s (s.size + 1) [] (some mc.tree) c.tree = .ok added →
    treePathsAdded s' (s'.size + 1) [] (some mc.tree) c.tree = .ok added' → ∀ path ∈ added',
    path ∈ added ∧
      ∀ q cq, Descends s parent q → loadCommit s q = .ok cq →
      touchOf s' path q cq = touchOf s path q cq

omit [LawfulObjectId Oid] [LawfulCrates] in
theorem isGhost_false_iff {o m : Oid} {c mc : CommitObj Oid} (hin : CommitIn s o)
    (hc : loadCommit s o = .ok c) (hprim : isPrimitive c = true) (hpar : c.parents = [m])
    (hmc : loadCommit s m = .ok mc) :
    ∃ added, treePathsAdded s (s.size + 1) [] (some mc.tree) c.tree = .ok added ∧
      (isGhostAddClosureOnly s o = .ok false ↔ ∀ path ∈ added,
        ghostAt s m (parsePrimitiveReadds c) path = false) := by
  obtain ⟨d, hd, ⟨-, p, parent, added, hp, hparent, hadded, hb⟩ | ⟨hnone, -⟩⟩ := isGhost_eq hin
  · obtain rfl : c = d := Except.ok.inj (hc.symm.trans hd)
    obtain rfl : m = p := (List.cons.inj (hpar.symm.trans hp)).1
    obtain rfl : mc = parent := Except.ok.inj (hmc.symm.trans hparent)
    refine ⟨added, hadded, ?_⟩
    rw [isGhost_ok hb, Except.ok.injEq, List.any_eq_false]
    exact forall₂_congr fun _ _ => Bool.not_eq_true _ ▸ Iff.rfl
  · obtain rfl : c = d := Except.ok.inj (hc.symm.trans hd)
    exact absurd ⟨hprim, m, hpar⟩ hnone

omit [LawfulCrates] in
theorem ghostAt_alike {s' : Store Oid} (hs : s.Sound) (hs' : s'.Sound) {m : Oid}
    (hin : CommitIn s m) (hin' : CommitIn s' m) {path : Path}
    (htouch : ∀ q cq, Descends s m q → loadCommit s q = .ok cq →
      touchOf s' path q cq = touchOf s path q cq) (readds : List Oid) :
    ghostAt s' m readds path = ghostAt s m readds path := by
  obtain ⟨v, hv⟩ := mostRecentTouch_total hin path
  rw [ghostAt, ghostAt, hv, mostRecentTouch_transfer (R := Descends s m) ?_ .refl hv]
  rintro acc x r hx hvisit
  obtain ⟨cx, touch, hcx, ht, rfl⟩ := visitTouch_ok.mp hvisit
  have hcx' : loadCommit s' x = .ok cx := by
    obtain ⟨c, c', hc, hc', -⟩ := hin.history.sameParents hs hs' hin'.history hx
    rwa [← Except.ok.inj (hc.symm.trans hcx), ← load_eq_of_sound hs hs' hc hc']
  refine ⟨visitTouch_ok.mpr ⟨cx, touch, hcx', (htouch x cx hx hcx).trans ht, rfl⟩,
    length_parents_le hcx', fun y hy => ?_⟩
  exact hx.tail (parentsOf_of_load hcx ▸ hy)

omit [LawfulCrates] in
theorem judged_in {s' : Store Oid} (hs : s.Sound) (hs' : s'.Sound) {o m : Oid}
    {c mc : CommitObj Oid} (hin : CommitIn s o) (hin' : CommitIn s' o) (hc : loadCommit s o = .ok c)
    (hprim : isPrimitive c = true) (hpar : c.parents = [m]) (hmc : loadCommit s m = .ok mc)
    (hghost : isGhostAddClosureOnly s o = .ok false) :
    (JudgesAlike s s' m mc c → isGhostAddClosureOnly s' o = .ok false) ∧
      ∃ added, treePathsAdded s' (s'.size + 1) [] (some mc.tree) c.tree = .ok added ∧
        (isGhostAddClosureOnly s' o = .ok false ↔ ∀ path ∈ added,
          ghostAt s' m (parsePrimitiveReadds c) path = false) := by
  have hc' : loadCommit s' o = .ok c := hin'.history.load_alike hs hs' hc
  have hmem : m ∈ c.parents := hpar ▸ List.mem_singleton_self m
  have hm : CommitIn s m := hin.parentsOf (parentsOf_of_load hc ▸ hmem)
  have hm' : CommitIn s' m := hin'.parentsOf (parentsOf_of_load hc' ▸ hmem)
  obtain ⟨added, hadded, hiff⟩ := isGhost_false_iff hin hc hprim hpar hmc
  obtain ⟨added', hadded', hiff'⟩ := isGhost_false_iff hin' hc' hprim hpar
    (hm'.history.load_alike hs hs' hmc)
  refine ⟨fun h => hiff'.mpr fun path hp => ?_, added', hadded', hiff'⟩
  obtain ⟨hold, htouch⟩ := h added added' hadded hadded' path hp
  rw [ghostAt_alike hs hs' hm hm' htouch]
  exact hiff.mp hghost path hold

/-- A commit of a reached engine that authors something authors the whole frontier, and
`main` becomes its wrapper. The tree is the one written for what the guard published. No
store takes the commit for a ghost-add that reads alike what it adds and who touched that;
in any store it is none exactly if no path it adds there was deleted last, unnamed. -/
theorem commitStaged_linearises {e e' : MemEngine Oid} (h : Reached e)
    (hnames : ∀ p ∈ e.working.keys, Framable p) {now : Nat} (hnow : now < 2 ^ 64) {o : Oid}
    (hc : MemEngine.commitStaged now e = (.ok (some o), e')) :
    ∃ m mc l c m', e.main = some m ∧ loadCommit e.store m = .ok mc ∧
      layer1 e.store m mc.tree e.state.materialized (canonicalizeKeeps e.working e.scope) = .ok l ∧
      loadCommit e'.store o = .ok c ∧ c.parents = [m] ∧ c.tree = (writeTreeFromFiles l.filtered).2 ∧
      treeFiles e'.store c.tree = .ok (storedFiles l.filtered) ∧
      frontier e'.store e'.state.known = .ok [o] ∧
      e'.main = some m' ∧ loadCommit e'.store m' = .ok
      (foldCommit c.tree [o] c.committerTime foldMsg) ∧
      CommitIn e'.store o ∧ isGhostAddClosureOnly e'.store o = .ok false ∧
      ∀ s' : Store Oid, s'.Sound → CommitIn s' o →
        (JudgesAlike e'.store s' m mc c → isGhostAddClosureOnly s' o = .ok false) ∧
        ∃ added, treePathsAdded s' (s'.size + 1) [] (some mc.tree) c.tree = .ok added ∧
          (isGhostAddClosureOnly s' o = .ok false ↔ ∀ path ∈ added,
            ghostAt s' m (parsePrimitiveReadds c) path = false) := by
  have hlin := h.linear
  obtain ⟨m, mc, l, e₁, hm, hmc, hl, rfl, hfr, hnamed, ho, hlines⟩ :=
    (hlin.commitStaged hnames hnow hc).2.2 o rfl
  obtain ⟨m', hm', hwrap⟩ := hlines.wrapper
  obtain ⟨m₀, hm₀, hmin, -⟩ := hlin.main
  obtain rfl := Option.some.inj (hm.symm.trans hm₀)
  subst ho
  have hghost := isGhost_ok (hlines.held.not_ghost hlin.sound hfr hlines.written hmin hmc hnamed)
  refine ⟨m, mc, l, _, m', hm, hmc, hl, hlines.held.load, rfl, rfl, hlines.held.files,
    hlines.frontier, hm',
    hwrap, hlines.held.commitIn, hghost, fun s' hs' hin' => ?_⟩
  have hmc' : loadCommit e'.store m = .ok mc := by
    have hparent : m ∈ parentsOf e'.store (GitObject.commit
          (authored e.identity e.state m l now)).oid :=
      parentsOf_of_load hlines.held.load ▸ List.mem_singleton_self m
    exact (hlines.held.commitIn.parentsOf hparent).history.load_alike hlin.sound
      hlines.held.sound hmc
  exact judged_in hlines.held.sound hs' hlines.held.commitIn hin' hlines.held.load
    (isPrimitive_signed _ _ _ (counter_lt e.state) _ _ _) rfl hmc' hghost

end Spec

end Csp

/-! ### A path that a file shadows -/

namespace Csp.Small

def owner : Identity := ⟨[1]⟩

/-- The history of a file and a directory of one name that are published and deleted. -/
def shadowObjects : List (GitObject (Num [])) :=
  [emptyTree, .commit (foldCommit 0 [] 0 genesisMsg), .blob [49], .blob [50],
    .tree [⟨fileMode, ['y'], 3⟩], .tree [⟨fileMode, ['x'], 2⟩, ⟨treeMode, ['x'], 4⟩],
    .commit (signedPrimitive owner 5 1 1 0 "ctx edit".toList []),
    .commit (foldCommit 5 [6] 0 foldMsg),
    .commit (signedPrimitive owner 0 7 2 0 "ctx edit".toList []),
    .commit (foldCommit 0 [8] 0 foldMsg)]

abbrev Shadow : Type := Num (shadowObjects.map GitObject.framed)

def fresh : MemEngine Shadow := MemEngine.create owner [] []

def publish (e : MemEngine Shadow) (files : FileMap) :
    CspResult (Option Shadow) × MemEngine Shadow :=
  MemEngine.commitStaged 0 { e with working := files }

def nested : FileMap := (∅ : FileMap).insert ['x', '/', 'y'] [50]

def shadowed : FileMap := nested.insert ['x'] [49]

def deleted : MemEngine Shadow := (publish (publish fresh shadowed).2 ∅).2

def readded : CspResult (Option Shadow) × MemEngine Shadow := publish deleted nested

def readdedOid : Shadow :=
  match readded.1 with
  | .ok (some o) => o
  | _ => toNum []

def turned : Store Shadow :=
  (Store.empty .mem).putAll (readded.2.store.objs.toList.filterMap fun p =>
    match p.2 with
    | .ok (.tree es) => some (.tree es.reverse)
    | .ok x => some x
    | .error _ => none)

theorem quiet_stage (e : MemEngine Shadow) (files : FileMap) :
    Quiet e { e with working := files } :=
  ⟨rfl, rfl, rfl⟩

theorem reached_publish {e : MemEngine Shadow} (h : Reached e) {files : FileMap}
    (hnames : ∀ p ∈ files.keys, Framable p) (hok : (publish e files).1.isOk = true) :
    Reached (publish e files).2 := by
  have hstaged : Reached { e with working := files } := h.quiet (quiet_stage e files)
  rcases hc : publish e files with ⟨err | r, e'⟩
  · rw [hc] at hok
    cases hok
  · exact hstaged.commit hnames (by decide) hc

theorem turned_spec :
    ((∀ p ∈ shadowed.keys, Framable p) ∧ (∀ p ∈ nested.keys, Framable p)) ∧
    ((publish fresh shadowed).1.isOk = true ∧ (publish (publish fresh shadowed).2 ∅).1.isOk =
      true) ∧
    readded.1 = .ok (some readdedOid) ∧
    holdsCommit turned 8 readdedOid = true ∧ isGhostAddClosureOnly turned readdedOid =
    .ok true := by
  refine ⟨?_, ?_, ?_, ?_⟩
  · decide +kernel
  · decide +kernel
  · decide +kernel
  · decide +kernel

theorem reached_deleted : Reached deleted := by
  obtain ⟨⟨hnames, -⟩, ⟨hfirst, hsecond⟩, -⟩ := turned_spec
  exact reached_publish (reached_publish (.create owner [] []) hnames hfirst) (by simp) hsecond

theorem publish_nested : publish deleted nested = (.ok (some readdedOid), readded.2) := by
  rw [← turned_spec.2.2.1]
  exact (Prod.mk.eta).symm

theorem staged_nested : Reached { deleted with working := nested } :=
  reached_deleted.quiet (quiet_stage deleted nested)

theorem framable_nested : ∀ p ∈ nested.keys, Framable p := turned_spec.1.2

/-- The engine that re-adds the file has it as its only tip. -/
theorem commitStaged_linearises_readded :
    frontier readded.2.store readded.2.state.known = .ok [readdedOid] ∧
      isGhostAddClosureOnly readded.2.store readdedOid = .ok false := by
  have hc : MemEngine.commitStaged 0 { deleted with working := nested } =
      (.ok (some readdedOid), readded.2) := publish_nested
  obtain ⟨_, _, _, _, _, -, -, -, -, -, -, -, hf, -, -, -, hghost, -⟩ :=
    commitStaged_linearises staged_nested framable_nested (by decide) hc
  exact ⟨hf, hghost⟩

theorem sound_turned : turned.Sound := by
  have hc : MemEngine.commitStaged 0 { deleted with working := nested } =
      (.ok (some readdedOid), readded.2) := publish_nested
  have hs : readded.2.store.Sound :=
    (staged_nested.commit framable_nested (by decide) hc).linear.sound
  apply (Store.sound_empty _).putAll
  intro x hx
  obtain ⟨⟨o, r⟩, hr, hx⟩ := List.mem_filterMap.mp hx
  have hget := Std.ExtTreeMap.mem_toList_iff_getElem?_eq_some.mp hr
  obtain ⟨y, rfl, -, hy⟩ := hs o r hget
  cases y with
  | blob b =>
    obtain rfl := Option.some.inj hx
    exact hy
  | tree es =>
    obtain rfl := Option.some.inj hx
    exact fun e he => hy e (List.mem_reverse.mp he)
  | commit c =>
    obtain rfl := Option.some.inj hx
    exact hy

/-- In a store that got the first tree with its directory in front of the file, the nested
file was there before both were deleted, and the commit that brings it back is a ghost-add. -/
theorem commitStaged_order_shows :
    Reached deleted ∧ (∀ p ∈ nested.keys, Framable p) ∧
      publish deleted nested = (.ok (some readdedOid), readded.2) ∧
      turned.Sound ∧ CommitIn turned readdedOid ∧
      isGhostAddClosureOnly turned readdedOid = .ok true :=
  ⟨reached_deleted, framable_nested, publish_nested, sound_turned,
    commitIn_of_holdsCommit turned_spec.2.2.2.1, turned_spec.2.2.2.2⟩

end Csp.Small
