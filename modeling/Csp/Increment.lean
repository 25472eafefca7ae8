import Csp.Vetting

/-! The incremental export of a primitive: its commit, and what its tree has and its parent's
tree has not. A receiver that holds the parent can take it in; one that does not cannot. -/

namespace Csp
open Result
variable {Oid : Type} [ObjectId Oid] {s t : Store Oid}

/-! ### Collecting a tree -/

theorem Grounded.depth {o : Oid} (h : Grounded s o) : Depth.Within s.refsOf s.size o := by
  have hfin : ∃ n, Depth.Within s.refsOf n o := by
    induction h with
    | @mk o x hx _ ih =>
      obtain ⟨n, hn⟩ := exists_within (l := s.refsOf o) fun r hr => by
        rw [s.refsOf_of_get hx] at hr
        exact ih r hr
      exact ⟨n + 1, hn⟩
  obtain ⟨n, hn⟩ := hfin
  have hcard : s.objs.keys.toFinset.card = s.size := by
    rw [List.toFinset_card_of_nodup s.nodup_keys, Std.ExtTreeMap.length_keys, Store.size]
  rw [← hcard]
  refine hn.card s.objs.keys.toFinset fun r hr => ?_
  have hg : Grounded s r := by
    induction hr with
    | refl => exact h
    | tail _ hb ih =>
      obtain ⟨x, hx⟩ := ih.get
      rw [s.refsOf_of_get hx] at hb
      exact ih.ref hx hb
  obtain ⟨x, hx⟩ := hg.get
  exact List.mem_toFinset.mpr (s.mem_keys_of_get hx)

namespace MemEngine

theorem collectTreeObjects_eq {n : Nat} {o : Oid} (h : TreeIn s o) (hw : Depth.Within s.refsOf n o)
    (out : List Oid) :
    collectTreeObjects s n o out = .ok (Depth.gather s.refsOf n o out) := by
  induction n generalizing o out with
  | zero => exact hw.elim
  | succ n ih =>
    rw [collectTreeObjects, Depth.gather]
    by_cases ho : o ∈ out
    · rw [if_pos ho, if_pos ho]
    rw [if_neg ho, if_neg ho]
    obtain ⟨hes, hdir, hfile⟩ := h
    rename_i es
    have hrefs : ∀ e ∈ es, e.oid ∈ s.refsOf o := fun e he => by
      rw [s.refsOf_of_get hes]
      exact List.mem_map_of_mem he
    rw [hes, ok_bind, s.refsOf_of_get hes, GitObject.refs, List.foldl_map]
    simp only
    rw [foldlM_congr (g := fun out e => pure (Depth.gather s.refsOf n e.oid out))
      fun out e he => ?_]
    · exact List.foldlM_pure
    · by_cases hm : e.mode = treeMode
      · have htree := hdir e he hm
        have hrec := ih htree (hw _ (hrefs e he)) out
        obtain ⟨hsub, -, -⟩ := htree
        rw [hsub, ok_bind]
        exact hrec
      · obtain ⟨b, hb⟩ := hfile e he hm
        -- a file leads nowhere, so gathering from it adds only itself
        cases n with
        | zero => exact (hw _ (hrefs e he)).elim
        | succ n =>
          rw [hb, ok_bind, Depth.gather, s.refsOf_of_get hb, GitObject.refs, List.foldl_nil]

theorem collectTreeObjects_spec {o : Oid} (h : TreeIn s o) :
    ∃ out, collectTreeObjects s (s.size + 1) o [] = .ok out ∧ ∀ x, x ∈ out ↔ Below s [o] x := by
  have hw := h.grounded.depth.mono (Nat.le_succ s.size)
  refine ⟨_, collectTreeObjects_eq h hw [], fun x => ?_⟩
  rw [Depth.mem_gather_nil hw, Below]
  simp

end MemEngine

theorem below_cons {o r : Oid} {x : GitObject Oid} (hx : s.get o = .ok x) :
    Below s [o] r ↔ r = o ∨ ∃ q ∈ x.refs, Below s [q] r := by
  simp only [Below, List.mem_singleton, exists_eq_left]
  rw [Relation.ReflTransGen.cases_head_iff, s.refsOf_of_get hx, eq_comm]

/-! ### What an increment holds -/

variable [Crates]

/-- The primitive, and every object of its tree that the tree of its parent does not have. -/
def Increment (s : Store Oid) (c pc : CommitObj Oid) (raws : List Bytes) : Prop :=
  ∀ r, r ∈ raws ↔ r = (GitObject.commit c).compress ∨
    ∃ o x, Below s [c.tree] o ∧ ¬ Below s [pc.tree] o ∧ s.get o = .ok x ∧ r = x.compress

theorem MemEngine.exportPrimitive_spec {e : MemEngine Oid} {o m : Oid} {c pc : CommitObj Oid}
    (hc : loadCommit e.store o = .ok c) (hp : c.parents = [m]) (hpc : loadCommit e.store m = .ok pc)
    (ht : TreeIn e.store c.tree) (hpt : TreeIn e.store pc.tree) :
    ∃ rest, e.exportPrimitive o = .ok ((GitObject.commit c).compress :: rest) ∧
      Increment e.store c pc ((GitObject.commit c).compress :: rest) := by
  obtain ⟨held, hheld, hmemheld⟩ := collectTreeObjects_spec hpt
  obtain ⟨objs, hobjs, hmem⟩ := collectTreeObjects_spec ht
  have hsel : ∀ q, q ∈ (objs.filter (· ∉ held)).insertionSort (· ≤ ·) ↔ Below e.store [c.tree] q ∧
      ¬ Below e.store [pc.tree] q := by
    intro q
    rw [List.mem_insertionSort, List.mem_filter, decide_eq_true_eq, hmem, hmemheld]
  obtain ⟨rest, hrest⟩ := mapM_ok_of_forall (f := e.store.getRaw)
    (l := (objs.filter (· ∉ held)).insertionSort (· ≤ ·))
    fun q hq => by
      obtain ⟨r, hr, hpath⟩ := ((hsel q).mp hq).1
      obtain ⟨x, hx⟩ := (Below.grounded (fun o ho => List.mem_singleton.mp ho ▸ ht.grounded)
          ⟨r, hr, hpath⟩).get
      exact ⟨_, getRaw_ok.mpr ⟨x, hx, rfl⟩⟩
  refine ⟨rest, ?_, fun r => ?_⟩
  · rw [exportPrimitive, loadCommit_ok.mp hc, ok_bind]
    simp only [hp, List.head?_cons]
    rw [loadCommit_ok.mp hpc, ok_bind]
    simp only
    rw [hheld, ok_bind, hobjs, ok_bind, getRaw_ok.mpr ⟨_, loadCommit_ok.mp hc, rfl⟩, ok_bind, hrest]
    rfl
  · rw [List.mem_cons]
    refine or_congr_right ⟨fun hr => ?_, ?_⟩
    · obtain ⟨q, hq, hget⟩ := mapM_ok_mem_right hrest hr
      obtain ⟨x, hx, rfl⟩ := getRaw_ok.mp hget
      obtain ⟨hin, hout⟩ := (hsel q).mp hq
      exact ⟨q, x, hin, hout, hx, rfl⟩
    · rintro ⟨q, x, hin, hout, hx, rfl⟩
      obtain ⟨r, hr, hget⟩ := mapM_ok_mem hrest ((hsel q).mpr ⟨hin, hout⟩)
      obtain ⟨y, hy, rfl⟩ := getRaw_ok.mp hget
      obtain rfl : x = y := Except.ok.inj (hx.symm.trans hy)
      exact hr

/-- The raw objects are an incremental export of a genuine primitive on the parent `m`. -/
structure Exported (s : Store Oid) (raws : List Bytes) (o m : Oid)
    (c pc : CommitObj Oid) : Prop where
  tidy : s.Tidy
  genuine : Genuine s o
  load : loadCommit s o = .ok c
  primitive : isPrimitive c = true
  parents : c.parents = [m]
  parent : loadCommit s m = .ok pc
  head : ∃ rest, raws = (GitObject.commit c).compress :: rest
  objects : Increment s c pc raws

omit [Crates] in
theorem TreeIn.of_below {o q : Oid} (h : TreeIn s o) (hq : Below s [o] q) : TreeIn s q ∨ ∃ b,
    s.get q = .ok (.blob b) := by
  obtain ⟨r, hr, hpath⟩ := hq
  obtain rfl := List.mem_singleton.mp hr
  induction hpath with
  | refl => exact .inl h
  | @tail a b _ hb ih =>
    rcases ih with htree | ⟨blob, hblob⟩
    · obtain ⟨hes, hdir, hfile⟩ := htree
      rw [s.refsOf_of_get hes] at hb
      obtain ⟨e, he, rfl⟩ := List.mem_map.mp hb
      by_cases hm : e.mode = treeMode
      · exact .inl (hdir e he hm)
      · exact .inr (hfile e he hm)
    · rw [s.refsOf_of_get hblob] at hb
      cases hb

section Spec
variable [LawfulObjectId Oid] [LawfulCrates]

namespace Exported
variable {raws : List Bytes} {o m : Oid} {c pc : CommitObj Oid}

omit [LawfulObjectId Oid] [LawfulCrates] in
theorem oid_eq (h : Exported s raws o m c pc) : (GitObject.commit c).oid = o :=
  (h.tidy.sound.get (loadCommit_ok.mp h.load)).1

omit [LawfulObjectId Oid] [LawfulCrates] in
theorem treeIn (h : Exported s raws o m c pc) : TreeIn s c.tree := by
  obtain ⟨d, hd, htree, -⟩ := h.genuine.commitIn.load
  obtain rfl := Except.ok.inj (h.load.symm.trans hd)
  exact htree

theorem decodes (h : Exported s raws o m c pc) {r : Bytes} (hr : r ∈ raws) :
    decompressAndParse r = .ok (.commit c) ∨
      ∃ q x, Below s [c.tree] q ∧ s.get q = .ok x ∧ decompressAndParse r = .ok x.canon := by
  rcases (h.objects r).mp hr with rfl | ⟨q, x, hin, -, hx, rfl⟩
  · exact .inl (decompressAndParse_compress (h.tidy.sound.get (loadCommit_ok.mp h.load)).2)
  · exact .inr ⟨q, x, hin, hx, decompressAndParse_compress (h.tidy.sound.get hx).2⟩

theorem commit_eq (h : Exported s raws o m c pc) {r : Bytes} (hr : r ∈ raws) {d : CommitObj Oid}
    (hd : decompressAndParse r = .ok (.commit d)) : d = c := by
  rcases h.decodes hr with hc | ⟨q, x, hin, hx, hparse⟩
  · exact GitObject.commit.inj (Except.ok.inj (hd.symm.trans hc))
  · rw [commit_of_canon (Except.ok.inj (hparse.symm.trans hd))] at hx
    rcases h.treeIn.of_below hin with ⟨hes, -, -⟩ | ⟨b, hb⟩
    · cases hx.symm.trans hes
    · cases hx.symm.trans hb

theorem decoded_none (h : Exported s raws o m c pc) :
    (decoded raws : List (GitObject Oid) × Option CspError).2 = none := by
  apply decoded_snd_eq_none
  intro r hr
  rcases h.decodes hr with hc | ⟨q, x, -, -, hparse⟩
  · exact ⟨_, hc⟩
  · exact ⟨_, hparse⟩

theorem head_mem (h : Exported s raws o m c pc) : ∃ r ∈ raws, decompressAndParse r = .ok
    (.commit c) :=
  ⟨_, (h.objects _).mpr (.inl rfl), decompressAndParse_compress
    (h.tidy.sound.get (loadCommit_ok.mp h.load)).2⟩

theorem mem_accepted (h : Exported s raws o m c pc) {q : Oid} : q ∈ accepted raws ↔ q = o := by
  rw [Csp.mem_accepted]
  constructor
  · rintro ⟨r, hr, d, hd, -, -, rfl⟩
    rw [h.commit_eq hr hd, h.oid_eq]
  · rintro rfl
    obtain ⟨r, hr, hparse⟩ := h.head_mem
    exact ⟨r, hr, c, hparse, h.primitive, h.genuine.verifies h.load h.primitive, h.oid_eq.symm⟩

theorem verifyBatch_eq (h : Exported s raws o m c pc) (t : Store Oid) :
    verifyBatch raws t = (.ok true, t) := by
  have hnone : ∀ r ∈ raws, (syntheticOf r : Option Oid) = none := by
    intro r hr
    rw [syntheticOf]
    split
    · rename_i d hd
      have hprim := h.primitive
      rw [← h.commit_eq hr hd, isPrimitive] at hprim
      refine if_neg fun hno => ?_
      rw [Option.isNone_iff_eq_none.mp hno] at hprim
      cases hprim
    · rfl
  clear h
  induction raws with
  | nil => rfl
  | cons r raws ih =>
    rw [verifyBatch_cons, hnone r List.mem_cons_self]
    exact ih fun r' hr' => hnone r' (List.mem_cons_of_mem _ hr')

theorem put_tidy (h : Exported s raws o m c pc) (ht : t.Tidy) :
    (t.putAll (decoded raws).1).Tidy := by
  refine ht.putAll (fun x hx => encodable_of_mem_decoded hx) fun es hes => ?_
  obtain ⟨r, hr, hparse⟩ := mem_decoded hes
  rcases h.decodes hr with hc | ⟨q, x, -, hx, hparse'⟩
  · cases hc.symm.trans hparse
  · refine tidy_of_canon (Except.ok.inj (hparse.symm.trans hparse')) fun es' he => ?_
    rw [he] at hx
    exact h.tidy.tidy q es' hx

theorem carries (h : Exported s raws o m c pc) (ht : t.Tidy) (hin : CommitIn t m) :
    Carries Csp.Tidy (Below s [o]) s (t.putAll (decoded raws).1) := by
  have hput := h.put_tidy ht
  have hparent : CommitIn s m := by
    obtain ⟨d, hd, -, hparents⟩ := h.genuine.commitIn.load
    obtain rfl := Except.ok.inj (h.load.symm.trans hd)
    exact hparents m (by rw [h.parents]; exact List.mem_cons_self)
  have hcar : Carries Tidy (Below s [m]) s t := carries_tidy h.tidy ht
    (fun p hp => List.mem_singleton.mp hp ▸ hparent) fun p hp => List.mem_singleton.mp hp ▸ hin
  have hsent : ∀ q x, s.get q = .ok x → x.compress ∈ raws → ∃ y,
      (t.putAll (decoded raws).1).get q = .ok y := by
    intro q x hx hr
    have henc := h.tidy.sound.get hx
    obtain ⟨y, hy, hparse⟩ := decoded_of_all h.decoded_none _ hr
    obtain rfl : x.canon = y :=
      Except.ok.inj ((decompressAndParse_compress henc.2).symm.trans hparse)
    obtain ⟨z, hz, -⟩ := ht.sound.get_putAll (fun x hx => encodable_of_mem_decoded hx) hy
    rw [GitObject.oid_canon, henc.1] at hz
    exact ⟨z, hz⟩
  have hheld : ∀ q x, Below s [m] q → s.get q = .ok x → ∃ y,
      (t.putAll (decoded raws).1).get q = .ok y := by
    intro q x hq hx
    obtain ⟨y, hy, -⟩ := hcar.alike q x hq hx
    exact ⟨y, (t.extends_putAll _).get hy⟩
  constructor
  · intro q x hq hx
    suffices hget : ∃ y, (t.putAll (decoded raws).1).get q = .ok y by
      obtain ⟨y, hy⟩ := hget
      exact ⟨y, hy, h.tidy.alike hput hx hy⟩
    rcases (below_cons (loadCommit_ok.mp h.load)).mp hq with rfl | ⟨p, hp, hpq⟩
    · obtain rfl := Except.ok.inj (hx.symm.trans (loadCommit_ok.mp h.load))
      exact hsent q _ hx ((h.objects _).mpr (.inl rfl))
    · rcases List.mem_cons.mp hp with rfl | hp
      · by_cases hpar : Below s [pc.tree] q
        · refine hheld q x ?_ hx
          exact (below_cons (loadCommit_ok.mp h.parent)).mpr (.inr ⟨_, List.mem_cons_self, hpar⟩)
        · exact hsent q x hx ((h.objects _).mpr (.inr ⟨q, x, hpq, hpar, hx, rfl⟩))
      · rw [h.parents] at hp
        obtain rfl := List.mem_singleton.mp hp
        exact hheld q x hpq hx
  · rintro q x ⟨k, hk, hpath⟩ hx r hr
    exact ⟨k, hk, hpath.tail (by rwa [s.refsOf_of_get hx])⟩

end Exported

/-! ### Stores with nothing unaccounted for -/

/-- Every commit of the store is genuine, and the primitives at it or below it are known. -/
def Accounted (s : Store Oid) (known : List Oid) : Prop :=
  ∀ o c, loadCommit s o = .ok c → Genuine s o ∧ Covered s known o

theorem loadCommit_of_putAll {xs : List (GitObject Oid)} (henc : ∀ x ∈ xs, x.Encodable) {o : Oid}
    {c : CommitObj Oid} (h : loadCommit (s.putAll xs) o = .ok c) :
    loadCommit s o = .ok c ∨ .commit c ∈ xs ∧ (GitObject.commit c).oid = o := by
  rcases Store.getElem?_putAll (Store.get_eq_ok.mp (loadCommit_ok.mp h)) with hold | ⟨x,
    hx, hoid, hr⟩
  · exact .inl (loadCommit_ok.mpr (Store.get_eq_ok.mpr hold))
  · obtain ⟨y, hy, hcanon, -⟩ := Store.reread_eq s.backend (henc x hx)
    obtain rfl := Except.ok.inj (hy.symm.trans hr.symm)
    rw [commit_of_canon hcanon.symm] at hx hoid
    exact .inr ⟨hx, hoid⟩

namespace Accounted
variable {known known' : List Oid}

theorem putAll (h : Accounted s known) (hsub : ∀ o ∈ known, o ∈ known') {xs : List (GitObject Oid)}
    (henc : ∀ x ∈ xs, x.Encodable) (hnew : ∀ c, .commit c ∈ xs →
      Genuine (s.putAll xs) (GitObject.commit c).oid ∧ Covered (s.putAll xs) known'
      (GitObject.commit c).oid) :
    Accounted (s.putAll xs) known' := by
  intro o c hc
  have hext := s.extends_putAll xs
  rcases loadCommit_of_putAll henc hc with hold | ⟨hmem, rfl⟩
  · obtain ⟨hgen, hcov⟩ := h o c hold
    exact ⟨hgen.extends hext, (hcov.extends hext hgen.commitIn).mono hsub⟩
  · exact hnew c hmem

theorem refold (h : Accounted s known) (hs : s.Sound) (ps : List Oid) :
    Accounted (refold ps s).2 known := by
  cases hr : foldObjects s ps with
  | error err =>
    rw [refold_run, hr]
    exact h
  | ok r =>
    obtain ⟨objs, c⟩ := r
    have hrun : Csp.refold ps s = (.ok (GitObject.commit c).oid,
          s.putAll (objs ++ [.commit c])) := by rw [refold_run, hr]
    obtain ⟨⟨tree, time, hmax, -⟩, hcase⟩ := foldObjects_commit hr
    have hps : ∀ p ∈ ps, Genuine s p ∧ Covered s known p := by
      intro p hp
      have hload : ∃ d, loadCommit s p = .ok d := by
        rcases hcase with ⟨tip, rfl, -, htip⟩ | ⟨acc, tk, files, rfl, hm, -⟩
        · obtain rfl := List.mem_singleton.mp hp
          obtain ⟨d, hd, -⟩ := bind_ok.mp htip
          exact ⟨d, hd⟩
        · obtain ⟨base, -, hm⟩ := bind_ok.mp hm
          obtain ⟨bt, -, hm⟩ := bind_ok.mp hm
          obtain ⟨bf, -, hm⟩ := bind_ok.mp hm
          obtain ⟨ot, hours, hm⟩ := bind_ok.mp hm
          obtain ⟨of, -, hm⟩ := bind_ok.mp hm
          obtain ⟨tt, htheirs, -⟩ := bind_ok.mp hm
          rcases List.mem_pair.mp hp with rfl | rfl
          · obtain ⟨d, hd, -⟩ := bind_ok.mp hours
            exact ⟨d, hd⟩
          · obtain ⟨d, hd, -⟩ := bind_ok.mp htheirs
            exact ⟨d, hd⟩
      obtain ⟨d, hd⟩ := hload
      exact h p d hd
    have hstage := stage_refold hs hps hrun
    rw [hrun]
    refine h.putAll (fun _ => id) (written_foldObjects hs hr).encodable fun d hd => ?_
    have hdc : d = c := by
      rcases List.mem_append.mp hd with hd | hd
      · rcases hcase with ⟨tip, -, rfl, -⟩ | ⟨acc, tk, files, -, -, rfl, -⟩
        · cases hd
        · exact absurd hd notMem_commit_buildTree
      · exact GitObject.commit.inj (List.mem_singleton.mp hd)
    rw [hdc]
    exact ⟨hstage.genuine, hstage.covered⟩

theorem genesis (h : Accounted s known) (hs : s.Sound) : Accounted (genesis s).2 known := by
  have hstage : Stage s (Csp.genesis s).2 known (GitObject.commit genesisCommit).oid :=
    stage_foldTips hs (fun p hp => absurd hp List.not_mem_nil) (genesis_run : foldTips [] s = _)
  rw [genesis_run] at hstage ⊢
  refine h.putAll (fun _ => id) written_genesis.encodable fun c hc => ?_
  rcases List.mem_pair.mp hc with hc | hc
  · cases hc
  · rw [hc]
    exact ⟨hstage.genuine, hstage.covered⟩

theorem computeMain (h : Accounted s known) (hs : s.Sound) (l : List Oid) :
    Accounted (computeMain l s).2 known :=
  (computeMain_induction (fun s t : Store Oid => s.Sound ∧ Accounted s known → t.Sound ∧
      Accounted t known) (fun _ => id)
    (fun _ _ _ h h' => h' ∘ h)
    (fun ps _ hs => ⟨(gains_refold (P := fun _ => True) hs.1 ps).sound, hs.2.refold hs.1 ps⟩)
    (fun _ hs => ⟨(gains_genesis (P := fun _ => True) hs.1).sound, hs.2.genesis hs.1⟩) l
    s ⟨hs, h⟩).2

end Accounted

/-! ### What a frontier has read -/

omit [LawfulObjectId Oid] [LawfulCrates] in
theorem effectiveKnown_verdict {known eff : List Oid} (h : effectiveKnown s known = .ok eff)
    {o : Oid} (ho : o ∈ known) :
    isGhostAddClosureOnly s o = .ok true ∨ o ∈ eff := by
  induction known generalizing eff with
  | nil => cases ho
  | cons k known ih =>
    obtain ⟨ghost, hghost, h⟩ := bind_ok.mp h
    obtain ⟨rest, hrest, h⟩ := bind_ok.mp h
    obtain rfl := pure_ok.mp h
    rcases List.mem_cons.mp ho with rfl | ho
    · cases ghost with
      | true => exact .inl hghost
      | false => exact .inr List.mem_cons_self
    · refine (ih hrest ho).imp id fun hmem => ?_
      split_ifs
      · exact hmem
      · exact List.mem_cons_of_mem _ hmem

omit [LawfulObjectId Oid] [LawfulCrates] in
/-- A verdict against a primitive was reached by reading its parent. -/
theorem parent_of_ghost {o m : Oid} {c : CommitObj Oid} (hc : loadCommit s o = .ok c)
    (hprim : isPrimitive c = true) (hp : c.parents = [m])
    (h : isGhostAddClosureOnly s o = .ok true) : ∃ d, loadCommit s m = .ok d := by
  have hunc : isGhostAddClosureOnlyUncached s o = .ok true := by
    rw [isGhostAddClosureOnly] at h
    split at h
    · cases h
    · exact h
  rw [isGhostAddClosureOnlyUncached, loadCommit_ok.mp hc, ok_bind] at hunc
  simp only [hprim, Bool.not_true, Bool.false_eq_true, if_false, hp] at hunc
  obtain ⟨d, hd, -⟩ := bind_ok.mp hunc
  exact ⟨d, hd⟩

omit [LawfulObjectId Oid] [LawfulCrates] in
theorem parent_of_frontier {known f : List Oid} (h : frontier s known = .ok f) {o m : Oid}
    (ho : o ∈ known) {c : CommitObj Oid} (hc : loadCommit s o = .ok c)
    (hprim : isPrimitive c = true) (hp : c.parents = [m]) :
    ∃ d, loadCommit s m = .ok d := by
  obtain ⟨eff, table, keyed, heff, htable, -, -⟩ := frontier_ok h
  rcases effectiveKnown_verdict heff ho with hghost | hmem
  · exact parent_of_ghost hc hprim hp hghost
  · have hin : o ∈ eff.filter (isPrimitiveOid s) := by
      rw [List.mem_filter, isPrimitiveOid, hc]
      exact ⟨hmem, hprim⟩
    obtain ⟨row, -, hrow⟩ := mapM_ok_mem htable hin
    obtain ⟨l, hl, -⟩ := bind_ok.mp hrow
    refine load_of_mem_ancestors hl (((ancestors_spec hl).2 m).mpr (.single ?_))
    rw [parentsOf_of_load hc, hp]
    exact List.mem_cons_self

/-! ### Taking an increment in -/

omit [LawfulObjectId Oid] [LawfulCrates] [Crates] in
theorem foldl_addNew_of_forall {os l : List Oid} {o : Oid} (h : ∀ q ∈ os, q ∈ l ∨ q = o)
    (ho : o ∈ os) :
    os.foldl addNew l = addNew l o := by
  induction os with
  | nil => cases ho
  | cons a os ih =>
    have hrest : ∀ q ∈ os, q ∈ l ∨ q = o := fun q hq => h q (List.mem_cons_of_mem _ hq)
    rw [List.foldl_cons]
    rcases h a List.mem_cons_self with ha | rfl
    · rw [addNew, if_pos ha]
      rcases List.mem_cons.mp ho with rfl | ho
      · rw [addNew, if_pos ha]
        exact foldl_addNew_eq_self.mpr fun q hq => (hrest q hq).elim id fun hqo => hqo ▸ ha
      · exact ih hrest ho
    · exact foldl_addNew_eq_self.mpr fun q hq => mem_addNew.mpr (hrest q hq)

namespace Exported
variable {raws : List Bytes} {o m : Oid} {c pc : CommitObj Oid}

theorem integrate_run (h : Exported s raws o m c pc) (e : MemEngine Oid) :
    ∃ st n, st.known = addNew e.state.known o ∧ n + e.state.known.length = st.known.length ∧
      (o ∈ e.state.known →
        MemEngine.integrate raws e =
          (.ok 0, { e with store := e.store.putAll (decoded raws).1, state := st })) ∧
      (o ∉ e.state.known → ∀ t,
        (∀ k, Csp.computeMain (addNew e.state.known o) (e.store.putAll (decoded raws).1) =
            (.ok k, t) →
          MemEngine.integrate raws e =
            (.ok n, { e with store := t, state := st, main := some k })) ∧
        ∀ err, Csp.computeMain (addNew e.state.known o) (e.store.putAll (decoded raws).1) =
            (.error err, t) →
          MemEngine.integrate raws e = (.error err, { e with store := t, state := st })) := by
  have hadm := admits_foldl raws e.state 0
  have hknown : (raws.foldl admitOne (e.state, 0)).1.known = addNew e.state.known o :=
    hadm.known.trans (foldl_addNew_of_forall (fun q hq => .inr (h.mem_accepted.mp hq))
      (h.mem_accepted.mpr rfl))
  have hzero : (raws.foldl admitOne (e.state, 0)).2 = 0 ↔ o ∈ e.state.known := by
    rw [hadm.count_eq_zero]
    exact ⟨fun hall => hall o (h.mem_accepted.mpr rfl), fun ho q hq => h.mem_accepted.mp hq ▸ ho⟩
  refine ⟨(raws.foldl admitOne (e.state, 0)).1, (raws.foldl admitOne (e.state, 0)).2,
    hknown, by rw [hadm.count, Nat.zero_add],
    fun ho => ?_, fun ho t => ⟨fun k hk => ?_, fun err herr => ?_⟩⟩
  · rw [MemEngine.integrate_run, h.decoded_none]
    simp only [h.verifyBatch_eq]
    rw [if_pos (hzero.mpr ho)]
  · rw [MemEngine.integrate_run, h.decoded_none]
    simp only [h.verifyBatch_eq]
    rw [if_neg (mt hzero.mp ho), hknown, hk]
  · rw [MemEngine.integrate_run, h.decoded_none]
    simp only [h.verifyBatch_eq]
    rw [if_neg (mt hzero.mp ho), hknown, herr]

theorem history (h : Exported s raws o m c pc) {known : List Oid} (hh : History t known)
    (ha : Accounted t known) (hm : ∃ d, loadCommit t m = .ok d) :
    History (t.putAll (decoded raws).1) (addNew known o) ∧
      Accounted (t.putAll (decoded raws).1) (addNew known o) := by
  obtain ⟨d, hd⟩ := hm
  obtain ⟨hgen, hcov⟩ := ha m d hd
  have hext := t.extends_putAll (decoded raws : List (GitObject Oid) × Option CspError).1
  have hput := h.put_tidy hh.store
  have hcar := h.carries hh.store hgen.commitIn
  have hself : Below s [o] o := below_self (List.mem_singleton.mpr rfl)
  have hnew : Genuine (t.putAll (decoded raws).1) o := h.genuine.carries hcar hself
  obtain ⟨hload, -, -⟩ := hcar.loadCommit hself h.load
  have hsub : ∀ q ∈ known, q ∈ addNew known o := fun q hq => mem_addNew.mpr (.inl hq)
  have hcovered : Covered (t.putAll (decoded raws).1) (addNew known o) o := by
    refine covered_of_parents (fun _ => mem_addNew.mpr (.inr rfl)) fun p hp => ?_
    rw [parentsOf_of_load hload, h.parents] at hp
    obtain rfl := List.mem_singleton.mp hp
    exact (hcov.extends hext hgen.commitIn).mono hsub
  have hold := hh.extends hext hput
  constructor
  · refine ⟨hput, nodup_foldl_addNew [o] hh.nodup, fun q hq => ?_, fun q hq => ?_, fun q hq => ?_⟩
    · rcases mem_addNew.mp hq with hq | rfl
      · exact hold.primitive q hq
      · rw [isPrimitiveOid, hload]
        exact h.primitive
    · rcases mem_addNew.mp hq with hq | rfl
      · exact hold.genuine q hq
      · exact hnew
    · rcases mem_addNew.mp hq with hq | rfl
      · exact (hold.covered q hq).mono hsub
      · exact hcovered
  · refine ha.putAll hsub (fun x hx => encodable_of_mem_decoded hx) fun d hd => ?_
    obtain ⟨r, hr, hparse⟩ := mem_decoded hd
    rw [h.commit_eq hr hparse, h.oid_eq]
    exact ⟨hnew, hcovered⟩

theorem load_parent_of_put (h : Exported s raws o m c pc) {d : CommitObj Oid}
    (hd : loadCommit (t.putAll (decoded raws).1) m = .ok d) : loadCommit t m = .ok d := by
  rcases loadCommit_of_putAll (fun x hx => encodable_of_mem_decoded hx) hd with hold | ⟨hmem, hoid⟩
  · exact hold
  · obtain ⟨r, hr, hparse⟩ := mem_decoded hmem
    rw [h.commit_eq hr hparse, h.oid_eq] at hoid
    have hcycle : m ∈ parentsOf s o := by
      rw [parentsOf_of_load h.load, h.parents]
      exact List.mem_cons_self
    rw [← hoid] at hcycle
    exact absurd (.single hcycle) h.genuine.commitIn.history.acyclic

end Exported

/-- An honest engine all of whose commits are accounted for. -/
structure Complete (e : MemEngine Oid) : Prop where
  honest : Honest e
  accounted : Accounted e.store e.state.known

structure Received (o : Oid) (e e' : MemEngine Oid) : Prop where
  complete : Complete e'
  ext : e.store.Extends e'.store
  known : e'.state.known = addNew e.state.known o

theorem Complete.integrate {e : MemEngine Oid} (h : Complete e) {raws : List Bytes} {o m : Oid}
    {c pc : CommitObj Oid} (hx : Exported s raws o m c pc) (hm : ∃ d, loadCommit e.store m = .ok d) :
    ∃ n e', MemEngine.integrate raws e = (.ok n, e') ∧
      n + e.state.known.length = e'.state.known.length ∧ Received o e e' := by
  obtain ⟨st, n, hst, hcount, hold, hnew⟩ := hx.integrate_run e
  obtain ⟨hhist, hacc⟩ := hx.history h.honest.history h.accounted hm
  have hext := e.store.extends_putAll (decoded raws : List (GitObject Oid) × Option CspError).1
  by_cases ho : o ∈ e.state.known
  · have hsame : st.known = e.state.known := hst.trans (if_pos ho)
    rw [← hst] at hacc
    exact ⟨0, _, hold ho, by rw [hsame, Nat.zero_add],
      ⟨h.honest.grow hext hhist.store hsame rfl, hacc⟩, hext, hst⟩
  · obtain ⟨k, t, hk, hext', hhist', hgen, hcov, hagain⟩ := hhist.computeMain
    have hacc' := hacc.computeMain hhist.store.sound (addNew e.state.known o)
    rw [hk] at hacc'
    rw [← hst] at hhist' hcov hagain hacc'
    exact ⟨n, _, (hnew ho t).1 k hk, hcount, ⟨⟨hhist', k, rfl, hagain, hgen, hcov⟩, hacc'⟩,
      hext.trans hext', hst⟩

/-- An increment is taken in if and only if the receiver has the parent of its primitive. -/
theorem Complete.integrate_iff {e : MemEngine Oid} (h : Complete e) {raws : List Bytes} {o m : Oid}
    {c pc : CommitObj Oid} (hx : Exported s raws o m c pc) :
    (∃ n e', MemEngine.integrate raws e = (.ok n, e')) ↔ ∃ d, loadCommit e.store m = .ok d := by
  refine ⟨fun ⟨n, e', hok⟩ => ?_, fun hm => ?_⟩
  · obtain ⟨st, n', hst, -, -, hnew⟩ := hx.integrate_run e
    by_cases ho : o ∈ e.state.known
    · obtain ⟨d, hd, -, hparents⟩ := (h.honest.history.commitIn ho).load
      obtain rfl := load_eq_of_sound hx.tidy.sound h.honest.history.store.sound hx.load hd
      obtain ⟨p, hp, -⟩ := (hparents m (by rw [hx.parents]; exact List.mem_cons_self)).load
      exact ⟨p, hp⟩
    -- the primitive is new, so `main` is recomputed, and that reads the parent
    obtain ⟨r, t, hrun⟩ : ∃ r t,
        computeMain (addNew e.state.known o) (e.store.putAll (decoded raws).1) = (r, t) := ⟨_, _, rfl⟩
    cases r with
    | error err =>
      have hfail := (hnew ho t).2 err hrun
      rw [hok] at hfail
      cases (Prod.mk.inj hfail).1
    | ok k =>
      obtain ⟨f, hf, -⟩ := computeMain_ok.mp hrun
      obtain ⟨r, hr, hparse⟩ := hx.head_mem
      obtain ⟨x, hx', hparse'⟩ := decoded_of_all hx.decoded_none r hr
      obtain rfl := Except.ok.inj (hparse.symm.trans hparse')
      have hload := loadCommit_putAll h.honest.history.store.sound
        (fun x hx => encodable_of_mem_decoded hx) hx'
      rw [hx.oid_eq] at hload
      obtain ⟨d, hd⟩ := parent_of_frontier hf (mem_addNew.mpr (.inr rfl)) hload
        hx.primitive hx.parents
      exact ⟨d, hx.load_parent_of_put hd⟩
  · obtain ⟨n, e', hok, -, -⟩ := h.integrate hx hm
    exact ⟨n, e', hok⟩

end Spec

end Csp
