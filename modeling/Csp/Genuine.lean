import Csp.Verification

/-! Genuine history: what honest engines write. A genuine commit is genesis, a primitive whose
signature verifies on genuine parents, or the fold of genuine parents. It stays genuine in every
store that holds its closure, as long as the trees there are tidy. -/

namespace Csp
open Result
variable {Oid : Type} [ObjectId Oid] {s s' t : Store Oid}

/-! ### Tidy stores -/

theorem lt_append_slash (b : Bytes) : b < b ++ utf8 ['/'] := by
  induction b with
  | nil => exact .nil
  | cons x b ih => exact .cons ih

omit [ObjectId Oid] in
theorem treeSortKey_not_le {a b : TreeEntry Oid} (hn : a.name = b.name) (ha : a.mode = treeMode)
    (hb : b.mode ≠ treeMode) : ¬ treeSortKey a ≤ treeSortKey b := by
  rw [treeSortKey, treeSortKey, if_pos ha, if_neg hb, hn]
  exact not_le_of_gt (lt_append_slash _)

omit [ObjectId Oid] in
theorem tidy_sortEntries {es : List (TreeEntry Oid)} (h : Flat es) : Tidy (sortEntries es) := by
  have hflat := h.perm (sortEntries_perm es).symm
  refine ⟨hflat.1, ?_⟩
  have hsorted : (sortEntries es).Pairwise fun a b => treeSortKey a ≤ treeSortKey b :=
    List.pairwise_insertionSort _ es
  refine (hflat.2.and hsorted).imp ?_
  rintro a b ⟨hmode, hle⟩ hn
  by_cases ha : a.mode = treeMode
  · exact absurd hle (treeSortKey_not_le hn ha ((hmode hn).mp ha))
  · refine ⟨ha, ?_⟩
    by_contra hb
    exact ha ((hmode hn).mpr hb)

/-- A store all of whose trees are tidy, and whose ids lead to objects that have them. -/
structure Store.Tidy (s : Store Oid) : Prop where
  sound : s.Sound
  tidy : ∀ o es, s.get o = .ok (.tree es) → Csp.Tidy es

theorem Store.Tidy.alike [LawfulObjectId Oid] (hs : s.Tidy) (hs' : s'.Tidy) {o : Oid}
    {x y : GitObject Oid} (hx : s.get o = .ok x) (hy : s'.get o = .ok y) : Alike Csp.Tidy x y := by
  have hcanon := canon_eq_of_get hs.sound hs'.sound hx hy
  cases x with
  | blob b =>
    cases y with
    | blob b' => exact GitObject.blob.inj hcanon ▸ .same _
    | _ => cases hcanon
  | commit c =>
    cases y with
    | commit c' => exact GitObject.commit.inj hcanon ▸ .same _
    | _ => cases hcanon
  | tree es =>
    cases y with
    | tree es' =>
      have hsort := GitObject.tree.inj hcanon
      have hperm : es.Perm es' := (sortEntries_perm es).symm.trans (hsort ▸ sortEntries_perm es')
      exact .tree hperm (hs.tidy o es hx) (hs'.tidy o es' hy)
    | _ => cases hcanon

section Put
variable [Crates] [LawfulObjectId Oid] [LawfulCrates]

theorem Store.Tidy.putAll (hs : s.Tidy) {xs : List (GitObject Oid)} (henc : ∀ x ∈ xs, x.Encodable)
    (htidy : ∀ es, .tree es ∈ xs → Csp.Tidy es) : (s.putAll xs).Tidy := by
  refine ⟨hs.sound.putAll henc, fun o es hes => ?_⟩
  rcases Store.getElem?_putAll (Store.get_eq_ok.mp hes) with hold | ⟨x, hx, -, hr⟩
  · exact hs.tidy o es (Store.get_eq_ok.mpr hold)
  · cases hb : s.backend with
    | mem =>
      rw [hb] at hr
      obtain rfl : GitObject.tree es = x := Except.ok.inj hr
      exact htidy es hx
    | disk =>
      rw [hb, Backend.reread, decompressAndParse_compress (henc x hx)] at hr
      have hcanon : GitObject.tree es = x.canon := Except.ok.inj hr
      cases x with
      | tree es' =>
        obtain rfl := GitObject.tree.inj hcanon
        exact tidy_sortEntries (htidy es' hx).flat
      | _ => cases hcanon

theorem Store.Tidy.written (hs : s.Tidy) {xs : List (GitObject Oid)} (hw : Written xs) :
    (s.putAll xs).Tidy :=
  hs.putAll hw.encodable hw.tidy

theorem Store.Tidy.refold (hs : s.Tidy) (ps : List Oid) : (refold ps s).2.Tidy := by
  rw [refold_run]
  cases hf : foldObjects s ps with
  | error e => exact hs
  | ok r => exact hs.written (written_foldObjects hs.sound
      (show foldObjects s ps = .ok (r.1, r.2) from hf))

theorem Store.Tidy.verifyBatch (hs : s.Tidy) (raws : List Bytes) : (verifyBatch raws s).2.Tidy :=
  verifyBatch_induction (fun s t : Store Oid => s.Tidy → t.Tidy) (fun _ => id)
    (fun _ _ _ h h' => h' ∘ h)
    (fun ps _ hs => hs.refold ps) raws s hs

theorem Store.Tidy.computeMain (hs : s.Tidy) (known : List Oid) : (computeMain known s).2.Tidy :=
  computeMain_induction (fun s t : Store Oid => s.Tidy → t.Tidy) (fun _ => id)
    (fun _ _ _ h h' => h' ∘ h)
    (fun ps _ hs => hs.refold ps)
    (fun _ hs => by rw [genesis_run]; exact hs.written written_genesis) known s hs

end Put

/-! ### Genuine commits -/

section Genuine
variable [Crates]

/-- The commits that honest engines make, with the closures that they make them on. -/
inductive Genuine (s : Store Oid) : Oid → Prop
  | genesis {o : Oid} (hc : loadCommit s o = .ok genesisCommit)
    (ht : TreeIn s (genesisCommit : CommitObj Oid).tree) :
      Genuine s o
  | primitive {o : Oid} {c : CommitObj Oid} {node : NodeId} (hc : loadCommit s o = .ok c)
      (ht : TreeIn s c.tree) (hp : isPrimitive c = true) (hv : verifyPrimitive c = .ok node)
      (hne : c.parents ≠ [])
      (hparents : ∀ p ∈ c.parents, Genuine s p) : Genuine s o
  | fold {o : Oid} {c : CommitObj Oid} {objs : List (GitObject Oid)} (hc : loadCommit s o = .ok c)
      (ht : TreeIn s c.tree) (hp : isPrimitive c = false)
      (hf : foldObjects s c.parents = .ok (objs, c))
      (hparents : ∀ p ∈ c.parents, Genuine s p) : Genuine s o

variable {o : Oid}

theorem foldObjects_parents_ne {objs : List (GitObject Oid)} {c : CommitObj Oid} {ps : List Oid}
    (h : foldObjects s ps = .ok (objs, c)) : ps ≠ [] := by
  obtain ⟨-, ⟨tip, hps, -⟩ | ⟨acc, tk, m, hps, -⟩⟩ := foldObjects_commit h
  · rw [hps]
    exact List.cons_ne_nil _ _
  · rw [hps]
    exact List.cons_ne_nil _ _

theorem Genuine.commitIn (h : Genuine s o) : CommitIn s o := by
  induction h with
  | genesis hc ht => exact .mk hc ht fun p hp => by simp [genesisCommit, foldCommit] at hp
  | primitive hc ht _ _ _ _ ih => exact .mk hc ht ih
  | fold hc ht _ _ _ ih => exact .mk hc ht ih

theorem Genuine.parent {c : CommitObj Oid} (h : Genuine s o) (hc : loadCommit s o = .ok c) {p : Oid}
    (hp : p ∈ c.parents) : Genuine s p := by
  cases h with
  | genesis hc' _ =>
    obtain rfl : c = genesisCommit := Except.ok.inj (hc.symm.trans hc')
    simp [genesisCommit, foldCommit] at hp
  | primitive hc' _ _ _ _ hparents =>
    obtain rfl := Except.ok.inj (hc.symm.trans hc')
    exact hparents p hp
  | fold hc' _ _ _ hparents =>
    obtain rfl := Except.ok.inj (hc.symm.trans hc')
    exact hparents p hp

theorem Genuine.descend {r : Oid} (h : Genuine s o) (hr : Descends s o r) : Genuine s r := by
  induction hr with
  | refl => exact h
  | @tail a b _ hb ih =>
    obtain ⟨c, hc, -⟩ := ih.commitIn.load
    rw [parentsOf_of_load hc] at hb
    exact ih.parent hc hb

theorem Genuine.verifies {c : CommitObj Oid} (h : Genuine s o) (hc : loadCommit s o = .ok c)
    (hp : isPrimitive c = true) : ∃ node, verifyPrimitive c = .ok node := by
  cases h with
  | genesis hc' _ =>
    obtain rfl : c = genesisCommit := Except.ok.inj (hc.symm.trans hc')
    rw [isPrimitive_genesis] at hp
    cases hp
  | primitive hc' _ _ hv _ _ =>
    obtain rfl := Except.ok.inj (hc.symm.trans hc')
    exact ⟨_, hv⟩
  | fold hc' _ hp' _ _ =>
    obtain rfl := Except.ok.inj (hc.symm.trans hc')
    rw [hp'] at hp
    cases hp

theorem Genuine.reproduces (hs : s.Sound) (h : Genuine s o) : Reproduces s o := by
  induction h with
  | genesis hc _ => exact .genesis hc (hs.get (loadCommit_ok.mp hc)).1
  | primitive hc _ hp _ _ _ _ => exact .primitive hc hp
  | fold hc _ hp hf _ ih => exact .fold hc hp (hs.get (loadCommit_ok.mp hc)).1 hf ih

theorem Genuine.descends (hs : s.Sound) (h : Genuine s o) :
    Descends s o (GitObject.commit (genesisCommit : CommitObj Oid)).oid := by
  have step : ∀ {o : Oid} {c : CommitObj Oid}, loadCommit s o = .ok c → c.parents ≠ [] →
      (∀ p ∈ c.parents, Descends s p (GitObject.commit (genesisCommit : CommitObj Oid)).oid) →
      Descends s o (GitObject.commit (genesisCommit : CommitObj Oid)).oid := by
    intro o c hc hne ih
    obtain ⟨p, hp⟩ := List.exists_mem_of_ne_nil _ hne
    refine .head (b := p) ?_ (ih p hp)
    rwa [parentsOf_of_load hc]
  induction h with
  | genesis hc _ =>
    rw [(hs.get (loadCommit_ok.mp hc)).1]
  | primitive hc _ _ _ hne _ ih => exact step hc hne ih
  | fold hc _ _ hf _ ih => exact step hc (foldObjects_parents_ne hf) ih

/-- Everything below genuine commits is a genuine ancestor of them, a tree held in full, or a
file. -/
theorem genuine_below {tips : List Oid} (h : ∀ o ∈ tips, Genuine s o) {o : Oid}
    (ho : Below s tips o) :
    (Genuine s o ∧ ∃ k ∈ tips, Descends s k o) ∨ TreeIn s o ∨ ∃ b, s.get o = .ok (.blob b) := by
  obtain ⟨k, hk, hpath⟩ := ho
  induction hpath with
  | refl => exact .inl ⟨h k hk, k, hk, .refl⟩
  | @tail a b _ hb ih =>
    rcases ih with ⟨hgen, k', hk', hka⟩ | htree | ⟨blob, hblob⟩
    · obtain ⟨c, hc, htree, -⟩ := hgen.commitIn.load
      rw [s.refsOf_of_get (loadCommit_ok.mp hc)] at hb
      rcases List.mem_cons.mp hb with rfl | hb
      · exact .inr (.inl htree)
      · exact .inl ⟨hgen.parent hc hb, k', hk', hka.tail (by rwa [parentsOf_of_load hc])⟩
    · obtain ⟨hes, hdir, hfile⟩ := htree
      rename_i es
      rw [s.refsOf_of_get hes] at hb
      obtain ⟨e, he, rfl⟩ := List.mem_map.mp hb
      by_cases hmode : e.mode = treeMode
      · exact .inr (.inl (hdir e he hmode))
      · exact .inr (.inr (hfile e he hmode))
    · rw [s.refsOf_of_get hblob] at hb
      cases hb

omit [Crates] in
theorem below_of_descends {tips : List Oid} {k o : Oid} (hk : k ∈ tips) (h : Descends s k o) :
    Below s tips o := by
  induction h with
  | refl => exact ⟨k, hk, .refl⟩
  | @tail a b _ hb ih =>
    obtain ⟨r, hr, hpath⟩ := ih
    refine ⟨r, hr, hpath.tail ?_⟩
    rw [parentsOf] at hb
    split at hb
    · rename_i c hc
      rw [s.refsOf_of_get (loadCommit_ok.mp hc)]
      exact List.mem_cons_of_mem _ hb
    · cases hb

theorem Genuine.carries {R : Oid → Prop} (hcar : Carries Tidy R s s') (h : Genuine s o) (hR : R o) :
    Genuine s' o := by
  induction h with
  | genesis hc ht =>
    obtain ⟨hc', hRt, -⟩ := hcar.loadCommit hR hc
    exact .genesis hc' (hcar.treeIn hRt ht)
  | primitive hc ht hp hv hne _ ih =>
    obtain ⟨hc', hRt, hRp⟩ := hcar.loadCommit hR hc
    exact .primitive hc' (hcar.treeIn hRt ht) hp hv hne fun p hp' => ih p hp' (hRp p hp')
  | fold hc ht hp hf _ ih =>
    obtain ⟨hc', hRt, hRp⟩ := hcar.loadCommit hR hc
    exact .fold hc' (hcar.treeIn hRt ht) hp (hcar.foldObjects (fun _ => Tidy.flat) hRp hf)
      fun p hp' => ih p hp' (hRp p hp')

theorem Genuine.extends (h : Genuine s o) (he : s.Extends t) : Genuine t o :=
  h.carries he.carries trivial

/-! ### What the fold makes is genuine -/

variable [LawfulObjectId Oid] [LawfulCrates]

theorem genuine_refold (hs : s.Sound) {ps : List Oid} (hps : ∀ p ∈ ps, Genuine s p)
    (h : refold ps s = (.ok o, t)) : t.Sound ∧ s.Extends t ∧ Genuine t o ∧ parentsOf t o = ps ∧
    isPrimitiveOid t o = false := by
  have hext : s.Extends t := by
    have := extends_refold ps s
    rwa [h] at this
  obtain ⟨objs, c, hf, rfl, rfl⟩ := refold_ok h
  obtain ⟨hsound, hload, hin⟩ := hs.foldObjects (fun p hp => (hps p hp).commitIn) hf
  obtain ⟨d, hd, htree, -⟩ := hin.load
  obtain rfl : c = d := Except.ok.inj (hload.symm.trans hd)
  obtain ⟨⟨tree, time, -, hc⟩, -⟩ := foldObjects_commit hf
  have hparents : c.parents = ps := by rw [hc]; rfl
  have hprim : isPrimitive c = false := by rw [hc]; exact isPrimitive_foldCommit tree ps time
  refine ⟨hsound, hext, .fold hload htree hprim (hparents ▸ foldObjects_extends hext hf) ?_,
    (parentsOf_of_load hload).trans hparents, ?_⟩
  · rw [hparents]
    exact fun p hp => (hps p hp).extends hext
  · rw [isPrimitiveOid, hload]
    exact hprim

omit [Crates] [LawfulObjectId Oid] [LawfulCrates] in
/-- Every primitive at a commit or below it is in the list. -/
def Covered (s : Store Oid) (known : List Oid) (o : Oid) : Prop :=
  ∀ p, Descends s o p → isPrimitiveOid s p = true → p ∈ known

omit [Crates] [LawfulObjectId Oid] [LawfulCrates] in
theorem Descends.of_extends {o r : Oid} (he : s.Extends t) (hin : CommitIn s o)
    (h : Descends t o r) :
    Descends s o r := by
  induction h with
  | refl => exact .refl
  | @tail b c _ hbc ih =>
    refine ih.tail ?_
    obtain ⟨d, hd, -⟩ := (hin.ancestor ih).load
    rw [parentsOf_of_load (loadCommit_extends he hd)] at hbc
    rwa [parentsOf_of_load hd]

omit [LawfulObjectId Oid] [LawfulCrates] in
theorem isPrimitiveOid_of_extends (he : s.Extends t) (hin : CommitIn s o) :
    isPrimitiveOid t o = isPrimitiveOid s o := by
  obtain ⟨d, hd, -⟩ := hin.load
  rw [isPrimitiveOid, isPrimitiveOid, hd, loadCommit_extends he hd]

omit [LawfulObjectId Oid] [LawfulCrates] in
theorem Covered.extends {known : List Oid} (h : Covered s known o) (he : s.Extends t)
    (hin : CommitIn s o) :
    Covered t known o := by
  intro p hp hprim
  have hp' := hp.of_extends he hin
  exact h p hp' (by rwa [← isPrimitiveOid_of_extends he (hin.ancestor hp')])

omit [LawfulObjectId Oid] [LawfulCrates] in
theorem Covered.mono {known known' : List Oid} (h : Covered s known o)
    (hk : ∀ p ∈ known, p ∈ known') :
    Covered s known' o := fun p hp hprim => hk p (h p hp hprim)

omit [LawfulObjectId Oid] [LawfulCrates] in
theorem covered_of_parents {known : List Oid} (hself : isPrimitiveOid s o = true → o ∈ known)
    (hparents : ∀ p ∈ parentsOf s o, Covered s known p) : Covered s known o := by
  intro p hp hprim
  rcases Relation.ReflTransGen.cases_head hp with rfl | ⟨q, hq, hqp⟩
  · exact hself hprim
  · exact hparents q hq p hqp hprim

/-- What a fold leaves of genuine commits that a list covers. -/
structure Stage (s t : Store Oid) (known : List Oid) (o : Oid) : Prop where
  sound : t.Sound
  ext : s.Extends t
  genuine : Genuine t o
  covered : Covered t known o

theorem stage_refold (hs : s.Sound) {known ps : List Oid}
    (hps : ∀ p ∈ ps, Genuine s p ∧ Covered s known p) (h : refold ps s = (.ok o, t)) :
    Stage s t known o := by
  obtain ⟨hsound, hext, hgen, hparents, hprim⟩ := genuine_refold hs (fun p hp => (hps p hp).1) h
  refine ⟨hsound, hext, hgen, covered_of_parents (fun hp => ?_) fun p hp => ?_⟩
  · rw [hprim] at hp
    cases hp
  · rw [hparents] at hp
    exact (hps p hp).2.extends hext (hps p hp).1.commitIn

/-- What covered genuine tips fold to is genuine and covered. -/
theorem stage_foldTips {known tips : List Oid} (hs : s.Sound)
    (htips : ∀ p ∈ tips, Genuine s p ∧ Covered s known p) (h : foldTips tips s = (.ok o, t)) :
    Stage s t known o := by
  have hgrow : ∀ s t p, s.Extends t → Genuine s p ∧ Covered s known p → Genuine t p ∧
      Covered t known p :=
    fun s t p he ⟨hg, hc⟩ => ⟨hg.extends he, hc.extends he hg.commitIn⟩
  have hgenesis : ∀ s : Store Oid, s.Sound → Genuine (genesis s).2
      (GitObject.commit genesisCommit).oid ∧
      Covered (genesis s).2 known (GitObject.commit genesisCommit).oid := by
    intro s hs
    rw [genesis_run]
    obtain ⟨hload, hin⟩ := commitIn_genesis hs
    obtain ⟨d, hd, htree, -⟩ := hin.load
    obtain rfl : genesisCommit = d := Except.ok.inj (hload.symm.trans hd)
    refine ⟨.genesis hload htree, covered_of_parents (fun hp => ?_) fun p hp => ?_⟩
    · rw [isPrimitiveOid, hload] at hp
      exact absurd (hp.symm.trans isPrimitive_genesis) Bool.false_ne_true.symm
    · rw [parentsOf_of_load hload] at hp
      cases hp
  obtain ⟨hsound, hext, hg, hc⟩ := foldTips_rule hgrow hgenesis (fun s t ps o hs hps h =>
    ⟨(stage_refold hs hps h).genuine, (stage_refold hs hps h).covered⟩) hs htips h
  exact ⟨hsound, hext, hg, hc⟩

end Genuine

end Csp
