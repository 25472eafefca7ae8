import Csp.FoldFacts
import Csp.Small

/-! Fold determinism. On two stores that hold the closure of the known primitives, with
tree entries whose order does not show, the fold computes one `main`. -/

namespace Csp
open Result
variable {Oid : Type} [ObjectId Oid] [Crates] [LawfulObjectId Oid] [LawfulCrates]
  {s s' : Store Oid} {R : Oid → Prop}

omit [ObjectId Oid] [Crates] [LawfulObjectId Oid] [LawfulCrates] in
theorem alike_of_canon {x y z : GitObject Oid} (hx : x.canon = z.canon) (hy : y.canon = z.canon)
    (hz : ∀ es, z = .tree es → Flat es) : Alike Flat x y := by
  cases z with
  | blob b =>
    cases x <;> cases y <;> simp_all [GitObject.canon]
    exact .same _
  | commit c =>
    cases x <;> cases y <;> simp_all [GitObject.canon]
    exact .same _
  | tree es =>
    cases x <;> cases y <;> simp only [GitObject.canon, GitObject.tree.injEq, reduceCtorEq] at hx hy
    rename_i ex ey
    have perm : ∀ {l : List (TreeEntry Oid)}, sortEntries l = sortEntries es → es.Perm l :=
      fun h => (sortEntries_perm es).symm.trans (h ▸ sortEntries_perm _)
    have hes := hz es rfl
    exact .tree ((perm hx).symm.trans (perm hy)) (hes.perm (perm hx)) (hes.perm (perm hy))

theorem Carries.putAll (h : Carries Flat R s s') (hs : s.Sound) (hs' : s'.Sound)
    {xs : List (GitObject Oid)} (hw : Written xs)
    (hrefs : ∀ x ∈ xs, ∀ r ∈ x.refs, R r ∨ ∃ y ∈ xs, y.oid = r) :
    Carries Flat (fun o => R o ∨ ∃ x ∈ xs, x.oid = o) (s.putAll xs) (s'.putAll xs) := by
  have key : ∀ o x, (R o ∨ ∃ z ∈ xs, z.oid = o) → (s.putAll xs).get o = .ok x →
      (R o ∧ s.get o = .ok x) ∨ ∃ z ∈ xs, z.oid = o ∧ x.canon = z.canon := by
    intro o x ho hx
    have hput : ∀ z ∈ xs, z.oid = o → x.canon = z.canon := by
      rintro z hz rfl
      obtain ⟨w, hw', hc⟩ := hs.get_putAll hw.encodable hz
      rw [← Except.ok.inj (hw'.symm.trans hx), hc]
    rcases ho with ho | ⟨z, hz, rfl⟩
    · rcases Store.getElem?_putAll (Store.get_eq_ok.mp hx) with hold | ⟨z, hz, rfl, -⟩
      · exact .inl ⟨ho, Store.get_eq_ok.mpr hold⟩
      · exact .inr ⟨z, hz, rfl, hput z hz rfl⟩
    · exact .inr ⟨z, hz, rfl, hput z hz rfl⟩
  constructor
  · intro o x ho hx
    rcases key o x ho hx with ⟨hR, hold⟩ | ⟨z, hz, rfl, hc⟩
    · obtain ⟨y, hy, ha⟩ := h.alike o x hR hold
      exact ⟨y, (s'.extends_putAll xs).get hy, ha⟩
    · obtain ⟨y, hy, hyc⟩ := hs'.get_putAll hw.encodable hz
      exact ⟨y, hy, alike_of_canon hc hyc fun es he => (hw.tidy es (he ▸ hz)).flat⟩
  · intro o x ho hx r hr
    rcases key o x ho hx with ⟨hR, hold⟩ | ⟨z, hz, rfl, hc⟩
    · exact .inl (h.refs o x hR hold r hr)
    · exact hrefs z hz r ((mem_refs_of_canon hc).mp hr)

omit [LawfulObjectId Oid] [LawfulCrates] in
theorem Carries.refs_foldObjects {Q : List (TreeEntry Oid) → Prop} (h : Carries Q R s s')
    {ps : List Oid} (hR : ∀ p ∈ ps, R p) {objs : List (GitObject Oid)} {c : CommitObj Oid}
    (hf : Csp.foldObjects s ps = .ok (objs, c)) :
    ∀ x ∈ objs ++ [.commit c], ∀ r ∈ x.refs, R r ∨ ∃ y ∈ objs ++ [.commit c], y.oid = r := by
  obtain ⟨⟨tree, t, -, rfl⟩, hcase⟩ := foldObjects_commit hf
  intro x hx r hr
  rcases hcase with ⟨tip, rfl, rfl, htree⟩ | ⟨acc, tk, m, rfl, -, rfl, hroot⟩
  · rw [List.nil_append, List.mem_singleton] at hx
    subst hx
    rcases List.mem_cons.mp hr with rfl | hr
    · exact .inl (h.commitTree (hR tip List.mem_cons_self) htree).2
    · exact .inl (hR r hr)
  · rcases List.mem_append.mp hx with hx | hx
    · obtain ⟨y, hy, hyr⟩ := refs_of_mem_writeTree hx hr
      exact .inr ⟨y, List.mem_append_left _ hy, hyr⟩
    · rw [List.mem_singleton] at hx
      subst hx
      rcases List.mem_cons.mp hr with rfl | hr
      · obtain ⟨y, hy, hyr⟩ := @root_mem_writeTree Oid _ m
        exact .inr ⟨y, List.mem_append_left _ hy, hyr.trans hroot.symm⟩
      · exact .inl (hR r hr)

/-! ### The fold on two stores -/

/-- Two sound stores of which the second carries a region of the first that holds the
commit in full. -/
structure Twins (R : Oid → Prop) (s s' : Store Oid) : Prop where
  carries : Carries Flat R s s'
  sound : s.Sound
  sound' : s'.Sound

theorem Twins.refold (h : Twins R s s') {ps : List Oid} (hR : ∀ p ∈ ps, R p)
    (hin : ∀ p ∈ ps, CommitIn s p) {o : Oid} {t : Store Oid} (hr : refold ps s = (.ok o, t)) :
    ∃ R' t', Csp.refold ps s' = (.ok o, t') ∧ Twins R' t t' ∧ (∀ x, R x → R' x) ∧ R' o ∧
      CommitIn t o ∧ s.Extends t := by
  obtain ⟨objs, c, hf, rfl, rfl⟩ := refold_ok hr
  obtain ⟨hsound, -, hcommit⟩ := h.sound.foldObjects hin hf
  have hf' := h.carries.foldObjects (fun _ => id) hR hf
  have hw := written_foldObjects h.sound hf
  refine ⟨_, s'.putAll (objs ++ [.commit c]), by rw [refold_run, hf'],
    ⟨h.carries.putAll h.sound h.sound' hw (h.carries.refs_foldObjects hR hf), hsound,
      h.sound'.putAll hw.encodable⟩, fun x => .inl, .inr ⟨.commit c, by simp, rfl⟩, hcommit,
    s.extends_putAll _⟩

theorem Twins.foldlM_foldStep {rest : List Oid} (h : Twins R s s') {acc : Oid} (hacc : R acc)
    (hacc' : CommitIn s acc) (hR : ∀ p ∈ rest, R p) (hin : ∀ p ∈ rest, CommitIn s p) {o : Oid}
    {t : Store Oid} (hr : rest.foldlM foldStep acc s = (.ok o, t)) :
    ∃ R' t', rest.foldlM foldStep acc s' = (.ok o, t') ∧ Twins R' t t' ∧ R' o ∧ CommitIn t o := by
  induction rest generalizing R s s' acc with
  | nil =>
    rw [List.foldlM_nil, run_pure, Prod.mk.injEq, Except.ok.injEq] at hr
    obtain ⟨rfl, rfl⟩ := hr
    exact ⟨R, s', rfl, h, hacc, hacc'⟩
  | cons tk rest ih =>
    rw [List.foldlM_cons] at hr
    obtain ⟨a, u, hstep, hr⟩ := run_bind_ok.mp hr
    obtain ⟨R', u', hstep', h', hRR', hRa, hina, hext⟩ := h.refold
      (show ∀ p ∈ [acc, tk], R p by simpa using ⟨hacc, hR tk List.mem_cons_self⟩)
      (by simpa using ⟨hacc', hin tk List.mem_cons_self⟩) hstep
    obtain ⟨R'', t', hrest', h''⟩ := ih h' hRa hina
      (fun p hp => hRR' p (hR p (List.mem_cons_of_mem _ hp)))
      (fun p hp => (hin p (List.mem_cons_of_mem _ hp)).extends hext) hr
    refine ⟨R'', t', ?_, h''⟩
    rw [List.foldlM_cons]
    exact run_bind_ok.mpr ⟨a, u', hstep', hrest'⟩

omit [Crates] [LawfulObjectId Oid] [LawfulCrates] in
theorem written_genesis :
    Written [emptyTree, GitObject.commit (genesisCommit : CommitObj Oid)] where
  encodable := by
    intro x hx
    rcases List.mem_pair.mp hx with rfl | rfl
    · exact fun e he => absurd he List.not_mem_nil
    · exact encodable_genesisCommit
  tidy := by
    intro es hes
    rcases List.mem_pair.mp hes with he | he
    · obtain rfl := GitObject.tree.inj he
      exact ⟨fun e he => absurd he List.not_mem_nil, .nil⟩
    · cases he

omit [LawfulObjectId Oid] [LawfulCrates] in
theorem genesis_run : genesis s = (.ok (GitObject.commit genesisCommit).oid,
    s.putAll [emptyTree, .commit genesisCommit]) := rfl

omit [Crates] [LawfulObjectId Oid] [LawfulCrates] in
theorem refs_genesis {x : GitObject Oid} (hx : x ∈ [emptyTree, .commit genesisCommit]) {r : Oid}
    (hr : r ∈ x.refs) : ∃ y ∈ [emptyTree, GitObject.commit (genesisCommit : CommitObj Oid)],
    y.oid = r := by
  rcases List.mem_pair.mp hx with rfl | rfl
  · cases hr
  · rcases List.mem_cons.mp hr with rfl | hr
    · exact ⟨emptyTree, List.mem_cons_self, rfl⟩
    · cases hr

omit [ObjectId Oid] [Crates] [LawfulObjectId Oid] [LawfulCrates] in
theorem canon_eq_nil {z : GitObject Oid} (h : z.canon = emptyTree.canon) : z = .tree [] := by
  cases z with
  | blob b => cases h
  | commit c => cases h
  | tree es =>
    have hp := (sortEntries_perm es).symm
    rw [GitObject.tree.inj h] at hp
    rw [List.perm_nil.mp hp]

theorem commitIn_genesis (hs : s.Sound) :
    loadCommit (s.putAll [emptyTree, .commit genesisCommit]) (GitObject.commit genesisCommit).oid =
      .ok genesisCommit ∧
    CommitIn (s.putAll [emptyTree, .commit genesisCommit])
    (GitObject.commit genesisCommit).oid := by
  have hw := @written_genesis Oid _
  obtain ⟨y, hy, hyc⟩ := hs.get_putAll hw.encodable (x := .commit genesisCommit) (by simp)
  obtain ⟨z, hz, hzc⟩ := hs.get_putAll hw.encodable (x := emptyTree) (by simp)
  have hload : loadCommit (s.putAll [emptyTree, .commit genesisCommit])
      (GitObject.commit genesisCommit).oid = .ok genesisCommit := by
    rw [loadCommit_ok, hy]
    cases y <;> simp_all [GitObject.canon]
  have hempty : (s.putAll [emptyTree, .commit genesisCommit]).get emptyTree.oid = .ok
      (.tree []) := by
    obtain rfl := canon_eq_nil hzc
    exact hz
  exact ⟨hload, .mk hload (.mk hempty (by simp) (by simp)) (by simp [genesisCommit, foldCommit])⟩

def foldTips : List Oid → StoreM Oid Oid
  | [] => genesis
  | [tip] => thinWrapper tip
  | acc :: rest => rest.foldlM foldStep acc

omit [LawfulObjectId Oid] [LawfulCrates] in
theorem computeMain_run {known f : List Oid} (h : frontier s known = .ok f) :
    computeMain known s = foldTips f s := by
  rw [computeMain, run_bind_of_ok (show StoreM.read (fun s => frontier s known) s = (.ok f, s) by
    rw [StoreM.read, h])]
  rcases f with _ | ⟨tip, _ | ⟨tk, rest⟩⟩
  · rfl
  · rfl
  · rfl

omit [LawfulObjectId Oid] [LawfulCrates] in
theorem computeMain_ok {known : List Oid} {main : Oid} {t : Store Oid} :
    computeMain known s = (.ok main, t) ↔
      ∃ f, frontier s known = .ok f ∧ foldTips f s = (.ok main, t) := by
  constructor
  · intro h
    obtain ⟨f, u, hf, -⟩ := run_bind_ok.mp h
    simp only [StoreM.read, Prod.mk.injEq] at hf
    exact ⟨f, hf.1, computeMain_run hf.1 ▸ h⟩
  · rintro ⟨f, hf, h⟩
    rw [computeMain_run hf, h]

theorem Twins.computeMain (h : Twins R s s') {known known' : List Oid}
    (hf : frontier s' known' = frontier s known) (hR : ∀ o ∈ known, R o)
    (hin : ∀ o ∈ known, CommitIn s o) {main : Oid} {t : Store Oid}
    (hm : computeMain known s = (.ok main, t)) :
    ∃ R' t', Csp.computeMain known' s' = (.ok main, t') ∧ Twins R' t t' ∧ R' main ∧
    CommitIn t main := by
  obtain ⟨f, hf', hm⟩ := computeMain_ok.mp hm
  have hmem : ∀ o ∈ f, R o ∧ CommitIn s o := fun o ho =>
    ⟨hR o (mem_of_mem_frontier hf' ho).1, hin o (mem_of_mem_frontier hf' ho).1⟩
  rw [computeMain_run (hf.trans hf')]
  -- genesis, the wrapper of one tip, or the fold, as the frontier has it
  match f with
  | [] =>
    rw [foldTips, genesis_run, Prod.mk.injEq, Except.ok.injEq] at hm
    obtain ⟨rfl, rfl⟩ := hm
    exact ⟨_, _, genesis_run, ⟨h.carries.putAll h.sound h.sound' written_genesis
      fun x hx r hr => .inr (refs_genesis hx hr), h.sound.putAll written_genesis.encodable,
      h.sound'.putAll written_genesis.encodable⟩, .inr ⟨_, by simp, rfl⟩,
      (commitIn_genesis h.sound).2⟩
  | [tip] =>
    obtain ⟨R', t', ht', htw, -, hR', hint, -⟩ := h.refold
      (show ∀ p ∈ [tip], R p by simpa using (hmem tip (by simp)).1)
      (by simpa using (hmem tip (by simp)).2) hm
    exact ⟨R', t', ht', htw, hR', hint⟩
  | acc :: tk :: rest =>
    exact h.foldlM_foldStep (hmem acc (by simp)).1 (hmem acc (by simp)).2
      (fun p hp => (hmem p (List.mem_cons_of_mem _ hp)).1)
      (fun p hp => (hmem p (List.mem_cons_of_mem _ hp)).2) hm

/-! ### The fold ends with a commit -/

/-- The second commit is the first or one of its ancestors. -/
abbrev Descends (s : Store Oid) (o r : Oid) : Prop :=
  Relation.ReflTransGen (fun a b => b ∈ parentsOf s a) o r

omit [Crates] [LawfulObjectId Oid] [LawfulCrates] in
theorem mem_parentsOf_extends (he : s.Extends s') {a b : Oid} (h : b ∈ parentsOf s a) :
    b ∈ parentsOf s' a := by
  cases hc : loadCommit s a with
  | error e => simp [parentsOf, hc] at h
  | ok c =>
    rw [parentsOf_of_load hc] at h
    rwa [parentsOf_of_load (loadCommit_extends he hc)]

omit [Crates] [LawfulObjectId Oid] [LawfulCrates] in
theorem Descends.extends {o r : Oid} (h : Descends s o r) (he : s.Extends s') : Descends s' o r :=
  Relation.ReflTransGen.mono (fun _ _ hab => mem_parentsOf_extends he hab) _ _ h

/-- What a fold leaves behind: a commit held in full, below which lies the given one. -/
structure Folded (s t : Store Oid) (r o : Oid) : Prop where
  sound : t.Sound
  ext : s.Extends t
  commitIn : CommitIn t o
  descends : Descends t o r

theorem refold_folded (hs : s.Sound) {ps : List Oid} {r o : Oid} (hin : ∀ p ∈ ps, CommitIn s p)
    (hr : ∀ p ∈ ps, Descends s p r) {t : Store Oid} (h : refold ps s = (.ok o, t)) :
    Folded s t r o := by
  obtain ⟨objs, c, hf, rfl, rfl⟩ := refold_ok h
  obtain ⟨hsound, hload, hcommit⟩ := hs.foldObjects hin hf
  have hext := s.extends_putAll (objs ++ [.commit c])
  obtain ⟨⟨tree, t, -, rfl⟩, hcase⟩ := foldObjects_commit hf
  obtain ⟨p, hp⟩ : ∃ p, p ∈ ps := by
    rcases hcase with ⟨tip, rfl, -⟩ | ⟨acc, tk, m, rfl, -⟩ <;> exact ⟨_, List.mem_cons_self⟩
  refine ⟨hsound, hext, hcommit, .head ?_ ((hr p hp).extends hext)⟩
  rw [parentsOf_of_load hload]
  exact hp

theorem thinWrapper_total (hs : s.Sound) {tip r : Oid} (hin : CommitIn s tip)
    (hr : Descends s tip r) :
    ∃ o t, thinWrapper tip s = (.ok o, t) ∧ Folded s t r o := by
  obtain ⟨tree, ht, -⟩ := hin.commitTree
  obtain ⟨c, hc, -⟩ := hin.load
  obtain ⟨time, hmax⟩ := maxCommitterTime_total
    (show ∀ p ∈ [tip], ∃ c, loadCommit s p = .ok c by simpa using ⟨c, hc⟩)
  have hf : foldObjects s [tip] = .ok ([], foldCommit tree [tip] time foldMsg) := by
    rw [foldObjects, ht, ok_bind, hmax]
    rfl
  have h := thinWrapper_run (s := s) tip
  rw [hf] at h
  exact ⟨_, _, h, refold_folded hs (show ∀ p ∈ [tip], CommitIn s p by simpa using hin)
    (by simpa using hr) h⟩

theorem foldStep_total (hs : s.Sound) {acc tk r : Oid} (ha : CommitIn s acc) (hk : CommitIn s tk)
    (har : Descends s acc r) (hkr : Descends s tk r) :
    ∃ o t, foldStep acc tk s = (.ok o, t) ∧ Folded s t r o := by
  obtain ⟨m, hm⟩ := mergedFiles_total ha hk har hkr
  obtain ⟨c, hc, -⟩ := ha.load
  obtain ⟨d, hd, -⟩ := hk.load
  obtain ⟨time, hmax⟩ := maxCommitterTime_total
    (show ∀ p ∈ [acc, tk], ∃ c, loadCommit s p = .ok c by simpa using ⟨⟨c, hc⟩, d, hd⟩)
  have hf : foldObjects s [acc, tk] = .ok ((writeTreeFromFiles m).1,
      foldCommit (writeTreeFromFiles m : List (GitObject Oid) × Oid).2 [acc, tk] time foldMsg) := by
    rw [foldObjects, hm, ok_bind, hmax]
    rfl
  have h := foldStep_run (s := s) acc tk
  rw [hf] at h
  exact ⟨_, _, h, refold_folded hs (show ∀ p ∈ [acc, tk], CommitIn s p by simpa using ⟨ha, hk⟩)
    (by simpa using ⟨har, hkr⟩) h⟩

theorem foldlM_foldStep_total {rest : List Oid} {acc r : Oid} (hs : s.Sound) (ha : CommitIn s acc)
    (har : Descends s acc r) (hin : ∀ p ∈ rest, CommitIn s p) (hr : ∀ p ∈ rest, Descends s p r) :
    ∃ o t, rest.foldlM foldStep acc s = (.ok o, t) ∧ Folded s t r o := by
  induction rest generalizing s acc with
  | nil => exact ⟨acc, s, rfl, hs, .refl s, ha, har⟩
  | cons tk rest ih =>
    obtain ⟨o, t, hstep, ht⟩ := foldStep_total hs ha (hin tk List.mem_cons_self) har
      (hr tk List.mem_cons_self)
    obtain ⟨o', t', hrest, ht'⟩ := ih ht.sound ht.commitIn ht.descends
      (fun p hp => (hin p (List.mem_cons_of_mem _ hp)).extends ht.ext)
      fun p hp => (hr p (List.mem_cons_of_mem _ hp)).extends ht.ext
    refine ⟨o', t', ?_, ht'.sound, ht.ext.trans ht'.ext, ht'.commitIn, ht'.descends⟩
    rw [List.foldlM_cons]
    exact run_bind_ok.mpr ⟨o, t, hstep, hrest⟩

theorem computeMain_total (hs : s.Sound) {known : List Oid}
    (hin : ∀ o ∈ known, CommitIn s o) {r : Oid} (hr : ∀ o ∈ known, Descends s o r) :
    ∃ main t, computeMain known s = (.ok main, t) := by
  have hf := frontier_eq hin
  have hmem : ∀ o ∈ (viewOf s).frontier known, CommitIn s o ∧ Descends s o r := fun o ho =>
    ⟨hin o (mem_of_mem_frontier hf ho).1, hr o (mem_of_mem_frontier hf ho).1⟩
  rw [computeMain_run hf]
  match (viewOf s).frontier known, hmem with
  | [], _ => exact ⟨_, _, genesis_run⟩
  | [tip], hmem =>
    obtain ⟨o, t, h, -⟩ := thinWrapper_total hs (hmem tip (by simp)).1 (hmem tip (by simp)).2
    exact ⟨o, t, h⟩
  | acc :: tk :: rest, hmem =>
    obtain ⟨o, t, h, -⟩ := foldlM_foldStep_total hs (hmem acc (by simp)).1 (hmem acc (by simp)).2
      (fun p hp => (hmem p (List.mem_cons_of_mem _ hp)).1)
      fun p hp => (hmem p (List.mem_cons_of_mem _ hp)).2
    exact ⟨o, t, h⟩

/-! ### Two stores, two orders of the known list -/

/-- Below one of the known commits. -/
def Below (s : Store Oid) (known : List Oid) (o : Oid) : Prop :=
  ∃ k ∈ known, Relation.ReflTransGen (fun a b => b ∈ s.refsOf a) k o

omit [Crates] [LawfulCrates] in
theorem canon_eq_of_get (hs : s.Sound) (hs' : s'.Sound) {o : Oid} {x y : GitObject Oid}
    (hx : s.get o = .ok x) (hy : s'.get o = .ok y) : y.canon = x.canon :=
  canon_eq_of_oid_eq (hs'.get hy).2 (hs.get hx).2 ((hs'.get hy).1.trans (hs.get hx).1.symm)

omit [Crates] [LawfulCrates] in
theorem load_eq_of_sound (hs : s.Sound) (hs' : s'.Sound) {o : Oid} {c c' : CommitObj Oid}
    (hc : loadCommit s o = .ok c) (hc' : loadCommit s' o = .ok c') : c' = c := by
  have h := canon_eq_of_get hs hs' (loadCommit_ok.mp hc) (loadCommit_ok.mp hc')
  exact GitObject.commit.inj h

omit [Crates] [LawfulCrates] in
theorem eq_of_oid (hs : s.Sound) {c c' : CommitObj Oid} (henc : c.Encodable)
    (hc' : loadCommit s (GitObject.commit c).oid = .ok c') : c' = c := by
  obtain ⟨hoid, henc'⟩ := hs.get (loadCommit_ok.mp hc')
  have h := canon_eq_of_oid_eq (x := .commit c') (y := .commit c) henc' henc hoid
  exact GitObject.commit.inj h

omit [ObjectId Oid] [Crates] [LawfulObjectId Oid] [LawfulCrates] in
theorem alike_of_canon_eq {Q : List (TreeEntry Oid) → Prop} {x y : GitObject Oid}
    (hc : y.canon = x.canon) (h : ∀ es es', x = .tree es → y = .tree es' → es = es' ∨
      (Q es ∧ Q es')) : Alike Q x y := by
  cases x with
  | blob b =>
    cases y <;> simp only [GitObject.canon, GitObject.blob.injEq, reduceCtorEq] at hc
    exact hc ▸ .same _
  | commit c =>
    cases y <;> simp only [GitObject.canon, GitObject.commit.injEq, reduceCtorEq] at hc
    exact hc ▸ .same _
  | tree es =>
    cases y <;> simp only [GitObject.canon, GitObject.tree.injEq, reduceCtorEq] at hc
    rename_i es'
    rcases h es es' rfl rfl with rfl | ⟨hq, hq'⟩
    · exact .same _
    · exact .tree ((sortEntries_perm es).symm.trans (hc ▸ sortEntries_perm es')) hq hq'

omit [Crates] [LawfulCrates] in
theorem below_grounded (hs : s.Sound) (hs' : s'.Sound) {known : List Oid}
    (hin : ∀ o ∈ known, CommitIn s o) (hin' : ∀ o ∈ known, CommitIn s' o) {o : Oid}
    (h : Below s known o) : Below s' known o ∧ Grounded s o ∧ Grounded s' o := by
  obtain ⟨k, hk, h⟩ := h
  induction h with
  | refl => exact ⟨⟨k, hk, .refl⟩, (hin k hk).grounded, (hin' k hk).grounded⟩
  | @tail a b _ hb ih =>
    obtain ⟨⟨k', hk', hka⟩, hg, hg'⟩ := ih
    obtain ⟨x, hx⟩ := hg.get
    obtain ⟨y, hy⟩ := hg'.get
    rw [s.refsOf_of_get hx] at hb
    have hb' : b ∈ y.refs := (mem_refs_of_canon (canon_eq_of_get hs hs' hx hy)).mpr hb
    exact ⟨⟨k', hk', hka.tail (by rwa [s'.refsOf_of_get hy])⟩, hg.ref hx hb, hg'.ref hy hb'⟩

omit [Crates] [LawfulCrates] in
/-- Stores that hold the known commits in full read alike below them, if the entries of each
tree come in one order, or in two that do not show. -/
theorem carries_below {Q : List (TreeEntry Oid) → Prop} (hs : s.Sound) (hs' : s'.Sound)
    {known : List Oid} (hin : ∀ o ∈ known, CommitIn s o) (hin' : ∀ o ∈ known, CommitIn s' o)
    (horder : ∀ o es es', Below s known o → s.get o = .ok (.tree es) → s'.get o = .ok (.tree es') →
      es = es' ∨ (Q es ∧ Q es')) : Carries Q (Below s known) s s' := by
  constructor
  · intro o x ho hx
    obtain ⟨y, hy⟩ := (below_grounded hs hs' hin hin' ho).2.2.get
    refine ⟨y, hy, alike_of_canon_eq (canon_eq_of_get hs hs' hx hy) ?_⟩
    rintro es es' rfl rfl
    exact horder o es es' ho hx hy
  · rintro o x ⟨k, hk, h⟩ hx r hr
    exact ⟨k, hk, h.tail (by rwa [s.refsOf_of_get hx])⟩

end Csp

/-! ### Where the order shows -/

namespace Csp.Small

def fileA : GitObject Digest := .blob [49]
def fileB : GitObject Digest := .blob [50]
def dirA : GitObject Digest := .tree [⟨fileMode, ['b'], fileA.oid⟩]

/-- A file whose name holds a `/`, beside the directory that the name points into. -/
def clash : List (TreeEntry Digest) :=
  [⟨treeMode, ['a'], dirA.oid⟩, ⟨fileMode, ['a', '/', 'b'], fileB.oid⟩]

def onGenesis (tree : GitObject Digest) (counter : Nat) : CommitObj Digest :=
  { tree := tree.oid, parents := [(GitObject.commit (genesisCommit : CommitObj Digest)).oid],
    author := [],
    authorEmail := [], authorTime := 0, committer := [], committerEmail := [], committerTime := 0,
    message := primitiveBody (key []) counter [] ([] : List Digest) }

/-- A store that got the clashing tree with its entries in the given order. -/
def clashStore (es : List (TreeEntry Digest)) : Store Digest :=
  (Store.empty .mem).putAll [emptyTree, .commit genesisCommit, fileA, fileB, dirA, .tree es,
    .commit (onGenesis (.tree clash) 1), .commit (onGenesis dirA 2)]

def clashKnown : List Digest :=
  [(GitObject.commit (onGenesis (.tree clash) 1)).oid, (GitObject.commit (onGenesis dirA 2)).oid]

theorem sound_clashStore {es : List (TreeEntry Digest)} (h : ∀ e ∈ es, e.Encodable) :
    (clashStore es).Sound := by
  refine (Store.sound_empty _).putAll fun x hx => ?_
  simp only [List.mem_cons, List.not_mem_nil, or_false] at hx
  rcases hx with rfl | rfl | rfl | rfl | rfl | rfl | rfl | rfl
  · decide
  · exact encodable_genesisCommit
  · decide
  · decide
  · decide
  · exact h
  · decide
  · decide

theorem clash_spec :
    (∀ o ∈ clashKnown, holdsCommit (clashStore clash) 3 o = true ∧
      holdsCommit (clashStore clash.reverse) 3 o = true ∧
      isPrimitiveOid (clashStore clash) o = true) ∧
    clashKnown.Nodup ∧ (computeMain clashKnown (clashStore clash)).1.isOk = true ∧
    (computeMain clashKnown (clashStore clash)).1 ≠
    (computeMain clashKnown (clashStore clash.reverse)).1 := by
  refine ⟨?_, ?_, ?_, ?_⟩
  · decide +kernel
  · decide +kernel
  · decide +kernel
  · decide +kernel

theorem holds_clashKnown : ∀ o ∈ clashKnown, holdsCommit (clashStore clash) 3 o = true ∧
    holdsCommit (clashStore clash.reverse) 3 o = true ∧ isPrimitiveOid (clashStore clash) o =
    true := clash_spec.1

theorem isOk_clashStore : (computeMain clashKnown (clashStore clash)).1.isOk = true :=
  clash_spec.2.2.1

end Csp.Small
