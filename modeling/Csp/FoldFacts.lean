import Csp.Frontier
import Csp.TreeWrite

/-! What folding puts: for given parents one list of objects and one commit, read off the
store, and the same in any store that carries the parents' history. -/

namespace Csp
open Result
variable {Oid : Type} [ObjectId Oid] [Crates] {s s' : Store Oid} {R : Oid → Prop}
  {Q : List (TreeEntry Oid) → Prop}

/-- The tree objects and the commit that folding the given parents puts. -/
def foldObjects (s : Store Oid) : List Oid → CspResult (List (GitObject Oid) × CommitObj Oid)
  | [tip] => do
    let tree ← commitTree s tip
    let t ← maxCommitterTime s [tip]
    pure ([], foldCommit tree [tip] t foldMsg)
  | [acc, tk] => do
    let merged ← mergedFiles s acc tk
    let t ← maxCommitterTime s [acc, tk]
    let (put, root) := writeTreeFromFiles merged
    pure (put, foldCommit root [acc, tk] t foldMsg)
  | _ => .error (.foldVerify "fold commit parents (expected 1 or 2)".toList)

theorem mergedFiles_loads {a b : Oid} {m : FileMap} (h : mergedFiles s a b = .ok m) :
    (∃ c, loadCommit s a = .ok c) ∧ ∃ c, loadCommit s b = .ok c := by
  obtain ⟨base, -, h⟩ := bind_ok.mp h
  obtain ⟨t1, -, h⟩ := bind_ok.mp h
  obtain ⟨m1, -, h⟩ := bind_ok.mp h
  obtain ⟨t2, h2, h⟩ := bind_ok.mp h
  obtain ⟨m2, -, h⟩ := bind_ok.mp h
  obtain ⟨t3, h3, h⟩ := bind_ok.mp h
  obtain ⟨c, hc, -⟩ := bind_ok.mp h2
  obtain ⟨d, hd, -⟩ := bind_ok.mp h3
  exact ⟨⟨c, hc⟩, d, hd⟩

omit [Crates] in
theorem maxCommitterTime_total {ps : List Oid} (h : ∀ p ∈ ps, ∃ c, loadCommit s p = .ok c) :
    ∃ t, maxCommitterTime s ps = .ok t := by
  suffices ∀ (ps : List Oid), (∀ p ∈ ps, ∃ c, loadCommit s p = .ok c) → ∀ b,
      ∃ t, ps.foldlM (fun t p => do
        let c ← loadCommit s p
        pure (max t c.committerTime)) b = (.ok t : CspResult Nat) from this ps h 0
  intro ps
  induction ps with
  | nil => exact fun _ b => ⟨b, rfl⟩
  | cons p ps ih =>
    intro h b
    obtain ⟨c, hc⟩ := h p List.mem_cons_self
    obtain ⟨t, ht⟩ := ih (fun q hq => h q (List.mem_cons_of_mem _ hq)) (max b c.committerTime)
    exact ⟨t, foldlM_ok_cons.mpr ⟨_, bind_ok.mpr ⟨c, hc, rfl⟩, ht⟩⟩

theorem makeFoldCommit_run {tree : Oid} {parents : List Oid} {msg : Str} {t : Nat}
    (h : maxCommitterTime s parents = .ok t) :
    makeFoldCommit tree parents msg s =
      (.ok (GitObject.commit (foldCommit tree parents t msg)).oid,
        s.put (.commit (foldCommit tree parents t msg))) := by
  rw [makeFoldCommit, run_bind_of_ok (show StoreM.read (fun s => maxCommitterTime s parents) s =
      (.ok t, s) from
    by rw [StoreM.read, h])]
  rfl

theorem thinWrapper_run (tip : Oid) :
    thinWrapper tip s = match foldObjects s [tip] with
      | .ok (objs, c) => (.ok (GitObject.commit c).oid, s.putAll (objs ++ [.commit c]))
      | .error e => (.error e, s) := by
  rw [thinWrapper, run_bind]
  simp only [StoreM.read, foldObjects]
  cases ht : commitTree s tip with
  | error e => rfl
  | ok tree =>
    obtain ⟨c, hc, -⟩ := bind_ok.mp ht
    obtain ⟨t, hmax⟩ := maxCommitterTime_total
      (show ∀ p ∈ [tip], ∃ c, loadCommit s p = .ok c by simpa using ⟨c, hc⟩)
    simp only [ok_bind, hmax, makeFoldCommit_run hmax]
    rfl

theorem foldStep_run (acc tk : Oid) :
    foldStep acc tk s = match foldObjects s [acc, tk] with
      | .ok (objs, c) => (.ok (GitObject.commit c).oid, s.putAll (objs ++ [.commit c]))
      | .error e => (.error e, s) := by
  rw [foldStep, run_bind]
  simp only [StoreM.read, foldObjects]
  cases hm : mergedFiles s acc tk with
  | error e => rfl
  | ok m =>
    obtain ⟨ha, hb⟩ := mergedFiles_loads hm
    obtain ⟨t, hmax⟩ := maxCommitterTime_total
      (show ∀ p ∈ [acc, tk], ∃ c, loadCommit s p = .ok c by simpa using ⟨ha, hb⟩)
    have hmax' : maxCommitterTime (s.putAll (writeTreeFromFiles m).1) [acc, tk] = .ok t :=
      (s.extends_putAll _).carries.maxCommitterTime (fun _ _ => trivial) hmax
    simp only [ok_bind, hmax, run_bind, StoreM.putAll, makeFoldCommit_run hmax', pure, Except.pure,
      Store.putAll_append]
    rfl

/-- Refolding a list of parents puts what `foldObjects` says, or fails and puts nothing. -/
theorem refold_run (ps : List Oid) :
    refold ps s = match foldObjects s ps with
      | .ok (objs, c) => (.ok (GitObject.commit c).oid, s.putAll (objs ++ [.commit c]))
      | .error e => (.error e, s) := by
  match ps with
  | [] => rfl
  | [tip] => exact thinWrapper_run tip
  | [acc, tk] => exact foldStep_run acc tk
  | _ :: _ :: _ :: _ => rfl

theorem refold_ok {ps : List Oid} {o : Oid} (h : refold ps s = (.ok o, s')) :
    ∃ objs c, foldObjects s ps = .ok (objs, c) ∧ o = (GitObject.commit c).oid ∧
      s' = s.putAll (objs ++ [.commit c]) := by
  rw [refold_run] at h
  split at h
  · rename_i objs c hf
    simp only [Prod.mk.injEq, Except.ok.injEq] at h
    exact ⟨objs, c, hf, h.1.symm, h.2.symm⟩
  · simp at h

theorem foldObjects_commit {ps : List Oid} {objs : List (GitObject Oid)} {c : CommitObj Oid}
    (h : foldObjects s ps = .ok (objs, c)) :
    (∃ tree t, maxCommitterTime s ps = .ok t ∧ c = foldCommit tree ps t foldMsg) ∧
      ((∃ tip, ps = [tip] ∧ objs = [] ∧ commitTree s tip = .ok c.tree) ∨
        ∃ acc tk m, ps = [acc, tk] ∧ mergedFiles s acc tk = .ok m ∧
        objs = (writeTreeFromFiles m).1 ∧
          c.tree = (writeTreeFromFiles m).2) := by
  unfold foldObjects at h
  split at h
  · obtain ⟨tree, ht, h⟩ := bind_ok.mp h
    obtain ⟨t, hmax, h⟩ := bind_ok.mp h
    have h := pure_ok.mp h
    simp only [Prod.mk.injEq] at h
    obtain ⟨rfl, rfl⟩ := h
    exact ⟨⟨tree, t, hmax, rfl⟩, .inl ⟨_, rfl, rfl, ht⟩⟩
  · obtain ⟨m, hm, h⟩ := bind_ok.mp h
    obtain ⟨t, hmax, h⟩ := bind_ok.mp h
    have h := pure_ok.mp h
    simp only [Prod.mk.injEq] at h
    obtain ⟨rfl, rfl⟩ := h
    exact ⟨⟨_, t, hmax, rfl⟩, .inr ⟨_, _, m, rfl, hm, rfl, rfl⟩⟩
  · cases h

theorem Carries.foldObjects (h : Carries Q R s s') (hQ : ∀ es, Q es → Flat es) {ps : List Oid}
    (hR : ∀ p ∈ ps, R p) {r : List (GitObject Oid) × CommitObj Oid}
    (hr : foldObjects s ps = .ok r) :
    Csp.foldObjects s' ps = .ok r := by
  unfold Csp.foldObjects at hr ⊢
  split at hr
  · obtain ⟨tree, ht, hr⟩ := bind_ok.mp hr
    obtain ⟨t, hmax, hr⟩ := bind_ok.mp hr
    exact bind_ok.mpr ⟨tree, (h.commitTree (hR _ List.mem_cons_self) ht).1,
      bind_ok.mpr ⟨t, h.maxCommitterTime hR hmax, hr⟩⟩
  · obtain ⟨m, hm, hr⟩ := bind_ok.mp hr
    obtain ⟨t, hmax, hr⟩ := bind_ok.mp hr
    exact bind_ok.mpr ⟨m, h.mergedFiles hQ (hR _ (by simp)) (hR _ (by simp)) hm,
      bind_ok.mpr ⟨t, h.maxCommitterTime hR hmax, hr⟩⟩
  · cases hr

/-! ### Folds are synthetic and can be framed -/

omit [ObjectId Oid] in
theorem isPrimitive_foldCommit (tree : Oid) (ps : List Oid) (t : Nat) :
    isPrimitive (foldCommit tree ps t foldMsg) = false :=
  (rfl : (messageMeta foldMsg).isSome = false)

theorem isPrimitive_genesis : isPrimitive (genesisCommit : CommitObj Oid) = false :=
  (rfl : (messageMeta genesisMsg).isSome = false)

omit [Crates] in
theorem notWhitespace_foldName : ∀ c ∈ foldName, isWhitespace c = false := by
  have h : (foldName.all fun c => !isWhitespace c) = true := by decide
  intro c hc
  simpa using List.all_eq_true.mp h c hc

omit [Crates] in
theorem identEncodable_fold {t : Nat} (ht : t < 2 ^ 64) : IdentEncodable foldName foldEmail t where
  trimmed := trimmed_of_all notWhitespace_foldName
  noLt := by decide
  noGt := by decide
  emailNoGt := by decide
  noNewline := by decide
  time_lt := ht

omit [ObjectId Oid] [Crates] in
theorem encodable_foldCommit {tree : Oid} {ps : List Oid} {t : Nat} {msg : Str} (ht : t < 2 ^ 64) :
    (foldCommit tree ps t msg).Encodable := ⟨identEncodable_fold ht, identEncodable_fold ht⟩

omit [Crates] in
theorem encodable_genesisCommit : (genesisCommit : CommitObj Oid).Encodable :=
  encodable_foldCommit (by decide)

omit [Crates] in
theorem maxCommitterTime_lt (hs : s.Sound) {ps : List Oid} {t : Nat}
    (h : maxCommitterTime s ps = .ok t) : t < 2 ^ 64 := by
  refine foldlM_ok_induction (fun t => t < 2 ^ 64) h (by decide) fun b p b' _ hb hb' => ?_
  obtain ⟨c, hc, hb'⟩ := bind_ok.mp hb'
  obtain rfl := pure_ok.mp hb'
  have : c.Encodable := (hs.get (loadCommit_ok.mp hc)).2
  exact max_lt hb this.2.time_lt

omit [Crates] in
theorem framable_of_listing (hs : s.Sound) {n : Nat} {t : Oid} {l : List (Path × Bytes)}
    (h : listing s.get n t = .ok l) : ∀ f ∈ l, Framable f.1 := by
  induction n generalizing t l with
  | zero => cases h
  | succ n ih =>
    obtain ⟨es, segs, ht, hseg, rfl⟩ := (listing_ok _).mp h
    have henc : ∀ e ∈ es, e.Encodable := (hs.get ht).2
    intro f hf
    obtain ⟨seg, hsegm, hf⟩ := List.mem_flatten.mp hf
    obtain ⟨e, he, hs'⟩ := mapM_ok_mem_right hseg hsegm
    unfold entryListing at hs'
    -- a path is made of names, and the names of a sound store's trees have no NUL
    split_ifs at hs' with hm
    · obtain ⟨l', hl', hs'⟩ := bind_ok.mp hs'
      obtain rfl := pure_ok.mp hs'
      obtain ⟨g, hg, rfl⟩ := List.mem_map.mp hf
      have h1 := (henc e he).2
      have h2 := ih hl' g hg
      unfold Framable at h2 ⊢
      simp only [List.append_assoc, List.cons_append, List.nil_append, List.mem_append,
        List.mem_cons, not_or]
      exact ⟨h1, by decide, h2⟩
    · obtain ⟨x, hx, hs'⟩ := bind_ok.mp hs'
      cases x with
      | blob b =>
        obtain rfl := pure_ok.mp hs'
        rw [List.mem_singleton.mp hf]
        exact (henc e he).2
      | tree es => cases hs'
      | commit c => cases hs'

omit [Crates] in
theorem framable_of_treeFiles (hs : s.Sound) {t : Oid} {m : FileMap} (h : treeFiles s t = .ok m) :
    ∀ p ∈ m.keys, Framable p := by
  obtain ⟨l, hl, rfl⟩ := treeFiles_ok.mp h
  intro p hp
  rw [Std.ExtTreeMap.mem_keys, Std.ExtTreeMap.mem_iff_isSome_getElem?, getElem?_insertAll,
    Std.ExtTreeMap.getElem?_empty, Option.or_none, Option.isSome_iff_exists] at hp
  obtain ⟨c, hc⟩ := hp
  exact framable_of_listing hs hl _ (mem_of_lastOf hc)

/-! ### The store after a fold -/

section Put
variable [LawfulObjectId Oid] [LawfulCrates]

omit [Crates] [ObjectId Oid] [LawfulObjectId Oid] [LawfulCrates] in
theorem mem_refs_canon {x : GitObject Oid} {r : Oid} : r ∈ x.canon.refs ↔ r ∈ x.refs := by
  cases x with
  | blob b => rfl
  | tree es => exact ((sortEntries_perm es).map _).mem_iff
  | commit c => rfl

omit [Crates] [ObjectId Oid] [LawfulObjectId Oid] [LawfulCrates] in
theorem mem_refs_of_canon {x y : GitObject Oid} (h : y.canon = x.canon) {r : Oid} :
    r ∈ y.refs ↔ r ∈ x.refs := by
  rw [← mem_refs_canon, h, mem_refs_canon]

structure Written (xs : List (GitObject Oid)) : Prop where
  encodable : ∀ x ∈ xs, x.Encodable
  tidy : ∀ es, .tree es ∈ xs → Tidy es

omit [LawfulObjectId Oid] [LawfulCrates] in
theorem framable_mergeTrees {base ours theirs : FileMap} (hb : ∀ p ∈ base.keys, Framable p)
    (ho : ∀ p ∈ ours.keys, Framable p) (ht : ∀ p ∈ theirs.keys, Framable p) :
    ∀ p ∈ (mergeTrees base ours theirs).keys, Framable p := by
  have key : ∀ (l : List Path) (out : FileMap), (∀ p ∈ out.keys, Framable p) →
      (∀ p ∈ l, Framable p) →
      ∀ p ∈ (l.foldl (mergeInto base ours theirs) out).keys, Framable p := by
    intro l
    induction l with
    | nil => exact fun out hout _ => hout
    | cons q l ih =>
      intro out hout hl
      refine ih _ (fun p hp => ?_) fun p hp => hl p (List.mem_cons_of_mem _ hp)
      unfold mergeInto at hp
      split at hp
      · rw [Std.ExtTreeMap.mem_keys, Std.ExtTreeMap.mem_insert,
          Std.LawfulEqCmp.compare_eq_iff_eq] at hp
        rcases hp with rfl | hp
        · exact hl _ List.mem_cons_self
        · exact hout p (Std.ExtTreeMap.mem_keys.mpr hp)
      · exact hout p hp
  refine key _ ∅ (by simp) fun p hp => ?_
  rw [List.mem_append, List.mem_append] at hp
  rcases hp with (hp | hp) | hp
  · exact hb p hp
  · exact ho p hp
  · exact ht p hp

omit [LawfulObjectId Oid] [LawfulCrates] in
theorem framable_mergedFiles (hs : s.Sound) {a b : Oid} {m : FileMap}
    (h : mergedFiles s a b = .ok m) :
    ∀ p ∈ m.keys, Framable p := by
  obtain ⟨base, -, h⟩ := bind_ok.mp h
  obtain ⟨t1, -, h⟩ := bind_ok.mp h
  obtain ⟨m1, h1, h⟩ := bind_ok.mp h
  obtain ⟨t2, -, h⟩ := bind_ok.mp h
  obtain ⟨m2, h2, h⟩ := bind_ok.mp h
  obtain ⟨t3, -, h⟩ := bind_ok.mp h
  obtain ⟨m3, h3, h⟩ := bind_ok.mp h
  exact pure_ok.mp h ▸ framable_mergeTrees (framable_of_treeFiles hs h1)
    (framable_of_treeFiles hs h2)
    (framable_of_treeFiles hs h3)

omit [LawfulObjectId Oid] [LawfulCrates] in
theorem written_foldObjects (hs : s.Sound) {ps : List Oid} {objs : List (GitObject Oid)}
    {c : CommitObj Oid} (h : foldObjects s ps = .ok (objs, c)) : Written (objs ++ [.commit c]) := by
  obtain ⟨⟨tree, t, hmax, rfl⟩, hcase⟩ := foldObjects_commit h
  have hc : GitObject.Encodable (.commit (foldCommit tree ps t foldMsg)) :=
    encodable_foldCommit (maxCommitterTime_lt hs hmax)
  rcases hcase with ⟨tip, -, rfl, -⟩ | ⟨acc, tk, m, -, hm, rfl, -⟩
  · exact ⟨by simpa using hc, by simp⟩
  · refine ⟨fun x hx => ?_, fun es hes => ?_⟩
    · rcases List.mem_append.mp hx with hx | hx
      · exact encodable_of_mem_buildTree (framable_mergedFiles hs hm) hx
      · rw [List.mem_singleton.mp hx]
        exact hc
    · rcases List.mem_append.mp hes with hx | hx
      · exact tidy_of_mem_buildTree hx
      · simp at hx

theorem Store.Sound.load_foldObjects (hs : s.Sound) {ps : List Oid} {objs : List (GitObject Oid)}
    {c : CommitObj Oid} (h : Csp.foldObjects s ps = .ok (objs, c)) :
    (s.putAll (objs ++ [.commit c])).Sound ∧
      loadCommit (s.putAll (objs ++ [.commit c])) (GitObject.commit c).oid = .ok c := by
  have hw := written_foldObjects hs h
  obtain ⟨y, hy, hyc⟩ := hs.get_putAll hw.encodable (x := .commit c) (by simp)
  refine ⟨hs.putAll hw.encodable, ?_⟩
  rw [loadCommit_ok, hy]
  cases y <;> simp_all [GitObject.canon]

theorem Store.Sound.foldObjects (hs : s.Sound) {ps : List Oid} (hps : ∀ p ∈ ps, CommitIn s p)
    {objs : List (GitObject Oid)} {c : CommitObj Oid} (h : foldObjects s ps = .ok (objs, c)) :
    (s.putAll (objs ++ [.commit c])).Sound ∧
      loadCommit (s.putAll (objs ++ [.commit c])) (GitObject.commit c).oid = .ok c ∧
      CommitIn (s.putAll (objs ++ [.commit c])) (GitObject.commit c).oid := by
  have hext := s.extends_putAll (objs ++ [.commit c])
  obtain ⟨hsound, hload⟩ := hs.load_foldObjects h
  refine ⟨hsound, hload, .mk hload ?_ fun p hp => ?_⟩
  · obtain ⟨⟨tree, t, hmax, rfl⟩, hcase⟩ := foldObjects_commit h
    rcases hcase with ⟨tip, rfl, rfl, ht⟩ | ⟨acc, tk, m, rfl, hm, rfl, hroot⟩
    · obtain ⟨t', ht', hin⟩ := (hps tip List.mem_cons_self).commitTree
      obtain rfl := Except.ok.inj (ht'.symm.trans ht)
      exact hin.extends hext
    · rw [hroot]
      refine (treeFiles_writeTree hs (framable_mergedFiles hs hm) ?_).1
      rw [Store.putAll_append]
      exact Store.extends_putAll _ _
  · obtain ⟨⟨tree, t, -, rfl⟩, -⟩ := foldObjects_commit h
    exact (hps p hp).extends hext

end Put

end Csp
