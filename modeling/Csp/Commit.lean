import Csp.Integrate
import Csp.VaultFacts

/-! What a commit publishes. The guard sends each working path either to the published tree
or to quarantine, and the primitive that is authored holds exactly the published set. -/

namespace Csp
open Result
variable {Oid : Type} [ObjectId Oid] [Crates] {s t : Store Oid}

/-! ### The guard -/

/-- The paths that the guard takes for stale: not in the parent's tree, last touched by a
deletion, and materialized here before. -/
def Stale (s : Store Oid) (parent parentTree : Oid) (materialized : Std.ExtTreeMap Path Oid compare)
    (p : Path) : Prop :=
  pathPresentInTree s parentTree p = .ok false ∧
    (∃ o, mostRecentTouch s parent p = .ok (some (o, .delete))) ∧ materialized.contains p = true

theorem classify_spec {parent parentTree : Oid} {mat : Std.ExtTreeMap Path Oid compare}
    {l l' : Layer1 Oid} {p : Path} {c : Bytes}
    (h : classify s parent parentTree mat l p c = .ok l') :
    (Stale s parent parentTree mat p ∧ l'.filtered = l.filtered ∧
      l'.quarantines = l.quarantines ++ [p]) ∨
      (¬ Stale s parent parentTree mat p ∧ l'.filtered = l.filtered.insert p c ∧
        l'.quarantines = l.quarantines) := by
  obtain ⟨b, hb, h⟩ := bind_ok.mp h
  cases b with
  | true =>
    obtain rfl := pure_ok.mp h
    refine .inr ⟨fun hs => ?_, rfl, rfl⟩
    simpa using hb.symm.trans hs.1
  | false =>
    simp only [Bool.false_eq_true, if_false] at h
    obtain ⟨v, hv, h⟩ := bind_ok.mp h
    split at h
    · rename_i o
      by_cases hm : mat.contains p = true
      · rw [if_pos hm] at h
        obtain rfl := pure_ok.mp h
        exact .inl ⟨⟨hb, ⟨o, hv⟩, hm⟩, rfl, rfl⟩
      · rw [if_neg hm] at h
        obtain rfl := pure_ok.mp h
        exact .inr ⟨fun hs => hm hs.2.2, rfl, rfl⟩
    · rename_i hno
      obtain rfl := pure_ok.mp h
      refine .inr ⟨fun hs => ?_, rfl, rfl⟩
      obtain ⟨o, ho⟩ := hs.2.1
      exact hno o (Except.ok.inj (hv.symm.trans ho))

/-- What the guard did with the paths handled so far. -/
structure Sorted (s : Store Oid) (parent parentTree : Oid) (mat : Std.ExtTreeMap Path Oid compare)
    (files : Path → Option Bytes) (l : Layer1 Oid) : Prop where
  filtered : ∀ p x, l.filtered[p]? = some x ↔ files p = some x ∧ ¬ Stale s parent parentTree mat p
  quarantines : ∀ p, p ∈ l.quarantines ↔ files p ≠ none ∧ Stale s parent parentTree mat p

theorem Sorted.classify {parent parentTree : Oid} {mat : Std.ExtTreeMap Path Oid compare}
    {done : Path → Option Bytes} {l l' : Layer1 Oid}
    (h : Sorted s parent parentTree mat done l) {p : Path} {c : Bytes} (hp : done p = none)
    (hc : Csp.classify s parent parentTree mat l p c = .ok l') :
    Sorted s parent parentTree mat (Function.update done p (some c)) l' := by
  rcases classify_spec hc with ⟨hst, hf, hq⟩ | ⟨hst, hf, hq⟩
  · constructor
    · intro q x
      rw [hf, h.filtered]
      by_cases hqp : q = p
      · subst hqp
        simp [hp, hst]
      · rw [Function.update_of_ne hqp]
    · intro q
      rw [hq, List.mem_append, h.quarantines, List.mem_singleton]
      by_cases hqp : q = p
      · subst hqp
        simp [hst]
      · rw [Function.update_of_ne hqp]
        simp [hqp]
  · constructor
    · intro q x
      rw [hf, Std.ExtTreeMap.getElem?_insert]
      by_cases hqp : q = p
      · subst hqp
        simp [hst]
      · rw [Function.update_of_ne hqp, ← h.filtered]
        simp [Ne.symm hqp]
    · intro q
      rw [hq, h.quarantines]
      by_cases hqp : q = p
      · subst hqp
        simp [hst]
      · rw [Function.update_of_ne hqp]

def overlay (fs : List (Path × Bytes)) (done : Path → Option Bytes) (p : Path) : Option Bytes :=
  (fs.find? fun f => f.1 = p).elim (done p) fun f => some f.2

omit [Crates] in
theorem overlay_cons {p : Path} {c : Bytes} {fs : List (Path × Bytes)} {done : Path → Option Bytes}
    (hp : p ∉ fs.map Prod.fst) :
    overlay fs (Function.update done p (some c)) = overlay ((p, c) :: fs) done := by
  funext q
  rw [overlay, overlay, List.find?_cons]
  by_cases hqp : q = p
  · subst hqp
    have hnone : (fs.find? fun f => f.1 = q) = none := by
      rw [List.find?_eq_none]
      intro f hf hfq
      exact hp (List.mem_map.mpr ⟨f, hf, by simpa using hfq⟩)
    simp [hnone]
  · rw [Function.update_of_ne hqp]
    simp [Ne.symm hqp]

omit [Crates] in
theorem overlay_toList (files : FileMap) : overlay files.toList (fun _ => none) = fun p =>
    files[p]? := by
  funext p
  rw [overlay]
  cases hfind : files.toList.find? fun f => f.1 = p with
  | none =>
    rw [Option.elim_none, eq_comm, Option.eq_none_iff_forall_ne_some]
    intro c hc
    simpa using List.find?_eq_none.mp hfind (p, c) (mem_toList.mpr hc)
  | some f =>
    obtain rfl : f.1 = p := by simpa using List.find?_some hfind
    exact (mem_toList.mp (List.mem_of_find?_eq_some hfind)).symm

theorem Sorted.foldlM {parent parentTree : Oid} {mat : Std.ExtTreeMap Path Oid compare}
    {fs : List (Path × Bytes)} {done : Path → Option Bytes} {l₀ l : Layer1 Oid}
    (h₀ : Sorted s parent parentTree mat done l₀) (hnd : (fs.map Prod.fst).Nodup)
    (hdone : ∀ f ∈ fs, done f.1 = none)
    (h : fs.foldlM (fun l (path, content) => Csp.classify s parent parentTree mat l path content)
      l₀ = .ok l) :
    Sorted s parent parentTree mat (overlay fs done) l := by
  induction fs generalizing done l₀ with
  | nil =>
    obtain rfl := pure_ok.mp h
    exact h₀
  | cons f fs ih =>
    obtain ⟨p, c⟩ := f
    obtain ⟨l₁, h₁, h⟩ := foldlM_ok_cons.mp h
    rw [List.map_cons, List.nodup_cons] at hnd
    rw [← overlay_cons hnd.1]
    refine ih (h₀.classify (hdone _ List.mem_cons_self) h₁) hnd.2 (fun f hf => ?_) h
    have hfp : f.1 ≠ p := fun he => hnd.1 (List.mem_map.mpr ⟨f, hf, he⟩)
    rw [Function.update_of_ne hfp]
    exact hdone f (List.mem_cons_of_mem _ hf)

/-- The guard publishes the working paths that are not stale, and quarantines the others. -/
theorem layer1_sorted {parent parentTree : Oid} {mat : Std.ExtTreeMap Path Oid compare}
    {files : FileMap} {l : Layer1 Oid} (h : layer1 s parent parentTree mat files = .ok l) :
    Sorted s parent parentTree mat (fun p => files[p]?) l := by
  rw [← overlay_toList]
  refine Sorted.foldlM ⟨by simp, by simp⟩ ?_ (fun _ _ => rfl) h
  rw [Std.ExtTreeMap.map_fst_toList_eq_keys]
  exact nodup_keys_of_map files

theorem mem_of_mem_filtered {parent parentTree : Oid} {mat : Std.ExtTreeMap Path Oid compare}
    {files : FileMap} {l : Layer1 Oid} (h : layer1 s parent parentTree mat files = .ok l) {p : Path}
    (hp : p ∈ l.filtered.keys) :
    p ∈ files.keys := by
  obtain ⟨x, hx⟩ := Option.isSome_iff_exists.mp
    (Std.ExtTreeMap.isSome_getElem?_iff_mem.mpr (Std.ExtTreeMap.mem_keys.mp hp))
  have hfile := (((layer1_sorted h).filtered p x).mp hx).1
  exact Std.ExtTreeMap.mem_keys.mpr (Std.ExtTreeMap.isSome_getElem?_iff_mem.mp (by rw [hfile]; rfl))

/-- Each published path whose last touch is a deletion has that deletion named. -/
def Named (s : Store Oid) (parent parentTree : Oid) (l : Layer1 Oid) : Prop :=
  ∀ p c o, l.filtered[p]? = some c → pathPresentInTree s parentTree p = .ok false →
    mostRecentTouch s parent p = .ok (some (o, .delete)) → o ∈ l.readds

theorem Named.classify {parent parentTree : Oid} {mat : Std.ExtTreeMap Path Oid compare}
    {l l' : Layer1 Oid} (h : Named s parent parentTree l) {p : Path} {c : Bytes}
    (hc : Csp.classify s parent parentTree mat l p c = .ok l') : Named s parent parentTree l' := by
  -- what was published before keeps its deletions named
  have keep : ∀ rs : List Oid, (∀ o ∈ l.readds, o ∈ rs) →
      (∀ o, pathPresentInTree s parentTree p = .ok false →
        mostRecentTouch s parent p = .ok (some (o, .delete)) → o ∈ rs) →
      Named s parent parentTree { l with filtered := l.filtered.insert p c, readds := rs } := by
    intro rs hold hnew q d o hq hpres htouch
    simp only [Std.ExtTreeMap.getElem?_insert, Std.compare_eq_iff_eq] at hq
    split_ifs at hq with hpq
    · subst hpq
      exact hnew o hpres htouch
    · exact hold o (h q d o hq hpres htouch)
  obtain ⟨b, hb, hc⟩ := bind_ok.mp hc
  cases b with
  | true =>
    obtain rfl := pure_ok.mp hc
    exact keep l.readds (fun _ => id) fun o hpres _ => by simp [hb] at hpres
  | false =>
    simp only [Bool.false_eq_true, if_false] at hc
    obtain ⟨v, hv, hc⟩ := bind_ok.mp hc
    split at hc
    · rename_i o
      by_cases hm : mat.contains p = true
      · rw [if_pos hm] at hc
        obtain rfl := pure_ok.mp hc
        exact h
      · rw [if_neg hm] at hc
        obtain rfl := pure_ok.mp hc
        refine keep _ (fun o' ho' => ?_) fun o' _ ho' => ?_
        · split_ifs
          · exact ho'
          · exact List.mem_append_left _ ho'
        · have hoo : o = o' := by
            have := hv.symm.trans ho'
            simpa using this
          subst hoo
          split_ifs with hmem
          · exact hmem
          · exact List.mem_append_right _ List.mem_cons_self
    · rename_i hno
      obtain rfl := pure_ok.mp hc
      exact keep l.readds (fun _ => id) fun o _ htouch =>
        absurd (Except.ok.inj (hv.symm.trans htouch)) (hno o)

theorem layer1_named {parent parentTree : Oid} {mat : Std.ExtTreeMap Path Oid compare}
    {files : FileMap} {l : Layer1 Oid} (h : layer1 s parent parentTree mat files = .ok l) :
    Named s parent parentTree l :=
  foldlM_ok_induction (Named s parent parentTree) h (fun p c o hp => by simp at hp)
    fun _ _ _ _ hl hstep => hl.classify hstep

theorem layer1_total {parent parentTree : Oid} (hp : CommitIn s parent) (ht : TreeIn s parentTree)
    (mat : Std.ExtTreeMap Path Oid compare) (files : FileMap) :
    ∃ l, layer1 s parent parentTree mat files = .ok l := by
  have hstep : ∀ l p c, ∃ l', classify s parent parentTree mat l p c = .ok l' := by
    intro l p c
    obtain ⟨b, hb⟩ := presentAt_ok ht.grounded (Split.splitOn '/' p)
    obtain ⟨v, hv⟩ := mostRecentTouch_total hp p
    rw [classify, show pathPresentInTree s parentTree p = .ok b from hb, ok_bind]
    cases b with
    | true => exact ⟨_, rfl⟩
    | false =>
      simp only [Bool.false_eq_true, if_false, hv, ok_bind]
      split
      · split_ifs <;> exact ⟨_, rfl⟩
      · exact ⟨_, rfl⟩
  unfold layer1
  generalize ({} : Layer1 Oid) = l
  induction files.toList generalizing l with
  | nil => exact ⟨l, rfl⟩
  | cons f fs ih =>
    obtain ⟨l', hl'⟩ := hstep l f.1 f.2
    obtain ⟨r, hr⟩ := ih l'
    exact ⟨r, foldlM_ok_cons.mpr ⟨l', hl', hr⟩⟩

/-! ### The paths that a tree adds -/

omit [Crates] in
theorem presentAt_cons {o : Oid} {es : List (TreeEntry Oid)} (h : parentEntries s (some o) = .ok es)
    (seg : Str) (segs : List Str) :
    presentAt s o (seg :: segs) = match es.find? (fun e => e.name = seg) with
      | none => .ok false
      | some e =>
        if segs = [] then .ok (e.mode ≠ treeMode)
        else if e.mode ≠ treeMode then .ok false else presentAt s e.oid segs := by
  obtain ⟨x, hx, h⟩ := bind_ok.mp (show treeEntries s o = .ok es from h)
  rw [presentAt, hx, ok_bind]
  cases x with
  | tree es' =>
    obtain rfl := pure_ok.mp h
    rfl
  | blob b =>
    obtain rfl := pure_ok.mp h
    rfl
  | commit c =>
    obtain rfl := pure_ok.mp h
    rfl

omit [Crates] in
theorem treePathsAdded_spec {W : Oid → Prop}
    (hW : ∀ o es, W o → s.get o = .ok (.tree es) → ∀ e ∈ es, '/' ∉ e.name ∧ W e.oid) {n m : Nat}
    {pre : Str} {pt : Option Oid} {ct : Oid} (hct : W ct) {added : List Path}
    (h : treePathsAdded s n pre pt ct = .ok added) {l : List (Path × Bytes)}
    (hl : listing s.get m ct = .ok l) {p : Path} (hp : p ∈ added) :
    ∃ q c, p = pre ++ q ∧ (q, c) ∈ l ∧
      ∀ o, pt = some o → presentAt s o (Split.splitOn '/' q) = .ok false := by
  induction n generalizing m pre pt ct added l p with
  | zero => cases h
  | succ n ih =>
    rcases treePathsAdded_ok.mp h with ⟨-, rfl⟩ | ⟨-, x, hx,
      ⟨es, pes, segs, rfl, hpes, hsegs, rfl⟩ | ⟨-, rfl⟩⟩
    · cases hp
    · cases m with
      | zero => cases hl
      | succ m =>
        obtain ⟨es', lsegs, hes', hlsegs, rfl⟩ := (listing_ok _).mp hl
        obtain rfl : es = es' := GitObject.tree.inj (Except.ok.inj (hx.symm.trans hes'))
        obtain ⟨seg, hseg, hp⟩ := List.mem_flatten.mp hp
        obtain ⟨ce, hce, hadd⟩ := mapM_ok_mem_right hsegs hseg
        obtain ⟨lseg, hlseg, hlist⟩ := mapM_ok_mem hlsegs hce
        obtain ⟨hname, hWe⟩ := hW ct es hct hx ce hce
        unfold pathsAddedAt at hadd
        unfold entryListing at hlist
        by_cases hm : ce.mode = treeMode
        · rw [if_pos hm] at hadd hlist
          obtain ⟨sub, hsub, hlist⟩ := bind_ok.mp hlist
          obtain rfl := pure_ok.mp hlist
          obtain ⟨q, c, rfl, hq, habs⟩ := ih hWe hadd hsub hp
          refine ⟨ce.name ++ '/' :: q, c, by simp, ?_, ?_⟩
          · exact List.mem_flatten_of_mem hlseg (List.mem_map.mpr ⟨(q, c), hq, by simp⟩)
          · rintro o rfl
            rw [Split.splitOn_append_sep hname, presentAt_cons hpes]
            cases hfind : pes.find? (fun e => e.name = ce.name) with
            | none => rfl
            | some e =>
              simp only [if_neg (Split.splitOn_ne_nil '/' q)]
              split_ifs with hmode
              · rfl
              · exact habs e.oid (by simpa [hfind] using hmode)
        · rw [if_neg hm] at hadd hlist
          obtain ⟨x, -, hlist⟩ := bind_ok.mp hlist
          obtain rfl := Except.ok.inj hadd
          split_ifs at hp with hpe
          · cases hp
          obtain rfl := List.mem_singleton.mp hp
          cases x with
          | tree es => cases hlist
          | commit c => cases hlist
          | blob b =>
            obtain rfl := pure_ok.mp hlist
            refine ⟨ce.name, b, rfl, List.mem_flatten_of_mem hlseg List.mem_cons_self, ?_⟩
            rintro o rfl
            rw [Split.splitOn_of_notMem hname, presentAt_cons hpes]
            cases hfind : pes.find? (fun e => e.name = ce.name) with
            | none => rfl
            | some e =>
              rw [hfind] at hpe
              simpa using hpe
    · cases hp

end Csp
