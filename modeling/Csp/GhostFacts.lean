import Mathlib.Data.List.Perm.Basic
import Csp.Listing

/-! The ghost-add verdict from store to store. On a complete closure every touch can be
computed, so the verdict asks whether any of the added paths is a ghost, in any order. -/

namespace Csp
open Result
variable {Oid : Type} [ObjectId Oid] [Crates] {s s' : Store Oid} {R : Oid → Prop}
  {Q : List (TreeEntry Oid) → Prop}

/-- The object under an id and everything it leads to is in the store, on finite paths. -/
inductive Grounded (s : Store Oid) : Oid → Prop
  | mk {o : Oid} {x : GitObject Oid} (hx : s.get o = .ok x) (hrefs : ∀ r ∈ x.refs, Grounded s r) :
      Grounded s o

omit [Crates] in
theorem Grounded.get {o : Oid} (h : Grounded s o) : ∃ x, s.get o = .ok x := by
  cases h with
  | mk hx _ => exact ⟨_, hx⟩

omit [Crates] in
theorem Grounded.ref {o r : Oid} (h : Grounded s o) {x : GitObject Oid} (hx : s.get o = .ok x)
    (hr : r ∈ x.refs) : Grounded s r := by
  cases h with
  | mk hx' hrefs =>
    obtain rfl := Except.ok.inj (hx'.symm.trans hx)
    exact hrefs r hr

omit [Crates] in
theorem Grounded.tree {o : Oid} (h : Grounded s o) {c : CommitObj Oid}
    (hc : loadCommit s o = .ok c) : Grounded s c.tree :=
  h.ref (loadCommit_ok.mp hc) List.mem_cons_self

omit [Crates] in
theorem mem_subtrees {t u : Oid} (hu : u ∈ subtrees s.get t) :
    ∃ es, s.get t = .ok (.tree es) ∧ ∃ e ∈ es, e.mode = treeMode ∧ e.oid = u := by
  unfold subtrees at hu
  split at hu
  · rename_i es hes
    rw [List.mem_map] at hu
    obtain ⟨e, he, rfl⟩ := hu
    rw [List.mem_filter, decide_eq_true_eq] at he
    exact ⟨es, hes, e, he.1, he.2, rfl⟩
  · cases hu

omit [Crates] in
theorem Grounded.subtree {t u : Oid} (h : Grounded s t) (hu : u ∈ subtrees s.get t) :
    Grounded s u := by
  obtain ⟨es, hes, e, he, -, rfl⟩ := mem_subtrees hu
  exact h.ref hes (List.mem_map_of_mem he)

omit [Crates] in
theorem exists_within {α : Type} {nbrs : α → List α} {l : List α}
    (h : ∀ a ∈ l, ∃ n, Depth.Within nbrs n a) : ∃ n, ∀ a ∈ l, Depth.Within nbrs n a := by
  induction l with
  | nil => exact ⟨0, by simp⟩
  | cons a l ih =>
    obtain ⟨n, hn⟩ := ih fun b hb => h b (List.mem_cons_of_mem _ hb)
    obtain ⟨m, hm⟩ := h a List.mem_cons_self
    refine ⟨max m n, fun b hb => ?_⟩
    rcases List.mem_cons.mp hb with rfl | hb
    · exact hm.mono (le_max_left _ _)
    · exact (hn b hb).mono (le_max_right _ _)

omit [Crates] in
theorem Grounded.within {t : Oid} (h : Grounded s t) :
    Depth.Within (subtrees s.get) (s.size + 1) t := by
  have hfin : ∃ n, Depth.Within (subtrees s.get) n t := by
    induction h with
    | @mk o x hx _ ih =>
      obtain ⟨n, hn⟩ := exists_within (l := subtrees s.get o) fun u hu => by
        obtain ⟨es, hes, e, he, -, rfl⟩ := mem_subtrees hu
        obtain rfl := Except.ok.inj (hx.symm.trans hes)
        exact ih _ (List.mem_map_of_mem he)
      exact ⟨n + 1, hn⟩
  obtain ⟨n, hn⟩ := hfin
  have hcard : s.objs.keys.toFinset.card = s.size := by
    rw [List.toFinset_card_of_nodup s.nodup_keys, Std.ExtTreeMap.length_keys, Store.size]
  have := hn.card s.objs.keys.toFinset fun u hu => by
    have hu : Grounded s u := by
      induction hu with
      | refl => exact h
      | tail _ hbc ih => exact ih.subtree hbc
    obtain ⟨x, hx⟩ := hu.get
    exact List.mem_toFinset.mpr (s.mem_keys_of_get hx)
  rw [hcard] at this
  exact this.mono (Nat.le_succ _)

/-! ### Touches -/

omit [Crates] in
theorem presentAt_ok {t : Oid} (h : Grounded s t) (segs : List Str) :
    ∃ b, presentAt s t segs = .ok b := by
  induction segs generalizing t with
  | nil => exact ⟨false, rfl⟩
  | cons seg segs ih =>
    obtain ⟨x, hx⟩ := h.get
    rw [presentAt, hx, ok_bind]
    cases x with
    | blob c => exact ⟨false, rfl⟩
    | commit c => exact ⟨false, rfl⟩
    | tree es =>
      simp only
      split
      · exact ⟨false, rfl⟩
      · rename_i e he
        split_ifs
        · exact ⟨_, rfl⟩
        · exact ⟨_, rfl⟩
        · exact ih (h.ref hx (List.mem_map_of_mem (List.mem_of_find?_eq_some he)))

theorem Carries.touchOf (h : Carries Q R s s') (hQ : ∀ es, Q es → Tidy es) {path : Path} {o : Oid}
    {c : CommitObj Oid} (htree : R c.tree) (hparents : ∀ p ∈ c.parents, R p)
    {v : Option (OrderKey Oid × TouchKind)} (hv : touchOf s path o c = .ok v) :
    Csp.touchOf s' path o c = .ok v := by
  unfold Csp.touchOf at hv ⊢
  split at hv
  · rename_i counter node parentOid _ hp
    have hRp : R parentOid := hparents _ (hp ▸ List.mem_singleton_self _)
    obtain ⟨inP, h1, hv⟩ := bind_ok.mp hv
    obtain ⟨parent, h2, hv⟩ := bind_ok.mp hv
    obtain ⟨inParent, h3, hv⟩ := bind_ok.mp hv
    obtain ⟨h2', hRt, -⟩ := h.loadCommit hRp h2
    exact bind_ok.mpr ⟨inP, h.presentAt hQ htree h1, bind_ok.mpr ⟨parent, h2', bind_ok.mpr
      ⟨inParent, h.presentAt hQ hRt h3, hv⟩⟩⟩
  · exact hv

theorem visitTouch_ok {path : Path} {best : Option (OrderKey Oid × TouchKind)} {o : Oid}
    {r : Option (OrderKey Oid × TouchKind) × List Oid} :
    visitTouch s path best o = .ok r ↔ ∃ c touch, loadCommit s o = .ok c ∧
      touchOf s path o c = .ok touch ∧ r = (laterTouch best touch, c.parents) := by
  simp only [visitTouch, bind_ok, pure_ok, @eq_comm _ _ r, exists_and_left]

theorem mostRecentTouch_ok {start : Oid} {path : Path} {v : Option (Oid × TouchKind)} :
    mostRecentTouch s start path = .ok v ↔ ∃ best next seen last,
      visitTouch s path none start = .ok (best, next) ∧
      Worklist.explore (visitTouch s path) .abort (next.length + s.linkCount) [] best next.reverse =
        .ok (seen, last) ∧
      v = last.map fun t => (t.1.sha, t.2) := by
  simp only [mostRecentTouch, bind_ok, pure_ok, Prod.exists, @eq_comm _ _ v]
  constructor
  · rintro ⟨best, next, h1, seen, last, h2, h3⟩
    exact ⟨best, next, seen, last, h1, h2, h3⟩
  · rintro ⟨best, next, seen, last, h1, h2, h3⟩
    exact ⟨best, next, h1, seen, last, h2, h3⟩

theorem Carries.visitTouch (h : Carries Q R s s') (hQ : ∀ es, Q es → Tidy es)
    {path : Path} {o : Oid} (hR : R o) {acc : Option (OrderKey Oid × TouchKind)}
    {r : Option (OrderKey Oid × TouchKind) × List Oid} (hv : visitTouch s path acc o = .ok r) :
    Csp.visitTouch s' path acc o = .ok r ∧ r.2.length ≤ (s'.refsOf o).length ∧ ∀ p ∈ r.2, R p := by
  obtain ⟨c, touch, hc, ht, rfl⟩ := visitTouch_ok.mp hv
  obtain ⟨hc', hRt, hRp⟩ := h.loadCommit hR hc
  exact ⟨visitTouch_ok.mpr ⟨c, touch, hc', h.touchOf hQ hRt hRp ht, rfl⟩,
    length_parents_le hc', hRp⟩

/-- Two stores whose visits agree on a region that visits do not leave find the same touch. -/
theorem mostRecentTouch_transfer {path : Path}
    (hvisit : ∀ acc x r, R x → visitTouch s path acc x = .ok r →
      visitTouch s' path acc x = .ok r ∧ r.2.length ≤ (s'.refsOf x).length ∧ ∀ y ∈ r.2, R y)
    {start : Oid} (hR : R start) {v : Option (Oid × TouchKind)}
    (hv : mostRecentTouch s start path = .ok v) :
    mostRecentTouch s' start path = .ok v := by
  obtain ⟨best, next, seen, last, h1, h2, rfl⟩ := mostRecentTouch_ok.mp hv
  obtain ⟨h1', -, hRn⟩ := hvisit _ _ _ hR h1
  obtain ⟨vis, hvis, hnd, hmem, hfuel⟩ := Worklist.explore_transfer (visitTouch s' path) R
    (fun x => (s'.refsOf x).length) (fun acc x acc' next hx hv =>
      hvisit acc x (acc', next) hx hv) h2
    fun x hx => hRn x (List.mem_reverse.mp hx)
  refine mostRecentTouch_ok.mpr ⟨best, next, seen, last, h1', hfuel _ ?_, rfl⟩
  rw [List.length_reverse]
  refine Nat.add_le_add_left (s'.sum_refsOf_le hnd fun x hx => ?_) _
  obtain ⟨-, hRx, acc, r, hv⟩ := hmem x hx
  obtain ⟨c, -, hc, -⟩ := visitTouch_ok.mp (hvisit acc x r hRx hv).1
  exact s'.mem_keys_of_get (loadCommit_ok.mp hc)

theorem Carries.mostRecentTouch (h : Carries Q R s s') (hQ : ∀ es, Q es → Tidy es) {start : Oid}
    (hR : R start) {path : Path} {v : Option (Oid × TouchKind)}
    (hv : mostRecentTouch s start path = .ok v) : Csp.mostRecentTouch s' start path = .ok v :=
  mostRecentTouch_transfer (fun _ _ _ hx hv => h.visitTouch hQ hx hv) hR hv

/-! ### Added paths -/

omit [Crates] in
theorem treePathsAdded_ok {n : Nat} {pre : Str} {pt : Option Oid} {ct : Oid} {l : List Path} :
    treePathsAdded s (n + 1) pre pt ct = .ok l ↔
      (some ct = pt ∧ l = []) ∨ some ct ≠ pt ∧ ∃ x, s.get ct = .ok x ∧
        ((∃ es pes added, x = .tree es ∧ parentEntries s pt = .ok pes ∧
            es.mapM (pathsAddedAt (treePathsAdded s n) pre pes) = .ok added ∧ l = added.flatten) ∨
          (∀ es, x ≠ .tree es) ∧ l = []) := by
  rw [treePathsAdded]
  split_ifs with h
  · simp [h, eq_comm]
  · simp only [h, false_and, false_or, ne_eq, not_false_eq_true, true_and, bind_ok]
    refine exists_congr fun x => and_congr_right fun _ => ?_
    cases x with
    | blob b => simp
    | commit c => simp
    | tree es =>
      simp only [bind_ok, pure_ok, GitObject.tree.injEq, forall_eq', false_and, or_false,
        @eq_comm _ _ l]
      constructor
      · rintro ⟨pes, hp, added, ha, hl⟩
        exact ⟨es, pes, added, rfl, hp, ha, hl⟩
      · rintro ⟨_, pes, added, rfl, hp, ha, hl⟩
        exact ⟨pes, hp, added, ha, hl⟩

omit [Crates] in
theorem Carries.parentEntries (h : Carries Q R s s') (hQ : ∀ es, Q es → Tidy es) {pt : Option Oid}
    (hR : ∀ o, pt = some o → R o) {pes : List (TreeEntry Oid)} (hp : parentEntries s pt = .ok pes) :
    ∃ pes', Csp.parentEntries s' pt = .ok pes' ∧
      (∀ name, pes'.find? (fun e => e.name = name) = pes.find? fun e => e.name = name) ∧
      ∀ e ∈ pes, R e.oid := by
  cases pt with
  | none =>
    obtain rfl := Except.ok.inj hp
    exact ⟨[], rfl, fun _ => rfl, by simp⟩
  | some o =>
    obtain ⟨x, hx, hp⟩ := bind_ok.mp hp
    obtain ⟨y, hy, ha⟩ := h.alike o x (hR o rfl) hx
    have hrefs := h.refs o x (hR o rfl) hx
    cases ha with
    | same =>
      refine ⟨pes, bind_ok.mpr ⟨x, hy, hp⟩, fun _ => rfl, ?_⟩
      cases x with
      | tree es =>
        obtain rfl := pure_ok.mp hp
        exact fun e he => hrefs _ (List.mem_map_of_mem he)
      | blob b => obtain rfl := pure_ok.mp hp; simp
      | commit c => obtain rfl := pure_ok.mp hp; simp
    | @tree es es' hperm ht ht' =>
      obtain rfl := pure_ok.mp hp
      exact ⟨es', bind_ok.mpr ⟨_, hy, rfl⟩, (hQ _ ht).find?_eq (hQ _ ht') hperm,
        fun e he => hrefs _ (List.mem_map_of_mem he)⟩

omit [Crates] in
theorem Carries.treePathsAdded (h : Carries Q R s s') (hQ : ∀ es, Q es → Tidy es) {n m : Nat}
    {pre : Str} {pt : Option Oid} {ct : Oid} (hpt : ∀ o, pt = some o → R o) (hct : R ct)
    {l : List Path} (hl : treePathsAdded s n pre pt ct = .ok l)
    (hw : Depth.Within (subtrees s'.get) m ct) :
    ∃ l', Csp.treePathsAdded s' m pre pt ct = .ok l' ∧ l.Perm l' := by
  induction n generalizing m pre pt ct l with
  | zero => cases hl
  | succ n ih =>
    cases m with
    | zero => exact hw.elim
    | succ m =>
      rcases treePathsAdded_ok.mp hl with ⟨heq, rfl⟩ | ⟨hne, x, hx, hl⟩
      · exact ⟨[], treePathsAdded_ok.mpr (.inl ⟨heq, rfl⟩), .refl _⟩
      obtain ⟨y, hy, ha⟩ := h.alike ct x hct hx
      rcases hl with ⟨es, pes, added, rfl, hpes, hadd, rfl⟩ | ⟨hnt, rfl⟩
      · obtain ⟨pes', hpes', hfind, hRp⟩ := h.parentEntries hQ hpt hpes
        obtain ⟨es', rfl, hperm⟩ : ∃ es', y = .tree es' ∧ es.Perm es' := by
          cases ha with
          | same => exact ⟨es, rfl, .refl _⟩
          | tree hp => exact ⟨_, rfl, hp⟩
        -- entry by entry, from the claim one level down
        have hentry : ∀ e ∈ es, ∃ seg seg',
            pathsAddedAt (Csp.treePathsAdded s n) pre pes e = .ok seg ∧
            pathsAddedAt (Csp.treePathsAdded s' m) pre pes' e = .ok seg' ∧ seg.Perm seg' := by
          intro e he
          obtain ⟨seg, -, hs⟩ := mapM_ok_mem hadd he
          refine ⟨seg, ?_⟩
          simp only [pathsAddedAt, hfind] at hs ⊢
          split_ifs at hs ⊢ with hm hfile
          · have hsub : ∀ o, ((pes.find? fun e' => e'.name = e.name).bind fun e' =>
                if e'.mode = treeMode then some e'.oid else none) = some o → R o := by
              intro o ho
              rw [Option.bind_eq_some_iff] at ho
              obtain ⟨pe, hpe, ho⟩ := ho
              split_ifs at ho
              exact Option.some.inj ho ▸ hRp pe (List.mem_of_find?_eq_some hpe)
            have hwe : Depth.Within (subtrees s'.get) m e.oid := by
              refine hw _ ?_
              simp only [subtrees, hy, List.mem_map, List.mem_filter, decide_eq_true_eq]
              exact ⟨e, ⟨hperm.mem_iff.mp he, hm⟩, rfl⟩
            obtain ⟨seg', hs', hp⟩ := ih hsub (h.refs ct _ hct hx _ (List.mem_map_of_mem he)) hs hwe
            exact ⟨seg', hs, hs', hp⟩
          · exact ⟨_, hs, rfl, by rw [Except.ok.inj hs]⟩
          · exact ⟨_, hs, rfl, by rw [Except.ok.inj hs]⟩
        choose! seg seg' hs hs' hsperm using hentry
        obtain rfl := Except.ok.inj (hadd.symm.trans (mapM_eq_ok_map hs))
        refine ⟨_, treePathsAdded_ok.mpr (.inr ⟨hne, _, hy, .inl ⟨es', pes', _, rfl, hpes',
          mapM_eq_ok_map fun e he => hs' e (hperm.mem_iff.mpr he), rfl⟩⟩), ?_⟩
        rw [← List.flatMap_def, ← List.flatMap_def]
        exact hperm.flatMap hsperm
      · refine ⟨[], treePathsAdded_ok.mpr (.inr ⟨hne, y, hy, .inr ⟨?_, rfl⟩⟩), .refl _⟩
        rintro es rfl
        cases ha with
        | same => exact hnt _ rfl
        | tree => exact hnt _ rfl

end Csp
