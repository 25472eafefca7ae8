import Csp.Commit
import Csp.Export

/-! Two stores that read the same below an id. Whatever the engine reads off the one, errors
included, it reads off the other, and what it then puts in both reads the same again. -/

namespace Csp
open Result
variable {Oid : Type} [ObjectId Oid] [Crates] {s t : Store Oid}

/-- No object holds its own id, at any depth: an id is a hash of all that is below it. -/
class AcyclicObjectId (Oid : Type) [ObjectId Oid] : Prop where
  acyclic : ∀ o : Oid, ¬ Relation.TransGen
    (fun a b => ∃ x : GitObject Oid, x.Encodable ∧ x.oid = a ∧ b ∈ x.refs) o o

/-- Under the id, and under all ids below it, both stores have the same. -/
def Same (s t : Store Oid) (o : Oid) : Prop :=
  ∀ p, Relation.ReflTransGen (fun a b => b ∈ s.refsOf a) o p → t.get p = s.get p

omit [Crates] in
/-- A set that the references do not leave, on which the stores agree. -/
theorem same_of_closed (P : Oid → Prop) (hget : ∀ o, P o → t.get o = s.get o)
    (hrefs : ∀ o x, P o → s.get o = .ok x → ∀ r ∈ x.refs, P r) {o : Oid} (ho : P o) :
    Same s t o := by
  have hclosed : ∀ p, Relation.ReflTransGen (fun a b => b ∈ s.refsOf a) o p → P p := by
    intro p hp
    induction hp with
    | refl => exact ho
    | @tail b c _ hbc ih =>
      cases hx : s.get b with
      | error e =>
        rw [Store.refsOf, hx] at hbc
        cases hbc
      | ok x =>
        rw [s.refsOf_of_get hx] at hbc
        exact hrefs b x ih hx c hbc
  exact fun p hp => hget p (hclosed p hp)

omit [Crates] in
theorem Grounded.same {o : Oid} (h : Grounded s o) (hext : s.Extends t) : Same s t o := by
  refine same_of_closed (Grounded s) (fun o h => ?_) (fun o x h hx r hr => h.ref hx hr) h
  obtain ⟨x, hx⟩ := h.get
  rw [hx, hext.get hx]

omit [Crates] in
theorem Same.get {o : Oid} (h : Same s t o) : t.get o = s.get o := h o .refl

omit [Crates] in
theorem Same.ref {o : Oid} (h : Same s t o) {x : GitObject Oid} (hx : s.get o = .ok x) {r : Oid}
    (hr : r ∈ x.refs) :
    Same s t r := fun p hp => h p (.head (by rwa [s.refsOf_of_get hx]) hp)

omit [Crates] in
theorem Same.loadCommit {o : Oid} (h : Same s t o) : Csp.loadCommit t o = Csp.loadCommit s o := by
  unfold Csp.loadCommit
  rw [h.get]

omit [Crates] in
theorem Same.tree {o : Oid} (h : Same s t o) {c : CommitObj Oid} (hc : Csp.loadCommit s o = .ok c) :
    Same s t c.tree := h.ref (loadCommit_ok.mp hc) List.mem_cons_self

omit [Crates] in
theorem Same.parent {o : Oid} (h : Same s t o) {c : CommitObj Oid}
    (hc : Csp.loadCommit s o = .ok c) {p : Oid} (hp : p ∈ c.parents) : Same s t p :=
  h.ref (loadCommit_ok.mp hc) (List.mem_cons_of_mem _ hp)

omit [Crates] in
theorem Same.ancestor {o p : Oid} (h : Same s t o)
    (hp : Relation.ReflTransGen (fun a b => b ∈ parentsOf s a) o p) : Same s t p := by
  induction hp with
  | refl => exact h
  | @tail b c _ hbc ih =>
    cases hc : Csp.loadCommit s b with
    | error e =>
      rw [parentsOf, hc] at hbc
      cases hbc
    | ok d =>
      rw [parentsOf_of_load hc] at hbc
      exact ih.parent hc hbc

/-! ### Searches -/

section Search
variable {σ : Type} {visit visit' : σ → Oid → CspResult (σ × List Oid)} {stack : List Oid}

omit [Crates] in
theorem explore_store {n m : Nat}
    (h : ∀ acc x acc' next, visit acc x = .ok (acc', next) → ∃ y, s.get x = .ok y ∧
      next.Sublist y.refs)
    (hn : stack.length + s.linkCount ≤ n) (hm : stack.length + s.linkCount ≤ m) (acc : σ) :
    Worklist.explore visit CspError.abort n [] acc stack = Worklist.explore visit .abort m
    [] acc stack := by
  have hsum : ((s.objs.keys.filter (· ∉ ([] : List Oid))).map fun o => (s.refsOf o).length).sum ≤
      s.linkCount :=
    s.sum_refsOf_le (s.nodup_keys.filter _) fun o ho => List.mem_of_mem_filter ho
  refine Worklist.explore_fuel s.objs.keys (fun o => (s.refsOf o).length) s.nodup_keys ?_
    (by omega) (by omega)
  intro acc x acc' next hv
  obtain ⟨y, hy, hsub⟩ := h acc x acc' next hv
  refine ⟨s.mem_keys_of_get hy, ?_⟩
  rw [s.refsOf_of_get hy]
  exact hsub.length_le

omit [Crates] in
theorem explore_same (hvisit : ∀ acc x, Same s t x → visit' acc x = visit acc x)
    (hs : ∀ acc x acc' next, visit acc x = .ok (acc', next) → ∃ y, s.get x = .ok y ∧
      next.Sublist y.refs)
    (ht : ∀ acc x acc' next, visit' acc x = .ok (acc', next) → ∃ y, t.get x = .ok y ∧
      next.Sublist y.refs)
    (hstack : ∀ x ∈ stack, Same s t x) (acc : σ) :
    Worklist.explore visit' CspError.abort (stack.length + t.linkCount) [] acc stack =
      Worklist.explore visit .abort (stack.length + s.linkCount) [] acc stack := by
  calc Worklist.explore visit' CspError.abort (stack.length + t.linkCount) [] acc stack
      = Worklist.explore visit' .abort (stack.length + (s.linkCount + t.linkCount)) [] acc stack :=
        explore_store ht le_rfl (by omega) acc
    _ = Worklist.explore visit .abort (stack.length + (s.linkCount + t.linkCount)) [] acc stack := by
        refine Worklist.explore_congr (Same s t) hvisit
          (fun acc x acc' next hx hv y hy => ?_) hstack
        obtain ⟨z, hz, hsub⟩ := hs acc x acc' next hv
        exact hx.ref hz (hsub.subset hy)
    _ = Worklist.explore visit .abort (stack.length + s.linkCount) [] acc stack :=
        explore_store hs (by omega) le_rfl acc

end Search

omit [Crates] in
theorem visitParents_refs {acc acc' : Unit} {o : Oid} {next : List Oid}
    (h : visitParents s acc o = .ok (acc', next)) :
    ∃ y, s.get o = .ok y ∧ next.Sublist y.refs := by
  obtain ⟨c, hc, hr⟩ := visitParents_ok.mp h
  obtain ⟨-, rfl⟩ := Prod.mk.inj hr
  exact ⟨_, loadCommit_ok.mp hc, List.sublist_cons_self _ _⟩

omit [Crates] in
theorem Same.ancestors {o : Oid} (h : Same s t o) : Csp.ancestors t o = Csp.ancestors s o := by
  unfold Csp.ancestors
  rw [h.loadCommit]
  refine bind_congr_ok fun c hc => ?_
  have hsearch : Worklist.explore (visitParents t) CspError.abort
      (c.parents.reverse.length + t.linkCount) [] ()
      c.parents.reverse = Worklist.explore (visitParents s) .abort
      (c.parents.reverse.length + s.linkCount) [] ()
        c.parents.reverse :=
    explore_same (fun acc x hx => by rw [visitParents, visitParents, hx.loadCommit])
    (fun _ _ _ _ => visitParents_refs)
      (fun _ _ _ _ => visitParents_refs) (fun x hx => h.parent hc (List.mem_reverse.mp hx)) ()
  rw [List.length_reverse] at hsearch
  rw [hsearch]

omit [Crates] in
theorem Same.of_mem_ancestors {o x : Oid} (h : Same s t o) {l : List Oid}
    (hl : Csp.ancestors s o = .ok l) (hx : x ∈ l) :
    Same s t x := h.ancestor (((ancestors_spec hl).2 x).mp hx).to_reflTransGen

theorem Same.orderKey {o : Oid} (h : Same s t o) : Csp.orderKey t o = Csp.orderKey s o := by
  unfold Csp.orderKey
  rw [h.loadCommit]

theorem Same.isPrimitiveOid {o : Oid} (h : Same s t o) :
    Csp.isPrimitiveOid t o = Csp.isPrimitiveOid s o := by
  unfold Csp.isPrimitiveOid
  rw [h.loadCommit]

omit [Crates] in
theorem Same.ancestorTable {os : List Oid} (h : ∀ o ∈ os, Same s t o) :
    Csp.ancestorTable t os = Csp.ancestorTable s os :=
  mapM_congr fun o ho => by rw [(h o ho).ancestors]

omit [Crates] in
theorem Same.commitTree {o : Oid} (h : Same s t o) : Csp.commitTree t o = Csp.commitTree s o := by
  unfold Csp.commitTree
  rw [h.loadCommit]

omit [Crates] in
theorem Same.of_commitTree {o tree : Oid} (h : Same s t o) (ht : Csp.commitTree s o = .ok tree) :
    Same s t tree := by
  obtain ⟨c, hc, ht⟩ := bind_ok.mp ht
  obtain rfl := pure_ok.mp ht
  exact h.tree hc

omit [Crates] in
theorem Same.maxCommitterTime {ps : List Oid} (h : ∀ p ∈ ps, Same s t p) :
    Csp.maxCommitterTime t ps = Csp.maxCommitterTime s ps :=
  foldlM_congr (fun b p hp => by rw [(h p hp).loadCommit]) 0

/-! ### Touches -/

omit [Crates] in
theorem Same.presentAt {o : Oid} (h : Same s t o) (segs : List Str) :
    Csp.presentAt t o segs = Csp.presentAt s o segs := by
  induction segs generalizing o with
  | nil => rfl
  | cons seg segs ih =>
    rw [Csp.presentAt, Csp.presentAt, h.get]
    refine bind_congr_ok fun x hx => ?_
    cases x with
    | tree es =>
      simp only
      cases hf : es.find? fun e => e.name = seg with
      | none => rfl
      | some e =>
        simp only
        split_ifs
        · rfl
        · rfl
        · exact ih (h.ref hx (List.mem_map_of_mem (List.mem_of_find?_eq_some hf)))
    | blob b => rfl
    | commit c => rfl

theorem Same.touchOf {path : Path} {o : Oid} {c : CommitObj Oid} (htree : Same s t c.tree)
    (hparents : ∀ p ∈ c.parents, Same s t p) : Csp.touchOf t path o c = Csp.touchOf s path o c := by
  unfold Csp.touchOf pathPresentInTree
  rw [htree.presentAt]
  rcases parsePrimitiveMeta c with _ | ⟨counter, node⟩
  · rfl
  rcases hps : c.parents with _ | ⟨p, _ | ⟨q, l⟩⟩
  · rfl
  · have hp : Same s t p := hparents p (by rw [hps]; exact List.mem_cons_self)
    simp only
    refine bind_congr_ok fun inP _ => ?_
    rw [hp.loadCommit]
    exact bind_congr_ok fun parent hparent => by rw [(hp.tree hparent).presentAt]
  · rfl

theorem Same.visitTouch {path : Path} {o : Oid} (h : Same s t o)
    (best : Option (OrderKey Oid × TouchKind)) :
    Csp.visitTouch t path best o = Csp.visitTouch s path best o := by
  unfold Csp.visitTouch
  rw [h.loadCommit]
  exact bind_congr_ok fun c hc => by rw [Same.touchOf (h.tree hc) fun p => h.parent hc]

theorem visitTouch_refs {path : Path} {o : Oid} {acc acc' : Option (OrderKey Oid × TouchKind)}
    {next : List Oid} (h : visitTouch s path acc o = .ok (acc', next)) : ∃ y, s.get o = .ok y ∧
    next.Sublist y.refs := by
  obtain ⟨c, touch, hc, -, hr⟩ := visitTouch_ok.mp h
  obtain ⟨-, rfl⟩ := Prod.mk.inj hr
  exact ⟨_, loadCommit_ok.mp hc, List.sublist_cons_self _ _⟩

theorem Same.mostRecentTouch {start : Oid} (h : Same s t start) (path : Path) :
    Csp.mostRecentTouch t start path = Csp.mostRecentTouch s start path := by
  unfold Csp.mostRecentTouch
  rw [h.visitTouch]
  refine bind_congr_ok fun r hr => ?_
  obtain ⟨best, next⟩ := r
  obtain ⟨y, hy, hsub⟩ := visitTouch_refs hr
  have hsearch : Worklist.explore (Csp.visitTouch t path) CspError.abort
      (next.reverse.length + t.linkCount) [] best
      next.reverse = Worklist.explore (Csp.visitTouch s path) .abort
      (next.reverse.length + s.linkCount) [] best
        next.reverse :=
    explore_same (fun acc x hx => hx.visitTouch acc) (fun _ _ _ _ => visitTouch_refs)
    (fun _ _ _ _ => visitTouch_refs)
      (fun x hx => h.ref hy (hsub.subset (List.mem_reverse.mp hx))) best
  rw [List.length_reverse] at hsearch
  simp only
  rw [hsearch]

theorem Same.classify {parent parentTree : Oid} (hp : Same s t parent) (ht : Same s t parentTree)
    (mat : Std.ExtTreeMap Path Oid compare) (l : Layer1 Oid) (p : Path) (c : Bytes) :
    Csp.classify t parent parentTree mat l p c = Csp.classify s parent parentTree mat l p c := by
  unfold Csp.classify pathPresentInTree
  rw [ht.presentAt, hp.mostRecentTouch]

theorem Same.layer1 {parent parentTree : Oid} (hp : Same s t parent) (ht : Same s t parentTree)
    (mat : Std.ExtTreeMap Path Oid compare) (files : FileMap) :
    Csp.layer1 t parent parentTree mat files = Csp.layer1 s parent parentTree mat files := by
  unfold Csp.layer1
  exact foldlM_congr (fun l f _ => Same.classify hp ht mat l f.1 f.2) {}

omit [Crates] in
theorem Same.mainTree {o : Oid} (h : Same s t o) : Csp.mainTree t o = Csp.mainTree s o := by
  unfold Csp.mainTree
  rw [h.get]

/-! ### Added paths -/

omit [Crates] in
theorem Same.parentEntries {pt : Option Oid} (h : ∀ o, pt = some o → Same s t o) :
    Csp.parentEntries t pt = Csp.parentEntries s pt := by
  cases pt with
  | none => rfl
  | some o =>
    show treeEntries t o = treeEntries s o
    rw [treeEntries, treeEntries, (h o rfl).get]

omit [Crates] in
theorem Same.of_parentEntries {pt : Option Oid} (h : ∀ o, pt = some o → Same s t o)
    {pes : List (TreeEntry Oid)} (hp : Csp.parentEntries s pt = .ok pes) {e : TreeEntry Oid}
    (he : e ∈ pes) : Same s t e.oid := by
  cases pt with
  | none =>
    obtain rfl := Except.ok.inj hp
    cases he
  | some o =>
    obtain ⟨x, hx, hp⟩ := bind_ok.mp (show treeEntries s o = .ok pes from hp)
    cases x with
    | tree es =>
      obtain rfl := pure_ok.mp hp
      exact (h o rfl).ref hx (List.mem_map_of_mem he)
    | blob b =>
      obtain rfl := pure_ok.mp hp
      cases he
    | commit c =>
      obtain rfl := pure_ok.mp hp
      cases he

omit [ObjectId Oid] [Crates] in
theorem pathsAddedAt_congr {below below' : Str → Option Oid → Oid →
    CspResult (List Path)} {pre : Str} {pes : List (TreeEntry Oid)} {ce : TreeEntry Oid}
    (h : ∀ pre pt, (∀ o, pt = some o → ∃ e ∈ pes, e.oid = o) →
      below pre pt ce.oid = below' pre pt ce.oid) :
    pathsAddedAt below pre pes ce = pathsAddedAt below' pre pes ce := by
  unfold pathsAddedAt
  simp only
  split_ifs with hm
  · refine h _ _ fun o ho => ?_
    obtain ⟨e, he, hoe⟩ := Option.bind_eq_some_iff.mp ho
    rw [Option.ite_none_right_eq_some, Option.some.injEq] at hoe
    exact ⟨e, List.mem_of_find?_eq_some he, hoe.2⟩
  · rfl
  · rfl

omit [Crates] in
theorem Same.treePathsAdded {n : Nat} {pre : Str} {pt : Option Oid} {ct : Oid}
    (hpt : ∀ o, pt = some o → Same s t o) (hct : Same s t ct) :
    Csp.treePathsAdded t n pre pt ct = Csp.treePathsAdded s n pre pt ct := by
  induction n generalizing pre pt ct with
  | zero => rfl
  | succ n ih =>
    rw [Csp.treePathsAdded, Csp.treePathsAdded]
    split_ifs
    · rfl
    rw [hct.get]
    refine bind_congr_ok fun x hx => ?_
    cases x with
    | tree es =>
      simp only
      rw [Same.parentEntries hpt]
      refine bind_congr_ok fun pes hpes => ?_
      have hentry : ∀ ce ∈ es, pathsAddedAt (Csp.treePathsAdded t n) pre pes ce =
          pathsAddedAt (Csp.treePathsAdded s n) pre pes ce := fun ce hce =>
        pathsAddedAt_congr fun pre pt hin => ih (fun o ho => by
          obtain ⟨e, he, rfl⟩ := hin o ho
          exact Same.of_parentEntries hpt hpes he) (hct.ref hx (List.mem_map_of_mem hce))
      rw [mapM_congr hentry]
    | blob b => rfl
    | commit c => rfl

omit [Crates] in
theorem treePathsAdded_fuel {n m : Nat} {pre : Str} {pt : Option Oid} {ct : Oid}
    (hn : Depth.Within s.refsOf n ct) (hm : Depth.Within s.refsOf m ct) :
    treePathsAdded s n pre pt ct = treePathsAdded s m pre pt ct := by
  induction n generalizing m pre pt ct with
  | zero => exact hn.elim
  | succ n ih =>
    cases m with
    | zero => exact hm.elim
    | succ m =>
      rw [treePathsAdded, treePathsAdded]
      split_ifs
      · rfl
      refine bind_congr_ok fun x hx => ?_
      cases x with
      | tree es =>
        simp only
        refine bind_congr_ok fun pes _ => ?_
        have hentry : ∀ ce ∈ es, pathsAddedAt (treePathsAdded s n) pre pes ce =
            pathsAddedAt (treePathsAdded s m) pre pes ce := fun ce hce => by
          have hmem : ce.oid ∈ s.refsOf ct := by
            rw [s.refsOf_of_get hx]
            exact List.mem_map_of_mem hce
          exact pathsAddedAt_congr fun pre pt _ => ih (hn _ hmem) (hm _ hmem)
        rw [mapM_congr hentry]
      | blob b => rfl
      | commit c => rfl

/-! ### Files -/

omit [Crates] in
theorem Same.listing {n : Nat} {tree : Oid} (h : Same s t tree) :
    Csp.listing t.get n tree = Csp.listing s.get n tree := by
  induction n generalizing tree with
  | zero => rfl
  | succ n ih =>
    rw [Csp.listing, Csp.listing, h.get]
    refine bind_congr_ok fun x hx => ?_
    cases x with
    | tree es =>
      have hentry : ∀ e ∈ es, entryListing t.get (Csp.listing t.get n) e =
          entryListing s.get (Csp.listing s.get n) e := fun e he => by
        have hsame : Same s t e.oid := h.ref hx (List.mem_map_of_mem he)
        rw [entryListing, entryListing, ih hsame, hsame.get]
      simp only
      rw [mapM_congr hentry]
    | blob b => rfl
    | commit c => rfl

omit [Crates] in
theorem listing_fuel {get : Oid → CspResult (GitObject Oid)} {n m : Nat} {tree : Oid}
    (hn : Depth.Within (subtrees get) n tree) (hm : Depth.Within (subtrees get) m tree) :
    listing get n tree = listing get m tree := by
  induction n generalizing m tree with
  | zero => exact hn.elim
  | succ n ih =>
    cases m with
    | zero => exact hm.elim
    | succ m =>
      rw [listing, listing]
      refine bind_congr_ok fun x hx => ?_
      cases x with
      | tree es =>
        have hentry : ∀ e ∈ es, entryListing get (listing get n) e = entryListing get
            (listing get m) e := fun e he => by
          unfold entryListing
          split_ifs with hmode
          · have hsub : e.oid ∈ subtrees get tree := by
              rw [subtrees, hx]
              exact List.mem_map_of_mem (List.mem_filter.mpr ⟨he, by simpa using hmode⟩)
            rw [ih (hn _ hsub) (hm _ hsub)]
          · rfl
        simp only
        rw [mapM_congr hentry]
      | blob b => rfl
      | commit c => rfl

/-! ### Stores without cycles -/

section Acyclic
variable [AcyclicObjectId Oid]

omit [Crates] in
theorem Store.Sound.within (hs : s.Sound) (o : Oid) : Depth.Within s.refsOf (s.size + 1) o := by
  have hedge : ∀ a b, b ∈ s.refsOf a → ∃ x : GitObject Oid, x.Encodable ∧ x.oid = a ∧
      b ∈ x.refs := by
    intro a b hb
    cases hx : s.get a with
    | error e =>
      rw [Store.refsOf, hx] at hb
      cases hb
    | ok x =>
      rw [s.refsOf_of_get hx] at hb
      exact ⟨x, (hs.get hx).2, (hs.get hx).1, hb⟩
  have hcard : s.objs.keys.toFinset.card = s.size := by
    rw [List.toFinset_card_of_nodup s.nodup_keys, Std.ExtTreeMap.length_keys]
    rfl
  rw [← hcard]
  refine Depth.within_of_acyclic (fun a hcyc => ?_) _ fun b _ hne => ?_
  · exact AcyclicObjectId.acyclic a (Relation.TransGen.mono hedge a a hcyc)
  · obtain ⟨r, hr⟩ := List.exists_mem_of_ne_nil _ hne
    cases hx : s.get b with
    | error e =>
      rw [Store.refsOf, hx] at hr
      cases hr
    | ok x => exact List.mem_toFinset.mpr (s.mem_keys_of_get hx)

omit [Crates] in
theorem Store.Sound.within_subtrees (hs : s.Sound) (o : Oid) :
    Depth.Within (subtrees s.get) (s.size + 1) o :=
  (hs.within o).congr fun b _ c hc => by
    obtain ⟨es, hes, e, he, -, rfl⟩ := mem_subtrees hc
    rw [s.refsOf_of_get hes]
    exact List.mem_map_of_mem he

omit [Crates] in
theorem Same.treeFiles (hs : s.Sound) (ht : t.Sound) {tree : Oid} (h : Same s t tree) :
    Csp.treeFiles t tree = Csp.treeFiles s tree := by
  have hlisting : Csp.listing t.get (t.size + 1) tree = Csp.listing s.get (s.size + 1) tree :=
    calc Csp.listing t.get (t.size + 1) tree = Csp.listing t.get (s.size + t.size + 1) tree :=
          listing_fuel (ht.within_subtrees tree) ((ht.within_subtrees tree).mono (by omega))
      _ = Csp.listing s.get (s.size + t.size + 1) tree := h.listing
      _ = Csp.listing s.get (s.size + 1) tree :=
          listing_fuel ((hs.within_subtrees tree).mono (by omega)) (hs.within_subtrees tree)
  rw [Csp.treeFiles, Csp.treeFiles, readTreeToFiles, readTreeToFiles, walkTree_eq,
    walkTree_eq, hlisting]

omit [Crates] in
theorem Same.added (hs : s.Sound) (ht : t.Sound) {pre : Str} {pt : Option Oid} {ct : Oid}
    (hpt : ∀ o, pt = some o → Same s t o) (hct : Same s t ct) :
    Csp.treePathsAdded t (t.size + 1) pre pt ct = Csp.treePathsAdded s (s.size + 1) pre pt ct :=
  calc Csp.treePathsAdded t (t.size + 1) pre pt ct = Csp.treePathsAdded t (s.size + t.size + 1) pre pt ct :=
        treePathsAdded_fuel (ht.within ct) ((ht.within ct).mono (by omega))
    _ = Csp.treePathsAdded s (s.size + t.size + 1) pre pt ct := Same.treePathsAdded hpt hct
    _ = Csp.treePathsAdded s (s.size + 1) pre pt ct :=
        treePathsAdded_fuel ((hs.within ct).mono (by omega)) (hs.within ct)

omit [AcyclicObjectId Oid] in
theorem Same.someGhost {parent : Oid} (h : Same s t parent) (readds : List Oid)
    (paths : List Path) :
    Csp.someGhost t parent readds paths = Csp.someGhost s parent readds paths := by
  induction paths with
  | nil => rfl
  | cons path paths ih =>
    rw [Csp.someGhost, Csp.someGhost, h.mostRecentTouch, ih]

theorem Same.ghost (hs : s.Sound) (ht : t.Sound) {o : Oid} (h : Same s t o) :
    isGhostAddClosureOnly t o = isGhostAddClosureOnly s o := by
  have hverdict : isGhostAddClosureOnlyUncached t o = isGhostAddClosureOnlyUncached s o := by
    unfold isGhostAddClosureOnlyUncached
    rw [h.get]
    refine bind_congr_ok fun x hx => ?_
    cases x with
    | commit c =>
      simp only
      split_ifs with hp
      · rfl
      rcases hps : c.parents with _ | ⟨p, _ | ⟨q, l⟩⟩
      · rfl
      · have hparent : Same s t p := h.ref hx (by simp [GitObject.refs, hps])
        simp only
        rw [hparent.loadCommit]
        refine bind_congr_ok fun parent hload => ?_
        have htree : ∀ o, some parent.tree = some o → Same s t o := fun o ho =>
          Option.some.inj ho ▸ hparent.tree hload
        rw [Same.added hs ht htree (h.ref hx List.mem_cons_self)]
        exact bind_congr_ok fun added _ => hparent.someGhost _ added
      · rfl
    | blob b => rfl
    | tree es => rfl
  rw [isGhostAddClosureOnly, isGhostAddClosureOnly, hverdict]

theorem Same.effectiveKnown (hs : s.Sound) (ht : t.Sound) {known : List Oid}
    (h : ∀ o ∈ known, Same s t o) :
    Csp.effectiveKnown t known = Csp.effectiveKnown s known := by
  induction known with
  | nil => rfl
  | cons o os ih =>
    rw [Csp.effectiveKnown, Csp.effectiveKnown, (h o List.mem_cons_self).ghost hs ht,
      ih fun o ho => h o (List.mem_cons_of_mem _ ho)]

theorem Same.frontier (hs : s.Sound) (ht : t.Sound) {known : List Oid}
    (h : ∀ o ∈ known, Same s t o) :
    Csp.frontier t known = Csp.frontier s known := by
  unfold Csp.frontier
  rw [Same.effectiveKnown hs ht h]
  refine bind_congr_ok fun l hl => ?_
  have hsame : ∀ o ∈ l, Same s t o := fun o ho => h o (mem_of_mem_effectiveKnown hl ho)
  have hprims : l.filter (Csp.isPrimitiveOid t) = l.filter (Csp.isPrimitiveOid s) :=
    List.filter_congr fun o ho => (hsame o ho).isPrimitiveOid
  have hprim : ∀ o ∈ l.filter (Csp.isPrimitiveOid s), Same s t o := fun o ho =>
      hsame o (List.mem_of_mem_filter ho)
  simp only
  rw [hprims, Same.ancestorTable hprim]
  refine bind_congr_ok fun table _ => ?_
  rw [mapM_congr fun o ho => (hprim o (List.mem_of_mem_filter ho)).orderKey]

omit [AcyclicObjectId Oid] [Crates] in
theorem Same.mergeBase {a b : Oid} (ha : Same s t a) (hb : Same s t b) :
    Csp.mergeBase t a b = Csp.mergeBase s a b := by
  unfold Csp.mergeBase
  rw [ha.ancestors, hb.ancestors]
  refine bind_congr_ok fun ancA hA => bind_congr_ok fun ancB _ => ?_
  simp only
  split_ifs with hc
  · rfl
  rw [Same.ancestorTable fun o ho => ?_]
  rcases List.mem_cons.mp (List.mem_of_mem_filter ho) with rfl | ho
  · exact ha
  · exact ha.of_mem_ancestors hA (List.mem_of_mem_filter ho)

omit [AcyclicObjectId Oid] [Crates] in
theorem Same.of_mergeBase {a b m : Oid} (ha : Same s t a) (hm : Csp.mergeBase s a b = .ok m) :
    Same s t m := by
  obtain ⟨ancA, ancB, table, hA, -, -, hm⟩ := mergeBase_ok.mp hm
  have hmax : m ∈ maximalOf table (commonAncestors a b ancA ancB) := List.mem_of_mem_head? hm
  rw [maximalOf, List.mem_insertionSort, List.mem_filter] at hmax
  rcases (mem_commonAncestors.mp hmax.1).1 with rfl | hma
  · exact ha
  · exact ha.of_mem_ancestors hA hma

theorem Same.mergedFiles (hs : s.Sound) (ht : t.Sound) {a b : Oid} (ha : Same s t a)
    (hb : Same s t b) :
    Csp.mergedFiles t a b = Csp.mergedFiles s a b := by
  have hfiles : ∀ o, Same s t o → ∀ tree, Csp.commitTree s o = .ok tree →
      Csp.treeFiles t tree = Csp.treeFiles s tree := fun o ho tree htree =>
      (ho.of_commitTree htree).treeFiles hs ht
  unfold Csp.mergedFiles
  rw [ha.mergeBase hb, ha.commitTree, hb.commitTree]
  refine bind_congr_ok fun base hbase => ?_
  have hsame := ha.of_mergeBase hbase
  rw [hsame.commitTree]
  refine bind_congr_ok fun t1 h1 => ?_
  rw [hfiles base hsame t1 h1]
  refine bind_congr_ok fun m1 _ => bind_congr_ok fun t2 h2 => ?_
  rw [hfiles a ha t2 h2]
  refine bind_congr_ok fun m2 _ => bind_congr_ok fun t3 h3 => ?_
  rw [hfiles b hb t3 h3]

theorem Same.foldObjects (hs : s.Sound) (ht : t.Sound) {ps : List Oid} (h : ∀ p ∈ ps, Same s t p) :
    Csp.foldObjects t ps = Csp.foldObjects s ps := by
  rcases ps with _ | ⟨a, _ | ⟨b, _ | ⟨c, l⟩⟩⟩
  · rfl
  · rw [Csp.foldObjects, Csp.foldObjects, (h a List.mem_cons_self).commitTree,
      Same.maxCommitterTime h]
  · rw [Csp.foldObjects, Csp.foldObjects, Same.mergedFiles hs ht (h a (by simp)) (h b (by simp)),
      Same.maxCommitterTime h]
  · rfl

end Acyclic

/-! ### Putting the same in both -/

/-- What a store on disk holds: what the parser made of objects that were put. -/
structure Store.OnDisk (s : Store Oid) : Prop where
  backend : s.backend = .disk
  objs : ∀ (o : Oid) r, s.objs[o]? = some r → ∃ x : GitObject Oid, x.Encodable ∧ x.oid = o ∧
    r = .ok x.canon

omit [Crates] in
theorem Store.OnDisk.sound (h : s.OnDisk) : s.Sound := by
  intro o r hr
  obtain ⟨x, hx, ho, rfl⟩ := h.objs o r hr
  exact ⟨x.canon, rfl, x.oid_canon.trans ho, hx.canon⟩

section Put
variable {xs : List (GitObject Oid)} {o : Oid}

theorem getElem?_putAll_of_ne (h : ∀ x ∈ xs, x.oid ≠ o) : (s.putAll xs).objs[o]? = s.objs[o]? := by
  induction xs generalizing s with
  | nil => rfl
  | cons x xs ih =>
    rw [Store.putAll_cons, ih fun y hy => h y (List.mem_cons_of_mem _ hy), Store.getElem?_put,
      if_neg fun hx => h x List.mem_cons_self hx.1]

theorem get_putAll_of_ne (h : ∀ x ∈ xs, x.oid ≠ o) : (s.putAll xs).get o = s.get o := by
  unfold Store.get
  rw [getElem?_putAll_of_ne h]

theorem getElem?_putAll_congr (hb : t.backend = s.backend) (ho : t.objs[o]? = s.objs[o]?) :
    (t.putAll xs).objs[o]? = (s.putAll xs).objs[o]? := by
  induction xs generalizing s t with
  | nil => exact ho
  | cons x xs ih =>
    refine ih hb ?_
    rw [Store.getElem?_put, Store.getElem?_put, ho, hb]

variable [LawfulObjectId Oid] [LawfulCrates]

theorem Store.OnDisk.putAll (h : s.OnDisk) (hxs : ∀ x ∈ xs, x.Encodable) :
    (s.putAll xs).OnDisk := by
  refine ⟨(s.extends_putAll xs).backend.trans h.backend, fun o r hr => ?_⟩
  rcases Store.getElem?_putAll hr with hr | ⟨x, hx, ho, rfl⟩
  · exact h.objs o r hr
  · refine ⟨x, hxs x hx, ho, ?_⟩
    rw [h.backend]
    exact decompressAndParse_compress (hxs x hx)

theorem Store.OnDisk.refold (h : s.OnDisk) (ps : List Oid) : (refold ps s).2.OnDisk := by
  rw [refold_run]
  split
  · rename_i hf
    exact h.putAll (written_foldObjects h.sound hf).encodable
  · exact h

theorem Store.OnDisk.computeMain (h : s.OnDisk) (known : List Oid) :
    (computeMain known s).2.OnDisk :=
  computeMain_induction (fun s t : Store Oid => s.OnDisk → t.OnDisk) (fun _ => id)
    (fun _ _ _ h h' => h' ∘ h)
    (fun ps _ h => h.refold ps) (fun _ h => h.putAll written_genesis.encodable) known s h

end Put

/-- A store, and one that holds more. Of what the third store has, it holds the same. -/
structure Richer (u s t : Store Oid) : Prop where
  left : s.Sound
  right : t.Sound
  ext : s.Extends t
  agrees : ∀ (o : Oid) x y, u.get o = .ok x → t.get o = .ok y → y = x

omit [Crates] in
theorem Richer.refl (hs : s.Sound) : Richer s s s :=
  ⟨hs, hs, .refl s, fun _ _ _ hx hy => Except.ok.inj (hy.symm.trans hx)⟩

omit [Crates] in
theorem Richer.of_agrees {u u' : Store Oid} (h : Richer u s t)
    (hagrees : ∀ (o : Oid) x y, u'.get o = .ok x → t.get o = .ok y → y = x) : Richer u' s t :=
  ⟨h.left, h.right, h.ext, hagrees⟩

omit [Crates] in
theorem Richer.more {t' : Store Oid} (h : Richer s s t) (ht' : t'.Sound) (hext : t.Extends t') :
    Richer s s t' :=
  ⟨h.left, ht', h.ext.trans hext, fun _ _ _ hx hy =>
    Except.ok.inj (hy.symm.trans (hext.get (h.ext.get hx)))⟩

omit [Crates] in
theorem Same.symm {o : Oid} (h : Same s t o) : Same t s o := by
  refine same_of_closed (Same s t) (fun p hp => hp.get.symm) (fun p x hp hx r hr => ?_) h
  exact hp.ref (hp.get.symm.trans hx) hr

section Richer
variable [LawfulObjectId Oid] [LawfulCrates] {u : Store Oid} {xs : List (GitObject Oid)}

theorem Richer.putAll (h : Richer u s t) (hxs : ∀ x ∈ xs, x.Encodable)
    (hu : (s.putAll xs).Extends u) :
    Richer u (s.putAll xs) (t.putAll xs) := by
  have hnew : ∀ o : Oid, t.objs[o]? = none → (t.putAll xs).objs[o]? = (s.putAll xs).objs[o]? := by
    intro o ho
    refine getElem?_putAll_congr h.ext.backend ?_
    cases hr : s.objs[o]? with
    | none => exact ho
    | some r => exact absurd (h.ext.objs o r hr) (by simp [ho])
  refine ⟨h.left.putAll hxs, h.right.putAll hxs, ⟨?_, fun o r hr => ?_⟩, fun o x y hx hy => ?_⟩
  · rw [(t.extends_putAll xs).backend, (s.extends_putAll xs).backend, h.ext.backend]
  · cases ho : t.objs[o]? with
    | none => rw [hnew o ho, hr]
    | some r' =>
      obtain ⟨x, rfl, -⟩ := h.left.putAll hxs o r hr
      obtain ⟨y, rfl, -⟩ := h.right o r' ho
      rw [h.agrees o x y (hu.get (Store.get_eq_ok.mpr hr)) (Store.get_eq_ok.mpr ho)] at ho
      exact (t.extends_putAll xs).objs o _ ho
  · cases ho : t.objs[o]? with
    | none =>
      have hy' : (s.putAll xs).get o = .ok y := by
        rw [Store.get_eq_ok, ← hnew o ho, ← Store.get_eq_ok]
        exact hy
      exact Except.ok.inj ((hu.get hy').symm.trans hx)
    | some r =>
      obtain ⟨z, rfl, -⟩ := h.right o r ho
      obtain rfl : z = y :=
        Except.ok.inj (((t.extends_putAll xs).get (Store.get_eq_ok.mpr ho)).symm.trans hy)
      exact h.agrees o x z hx (Store.get_eq_ok.mpr ho)

/-- After the same objects are put in both stores, they read the same where they did before
and below what was put, if what this refers to is among the one or the other. -/
theorem Same.putAll (h : Richer u s t) (hxs : ∀ x ∈ xs, x.Encodable) (hu : (s.putAll xs).Extends u)
    (hrefs : ∀ x ∈ xs, ∀ r ∈ x.refs, Same s t r ∨ ∃ y ∈ xs, y.oid = r) {o : Oid}
    (ho : Same s t o ∨ ∃ x ∈ xs, x.oid = o) :
    Same (s.putAll xs) (t.putAll xs) o := by
  refine same_of_closed (fun o => Same s t o ∨ ∃ x ∈ xs, x.oid = o) (fun o ho => ?_)
    (fun o x ho hx r hr => ?_) ho
  · by_cases hput : ∃ x ∈ xs, x.oid = o
    · obtain ⟨x, hx, rfl⟩ := hput
      obtain ⟨y, hy, -⟩ := h.left.get_putAll hxs hx
      rw [hy, (h.putAll hxs hu).ext.get hy]
    · have hne : ∀ x ∈ xs, x.oid ≠ o := fun x hx hxo => hput ⟨x, hx, hxo⟩
      rw [get_putAll_of_ne hne, get_putAll_of_ne hne, (ho.resolve_right hput).get]
  · by_cases hput : ∃ x ∈ xs, x.oid = o
    · obtain ⟨y, hy, rfl⟩ := hput
      obtain ⟨z, hz, hcanon⟩ := h.left.get_putAll hxs hy
      obtain rfl : x = z := Except.ok.inj (hx.symm.trans hz)
      exact hrefs y hy r ((mem_refs_of_canon hcanon).mp hr)
    · rw [get_putAll_of_ne fun x hx hxo => hput ⟨x, hx, hxo⟩] at hx
      exact .inl ((ho.resolve_right hput).ref hx hr)

end Richer

/-! ### Folding in both -/

/-- Two runs side by side: one result, and both stores read the same wherever they did before. -/
structure Paired {α : Type} (u s t : Store Oid) (x y : CspResult α × Store Oid) : Prop where
  result : y.1 = x.1
  richer : Richer u x.2 y.2
  kept : ∀ o, Same s t o → Same x.2 y.2 o

/-- The same for runs that make a commit: both stores read the same below it too. -/
structure PairedCommit (u s t : Store Oid) (x y : CspResult Oid × Store Oid) :
    Prop extends Paired u s t x y where
  below : ∀ o, x.1 = .ok o → Same x.2 y.2 o

section Fold
variable [LawfulObjectId Oid] [LawfulCrates] [AcyclicObjectId Oid] {u : Store Oid}

omit [LawfulObjectId Oid] [LawfulCrates] [AcyclicObjectId Oid] in
theorem refs_foldObjects {ps : List Oid} (h : ∀ p ∈ ps, Same s t p) {objs : List (GitObject Oid)}
    {c : CommitObj Oid} (hf : foldObjects s ps = .ok (objs, c)) :
    ∀ x ∈ objs ++ [.commit c], ∀ r ∈ x.refs, Same s t r ∨ ∃ y ∈ objs ++ [.commit c], y.oid = r := by
  obtain ⟨⟨tree, time, -, hc⟩, hcase⟩ := foldObjects_commit hf
  have hparents : c.parents = ps := by rw [hc]; rfl
  have hobjs : ∀ x ∈ objs, ∀ r ∈ x.refs, ∃ y ∈ objs, y.oid = r := by
    rcases hcase with ⟨tip, -, rfl, -⟩ | ⟨acc, tk, m, -, -, rfl, -⟩
    · intro x hx
      cases hx
    · exact fun x hx r hr => refs_of_mem_writeTree hx hr
  have htree : Same s t c.tree ∨ ∃ y ∈ objs, y.oid = c.tree := by
    rcases hcase with ⟨tip, rfl, -, htree⟩ | ⟨acc, tk, m, -, -, rfl, htree⟩
    · exact .inl ((h tip List.mem_cons_self).of_commitTree htree)
    · rw [htree]
      exact .inr (root_mem_writeTree m)
  have hin : ∀ r, (∃ y ∈ objs, y.oid = r) → ∃ y ∈ objs ++ [.commit c], y.oid = r := by
    rintro r ⟨y, hy, hr⟩
    exact ⟨y, List.mem_append_left _ hy, hr⟩
  intro x hx r hr
  rcases List.mem_append.mp hx with hx | hx
  · exact .inr (hin r (hobjs x hx r hr))
  · rw [List.mem_singleton.mp hx] at hr
    rcases List.mem_cons.mp hr with rfl | hr
    · exact htree.imp_right (hin _)
    · exact .inl (h r (hparents ▸ hr))

theorem paired_refold (h : Richer u s t) (ps : List Oid) (hps : ∀ p ∈ ps, Same s t p)
    (hu : (refold ps s).2.Extends u) :
    PairedCommit u s t (refold ps s) (refold ps t) := by
  rw [refold_run] at hu ⊢
  rw [refold_run, Same.foldObjects h.left h.right hps]
  cases hf : foldObjects s ps with
  | error e => exact ⟨⟨rfl, h, fun _ => id⟩, fun o ho => by cases ho⟩
  | ok r =>
    obtain ⟨objs, c⟩ := r
    rw [hf] at hu
    have henc := (written_foldObjects h.left hf).encodable
    have hsame := fun o => Same.putAll (o := o) h henc hu (refs_foldObjects hps hf)
    refine ⟨⟨rfl, h.putAll henc hu, fun o ho => hsame o (.inl ho)⟩, fun o ho => hsame o (.inr ?_)⟩
    obtain rfl := Except.ok.inj ho
    exact ⟨.commit c, by simp, rfl⟩

theorem paired_foldlM (h : Richer u s t) {acc : Oid} {rest : List Oid} (hacc : Same s t acc)
    (hrest : ∀ p ∈ rest, Same s t p) (hu : (rest.foldlM foldStep acc s).2.Extends u) :
    PairedCommit u s t (rest.foldlM foldStep acc s) (rest.foldlM foldStep acc t) := by
  induction rest generalizing s t acc with
  | nil => exact ⟨⟨rfl, h, fun _ => id⟩, fun o ho => Except.ok.inj ho ▸ hacc⟩
  | cons tk rest ih =>
    have hstep : (foldStep acc tk s).2.Extends u →
        PairedCommit u s t (foldStep acc tk s) (foldStep acc tk t) :=
      paired_refold h [acc, tk] (by simpa using ⟨hacc, hrest tk List.mem_cons_self⟩)
    rw [List.foldlM_cons, run_bind] at hu
    rw [List.foldlM_cons, run_bind, run_bind]
    rcases hx : foldStep acc tk s with ⟨r, s'⟩
    rcases hy : foldStep acc tk t with ⟨r', t'⟩
    rw [hx] at hu
    rw [hx, hy] at hstep
    cases r with
    | error e =>
      have hfirst := hstep hu
      obtain rfl := hfirst.result
      exact ⟨⟨rfl, hfirst.richer, hfirst.kept⟩, fun o ho => by cases ho⟩
    | ok o =>
      -- the rest of the fold only adds to the store, so the bound holds after the step
      have hgrow : s'.Extends (rest.foldlM foldStep o s').2 :=
          run_foldlM_induction Store.Extends .refl
        (fun _ _ _ => .trans) (fun a b s => extends_refold [a, b] s) rest o s'
      have hfirst := hstep (hgrow.trans hu)
      obtain rfl := hfirst.result
      have hlater := ih hfirst.richer (hfirst.below o rfl)
        (fun p hp => hfirst.kept p (hrest p (List.mem_cons_of_mem _ hp))) hu
      exact ⟨⟨hlater.result, hlater.richer, fun q hq => hlater.kept q (hfirst.kept q hq)⟩,
        hlater.below⟩

omit [AcyclicObjectId Oid] in
theorem paired_genesis (h : Richer u s t) (hu : (genesis s).2.Extends u) :
    PairedCommit u s t (genesis s) (genesis t) := by
  have henc := (written_genesis : Written [emptyTree,
    GitObject.commit (genesisCommit : CommitObj Oid)]).encodable
  rw [genesis_run] at hu ⊢
  have hsame := fun o => Same.putAll (o := o) h henc hu fun x hx r hr => .inr (refs_genesis hx hr)
  refine ⟨⟨rfl, h.putAll henc hu, fun o ho => hsame o (.inl ho)⟩, fun o ho => hsame o (.inr ?_)⟩
  exact ⟨.commit genesisCommit, by simp, Except.ok.inj ho⟩

theorem paired_computeMain (h : Richer u s t) {known : List Oid} (hknown : ∀ o ∈ known, Same s t o)
    (hu : (computeMain known s).2.Extends u) : PairedCommit u s t (computeMain known s)
    (computeMain known t) := by
  have hfrontier := Same.frontier h.left h.right hknown
  cases hf : frontier s known with
  | error e =>
    have hs' : computeMain known s = (.error e, s) := by
      rw [computeMain, run_bind_of_error (Prod.ext hf rfl :
          StoreM.read (fun s => frontier s known) s = (.error e, s))]
    have ht' : computeMain known t = (.error e, t) := by
      rw [computeMain, run_bind_of_error
        (Prod.ext (hfrontier.trans hf) rfl : StoreM.read (fun s => frontier s known) t =
          (.error e, t))]
    rw [hs', ht']
    exact ⟨⟨rfl, h, fun _ => id⟩, fun o ho => by cases ho⟩
  | ok f =>
    rw [computeMain_run hf] at hu ⊢
    rw [computeMain_run (hfrontier.trans hf)]
    have hmem : ∀ o ∈ f, Same s t o := fun o ho => hknown o (mem_of_mem_frontier hf ho).1
    rcases f with _ | ⟨tip, _ | ⟨tk, rest⟩⟩
    · exact paired_genesis h hu
    · exact paired_refold h [tip] hmem hu
    · exact paired_foldlM h (hmem tip List.mem_cons_self)
        (fun p hp => hmem p (List.mem_cons_of_mem _ hp)) hu

end Fold

end Csp
