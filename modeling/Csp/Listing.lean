import Csp.Carry

/-! The files below a tree, as a list. Reading a tree into a file map inserts this list;
the list does not depend on the fuel, and only up to overwritten files on the order of
tree entries. -/

namespace Csp
open Result
variable {Oid : Type} [ObjectId Oid]

/-! ### Lists of files -/

def lastOf : List (Path × Bytes) → Path → Option Bytes
  | [], _ => none
  | f :: l, p => (lastOf l p).or (if f.1 = p then some f.2 else none)

def insertAll (pre : Str) (l : List (Path × Bytes)) (out : FileMap) : FileMap :=
  l.foldl (fun m f => m.insert (pre ++ f.1) f.2) out

theorem lastOf_append (l l' : List (Path × Bytes)) (p : Path) :
    lastOf (l ++ l') p = (lastOf l' p).or (lastOf l p) := by
  induction l with
  | nil => simp [lastOf]
  | cons f l ih => rw [List.cons_append, lastOf, ih, lastOf, Option.or_assoc]

theorem insertAll_append (pre : Str) (l l' : List (Path × Bytes)) (out : FileMap) :
    insertAll pre (l ++ l') out = insertAll pre l' (insertAll pre l out) := List.foldl_append

theorem getElem?_insertAll (l : List (Path × Bytes)) (out : FileMap) (p : Path) :
    (insertAll [] l out)[p]? = (lastOf l p).or out[p]? := by
  induction l generalizing out with
  | nil => simp [insertAll, lastOf]
  | cons f l ih =>
    have : insertAll [] (f :: l) out = insertAll [] l (out.insert f.1 f.2) := rfl
    rw [this, ih, lastOf, Option.or_assoc, Std.ExtTreeMap.getElem?_insert]
    by_cases h : f.1 = p
    · simp [h]
    · simp [h]

theorem lastOf_map_append (pre : Str) (l : List (Path × Bytes)) (p : Path) :
    lastOf (l.map fun f => (pre ++ f.1, f.2)) p = (stripPrefix pre p).bind (lastOf l) := by
  induction l with
  | nil => cases stripPrefix pre p <;> rfl
  | cons f l ih =>
    rw [List.map_cons, lastOf, ih]
    by_cases hp : pre <+: p
    · obtain ⟨q, rfl⟩ := hp
      simp [stripPrefix_append, lastOf]
    · have hne : pre ++ f.1 ≠ p := fun h => hp (h ▸ List.prefix_append _ _)
      simp [stripPrefix, hp, hne]

/-! ### Listing a tree -/

section Listing
variable (get : Oid → CspResult (GitObject Oid))

/-- What one entry contributes, given the listing of its subtree. -/
def entryListing (sub : Oid → CspResult (List (Path × Bytes))) (e : TreeEntry Oid) :
    CspResult (List (Path × Bytes)) :=
  if e.mode = treeMode then do
    let l ← sub e.oid
    pure (l.map fun f => (e.name ++ ['/'] ++ f.1, f.2))
  else do
    match ← get e.oid with
    | .blob b => pure [(e.name, b)]
    | _ => .error (.malformed (toHex e.oid ++ " is not a blob".toList))

/-- The files below a tree in the order in which `walkTree` inserts them. -/
def listing : Nat → Oid → CspResult (List (Path × Bytes))
  | 0, _ => .error .abort
  | n + 1, t => do
    match ← get t with
    | .tree entries => do
      let segments ← entries.mapM (entryListing get (listing n))
      pure segments.flatten
    | _ => .error (.malformed (toHex t ++ " is not a tree".toList))

omit [ObjectId Oid] in
theorem foldlM_insertAll {es : List (TreeEntry Oid)} {step : FileMap → TreeEntry Oid →
    CspResult FileMap} (seg : TreeEntry Oid → CspResult (List (Path × Bytes))) {pre : Str}
    (h : ∀ out, ∀ e ∈ es, step out e = (seg e).map fun l => insertAll pre l out) (out : FileMap) :
    es.foldlM step out = (es.mapM seg).map fun ls => insertAll pre ls.flatten out := by
  induction es generalizing out with
  | nil => rfl
  | cons e es ih =>
    rw [List.foldlM_cons, h out e List.mem_cons_self, List.mapM_cons]
    cases seg e with
    | error e => rfl
    | ok l =>
      change es.foldlM step (insertAll pre l out) = _
      rw [ih fun out e' he => h out e' (List.mem_cons_of_mem _ he)]
      cases es.mapM seg with
      | error e => rfl
      | ok ls =>
        simp only [Except.map, ok_bind, pure, Except.pure, List.flatten_cons, insertAll_append]

theorem walkTree_eq (n : Nat) (pre : Str) (t : Oid) (out : FileMap) :
    walkTree get n pre t out = (listing get n t).map fun l => insertAll pre l out := by
  induction n generalizing pre t out with
  | zero => rfl
  | succ n ih =>
    rw [walkTree, listing]
    cases get t with
    | error e => rfl
    | ok x =>
      cases x with
      | blob b => rfl
      | commit c => rfl
      | tree es =>
        simp only [ok_bind]
        rw [foldlM_insertAll (entryListing get (listing get n))]
        · cases es.mapM (entryListing get (listing get n)) <;> rfl
        · intro out e _
          unfold entryListing
          split_ifs with hmode
          · rw [ih]
            cases listing get n e.oid with
            | error e => rfl
            | ok l =>
              simp [Except.map, insertAll, List.foldl_map, pure, Except.pure, List.append_assoc]
          · cases get e.oid with
            | error e => rfl
            | ok y => cases y <;> rfl

theorem listing_ok {n : Nat} {t : Oid} {l : List (Path × Bytes)} :
    listing get (n + 1) t = .ok l ↔ ∃ es segments, get t = .ok (.tree es) ∧
      es.mapM (entryListing get (listing get n)) = .ok segments ∧ l = segments.flatten := by
  rw [listing]
  cases get t with
  | error e => simp
  | ok x =>
    cases x with
    | blob b => simp
    | commit c => simp
    | tree es => simp only [ok_bind, bind_ok, pure_ok, Except.ok.injEq, GitObject.tree.injEq,
        exists_and_left, exists_eq_left', @eq_comm _ l]

/-! ### Fuel -/

def subtrees (t : Oid) : List Oid :=
  match get t with
  | .ok (.tree es) => (es.filter (·.mode = treeMode)).map (·.oid)
  | _ => []

variable {get}

theorem within_of_listing {n : Nat} {t : Oid} {l : List (Path × Bytes)}
    (h : listing get n t = .ok l) : Depth.Within (subtrees get) n t := by
  induction n generalizing t l with
  | zero => cases h
  | succ n ih =>
    obtain ⟨es, segments, ht, hseg, -⟩ := (listing_ok get).mp h
    intro u hu
    simp only [subtrees, ht, List.mem_map, List.mem_filter, decide_eq_true_eq] at hu
    obtain ⟨e, ⟨he, hmode⟩, rfl⟩ := hu
    obtain ⟨seg, -, hs⟩ := mapM_ok_mem hseg he
    rw [entryListing, if_pos hmode] at hs
    obtain ⟨l', hl', -⟩ := bind_ok.mp hs
    exact ih hl'

theorem listing_of_within {n m : Nat} {t : Oid} {l : List (Path × Bytes)}
    (h : listing get n t = .ok l) (hw : Depth.Within (subtrees get) m t) :
    listing get m t = .ok l := by
  induction n generalizing m t l with
  | zero => cases h
  | succ n ih =>
    cases m with
    | zero => exact hw.elim
    | succ m =>
      obtain ⟨es, segments, ht, hseg, rfl⟩ := (listing_ok get).mp h
      refine (listing_ok get).mpr ⟨es, segments, ht, ?_, rfl⟩
      refine mapM_ok_transfer hseg fun e he seg hs => ?_
      unfold entryListing at hs ⊢
      split_ifs at hs ⊢ with hmode
      · obtain ⟨l, hl, hs⟩ := bind_ok.mp hs
        refine bind_ok.mpr ⟨l, ih hl (hw _ ?_), hs⟩
        simp only [subtrees, ht, List.mem_map, List.mem_filter, decide_eq_true_eq]
        exact ⟨e, ⟨he, hmode⟩, rfl⟩
      · exact hs

end Listing

/-! ### Tidy entries -/

section Tidy
omit [ObjectId Oid]

theorem Tidy.of_cons {e : TreeEntry Oid} {es : List (TreeEntry Oid)}
    (h : Tidy (e :: es)) : Tidy es :=
  ⟨fun e' he => h.1 e' (List.mem_cons_of_mem _ he), h.2.of_cons⟩

theorem Tidy.find?_eq {es es' : List (TreeEntry Oid)} (h : Tidy es) (h' : Tidy es')
    (hp : es.Perm es') (name : Str) : es'.find? (fun e => e.name = name) = es.find?
    (fun e => e.name = name) := by
  have key : ∀ {l : List (TreeEntry Oid)}, Tidy l → ∀ {a b : TreeEntry Oid},
      l.find? (fun e => e.name = name) = some a → b ∈ l → b.name = name →
        b = a ∨ a.mode ≠ treeMode ∧ b.mode = treeMode := by
    intro l hl a b ha hb hbn
    induction l with
    | nil => cases hb
    | cons c l ih =>
      rw [List.find?_cons] at ha
      by_cases hc : c.name = name
      · simp only [hc, decide_true, Option.some.injEq] at ha
        subst ha
        rcases List.mem_cons.mp hb with rfl | hb
        · exact .inl rfl
        · exact .inr ((List.pairwise_cons.mp hl.2).1 b hb (hc.trans hbn.symm))
      · simp only [hc, decide_false] at ha
        rcases List.mem_cons.mp hb with rfl | hb
        · exact absurd hbn hc
        · exact ih hl.of_cons ha hb
  cases hf : es.find? (fun e => e.name = name) with
  | none =>
    rw [List.find?_eq_none] at hf ⊢
    exact fun e he => hf e (hp.mem_iff.mpr he)
  | some a =>
    have ha := List.find?_some hf
    have ham := List.mem_of_find?_eq_some hf
    cases hf' : es'.find? (fun e => e.name = name) with
    | none => exact absurd ha (List.find?_eq_none.mp hf' a (hp.mem_iff.mp ham))
    | some b =>
      have hb := List.find?_some hf'
      have hbm := List.mem_of_find?_eq_some hf'
      simp only [decide_eq_true_eq] at ha hb
      rcases key h hf (hp.mem_iff.mpr hbm) hb with rfl | ⟨ha1, hb1⟩
      · rfl
      · rcases key h' hf' (hp.mem_iff.mp ham) ha with rfl | ⟨hb2, -⟩
        · rfl
        · exact absurd hb1 hb2

def Owns (e : TreeEntry Oid) (p : Path) : Prop :=
  if e.mode = treeMode then e.name ++ ['/'] <+: p else p = e.name

theorem Owns.name_eq {e e' : TreeEntry Oid} {p : Path} (he : '/' ∉ e.name) (he' : '/' ∉ e'.name)
    (h : Owns e p) (h' : Owns e' p) : e.name = e'.name ∧
    (e.mode = treeMode ↔ e'.mode = treeMode) := by
  have dir : ∀ {e : TreeEntry Oid}, '/' ∉ e.name → e.name ++ ['/'] <+: p →
      ∃ q, Split.cut '/' p = some (e.name, q) := by
    rintro e he ⟨q, rfl⟩
    exact ⟨q, by simpa using Split.cut_append he q⟩
  unfold Owns at h h'
  split_ifs at h h' with hm hm'
  · obtain ⟨q, hq⟩ := dir he h
    obtain ⟨q', hq'⟩ := dir he' h'
    rw [hq, Option.some.injEq, Prod.mk.injEq] at hq'
    exact ⟨hq'.1, by simp [hm, hm']⟩
  · obtain ⟨q, hq⟩ := dir he h
    rw [h', Split.cut_eq_none.mpr he'] at hq
    cases hq
  · obtain ⟨q, hq⟩ := dir he' h'
    rw [h, Split.cut_eq_none.mpr he] at hq
    cases hq
  · rename_i hm'
    exact ⟨h.symm.trans h', by simp [hm, hm']⟩

/-- In flat entries each path has at most one owner, so concatenating what the entries
contribute overwrites nothing. -/
theorem Flat.lastOf_flatMap {es : List (TreeEntry Oid)} (h : Flat es)
    {seg : TreeEntry Oid → List (Path × Bytes)}
    (hseg : ∀ e ∈ es, ∀ p c, lastOf (seg e) p = some c → Owns e p) (p : Path) (c : Bytes) :
    lastOf (es.flatMap seg) p = some c ↔ ∃ e ∈ es, lastOf (seg e) p = some c := by
  induction es generalizing c with
  | nil => simp [lastOf]
  | cons e es ih =>
    have ih := fun c => ih ⟨fun e' he => h.1 e' (List.mem_cons_of_mem _ he), h.2.of_cons⟩
      (fun e' he => hseg e' (List.mem_cons_of_mem _ he)) c
    have hsole : ∀ e' ∈ es, ∀ c c', lastOf (seg e') p = some c →
        lastOf (seg e) p = some c' → False := by
      intro e' he' c c' hc hc'
      have hown := hseg e' (List.mem_cons_of_mem _ he') p c hc
      have hown' := hseg e List.mem_cons_self p c' hc'
      obtain ⟨hn, hm⟩ := Owns.name_eq (h.1 e List.mem_cons_self)
        (h.1 e' (List.mem_cons_of_mem _ he')) hown' hown
      have := (List.pairwise_cons.mp h.2).1 e' he' hn
      tauto
    rw [List.flatMap_cons, lastOf_append, Option.or_eq_some_iff, ih]
    constructor
    · rintro (⟨e', he', hc⟩ | ⟨-, hc⟩)
      · exact ⟨e', List.mem_cons_of_mem _ he', hc⟩
      · exact ⟨e, List.mem_cons_self, hc⟩
    · rintro ⟨e', he', hc⟩
      rcases List.mem_cons.mp he' with rfl | he'
      · refine .inr ⟨?_, hc⟩
        rw [Option.eq_none_iff_forall_ne_some]
        intro c' hc'
        obtain ⟨e'', he'', hc''⟩ := (ih c').mp hc'
        exact hsole e'' he'' _ _ hc'' hc
      · exact .inl ⟨e', he', hc⟩

end Tidy

/-! ### Carrying trees from store to store -/

section Carry
variable {s s' : Store Oid} {R : Oid → Prop} {Q : List (TreeEntry Oid) → Prop}

theorem lastOf_entryListing {get : Oid → CspResult (GitObject Oid)}
    {sub : Oid → CspResult (List (Path × Bytes))} {e : TreeEntry Oid} {l : List (Path × Bytes)}
    (h : entryListing get sub e = .ok l) {p : Path} {c : Bytes} (hp : lastOf l p = some c) :
    Owns e p := by
  unfold entryListing at h
  unfold Owns
  split_ifs at h ⊢ with hm
  · obtain ⟨l', -, h⟩ := bind_ok.mp h
    obtain rfl := pure_ok.mp h
    rw [lastOf_map_append, Option.bind_eq_some_iff] at hp
    obtain ⟨q, hq, -⟩ := hp
    exact ⟨q, (stripPrefix_eq_some hq).symm⟩
  · obtain ⟨x, -, h⟩ := bind_ok.mp h
    cases x with
    | blob b =>
      obtain rfl := pure_ok.mp h
      simp only [lastOf, Option.none_or, Option.ite_none_right_eq_some] at hp
      exact hp.1.symm
    | tree es => cases h
    | commit c => cases h

theorem Carries.listing (h : Carries Q R s s') (hQ : ∀ es, Q es → Flat es) {n : Nat} {t : Oid}
    (hR : R t) {l : List (Path × Bytes)} (hl : listing s.get n t = .ok l) :
    ∃ l', Csp.listing s'.get n t = .ok l' ∧ ∀ p, lastOf l' p = lastOf l p := by
  induction n generalizing t l with
  | zero => cases hl
  | succ n ih =>
    obtain ⟨es, segments, ht, hseg, rfl⟩ := (listing_ok _).mp hl
    have hentry : ∀ e ∈ es, ∃ seg seg', entryListing s.get (Csp.listing s.get n) e = .ok seg ∧
        entryListing s'.get (Csp.listing s'.get n) e = .ok seg' ∧
        ∀ p, lastOf seg' p = lastOf seg p := by
      intro e he
      obtain ⟨seg, -, hs⟩ := mapM_ok_mem hseg he
      have hRe : R e.oid := h.refs t _ hR ht _ (List.mem_map_of_mem he)
      unfold entryListing at hs ⊢
      split_ifs at hs ⊢ with hm
      · obtain ⟨l, hl, hs⟩ := bind_ok.mp hs
        obtain ⟨l', hl', hll⟩ := ih hRe hl
        obtain rfl := pure_ok.mp hs
        refine ⟨_, _, bind_ok.mpr ⟨l, hl, rfl⟩, bind_ok.mpr ⟨l', hl', rfl⟩, fun p => ?_⟩
        rw [lastOf_map_append, lastOf_map_append]
        cases stripPrefix (e.name ++ ['/']) p with
        | none => rfl
        | some q => exact hll q
      · obtain ⟨x, hx, hs⟩ := bind_ok.mp hs
        cases x with
        | blob b =>
          obtain ⟨y, hy, ha⟩ := h.alike _ _ hRe hx
          obtain rfl := ha.blob
          exact ⟨_, _, bind_ok.mpr ⟨_, hx, rfl⟩, bind_ok.mpr ⟨_, hy, rfl⟩, fun _ => rfl⟩
        | tree es => cases hs
        | commit c => cases hs
    choose! seg seg' hs hs' hlast using hentry
    obtain rfl := Except.ok.inj (hseg.symm.trans (mapM_eq_ok_map hs))
    obtain ⟨y, hy, ha⟩ := h.alike t _ hR ht
    cases ha with
    -- the same entries in the same order
    | same =>
      refine ⟨_, (listing_ok _).mpr ⟨es, _, hy, mapM_eq_ok_map hs', rfl⟩, fun p => ?_⟩
      clear hseg ht hy hl
      induction es with
      | nil => rfl
      | cons e es ihes =>
        rw [List.map_cons, List.map_cons, List.flatten_cons, List.flatten_cons, lastOf_append,
          lastOf_append, hlast e List.mem_cons_self,
          ihes (fun e he => hs e (List.mem_cons_of_mem _ he))
            (fun e he => hs' e (List.mem_cons_of_mem _ he))
            fun e he => hlast e (List.mem_cons_of_mem _ he)]
    -- other order: a flat tree has one entry for each path, so the last one is the only one
    | @tree _ es' hp htidy htidy' =>
      refine ⟨_, (listing_ok _).mpr ⟨es', _, hy,
        mapM_eq_ok_map fun e he => hs' e (hp.mem_iff.mpr he), rfl⟩, fun p => ?_⟩
      rw [← List.flatMap_def, ← List.flatMap_def]
      apply Option.ext
      intro c
      rw [(hQ _ htidy).lastOf_flatMap fun e he p c => lastOf_entryListing (hs e he),
        (hQ _ htidy').lastOf_flatMap fun e he p c => lastOf_entryListing
        (hs' e (hp.mem_iff.mpr he))]
      constructor
      · rintro ⟨e, he, hc⟩
        exact ⟨e, hp.mem_iff.mpr he, (hlast e (hp.mem_iff.mpr he) p).symm.trans hc⟩
      · rintro ⟨e, he, hc⟩
        exact ⟨e, hp.mem_iff.mp he, (hlast e he p).trans hc⟩

theorem treeFiles_ok {t : Oid} {m : FileMap} :
    treeFiles s t = .ok m ↔ ∃ l, listing s.get (s.size + 1) t = .ok l ∧ m = insertAll [] l ∅ := by
  rw [treeFiles, readTreeToFiles, walkTree_eq]
  cases Csp.listing s.get (s.size + 1) t with
  | error e => simp [Except.map]
  | ok l => simp [Except.map, eq_comm]

theorem listing_subtree {get : Oid → CspResult (GitObject Oid)} {n : Nat} {t : Oid}
    {l : List (Path × Bytes)} (h : Csp.listing get n t = .ok l) {u : Oid}
    (hu : Relation.ReflTransGen (fun a b => b ∈ subtrees get a) t u) :
    ∃ m l', Csp.listing get m u = .ok l' := by
  induction hu with
  | refl => exact ⟨n, l, h⟩
  | @tail b c _ hc ih =>
    obtain ⟨m, l', hl'⟩ := ih
    cases m with
    | zero => cases hl'
    | succ m =>
      obtain ⟨es, segments, ht, hseg, -⟩ := (listing_ok _).mp hl'
      simp only [subtrees, ht, List.mem_map, List.mem_filter, decide_eq_true_eq] at hc
      obtain ⟨e, ⟨he, hm⟩, rfl⟩ := hc
      obtain ⟨seg, -, hs⟩ := mapM_ok_mem hseg he
      rw [entryListing, if_pos hm] at hs
      obtain ⟨l₁, hl₁, -⟩ := bind_ok.mp hs
      exact ⟨m, l₁, hl₁⟩

theorem listing_size {n : Nat} {t : Oid} {l : List (Path × Bytes)}
    (h : Csp.listing s.get n t = .ok l) :
    Csp.listing s.get (s.size + 1) t = .ok l := by
  have hcard : s.objs.keys.toFinset.card = s.size := by
    rw [List.toFinset_card_of_nodup s.nodup_keys, Std.ExtTreeMap.length_keys, Store.size]
  have hw : Depth.Within (subtrees s.get) s.size t := by
    rw [← hcard]
    refine (within_of_listing h).card _ fun u hu => List.mem_toFinset.mpr ?_
    obtain ⟨m, l', hl'⟩ := listing_subtree h hu
    cases m with
    | zero => cases hl'
    | succ m =>
      obtain ⟨es, segments, ht, -⟩ := (listing_ok _).mp hl'
      exact s.mem_keys_of_get ht
  exact listing_of_within h (hw.mono (Nat.le_succ _))

theorem treeFiles_of_listing {n : Nat} {t : Oid} {l : List (Path × Bytes)}
    (h : Csp.listing s.get n t = .ok l) : treeFiles s t = .ok (insertAll [] l ∅) :=
  treeFiles_ok.mpr ⟨l, listing_size h, rfl⟩

theorem Carries.treeFiles (h : Carries Q R s s') (hQ : ∀ es, Q es → Flat es) {t : Oid} (hR : R t)
    {m : FileMap} (hm : treeFiles s t = .ok m) : Csp.treeFiles s' t = .ok m := by
  obtain ⟨l, hl, rfl⟩ := treeFiles_ok.mp hm
  obtain ⟨l', hl', hlast⟩ := h.listing hQ hR hl
  rw [treeFiles_of_listing hl', Except.ok.injEq]
  apply Std.ExtTreeMap.ext_getElem?
  intro p
  rw [getElem?_insertAll, getElem?_insertAll, hlast]

theorem Carries.mergedFiles (h : Carries Q R s s') (hQ : ∀ es, Q es → Flat es) [Crates] {a b : Oid}
    (ha : R a) (hb : R b) {m : FileMap} (hm : mergedFiles s a b = .ok m) :
    Csp.mergedFiles s' a b = .ok m := by
  unfold Csp.mergedFiles at hm ⊢
  obtain ⟨base, hbase, hm⟩ := bind_ok.mp hm
  obtain ⟨hbase', hRbase⟩ := h.mergeBase ha hb hbase
  have hfiles : ∀ {o : Oid}, R o → ∀ {t : Oid} {m : FileMap}, Csp.commitTree s o = .ok t →
      Csp.treeFiles s t = .ok m → Csp.commitTree s' o = .ok t ∧ Csp.treeFiles s' t = .ok m := by
    intro o ho t m ht hm
    obtain ⟨ht', hRt⟩ := h.commitTree ho ht
    exact ⟨ht', h.treeFiles hQ hRt hm⟩
  obtain ⟨t1, ht1, hm⟩ := bind_ok.mp hm
  obtain ⟨m1, hm1, hm⟩ := bind_ok.mp hm
  obtain ⟨t2, ht2, hm⟩ := bind_ok.mp hm
  obtain ⟨m2, hm2, hm⟩ := bind_ok.mp hm
  obtain ⟨t3, ht3, hm⟩ := bind_ok.mp hm
  obtain ⟨m3, hm3, hm⟩ := bind_ok.mp hm
  obtain ⟨ht1', hm1'⟩ := hfiles hRbase ht1 hm1
  obtain ⟨ht2', hm2'⟩ := hfiles ha ht2 hm2
  obtain ⟨ht3', hm3'⟩ := hfiles hb ht3 hm3
  exact bind_ok.mpr ⟨base, hbase', bind_ok.mpr ⟨t1, ht1', bind_ok.mpr ⟨m1, hm1', bind_ok.mpr
    ⟨t2, ht2', bind_ok.mpr ⟨m2, hm2', bind_ok.mpr ⟨t3, ht3', bind_ok.mpr ⟨m3, hm3', hm⟩⟩⟩⟩⟩⟩⟩

theorem Carries.presentAt (h : Carries Q R s s') (hQ : ∀ es, Q es → Tidy es) {t : Oid} (hR : R t)
    {segs : List Str} {b : Bool} (hb : presentAt s t segs = .ok b) :
    Csp.presentAt s' t segs = .ok b := by
  induction segs generalizing t with
  | nil => exact hb
  | cons seg segs ih =>
    rw [Csp.presentAt] at hb ⊢
    obtain ⟨x, hx, hb⟩ := bind_ok.mp hb
    obtain ⟨y, hy, ha⟩ := h.alike t x hR hx
    refine bind_ok.mpr ⟨y, hy, ?_⟩
    cases ha with
    | same =>
      cases x with
      | blob c => exact hb
      | commit c => exact hb
      | tree es =>
        simp only at hb ⊢
        split at hb
        · exact hb
        · rename_i e he
          have hRe := h.refs t _ hR hx _ (List.mem_map_of_mem (List.mem_of_find?_eq_some he))
          split_ifs at hb ⊢ with h1 h2
          · exact hb
          · exact hb
          · exact ih hRe hb
    | @tree es es' hp htidy htidy' =>
      simp only at hb ⊢
      rw [(hQ _ htidy).find?_eq (hQ _ htidy') hp]
      split at hb
      · exact hb
      · rename_i e he
        have hRe := h.refs t _ hR hx _ (List.mem_map_of_mem (List.mem_of_find?_eq_some he))
        split_ifs at hb ⊢ with h1 h2
        · exact hb
        · exact hb
        · exact ih hRe hb

end Carry

end Csp
