import Csp.Determinism
import Csp.Engine
import Csp.VaultFacts

/-! What `integrate` does, stage by stage: storing, verification of the synthetic commits,
admission of the primitives, and the recomputation of `main`. -/

namespace Csp
open Result
variable {Oid : Type} [ObjectId Oid] [Crates] {s s' t : Store Oid}

/-! ### Storing -/

/-- The objects of a batch up to the first that does not decode, and its error. -/
def decoded : List Bytes → List (GitObject Oid) × Option CspError
  | [] => ([], none)
  | r :: rs =>
    match decompressAndParse r with
    | .ok x => (x :: (decoded rs).1, (decoded rs).2)
    | .error e => ([], some e)

theorem putRaws_run (raws : List Bytes) (s : Store Oid) :
    putRaws raws s = (match (decoded raws : List (GitObject Oid) × Option CspError).2 with
      | none => .ok ()
      | some e => .error e, s.putAll (decoded raws).1) := by
  induction raws generalizing s with
  | nil => rfl
  | cons r rs ih =>
    rw [putRaws, run_bind, StoreM.putRaw, decoded]
    cases hr : (decompressAndParse r : CspResult (GitObject Oid)) with
    | error e => rfl
    | ok x => exact ih (s.put x)

theorem mem_decoded {raws : List Bytes} {x : GitObject Oid} (hx : x ∈ (decoded raws).1) :
    ∃ r ∈ raws, decompressAndParse r = .ok x := by
  induction raws with
  | nil => cases hx
  | cons r rs ih =>
    rw [decoded] at hx
    split at hx
    · rename_i y hy
      rcases List.mem_cons.mp hx with rfl | hx
      · exact ⟨r, List.mem_cons_self, hy⟩
      · obtain ⟨q, hq, h⟩ := ih hx
        exact ⟨q, List.mem_cons_of_mem _ hq, h⟩
    · cases hx

theorem decoded_of_all {raws : List Bytes} (h :
      (decoded raws : List (GitObject Oid) × Option CspError).2 = none) :
    ∀ r ∈ raws, ∃ x ∈ (decoded raws : List (GitObject Oid) × Option CspError).1,
    decompressAndParse r = .ok x := by
  induction raws with
  | nil => simp
  | cons r rs ih =>
    rw [decoded] at h ⊢
    split at h
    · rename_i y hy
      intro q hq
      rcases List.mem_cons.mp hq with rfl | hq
      · exact ⟨y, List.mem_cons_self, hy⟩
      · obtain ⟨x, hx, hd⟩ := ih h q hq
        exact ⟨x, List.mem_cons_of_mem _ hx, hd⟩
    · cases h

theorem encodable_of_mem_decoded {raws : List Bytes} {x : GitObject Oid}
    (hx : x ∈ (decoded raws).1) :
    x.Encodable := by
  obtain ⟨r, -, hr⟩ := mem_decoded hx
  exact encodable_of_decompressAndParse hr

/-! ### Verification -/

def verifyParents (n : Nat) (o : Oid) (parents seen : List Oid) : StoreM Oid (List Oid) := do
  let seen ← parents.foldlM (fun seen p => verifyInner n p seen) seen
  let recomputed ← refold parents
  if recomputed = o then pure seen
  else throw (.foldVerify ("fold commit ".toList ++ toHex o ++ " does not reproduce".toList))

theorem verifyInner_succ (n : Nat) (o : Oid) (seen : List Oid) (s : Store Oid) :
    verifyInner (n + 1) o seen s =
      if o ∈ seen then (.ok seen, s)
      else match loadCommit s o with
        | .error e => (.error e, s)
        | .ok c =>
          if isPrimitive c then (.ok (o :: seen), s)
          else if c.parents = [] then
            if (GitObject.commit (genesisCommit : CommitObj Oid)).oid = o then (.ok (o :: seen), s)
            else (.error (.foldVerify "genesis mismatch".toList), s)
          else verifyParents n o c.parents (o :: seen) s := by
  rw [verifyInner]
  by_cases h : o ∈ seen
  · rw [if_pos h, if_pos h]
    rfl
  · rw [if_neg h, if_neg h, run_bind, StoreM.read]
    cases loadCommit s o with
    | error e => rfl
    | ok c =>
      by_cases h1 : isPrimitive c = true
      · simp only [if_pos h1]
        rfl
      · by_cases h2 : c.parents = []
        · by_cases h3 : (GitObject.commit (genesisCommit : CommitObj Oid)).oid = o
          · simp only [if_neg h1, if_pos h2, if_pos h3]
            rfl
          · simp only [if_neg h1, if_pos h2, if_neg h3]
            rfl
        · simp only [if_neg h1, if_neg h2]
          rfl

def syntheticOf (r : Bytes) : Option Oid :=
  match (decompressAndParse r : CspResult (GitObject Oid)) with
  | .ok (.commit c) => if (parsePrimitiveMeta c).isNone then some (GitObject.commit c).oid else none
  | _ => none

theorem verifyBatch_cons (r : Bytes) (rs : List Bytes) (s : Store Oid) :
    verifyBatch (r :: rs) s = match (syntheticOf r : Option Oid) with
      | none => verifyBatch rs s
      | some o => match verifyFoldCommit o s with
        | (.ok _, t) => verifyBatch rs t
        | (.error _, t) => (.ok false, t) := by
  rw [verifyBatch, syntheticOf]
  rcases (decompressAndParse r : CspResult (GitObject Oid)) with e | x
  · rfl
  · rcases x with b | es | c
    · rfl
    · rfl
    · by_cases h : (parsePrimitiveMeta c).isNone = true
      · simp only [if_pos h]
        exact congrFun (if_pos h) s
      · simp only [if_neg h]
        exact congrFun (if_neg h) s

section Induction
variable (P : Store Oid → Store Oid → Prop) (hrefl : ∀ s, P s s)
  (htrans : ∀ s t u, P s t → P t u → P s u) (hrefold : ∀ ps s, P s (refold ps s).2)
include hrefl htrans hrefold

/-- Verification does nothing to a store but to refold parent lists. -/
theorem verifyInner_induction (n : Nat) (o : Oid) (seen : List Oid) (s : Store Oid) :
    P s (verifyInner n o seen s).2 := by
  induction n generalizing o seen s with
  | zero => exact hrefl s
  | succ n ih =>
    rw [verifyInner_succ]
    by_cases hseen : o ∈ seen
    · rw [if_pos hseen]
      exact hrefl s
    rw [if_neg hseen]
    cases loadCommit s o with
    | error e => exact hrefl s
    | ok c =>
      simp only
      by_cases hp : isPrimitive c = true
      · rw [if_pos hp]
        exact hrefl s
      rw [if_neg hp]
      by_cases hc : c.parents = []
      · rw [if_pos hc]
        split_ifs
        · exact hrefl s
        · exact hrefl s
      rw [if_neg hc]
      refine run_bind_induction P htrans (run_foldlM_induction P hrefl htrans
        (fun seen p s => ih p seen s) _ _ s) fun seen' u _ => ?_
      refine run_bind_induction P htrans (hrefold _ u) fun o' w _ => ?_
      split_ifs
      · exact hrefl w
      · exact hrefl w

theorem verifyFoldCommit_induction (o : Oid) (s : Store Oid) : P s (verifyFoldCommit o s).2 :=
  run_bind_induction P htrans (hrefl s) fun _ t _ => run_bind_induction P htrans
    (verifyInner_induction P hrefl htrans hrefold _ _ _ t) fun _ u _ => hrefl u

theorem verifyBatch_induction (raws : List Bytes) (s : Store Oid) : P s (verifyBatch raws s).2 := by
  induction raws generalizing s with
  | nil => exact hrefl s
  | cons r rs ih =>
    rw [verifyBatch_cons]
    cases (syntheticOf r : Option Oid) with
    | none => exact ih s
    | some o =>
      have h := verifyFoldCommit_induction P hrefl htrans hrefold o s
      simp only
      rcases hv : verifyFoldCommit o s with ⟨_ | _, u⟩
      · rw [hv] at h
        exact h
      · rw [hv] at h
        exact htrans _ _ _ h (ih u)

theorem computeMain_induction (hgenesis : ∀ s, P s (genesis s).2) (known : List Oid)
    (s : Store Oid) :
    P s (computeMain known s).2 := by
  refine run_bind_induction P htrans (hrefl s) fun f t _ => ?_
  match f with
  | [] => exact hgenesis t
  | [tip] => exact hrefold [tip] t
  | acc :: tk :: rest =>
    exact run_foldlM_induction P hrefl htrans (fun a b s => hrefold [a, b] s) _ _ t

end Induction

theorem extends_refold (ps : List Oid) (s : Store Oid) : s.Extends (refold ps s).2 := by
  rw [refold_run]
  split
  · exact s.extends_putAll _
  · exact .refl s

theorem extends_verifyBatch (raws : List Bytes) (s : Store Oid) :
    s.Extends (verifyBatch raws s).2 :=
  verifyBatch_induction _ .refl (fun _ _ _ => .trans) extends_refold raws s

theorem extends_computeMain (known : List Oid) (s : Store Oid) :
    s.Extends (computeMain known s).2 :=
  computeMain_induction _ .refl (fun _ _ _ => .trans) extends_refold
    (fun s => s.extends_putAll [emptyTree, .commit genesisCommit]) known s

section Lawful
variable [LawfulObjectId Oid] [LawfulCrates]

theorem Store.Sound.refold (hs : s.Sound) (ps : List Oid) : (refold ps s).2.Sound := by
  rw [refold_run]
  split
  · rename_i hf
    exact hs.putAll (written_foldObjects hs hf).encodable
  · exact hs

theorem Store.Sound.verifyBatch (hs : s.Sound) (raws : List Bytes) : (verifyBatch raws s).2.Sound :=
  verifyBatch_induction (fun s t => s.Sound → t.Sound) (fun _ => id) (fun _ _ _ h h' => h' ∘ h)
    (fun ps _ hs => hs.refold ps) raws s hs

theorem Store.Sound.computeMain (hs : s.Sound) (known : List Oid) : (computeMain known s).2.Sound :=
  computeMain_induction (fun s t => s.Sound → t.Sound) (fun _ => id) (fun _ _ _ h h' => h' ∘ h)
    (fun ps _ hs => hs.refold ps) (fun _ hs => hs.putAll written_genesis.encodable) known s hs

end Lawful

theorem verifyBatch_total (raws : List Bytes) (s : Store Oid) :
    ∃ b t, verifyBatch raws s = (.ok b, t) := by
  induction raws generalizing s with
  | nil => exact ⟨true, s, rfl⟩
  | cons r rs ih =>
    rw [verifyBatch_cons]
    cases (syntheticOf r : Option Oid) with
    | none => exact ih s
    | some o =>
      simp only
      rcases hv : verifyFoldCommit o s with ⟨_ | _, u⟩
      · exact ⟨false, u, rfl⟩
      · exact ih u

/-! ### Admission -/

/-- The ids of the primitives of a batch whose signatures verify, in order. -/
def accepted (raws : List Bytes) : List Oid :=
  raws.filterMap fun r =>
    match (decompressAndParse r : CspResult (GitObject Oid)) with
    | .ok (.commit c) =>
      if (parsePrimitiveMeta c).isSome && (verifyPrimitive c).isOk then some
      (GitObject.commit c).oid
      else none
    | _ => none

structure SameRecord (st st' : EngineState Oid) : Prop where
  materialized : st'.materialized = st.materialized
  snapshots : st'.snapshots = st.snapshots
  counter : st'.counter = st.counter
  bootstrapPending : st'.bootstrapPending = st.bootstrapPending

def addNew (l : List Oid) (o : Oid) : List Oid := if o ∈ l then l else l ++ [o]

omit [Crates] in
theorem known_addKnown (st : EngineState Oid) (o : Oid) :
    (st.addKnown o).known = addNew st.known o := by
  unfold EngineState.addKnown addNew
  split_ifs <;> rfl

omit [Crates] in
theorem snapshots_addKnown (st : EngineState Oid) (o : Oid) :
    (st.addKnown o).snapshots = st.snapshots := by
  unfold EngineState.addKnown
  split_ifs <;> rfl

omit [Crates] in
theorem mem_addNew {l : List Oid} {o p : Oid} : p ∈ addNew l o ↔ p ∈ l ∨ p = o := by
  unfold addNew
  split_ifs with h
  · exact ⟨.inl, fun hp => hp.elim id fun hp => hp ▸ h⟩
  · rw [List.mem_append, List.mem_singleton]

omit [Crates] in
theorem mem_foldl_addNew {l r : List Oid} {o : Oid} : o ∈ r.foldl addNew l ↔ o ∈ l ∨ o ∈ r := by
  induction r generalizing l with
  | nil => simp
  | cons a os ih => rw [List.foldl_cons, ih, mem_addNew, List.mem_cons, or_assoc]

omit [Crates] in
theorem nodup_foldl_addNew {l : List Oid} (os : List Oid) (h : l.Nodup) :
    (os.foldl addNew l).Nodup := by
  induction os generalizing l with
  | nil => exact h
  | cons a os ih =>
    refine ih ?_
    unfold addNew
    split_ifs with ha
    · exact h
    · exact List.nodup_append.mpr ⟨h, List.nodup_singleton a, by rintro b hb c hc rfl; simp_all⟩

/-- What admission does to the state: the accepted ids become known, the count is that of
the new ones, and nothing but the observed counter changes besides. -/
structure Admits (st : EngineState Oid) (n : Nat) (os : List Oid)
    (r : EngineState Oid × Nat) : Prop where
  known : r.1.known = os.foldl addNew st.known
  count : r.2 + st.known.length = n + r.1.known.length
  same : SameRecord st r.1

theorem admits_admitOne (st : EngineState Oid) (n : Nat) (r : Bytes) :
    Admits st n (accepted [r]) (admitOne (st, n) r) := by
  have stays : Admits st n [] (st, n) := ⟨rfl, rfl, rfl, rfl, rfl, rfl⟩
  unfold admitOne accepted
  rw [List.filterMap_cons, List.filterMap_nil]
  rcases (decompressAndParse r : CspResult (GitObject Oid)) with e | b | es | c
  · exact stays
  · exact stays
  · exact stays
  simp only
  cases parsePrimitiveMeta c with
  | none => exact stays
  | some m =>
    cases verifyPrimitive c with
    | error e => exact stays
    | ok node =>
      simp only [Option.isSome_some, Except.isOk, Except.toBool, Bool.and_self, if_true]
      by_cases hk : (GitObject.commit c).oid ∈ st.known
      · simp only [if_pos hk]
        exact ⟨by simp [addNew, hk, EngineState.observe], rfl, rfl, rfl, rfl, rfl⟩
      · simp only [if_neg hk]
        refine ⟨known_addKnown st _, ?_, ?_⟩
        · simp only [EngineState.observe, known_addKnown, addNew, if_neg hk, List.length_append,
            List.length_singleton]
          omega
        · simp only [EngineState.addKnown, if_neg hk, EngineState.observe]
          exact ⟨rfl, rfl, rfl, rfl⟩

omit [ObjectId Oid] [Crates] in
theorem SameRecord.trans {a b c : EngineState Oid} (h : SameRecord a b) (h' : SameRecord b c) :
    SameRecord a c :=
  ⟨h'.1.trans h.1, h'.2.trans h.2, h'.3.trans h.3, h'.4.trans h.4⟩

theorem admits_foldl (raws : List Bytes) (st : EngineState Oid) (n : Nat) :
    Admits st n (accepted raws) (raws.foldl admitOne (st, n)) := by
  induction raws generalizing st n with
  | nil => exact ⟨rfl, rfl, rfl, rfl, rfl, rfl⟩
  | cons r rs ih =>
    have h := admits_admitOne st n r
    have h' := ih (admitOne (st, n) r).1 (admitOne (st, n) r).2
    have hsplit : (accepted (r :: rs) : List Oid) = accepted [r] ++ accepted rs := by
      rw [accepted, accepted, accepted, ← List.filterMap_append, List.singleton_append]
    refine ⟨?_, ?_, h.same.trans h'.same⟩
    · rw [List.foldl_cons, h'.known, h.known, hsplit, List.foldl_append]
    · have h1 := h.count
      have h2 : (rs.foldl admitOne (admitOne (st, n) r)).2 + (admitOne (st, n) r).1.known.length =
          (admitOne (st, n) r).2 + (rs.foldl admitOne (admitOne (st, n) r)).1.known.length :=
          h'.count
      rw [List.foldl_cons]
      omega

theorem mem_accepted {raws : List Bytes} {o : Oid} :
    o ∈ (accepted raws : List Oid) ↔ ∃ r ∈ raws, ∃ c : CommitObj Oid,
      decompressAndParse r = .ok (.commit c) ∧ isPrimitive c = true ∧
      (∃ n, verifyPrimitive c = .ok n) ∧
        o = (GitObject.commit c).oid := by
  rw [accepted, List.mem_filterMap]
  refine exists_congr fun r => and_congr_right fun _ => ?_
  rcases (decompressAndParse r : CspResult (GitObject Oid)) with e | b | es | c
  · simp
  · simp
  · simp
  · have hisOk : (verifyPrimitive c).isOk = true ↔ ∃ n, verifyPrimitive c = .ok n := by
      cases verifyPrimitive c <;> simp [Except.isOk, Except.toBool]
    simp only [Except.ok.injEq, GitObject.commit.injEq, exists_eq_left',
      Option.ite_none_right_eq_some,
      Bool.and_eq_true, hisOk, Option.some.injEq, isPrimitive, and_assoc, @eq_comm _ o]

/-! ### The whole operation -/

theorem MemEngine.recompute_run (e : MemEngine Oid) :
    recompute e = match computeMain e.state.known e.store with
      | (.ok m, t) => (.ok (), { e with store := t, main := some m })
      | (.error err, t) => (.error err, { e with store := t }) := by
  rw [recompute, run_bind_of_ok (run_get e), run_bind, withStore]
  rcases computeMain e.state.known e.store with ⟨_ | m, t⟩
  · rfl
  · rfl

theorem MemEngine.integrate_run (raws : List Bytes) (e : MemEngine Oid) :
    MemEngine.integrate raws e =
      match (decoded raws : List (GitObject Oid) × Option CspError).2 with
      | some err => (.error err, { e with store := e.store.putAll (decoded raws).1 })
      | none =>
        match verifyBatch raws (e.store.putAll (decoded raws).1) with
        | (.error err, s) => (.error err, { e with store := s })
        | (.ok false, s) => (.ok 0, { e with store := s })
        | (.ok true, s) =>
          if (raws.foldl admitOne (e.state, 0)).2 = 0 then
            (.ok 0, { e with store := s, state := (raws.foldl admitOne (e.state, 0)).1 })
          else match computeMain (raws.foldl admitOne (e.state, 0)).1.known s with
            | (.ok m, t) => (.ok (raws.foldl admitOne (e.state, 0)).2,
                { e with store := t, state := (raws.foldl admitOne (e.state, 0)).1, main := some m })
            | (.error err, t) =>
              (.error err, { e with store := t, state := (raws.foldl admitOne (e.state, 0)).1 }) := by
  rw [integrate, run_bind, withStore, putRaws_run]
  cases (decoded raws : List (GitObject Oid) × Option CspError).2 with
  | some err => rfl
  | none =>
    simp only
    rw [run_bind, withStore]
    rcases verifyBatch raws (e.store.putAll (decoded raws).1) with ⟨_ | _ | _, s⟩
    · rfl
    · rfl
    · simp only [Bool.not_true, Bool.false_eq_true, if_false]
      rw [run_bind_of_ok (run_get _)]
      simp only
      rcases raws.foldl admitOne (e.state, 0) with ⟨st, n⟩
      rw [run_bind_of_ok (run_set _ _)]
      by_cases hn : n = 0
      · subst hn
        rfl
      · simp only [if_neg hn, if_pos (Nat.pos_of_ne_zero hn)]
        rw [run_bind, recompute_run]
        rcases computeMain st.known s with ⟨_ | m, t⟩
        · rfl
        · rfl

namespace Vault

def putPart : Nat → List Bytes → Vault Oid → List Bytes
  | _, [], _ => []
  | n, raw :: raws, v =>
    match withPuts (.putRaw n) (StoreM.putRaw raw) v with
    | (.ok _, w) => raw :: putPart (n + 1) raws w
    | (.error _, _) => []

theorem putOne_cases (n : Nat) (raw : Bytes) (v : Vault Oid) :
    (∃ x : GitObject Oid, decompressAndParse raw = .ok x ∧
        withPuts (.putRaw n) (StoreM.putRaw raw) v =
        (.ok x.oid, { v with store := v.store.put x })) ∨
      ∃ e, withPuts (.putRaw n) (StoreM.putRaw raw) v =
      ((.error e, v) : CspResult Oid × Vault Oid) ∧
        (v.disk.refuses (.putRaw n) = true ∨ (decompressAndParse raw : CspResult (GitObject Oid)) =
          .error e) := by
  rcases withPuts_cases (.putRaw n) (StoreM.putRaw raw) v with ⟨hrefused, hrun⟩ | hrun
  · exact .inr ⟨_, hrun, .inl hrefused⟩
  · rw [StoreM.putRaw] at hrun
    cases hr : (decompressAndParse raw : CspResult (GitObject Oid)) with
    | error e =>
      rw [hr] at hrun
      exact .inr ⟨e, by rw [StoreM.putRaw, hr]; exact hrun, .inr rfl⟩
    | ok x =>
      rw [hr] at hrun
      exact .inl ⟨x, rfl, by rw [StoreM.putRaw, hr]; exact hrun⟩

theorem putEach_run (n : Nat) (raws : List Bytes) (v : Vault Oid) :
    ∃ r, putEach n raws v = (r, { v with store := v.store.putAll (decoded (putPart n raws v)).1 }) ∧
      (r = .ok () → putPart n raws v = raws ∧
        (decoded raws : List (GitObject Oid) × Option CspError).2 = none) := by
  induction raws generalizing n v with
  | nil => exact ⟨_, rfl, fun _ => ⟨rfl, rfl⟩⟩
  | cons raw raws ih =>
    rcases putOne_cases n raw v with ⟨x, hx, hrun⟩ | ⟨e, hrun, -⟩
    · obtain ⟨r, hrest, hok⟩ := ih (n + 1) { v with store := v.store.put x }
      have hkept : putPart n (raw :: raws) v =
          raw :: putPart (n + 1) raws { v with store := v.store.put x } := by
        rw [putPart, hrun]
      rw [hkept]
      simp only [decoded, hx]
      refine ⟨r, ?_, fun h => ⟨congrArg (raw :: ·) (hok h).1, (hok h).2⟩⟩
      rw [putEach, run_bind_of_ok hrun]
      exact hrest
    · have hkept : putPart n (raw :: raws) v = [] := by rw [putPart, hrun]
      rw [hkept]
      refine ⟨.error e, ?_, fun h => by cases h⟩
      rw [putEach, run_bind, hrun]
      rfl

theorem integrate_put {raws : List Bytes} {v w : Vault Oid}
    (hput : putEach 0 raws v = (.ok (), w)) :
    integrate raws v =
      match verifyBatch raws w.store with
      | (.error err, s) => (.error err, { w with store := s })
      | (.ok false, s) => (.ok 0, { w with store := s })
      | (.ok true, s) =>
        (do
          if (raws.foldl admitOne (w.state, 0)).2 > 0 then recomputeAndMaterialize
          save
          pure (raws.foldl admitOne (w.state, 0)).2 : VaultM Oid Nat)
          { w with store := s, state := (raws.foldl admitOne (w.state, 0)).1 } := by
  rw [integrate, run_bind_of_ok hput, run_bind, withStore]
  rcases verifyBatch raws w.store with ⟨_ | _ | _, s⟩
  · rfl
  · rfl
  · simp only [Bool.not_true, Bool.false_eq_true, if_false]
    rw [run_bind_of_ok (run_get _)]
    rfl

theorem putEach_ok {raws : List Bytes} {v w : Vault Oid} (h : putEach 0 raws v = (.ok (), w)) :
    (decoded raws : List (GitObject Oid) × Option CspError).2 = none ∧
      w = { v with store := v.store.putAll (decoded raws).1 } := by
  obtain ⟨r, hrun, hok⟩ := putEach_run 0 raws v
  obtain ⟨rfl, rfl⟩ := Prod.mk.inj (hrun.symm.trans h)
  obtain ⟨hkept, hdec⟩ := hok rfl
  rw [hkept]
  exact ⟨hdec, rfl⟩

end Vault

theorem Vault.integrate_ok {raws : List Bytes} {v w : Vault Oid} {n : Nat}
    (h : Vault.integrate raws v = (.ok n, w)) :
    (decoded raws : List (GitObject Oid) × Option CspError).2 = none ∧
      ((n = 0 ∧ ∃ s, verifyBatch raws (v.store.putAll (decoded raws).1) = (.ok false, s) ∧
          w = { v with store := s }) ∨
        (n = (raws.foldl admitOne (v.state, 0)).2 ∧
          ∃ s u, verifyBatch raws (v.store.putAll (decoded raws).1) = (.ok true, s) ∧
            (if n = 0 then u = { v with store := s, state := (raws.foldl admitOne (v.state, 0)).1 }
              else recomputeAndMaterialize
                { v with store := s, state := (raws.foldl admitOne (v.state, 0)).1 } =
                (.ok (), u)) ∧
            save u = (.ok (), w))) := by
  obtain ⟨⟨⟩, u, hput, -⟩ := run_bind_ok.mp h
  rw [Vault.integrate_put hput] at h
  obtain ⟨hdec, rfl⟩ := Vault.putEach_ok hput
  refine ⟨hdec, ?_⟩
  rcases hv : verifyBatch raws (v.store.putAll (decoded raws).1) with ⟨_ | _ | _, s⟩
  · simp only [hv] at h
    cases (Prod.mk.inj h).1
  · simp only [hv] at h
    obtain ⟨hn, rfl⟩ := Prod.mk.inj h
    exact .inl ⟨(Except.ok.inj hn).symm, s, rfl, rfl⟩
  · simp only [hv] at h
    by_cases h0 : (raws.foldl admitOne (v.state, 0)).2 > 0
    · rw [if_pos h0] at h
      obtain ⟨⟨⟩, x, hx, h⟩ := run_bind_ok.mp h
      obtain ⟨⟨⟩, y, hy, h⟩ := run_bind_ok.mp h
      obtain ⟨hn, rfl⟩ := Prod.mk.inj h
      obtain rfl := Except.ok.inj hn
      exact .inr ⟨rfl, s, x, rfl, by rwa [if_neg h0.ne'], hy⟩
    · rw [if_neg h0] at h
      obtain ⟨⟨⟩, y, hy, h⟩ := run_bind_ok.mp h
      obtain ⟨hn, rfl⟩ := Prod.mk.inj h
      obtain rfl := Except.ok.inj hn
      exact .inr ⟨rfl, s, _, rfl, by rw [if_pos (Nat.eq_zero_of_not_pos h0)], hy⟩

theorem Vault.putPart_of_ok {raws : List Bytes} {v w : Vault Oid} {n : Nat}
    (h : Vault.integrate raws v = (.ok n, w)) : Vault.putPart 0 raws v = raws := by
  obtain ⟨⟨⟩, u, hput, -⟩ := run_bind_ok.mp h
  obtain ⟨r, hrun, hok⟩ := Vault.putEach_run 0 raws v
  obtain ⟨rfl, -⟩ := Prod.mk.inj (hrun.symm.trans hput)
  exact (hok rfl).1

theorem Vault.integrate_induction (P : Vault Oid → Vault Oid → Prop) (hrefl : ∀ v, P v v)
    (htrans : ∀ u v w, P u v → P v w → P u w)
    (hputAll : ∀ (v : Vault Oid) xs, P v { v with store := v.store.putAll xs })
    (hverify : ∀ raws (v : Vault Oid), P v { v with store := (verifyBatch raws v.store).2 })
    (hadm : ∀ (raws : List Bytes) (v : Vault Oid),
      P v { v with state := (raws.foldl admitOne (v.state, 0)).1 })
    (hrecompute : ∀ v : Vault Oid, P v (recomputeAndMaterialize v).2)
    (hsave : ∀ v : Vault Oid, P v (save v).2) (raws : List Bytes) (v : Vault Oid) :
    P v (Vault.integrate raws v).2 := by
  rw [integrate]
  apply run_bind_induction P htrans
  · obtain ⟨r, hrun, -⟩ := Vault.putEach_run 0 raws v
    rw [hrun]
    exact hputAll v _
  intro _ u _
  apply run_bind_induction P htrans (hverify raws u)
  intro ok u' _
  cases ok with
  | false => exact hrefl u'
  | true =>
    simp only [Bool.not_true, Bool.false_eq_true, if_false]
    rw [run_bind_of_ok (run_get u')]
    apply run_bind_induction P htrans (hadm raws u')
    intro _ x _
    have hrest : ∀ (n : Nat) (y : Vault Oid), P y
        ((do save; pure n : VaultM Oid Nat) y).2 := fun n y =>
      run_bind_induction P htrans (hsave y) fun _ z _ => hrefl z
    by_cases h0 : (raws.foldl admitOne (u'.state, 0)).2 > 0
    · rw [if_pos h0]
      exact run_bind_induction P htrans (hrecompute x) fun _ y _ => hrest _ y
    · rw [if_neg h0]
      exact hrest _ x

end Csp
