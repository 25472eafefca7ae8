import Csp.Integrate
import Csp.VaultFacts

/-! Is `integrate` atomic on error? It is where nothing of the batch is new before the object
that does not decode, and where the grown known list folds. Elsewhere what it did stays. -/

namespace Csp
open Result
variable {Oid : Type} [ObjectId Oid]

theorem prefix_foldl_addNew (os l : List Oid) : l <+: os.foldl addNew l := by
  induction os generalizing l with
  | nil => exact List.prefix_rfl
  | cons o os ih =>
    refine .trans ?_ (ih (addNew l o))
    unfold addNew
    split_ifs
    · exact List.prefix_rfl
    · exact List.prefix_append l [o]

theorem foldl_addNew_eq_self {os l : List Oid} : os.foldl addNew l = l ↔ ∀ o ∈ os, o ∈ l := by
  constructor
  · intro h o ho
    exact h ▸ mem_foldl_addNew.mpr (.inr ho)
  · intro h
    induction os with
    | nil => rfl
    | cons o os ih =>
      rw [List.foldl_cons, addNew, if_pos (h o List.mem_cons_self)]
      exact ih fun q hq => h q (List.mem_cons_of_mem _ hq)

variable [Crates]

omit [Crates] in
theorem Admits.count_eq_zero {st : EngineState Oid} {os : List Oid} {r : EngineState Oid × Nat}
    (h : Admits st 0 os r) : r.2 = 0 ↔ ∀ o ∈ os, o ∈ st.known := by
  have hc := h.count
  rw [← foldl_addNew_eq_self, ← h.known]
  constructor
  · intro h0
    exact ((h.known ▸ prefix_foldl_addNew os st.known).eq_of_length (by omega)).symm
  · intro hk
    rw [hk] at hc
    omega

theorem state_foldl_admitOne (raws : List Bytes) (st : EngineState Oid) (n : Nat) :
    (raws.foldl admitOne (st, n)).1 = { st with
      known := (raws.foldl admitOne (st, n)).1.known
      observed := (raws.foldl admitOne (st, n)).1.observed } := by
  induction raws generalizing st n with
  | nil => rfl
  | cons r raws ih =>
    have hone : (admitOne (st, n) r).1 = { st with
        known := (admitOne (st, n) r).1.known, observed := (admitOne (st, n) r).1.observed } := by
      unfold admitOne
      rcases (decompressAndParse r : CspResult (GitObject Oid)) with e | b | es | c
      · rfl
      · rfl
      · rfl
      simp only
      cases parsePrimitiveMeta c with
      | none => rfl
      | some m =>
        cases verifyPrimitive c with
        | error e => rfl
        | ok node =>
          by_cases hk : (GitObject.commit c).oid ∈ st.known
          · simp only [if_pos hk]
            rfl
          · simp only [if_neg hk, EngineState.addKnown]
            rfl
    rw [List.foldl_cons, ih, hone]

/-- The batch can be undone: if its synthetic commits verify, then it makes nothing known, or what
it makes known folds. -/
def MemEngine.Recovers (e : MemEngine Oid) (raws : List Bytes) : Prop :=
  (decoded raws : List (GitObject Oid) × Option CspError).2 = none →
    ∀ s, verifyBatch raws (e.store.putAll (decoded raws).1) = (.ok true, s) →
      (∀ o ∈ accepted raws, o ∈ e.state.known) ∨
        ∃ main t, computeMain ((accepted raws).foldl addNew e.state.known) s = (.ok main, t)

def Vault.settle (admitted : Nat) : VaultM Oid Unit :=
  if admitted > 0 then (do recomputeAndMaterialize; save) else save

/-- The same of a vault, where the new `main` is also written out and the state saved. -/
def Vault.Recovers (v : Vault Oid) (raws : List Bytes) : Prop :=
  ∀ w s, Vault.putEach 0 raws v = (.ok (), w) → verifyBatch raws w.store = (.ok true, s) →
    (raws.foldl admitOne (v.state, 0)).1 = v.state ∨
      ∃ u, Vault.settle (raws.foldl admitOne (v.state, 0)).2
        { v with store := s, state := (raws.foldl admitOne (v.state, 0)).1 } = (.ok (), u)

theorem Vault.frame_settle (n : Nat) (v : Vault Oid) : v.Frame (Vault.settle n v).2 := by
  unfold Vault.settle
  split_ifs
  · apply run_bind_induction Vault.Frame (fun _ _ _ => .trans)
      (Vault.frame_recomputeAndMaterialize v)
    exact fun _ w _ => (Vault.filed_save w).toFrame
  · exact (Vault.filed_save v).toFrame

theorem Vault.integrate_settle {raws : List Bytes} {v w : Vault Oid} {s : Store Oid}
    (hput : Vault.putEach 0 raws v = (.ok (), w)) (hv : verifyBatch raws w.store = (.ok true, s)) :
    Vault.integrate raws v = (do
      Vault.settle (raws.foldl admitOne (v.state, 0)).2
      pure (raws.foldl admitOne (v.state, 0)).2 : VaultM Oid Nat)
        { v with store := s, state := (raws.foldl admitOne (v.state, 0)).1 } := by
  obtain ⟨-, rfl⟩ := Vault.putEach_ok hput
  rw [Vault.integrate_put hput, hv]
  simp only [Vault.settle]
  split_ifs
  · rw [run_bind, run_bind, run_bind]
    rcases recomputeAndMaterialize
      { v with store := s, state := (raws.foldl admitOne (v.state, 0)).1 } with ⟨_ | _, x⟩
    · rfl
    · exact run_bind _ _ _
  · rfl

theorem MemEngine.integrate_atomic (e : MemEngine Oid) (raws : List Bytes) :
    (∀ err e', MemEngine.integrate raws e = (.error err, e') → e' = { e with store := e'.store }) ↔
      e.Recovers raws := by
  have hadm := admits_foldl raws e.state 0
  rw [MemEngine.integrate_run, MemEngine.Recovers]
  cases hd : (decoded raws : List (GitObject Oid) × Option CspError).2 with
  | some err =>
    constructor
    · intro _ h
      cases h
    · intro _ err' e' he
      obtain ⟨-, rfl⟩ := Prod.mk.inj he
      rfl
  | none =>
    obtain ⟨b, s, hv⟩ := verifyBatch_total raws (e.store.putAll (decoded raws).1)
    simp only [hv]
    cases b with
    | false => simp
    | true =>
      simp only
      by_cases hn : (raws.foldl admitOne (e.state, 0)).2 = 0
      · refine ⟨fun _ _ s' _ => .inl (hadm.count_eq_zero.mp hn), fun _ err e' he => ?_⟩
        simp [hn] at he
      · rw [if_neg hn, hadm.known]
        rcases hm : computeMain ((accepted raws).foldl addNew e.state.known) s with ⟨err | m, t⟩
        · constructor
          · intro h
            have hst := congrArg (fun e => e.state.known) (h _ _ rfl)
            simp only [hadm.known] at hst
            exact absurd (hadm.count_eq_zero.mpr (foldl_addNew_eq_self.mp hst)) hn
          · intro h
            rcases h trivial s rfl with hk | ⟨m, t', ht⟩
            · exact absurd (hadm.count_eq_zero.mpr hk) hn
            · simp [hm] at ht
        · refine ⟨fun _ _ s' hs => .inr ?_, fun _ err e' he => ?_⟩
          · obtain rfl : s = s' := by simpa using hs
            exact ⟨m, t, hm⟩
          · simp at he

theorem Vault.integrate_atomic (v : Vault Oid) (raws : List Bytes) :
    (∀ err v', Vault.integrate raws v = (.error err, v') → v' = { v with store := v'.store }) ↔
      v.Recovers raws := by
  obtain ⟨r, hput, -⟩ := Vault.putEach_run 0 raws v
  cases r with
  | error err =>
    -- An object is refused or does not decode, and the vault goes no further.
    refine ⟨fun _ w s hw => ?_, fun _ err' v' hrun => ?_⟩
    · cases (Prod.mk.inj (hput.symm.trans hw)).1
    · rw [Vault.integrate, run_bind, hput] at hrun
      obtain ⟨-, rfl⟩ := Prod.mk.inj hrun
      rfl
  | ok =>
    obtain ⟨b, s, hv⟩ := verifyBatch_total raws
      (v.store.putAll (decoded (Vault.putPart 0 raws v)).1)
    cases b with
    | false =>
      constructor
      · intro _ w s' hw hs'
        obtain ⟨-, rfl⟩ := Prod.mk.inj (hput.symm.trans hw)
        cases (Prod.mk.inj (hv.symm.trans hs')).1
      · intro _ err v' hrun
        rw [Vault.integrate_put hput, hv] at hrun
        cases (Prod.mk.inj hrun).1
    | true =>
      have hrec : v.Recovers raws ↔ (raws.foldl admitOne (v.state, 0)).1 = v.state ∨
          ∃ u, Vault.settle (raws.foldl admitOne (v.state, 0)).2
            { v with store := s, state := (raws.foldl admitOne (v.state, 0)).1 } = (.ok (), u) := by
        refine ⟨fun h => h _ s hput hv, fun h w s' hw hs' => ?_⟩
        obtain ⟨-, rfl⟩ := Prod.mk.inj (hput.symm.trans hw)
        obtain ⟨-, rfl⟩ := Prod.mk.inj (hv.symm.trans hs')
        exact h
      rw [hrec, Vault.integrate_settle hput hv, run_bind]
      have hframe := Vault.frame_settle (raws.foldl admitOne (v.state, 0)).2
        { v with store := s, state := (raws.foldl admitOne (v.state, 0)).1 }
      rcases hset : Vault.settle (raws.foldl admitOne (v.state, 0)).2
        { v with store := s, state := (raws.foldl admitOne (v.state, 0)).1 } with ⟨err | u, x⟩
      · rw [hset] at hframe
        constructor
        · intro h
          have hx : x.state = v.state := by
            rw [h err x rfl]
          refine .inl ?_
          rw [state_foldl_admitOne, ← hframe.known, ← hframe.observed, hx]
        · rintro (hsame | ⟨u, hu⟩) err' v' hrun
          · have hzero := (admits_foldl raws v.state 0).count
            rw [hsame, Nat.zero_add, Nat.add_eq_right] at hzero
            obtain ⟨-, rfl⟩ := Prod.mk.inj hrun
            rw [hzero, hsame, Vault.settle, if_neg (lt_irrefl 0)] at hset
            rw [Vault.save_error hset]
          · cases (Prod.mk.inj hu).1
      · refine ⟨fun _ => .inr ⟨x, rfl⟩, fun _ err' v' hrun => ?_⟩
        cases (Prod.mk.inj hrun).1

end Csp

/-! ### A primitive whose parent is missing -/

namespace Csp.Small

def founder : MemEngine Digest := MemEngine.create ⟨[]⟩ [] []

def oneFile : FileMap := (∅ : FileMap).insert ['a'] [49]

end Csp.Small
