import Csp.Atomic
import Csp.Session

/-! What a session does with one message, and what the engines behind it promise: the same
of the in-memory engine and of the vault. -/

namespace Csp
open Result
variable {Oid : Type} [ObjectId Oid] [Crates]

/-- Do the synthetic commits of a batch verify once the batch is stored? -/
def verifies (s : Store Oid) (raws : List Bytes) : Bool :=
  match (verifyBatch raws (s.putAll (decoded raws).1)).1 with
  | .ok b => b
  | .error _ => false

/-- The object store behind a session, and whether commits wait for the first catch-up. -/
class Replica (V : Type) (Oid : outParam Type) [ObjectId Oid] where
  store : V → Store Oid
  pending : V → Bool

/-- Two states of one engine: its identity and its vault are the same. -/
structure SameNode {V : Type} [SessionVault V Oid] (v v' : V) : Prop where
  vaultId : SessionVault.vaultId v' = SessionVault.vaultId v
  identitySsh : SessionVault.identitySsh v' = SessionVault.identitySsh v
  sign : SessionVault.sign v' = SessionVault.sign v

structure Still {V : Type} [SessionVault V Oid] [Replica V Oid] (v v' : V) : Prop where
  node : SameNode v v'
  store : Replica.store v' = Replica.store v
  known : SessionVault.known v' = SessionVault.known v

/-- What an engine that took a batch in has learned. -/
structure Integrated {V : Type} [SessionVault V Oid] [Replica V Oid] (raws : List Bytes) (n : Nat)
    (v v' : V) : Prop where
  node : SameNode v v'
  decoded : (decoded raws : List (GitObject Oid) × Option CspError).2 = none
  pending : Replica.pending v' = Replica.pending v
  known : SessionVault.known v' =
    if verifies (Replica.store v) raws then (accepted raws).foldl addNew (SessionVault.known v)
    else SessionVault.known v
  count : n + (SessionVault.known v).length = (SessionVault.known v').length

theorem Integrated.mem_known {V : Type} [SessionVault V Oid] [Replica V Oid]
    {raws : List Bytes} {n : Nat} {v v' : V} (h : Integrated raws n v v') {o : Oid} :
    o ∈ SessionVault.known v' ↔
      o ∈ SessionVault.known v ∨ verifies (Replica.store v) raws = true ∧ o ∈ accepted raws := by
  rw [h.known]
  split_ifs with hv
  · rw [mem_foldl_addNew]
    simp [hv]
  · simp [hv]

class LawfulSessionVault (V : Type) {Oid : outParam Type} [ObjectId Oid] [SessionVault V Oid]
    [Replica V Oid] : Prop where
  has_eq : ∀ (v : V) o, SessionVault.has v o = (Replica.store v).has o
  frontierTips_eq : ∀ v : V, SessionVault.frontierTips v = frontier (Replica.store v)
    (SessionVault.known v)
  integrate_ok : ∀ {raws n} {v v' : V}, SessionVault.integrate raws v = (.ok n, v') →
    Integrated raws n v v'
  integrate_node : ∀ raws (v : V), SameNode v (SessionVault.integrate raws v).2
  markBootstrapComplete_run : ∀ v : V, ∃ v', SessionVault.markBootstrapComplete v = (.ok (), v') ∧
    Still v v' ∧ Replica.pending v' = false
  admitPeer_run : ∀ peerSsh b now (v : V), ∃ ok v', SessionVault.admitPeer peerSsh b now v =
    (.ok ok, v') ∧
    Still v v' ∧ Replica.pending v' = Replica.pending v

/-! ### The in-memory engine -/

instance : Replica (MemEngine Oid) Oid where
  store e := e.store
  pending e := e.state.bootstrapPending

theorem known_foldl_admitOne {s : Store Oid} (st : EngineState Oid) {raws : List Bytes}
    {t : Store Oid} (hv : verifyBatch raws (s.putAll (decoded raws).1) = (.ok true, t)) :
    (raws.foldl admitOne (st, 0)).1.known =
        (if verifies s raws then (accepted raws).foldl addNew st.known else st.known) ∧
      (raws.foldl admitOne (st, 0)).2 + st.known.length =
      (raws.foldl admitOne (st, 0)).1.known.length := by
  have hadm := admits_foldl raws st 0
  have hcount := hadm.count
  rw [verifies, hv, if_pos rfl]
  exact ⟨hadm.known, by omega⟩

theorem verifies_eq_false {s t : Store Oid} {raws : List Bytes}
    (hv : verifyBatch raws (s.putAll (decoded raws).1) = (.ok false, t)) :
    verifies s raws = false := by
  rw [verifies, hv]

theorem MemEngine.integrated {raws : List Bytes} {n : Nat} {e e' : MemEngine Oid}
    (h : MemEngine.integrate raws e = (.ok n, e')) : Integrated raws n e e' := by
  rw [MemEngine.integrate_run] at h
  split at h
  · cases h
  · rename_i hdec
    split at h
    · cases h
    · rename_i t hv
      obtain ⟨hn, rfl⟩ := Prod.mk.inj h
      obtain rfl := Except.ok.inj hn
      refine ⟨⟨rfl, rfl, rfl⟩, hdec, rfl, ?_, Nat.zero_add _⟩
      show e.state.known = if verifies e.store raws then _ else _
      rw [verifies_eq_false hv]
      rfl
    · rename_i t hv
      obtain ⟨hknown, hcount⟩ := known_foldl_admitOne e.state hv
      have hsame := (admits_foldl raws e.state 0).same
      split_ifs at h with h0
      · obtain ⟨hn, rfl⟩ := Prod.mk.inj h
        obtain rfl := Except.ok.inj hn
        rw [h0] at hcount
        exact ⟨⟨rfl, rfl, rfl⟩, hdec, hsame.bootstrapPending, hknown, hcount⟩
      · split at h
        · obtain ⟨hn, rfl⟩ := Prod.mk.inj h
          obtain rfl := Except.ok.inj hn
          exact ⟨⟨rfl, rfl, rfl⟩, hdec, hsame.bootstrapPending, hknown, hcount⟩
        · cases h

theorem MemEngine.sameNode_integrate (raws : List Bytes) (e : MemEngine Oid) :
    SameNode e (MemEngine.integrate raws e).2 := by
  rw [MemEngine.integrate_run]
  split
  · exact ⟨rfl, rfl, rfl⟩
  · split
    · exact ⟨rfl, rfl, rfl⟩
    · exact ⟨rfl, rfl, rfl⟩
    · split_ifs
      · exact ⟨rfl, rfl, rfl⟩
      · split
        · exact ⟨rfl, rfl, rfl⟩
        · exact ⟨rfl, rfl, rfl⟩

instance : LawfulSessionVault (MemEngine Oid) where
  has_eq _ _ := rfl
  frontierTips_eq _ := rfl
  integrate_ok := MemEngine.integrated
  integrate_node := MemEngine.sameNode_integrate
  markBootstrapComplete_run e := ⟨e.markBootstrapComplete, rfl, ⟨⟨rfl, rfl, rfl⟩, rfl, rfl⟩, rfl⟩
  admitPeer_run _ _ _ _ := ⟨_, _, rfl, ⟨⟨rfl, rfl, rfl⟩, rfl, rfl⟩, rfl⟩

/-! ### The vault -/

instance : Replica (KeyedVault Oid) Oid where
  store v := v.vault.store
  pending v := v.vault.state.bootstrapPending

theorem Vault.Frame.sameNode {v w : Vault Oid} (h : v.Frame w) (authorized : Str) :
    SameNode (⟨v, authorized⟩ : KeyedVault Oid) ⟨w, authorized⟩ where
  vaultId := congrArg VaultConfig.vaultId h.config
  identitySsh := congrArg Csp.identitySsh h.identity
  sign := congrArg Identity.sign h.identity

theorem Vault.integrated {raws : List Bytes} {n : Nat} {v w : Vault Oid} (authorized : Str)
    (h : Vault.integrate raws v = (.ok n, w)) :
    Integrated raws n (⟨v, authorized⟩ : KeyedVault Oid) ⟨w, authorized⟩ := by
  obtain ⟨hdec, ⟨rfl, s, hv, rfl⟩ | ⟨hn, s, u, hv, hu, hsave⟩⟩ := Vault.integrate_ok h
  · refine ⟨⟨rfl, rfl, rfl⟩, hdec, rfl, ?_, Nat.zero_add _⟩
    show v.state.known = if verifies v.store raws then _ else _
    rw [verifies_eq_false hv]
    rfl
  · obtain ⟨hknown, hcount⟩ := known_foldl_admitOne v.state hv
    have hsame := (admits_foldl raws v.state 0).same
    have hframe : Vault.Frame { v with store := s, state := (raws.foldl admitOne (v.state, 0)).1 } u := by
      split_ifs at hu
      · exact hu ▸ .refl _
      · have h := Vault.frame_recomputeAndMaterialize
          { v with store := s, state := (raws.foldl admitOne (v.state, 0)).1 }
        rwa [hu] at h
    have hsaved := (Vault.filed_save u).toFrame
    rw [hsave] at hsaved
    have hrest := hframe.trans hsaved
    have hnode := hrest.sameNode authorized
    refine ⟨⟨hnode.vaultId, hnode.identitySsh, hnode.sign⟩, hdec,
      hrest.bootstrapPending.trans hsame.bootstrapPending, hrest.known.trans hknown, ?_⟩
    show _ = w.state.known.length
    rw [hrest.known, hn]
    exact hcount

theorem Vault.frame_integrate (raws : List Bytes) (v : Vault Oid) :
    (Vault.integrate raws v).2.config = v.config ∧ (Vault.integrate raws v).2.identity =
    v.identity := by
  apply Vault.integrate_induction fun v w : Vault Oid => w.config = v.config ∧
    w.identity = v.identity
  · exact fun v => ⟨rfl, rfl⟩
  · exact fun u v w h h' => ⟨h'.1.trans h.1, h'.2.trans h.2⟩
  · exact fun v xs => ⟨rfl, rfl⟩
  · exact fun raws v => ⟨rfl, rfl⟩
  · exact fun raws v => ⟨rfl, rfl⟩
  · exact fun v => ⟨(Vault.frame_recomputeAndMaterialize v).config,
      (Vault.frame_recomputeAndMaterialize v).identity⟩
  · exact fun v => ⟨(Vault.filed_save v).config, (Vault.filed_save v).identity⟩

omit [Crates] in
theorem Vault.markBootstrapComplete_run (v : Vault Oid) :
    Vault.markBootstrapComplete v = (.ok (), if v.state.bootstrapPending then
      (save { v with state := { v.state with bootstrapPending := false } }).2 else v) := by
  rw [Vault.markBootstrapComplete]
  split_ifs
  · rfl
  · rfl

instance : LawfulSessionVault (KeyedVault Oid) where
  has_eq _ _ := rfl
  frontierTips_eq _ := rfl
  integrate_ok := by
    intro raws n v v' h
    rcases hv : Vault.integrate raws v.vault with ⟨r, w⟩
    have hrun : SessionVault.integrate raws v = (r, { v with vault := w }) := by
      show KeyedVault.withVault (Vault.integrate raws) v = _
      rw [KeyedVault.withVault, hv]
    rw [hrun] at h
    obtain ⟨rfl, rfl⟩ := Prod.mk.inj h
    exact Vault.integrated v.authorized hv
  integrate_node raws v := by
    obtain ⟨hconfig, hidentity⟩ := Vault.frame_integrate raws v.vault
    exact ⟨congrArg VaultConfig.vaultId hconfig, congrArg Csp.identitySsh hidentity,
      congrArg Identity.sign hidentity⟩
  markBootstrapComplete_run v := by
    refine ⟨_, congrArg (fun r => (r.1, { v with vault := r.2 }))
      (Vault.markBootstrapComplete_run v.vault), ?_, ?_⟩
    · split_ifs
      · have h := Vault.filed_save
          { v.vault with state := { v.vault.state with bootstrapPending := false } }
        have hnode := h.sameNode v.authorized
        exact ⟨⟨hnode.vaultId, hnode.identitySsh, hnode.sign⟩, h.store, h.known⟩
      · exact ⟨⟨rfl, rfl, rfl⟩, rfl, rfl⟩
    · show (if v.vault.state.bootstrapPending = true then _ else v.vault :
            Vault Oid).state.bootstrapPending = _
      split_ifs with hp
      · exact (Vault.filed_save _).bootstrapPending
      · exact Bool.eq_false_iff.mpr hp
  admitPeer_run _ _ _ _ := ⟨_, _, rfl, ⟨⟨rfl, rfl, rfl⟩, rfl, rfl⟩, rfl⟩

/-! ### One message -/

namespace Session
variable {V : Type} [SessionVault V Oid]

def batchStep (raws : List Bytes) (n : Nat) : Step :=
  { integrated := n, relay := if n > 0 then raws else [] }

theorem onMsg_of_established {s : Session} (h : s.phase = .established) (now : Nat)
    (m : Msg) (v : V) :
    onMsg now m (s, v) = onEstablished m (s, v) := by
  rw [onMsg, run_bind_of_ok (run_get (s, v))]
  simp only [h]

omit [Crates] in
theorem onEstablished_frontierDigest (tips : List Str) (s : Session) (v : V) :
    onEstablished (.frontierDigest tips) (s, v) =
      (.ok { out := if wanted v tips = [] then [] else [.wantTips (wanted v tips)] }, (s, v)) := rfl

omit [Crates] in
theorem onEstablished_wantTips (tips : List Str) (s : Session) (v : V) :
    onEstablished (.wantTips tips) (s, v) =
      match SessionVault.exportClosure v (tips.filterMap fun hex =>
        (fromHex hex : CspResult Oid).toOption) with
      | .error e => (.error e, (s, v))
      | .ok raws => (.ok { out := batchFrames (chunkObjects raws catchupChunkBytes) }, (s, v)) := by
  rw [onEstablished, run_bind_of_ok (run_get (s, v))]
  simp only
  cases SessionVault.exportClosure v (tips.filterMap fun hex =>
      (fromHex hex : CspResult Oid).toOption) with
  | error e => rfl
  | ok raws => rfl

omit [Crates] in
theorem onEstablished_live (raws : List Bytes) (s : Session) (v : V) :
    onEstablished (.live raws) (s, v) =
      match SessionVault.integrate raws v with
      | (.ok n, w) => (.ok (batchStep raws n), (s, w))
      | (.error e, w) => (.error e, (s, w)) := by
  rw [onEstablished, run_bind, withVault]
  rcases SessionVault.integrate raws v with ⟨_ | n, w⟩ <;> rfl

omit [ObjectId Oid] [Crates] in
theorem finishBatch_run (raws : List Bytes) (s : Session) (v : V) :
    finishBatch raws (s, v) =
      match SessionVault.integrate raws v with
      | (.error e, w) => (.error e, (s, w))
      | (.ok n, w) =>
        match SessionVault.markBootstrapComplete w with
        | (.ok (), w') => (.ok (batchStep raws n), (s, w'))
        | (.error e, w') => (.error e, (s, w')) := by
  rw [finishBatch, run_bind, withVault]
  rcases SessionVault.integrate raws v with ⟨_ | n, w⟩
  · rfl
  · simp only
    rw [run_bind, withVault]
    rcases SessionVault.markBootstrapComplete w with ⟨_ | _, w'⟩ <;> rfl

omit [Crates] in
theorem onEstablished_objects (raws : List Bytes) (s : Session) (v : V) :
    onEstablished (.objects raws) (s, v) = finishBatch raws (s, v) := rfl

omit [Crates] in
theorem onEstablished_objectsBatch (raws : List Bytes) (isLast : Bool) (s : Session) (v : V) :
    onEstablished (.objectsBatch raws isLast) (s, v) =
      if isLast then finishBatch (s.pendingBatch ++ raws) ({ s with pendingBatch := [] }, v)
      else (.ok {}, ({ s with pendingBatch := s.pendingBatch ++ raws }, v)) := by
  cases isLast <;> rfl

def finished (s : Session) : Msg → Option (List Bytes)
  | .objects raws => some raws
  | .objectsBatch raws true => some (s.pendingBatch ++ raws)
  | _ => none

variable [Replica V Oid] [LawfulSessionVault V]

theorem onEstablished_finished {m : Msg} {s s' : Session} {v v' : V} {st : Step}
    {batch : List Bytes} (hb : finished s m = some batch)
    (h : onEstablished m (s, v) = (.ok st, (s', v'))) :
    s'.phase = s.phase ∧ ∃ n w, Integrated batch n v w ∧ Still w v' ∧ Replica.pending v' = false ∧
      st = batchStep batch n := by
  have finish : ∀ {s₀ : Session}, finishBatch batch (s₀, v) = (.ok st, (s', v')) →
      s' = s₀ ∧ ∃ n w, Integrated batch n v w ∧ Still w v' ∧ Replica.pending v' = false ∧
        st = batchStep batch n := by
    intro s₀ h
    rw [finishBatch_run] at h
    rcases hi : SessionVault.integrate batch v with ⟨_ | n, w⟩
    · rw [hi] at h
      cases h
    · obtain ⟨w', hw', hstill, hpending⟩ := LawfulSessionVault.markBootstrapComplete_run w
      rw [hi] at h
      simp only [hw', Prod.mk.injEq, Except.ok.injEq] at h
      obtain ⟨rfl, rfl, rfl⟩ := h
      exact ⟨rfl, n, w, LawfulSessionVault.integrate_ok hi, hstill, hpending, rfl⟩
  cases m with
  | objects raws =>
    obtain rfl := Option.some.inj hb
    obtain ⟨rfl, hfin⟩ := finish h
    exact ⟨rfl, hfin⟩
  | objectsBatch raws isLast =>
    cases isLast with
    | true =>
      obtain rfl := Option.some.inj hb
      rw [onEstablished_objectsBatch, if_pos rfl] at h
      obtain ⟨rfl, hfin⟩ := finish h
      exact ⟨rfl, hfin⟩
    | false => cases hb
  | _ => cases hb

/-- Any other message leaves the bootstrap flag alone, and takes in at most what a live
push brings. -/
theorem onEstablished_other {m : Msg} {s s' : Session} {v v' : V} {st : Step}
    (hb : finished s m = none) (h : onEstablished m (s, v) = (.ok st, (s', v'))) :
    s'.phase = s.phase ∧ ((∃ raws n, m = .live raws ∧ Integrated raws n v v' ∧
      st = batchStep raws n) ∨
      v' = v ∧ st.relay = []) := by
  cases m with
  | frontierDigest tips =>
    rw [onEstablished_frontierDigest] at h
    simp only [Prod.mk.injEq, Except.ok.injEq] at h
    obtain ⟨rfl, rfl, rfl⟩ := h
    exact ⟨rfl, .inr ⟨rfl, rfl⟩⟩
  | wantTips tips =>
    rw [onEstablished_wantTips] at h
    split at h
    · cases h
    · simp only [Prod.mk.injEq, Except.ok.injEq] at h
      obtain ⟨rfl, rfl, rfl⟩ := h
      exact ⟨rfl, .inr ⟨rfl, rfl⟩⟩
  -- a push is integrated, but it completes no batch
  | live raws =>
    rw [onEstablished_live] at h
    split at h
    · rename_i n w hi
      simp only [Prod.mk.injEq, Except.ok.injEq] at h
      obtain ⟨rfl, rfl, rfl⟩ := h
      exact ⟨rfl, .inl ⟨raws, n, rfl, LawfulSessionVault.integrate_ok hi, rfl⟩⟩
    · cases h
  | objectsBatch raws isLast =>
    cases isLast with
    | true => cases hb
    | false =>
      rw [onEstablished_objectsBatch] at h
      simp only [Bool.false_eq_true, if_false, Prod.mk.injEq, Except.ok.injEq] at h
      obtain ⟨rfl, rfl, rfl⟩ := h
      exact ⟨rfl, .inr ⟨rfl, rfl⟩⟩
  | objects raws => cases hb
  | ping =>
    obtain ⟨rfl, rfl, rfl⟩ : _ ∧ s = s' ∧ v = v' := by simpa [onEstablished] using h
    exact ⟨rfl, .inr ⟨rfl, rfl⟩⟩
  | pong =>
    obtain ⟨rfl, rfl, rfl⟩ : _ ∧ s = s' ∧ v = v' := by simpa [onEstablished] using h
    exact ⟨rfl, .inr ⟨rfl, rfl⟩⟩
  | hello _ _ _ _ _ _ => cases h
  | authProof _ => cases h

end Session

end Csp
