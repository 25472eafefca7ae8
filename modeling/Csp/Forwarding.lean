import Csp.Convergence
import Csp.SessionFacts

/-! What a session hands on. A batch that brought something new is relayed as it came, the
forged primitives in it too. -/

namespace Csp
open Result
variable {Oid : Type} [ObjectId Oid] [Crates]

variable (Oid) in
/-- Each primitive of the batch verifies. -/
def AllVerify (raws : List Bytes) : Prop :=
  ∀ r ∈ raws, ∀ c : CommitObj Oid, decompressAndParse r = .ok (.commit c) → isPrimitive c = true →
    ∃ node, verifyPrimitive c = .ok node

/-- The batch leaves the known list as it is: a synthetic commit in it does not verify, or each
primitive in it that verifies is known. -/
def Unheard (s : Store Oid) (known : List Oid) (raws : List Bytes) : Prop :=
  verifies s raws = false ∨ ∀ o ∈ accepted raws, o ∈ known

variable {V : Type} [SessionVault V Oid] [Replica V Oid]

theorem Integrated.eq_zero_iff {raws : List Bytes} {n : Nat} {v v' : V}
    (h : Integrated raws n v v') :
    n = 0 ↔ Unheard (Replica.store v) (SessionVault.known v) raws := by
  have hcount := h.count
  have hknown := h.known
  unfold Unheard
  cases hv : verifies (Replica.store v) raws with
  | false =>
    rw [hv, if_neg Bool.false_ne_true] at hknown
    rw [hknown] at hcount
    simp only [true_or, iff_true]
    omega
  | true =>
    rw [hv, if_pos rfl] at hknown
    rw [← foldl_addNew_eq_self, ← hknown]
    have hgrown := prefix_foldl_addNew (accepted raws) (SessionVault.known v)
    rw [← hknown] at hgrown
    constructor
    · intro hn
      exact .inr (hgrown.eq_of_length (by omega)).symm
    · rintro (hfalse | hsame)
      · cases hfalse
      · rw [hsame] at hcount
        omega

namespace Session

def takenIn (s : Session) : Msg → List Bytes
  | .live raws => raws
  | m => (finished s m).getD []

theorem onEstablished_relay [LawfulSessionVault V] {m : Msg} {s s' : Session} {v v' : V} {st : Step}
    (h : onEstablished m (s, v) = (.ok st, (s', v'))) :
    (st.relay = [] ∧ takenIn s m = []) ∨ ∃ n w, Integrated (takenIn s m) n v w ∧
    st = batchStep (takenIn s m) n := by
  have other : ∀ m : Msg, (∀ raws, m ≠ .live raws) → onEstablished m (s, v) = (.ok st, (s', v')) →
      (st.relay = [] ∧ (finished s m).getD [] = []) ∨
        ∃ n w, Integrated ((finished s m).getD []) n v w ∧
        st = batchStep ((finished s m).getD []) n := by
    intro m hlive h
    cases hb : finished s m with
    | some batch =>
      obtain ⟨-, n, w, hint, -, -, rfl⟩ := onEstablished_finished hb h
      exact .inr ⟨n, w, hint, rfl⟩
    | none =>
      rcases (onEstablished_other hb h).2 with ⟨raws, n, hm, -⟩ | ⟨-, hrelay⟩
      · exact absurd hm (hlive raws)
      · exact .inl ⟨hrelay, rfl⟩
  cases m with
  | live raws =>
    rw [onEstablished_live] at h
    split at h
    · rename_i n w hi
      simp only [Prod.mk.injEq, Except.ok.injEq] at h
      obtain ⟨rfl, rfl, rfl⟩ := h
      exact .inr ⟨n, w, LawfulSessionVault.integrate_ok hi, rfl⟩
    · cases h
  | _ => exact other _ (by rintro raws ⟨⟩) h

/-- What an established session relays verifies if and only if what it took in does, or it
took in nothing new. -/
theorem relay_verifies_iff [LawfulSessionVault V] {now : Nat} {m : Msg} {s s' : Session}
    {v v' : V} {st : Step} (hs : s.phase = .established)
    (h : onMsg now m (s, v) = (.ok st, (s', v'))) :
    AllVerify Oid st.relay ↔
      AllVerify Oid (takenIn s m) ∨ Unheard (Replica.store v) (SessionVault.known v)
      (takenIn s m) := by
  rw [onMsg_of_established hs] at h
  have hnil : AllVerify Oid [] := fun r hr => absurd hr List.not_mem_nil
  rcases onEstablished_relay h with ⟨hrelay, htaken⟩ | ⟨n, w, hint, rfl⟩
  · rw [hrelay, htaken]
    exact iff_of_true hnil (.inl hnil)
  · rw [← hint.eq_zero_iff]
    show AllVerify Oid (if n > 0 then takenIn s m else []) ↔ _
    split_ifs with hn
    · rw [or_iff_left (by omega)]
    · exact iff_of_true hnil (.inr (by omega))

end Session

end Csp

namespace Csp.Small

def forged : CommitObj Shadow := unsignedPrimitive owner 0 1 1 0 "ctx edit".toList []

def forgedRaw : Bytes := (GitObject.commit forged).compress

def linked : Session := { role := .connector, channelBinding := [], myNonce := [], phase := .established }

def relayed (raws : List Bytes) : Option (List Bytes) :=
  (Session.onMsg 0 (.live raws) (linked, fresh)).1.toOption.map Step.relay

theorem onMsg_of_relayed {raws relay : List Bytes} (h : relayed raws = some relay) :
    ∃ st s' v', Session.onMsg 0 (.live raws) (linked, fresh) = (.ok st, (s', v')) ∧
    st.relay = relay := by
  unfold relayed at h
  rcases hm : Session.onMsg 0 (.live raws) (linked, fresh) with ⟨_ | st, s', v'⟩
  · rw [hm] at h
    cases h
  · rw [hm] at h
    exact ⟨st, s', v', rfl, Option.some.inj h⟩

def checked (r : Bytes) : Bool :=
  match (decompressAndParse r : CspResult (GitObject Shadow)) with
  | .ok (.commit c) => !isPrimitive c || (verifyPrimitive c).isOk
  | _ => true

theorem relayed_spec : relayed committedRaws = some committedRaws ∧
    (∀ r ∈ committedRaws, checked r = true) ∧
    relayed (committedRaws ++ [forgedRaw]) = some (committedRaws ++ [forgedRaw]) ∧
    decompressAndParse forgedRaw = .ok (.commit forged) ∧ isPrimitive forged = true ∧
    (verifyPrimitive forged).isOk = false := by
  decide +kernel

theorem allVerify_of_checked {raws : List Bytes} (h : ∀ r ∈ raws, checked r = true) :
    AllVerify Shadow raws := by
  intro r hr c hc hprim
  have hcheck := h r hr
  simp only [checked, hc, hprim, Bool.not_true, Bool.false_or] at hcheck
  cases hv : verifyPrimitive c with
  | ok node => exact ⟨node, rfl⟩
  | error e =>
    rw [hv] at hcheck
    cases hcheck

/-- A closure that comes as a live push is handed on, and verifies. -/
theorem relay_verifies_iff_closure :
    ∃ st s' v', Session.onMsg 0 (.live committedRaws) (linked, fresh) = (.ok st, (s', v')) ∧
    AllVerify Shadow st.relay := by
  obtain ⟨st, s', v', hm, -⟩ := onMsg_of_relayed relayed_spec.1
  exact ⟨st, s', v', hm,
    (Session.relay_verifies_iff rfl hm).mpr (.inl (allVerify_of_checked relayed_spec.2.1))⟩

/-- With the closure comes a primitive that nobody signed, and it is handed on as well. -/
theorem relays_forged :
    ∃ st s' v', Session.onMsg 0 (.live (committedRaws ++ [forgedRaw])) (linked, fresh) =
    (.ok st, (s', v')) ∧
      ¬ AllVerify Shadow st.relay := by
  obtain ⟨-, -, hrelay, hparse, hprim, hforged⟩ := relayed_spec
  obtain ⟨st, s', v', hm, hst⟩ := onMsg_of_relayed hrelay
  refine ⟨st, s', v', hm, fun hall => ?_⟩
  obtain ⟨node, hv⟩ := hall forgedRaw (hst ▸ List.mem_append_right _ (List.mem_singleton.mpr rfl))
    forged hparse hprim
  rw [hv] at hforged
  cases hforged

end Csp.Small
