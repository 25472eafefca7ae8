import Csp.Lineage
import Csp.SessionFacts

/-! The bootstrap gate. A joining engine authors nothing until it has caught up. The session
opens the gate at the end of any batch, and nowhere else; it is exact as long as each batch
that ends is the answer to a request, and there is something to request. -/

namespace Csp
open Result Session
variable {Oid : Type} [ObjectId Oid] [Crates] {V : Type} [SessionVault V Oid] [Replica V Oid]

/-- An engine that joins: its session, the tips that the peer has advertised, and what each
request that is not answered yet asked for. -/
structure Joining (V Oid : Type) where
  session : Session
  vault : V
  advertised : Option (List Oid) := none
  asked : List (List Oid) := []

def tipsOf (tips : List Str) : List Oid :=
  tips.filterMap fun hex => (fromHex hex : CspResult Oid).toOption

namespace Joining

def heard (j : Joining V Oid) (m : Msg) (s : Session) (v : V) : Joining V Oid :=
  match m with
  | .frontierDigest tips =>
    { session := s, vault := v
      advertised := some (j.advertised.getD [] ++ tipsOf tips)
      asked := if wanted j.vault tips = [] then j.asked else j.asked ++
      [tipsOf (wanted j.vault tips)] }
  | m =>
    { session := s, vault := v, advertised := j.advertised
      asked := if (finished j.session m).isSome then j.asked.tail else j.asked }

/-- One message that the session takes without an error. -/
inductive Step (j : Joining V Oid) (m : Msg) : Joining V Oid → Prop
  | mk {now : Nat} {st : Csp.Step} {s : Session} {v : V}
      (h : onMsg now m (j.session, j.vault) = (.ok st, (s, v))) : Step j m (j.heard m s v)

/-- Does a batch answer the oldest request? It brings what was asked for, and if the gate is
closed it verifies and is not empty. With no request open, the gate must be open. -/
def Answers (j : Joining V Oid) (batch : List Bytes) : Prop :=
  match j.asked with
  | [] => Replica.pending j.vault = false
  | tips :: _ =>
    (Replica.pending j.vault = true → verifies (Replica.store j.vault) batch = true ∧ batch ≠ []) ∧
      ∀ o ∈ tips, o ∈ SessionVault.known j.vault ∨
        verifies (Replica.store j.vault) batch = true ∧ o ∈ accepted batch

/-- The messages on which the gate is exact: a batch that ends is an answer, and as long as
the gate is closed a digest leaves something to ask for. -/
def Solicited (j : Joining V Oid) (m : Msg) : Prop :=
  (∀ batch, finished j.session m = some batch → j.Answers batch) ∧
    ∀ tips, m = .frontierDigest tips → Replica.pending j.vault = true → wanted j.vault tips ≠ [] ∨
    j.asked ≠ []

/-- A run of such messages. -/
abbrev Runs : Joining V Oid → Joining V Oid → Prop :=
  Relation.ReflTransGen fun j j' => ∃ m, j.Solicited m ∧ j.Step m j'

/-- What holds along such a run: an advertised tip is known or asked for, and once the peer
has advertised its tips the gate is open unless an answer is due. -/
structure Gated (j : Joining V Oid) : Prop where
  established : j.session.phase = .established
  tips : ∀ tips, j.advertised = some tips → ∀ o ∈ tips,
    o ∈ SessionVault.known j.vault ∨ ∃ w ∈ j.asked, o ∈ w
  opened : j.advertised ≠ none → j.asked = [] → Replica.pending j.vault = false
  closed : j.advertised = none → j.asked = [] ∧ Replica.pending j.vault = true

omit [Crates] [Replica V Oid] in
theorem mem_tipsOf_wanted {v : V} {tips : List Str} {o : Oid} (h : o ∈ tipsOf tips) :
    o ∈ SessionVault.known v ∨ o ∈ tipsOf (wanted v tips) := by
  obtain ⟨hex, hhex, ho⟩ := List.mem_filterMap.mp h
  by_cases hk : o ∈ SessionVault.known v
  · exact .inl hk
  · right
    apply List.mem_filterMap.mpr
    refine ⟨hex, List.mem_filter.mpr ⟨hhex, ?_⟩, ho⟩
    cases hx : (fromHex hex : CspResult Oid) with
    | error e => simp [hx, Except.toOption] at ho
    | ok o' =>
      obtain rfl : o' = o := by simpa [hx, Except.toOption] using ho
      simp [hk]

variable [LawfulSessionVault V]

/-- One message of such a run. -/
theorem Gated.step {j j' : Joining V Oid} {m : Msg} (h : Gated j) (hm : j.Solicited m)
    (hs : j.Step m j') :
    Gated j' := by
  obtain ⟨hs⟩ := hs
  rename_i now st s v
  rw [onMsg_of_established h.established] at hs
  cases hb : finished j.session m with
  -- a batch is complete: its integration answers the first request, and the gate opens
  | some batch =>
    obtain ⟨hphase, n, w, hint, hstill, hopen, -⟩ := onEstablished_finished hb hs
    have hknown : ∀ o, o ∈ SessionVault.known v ↔ o ∈ SessionVault.known j.vault ∨
        verifies (Replica.store j.vault) batch = true ∧ o ∈ accepted batch := by
      intro o
      rw [hstill.known, hint.mem_known]
    have hheard : j.heard m s v = ⟨s, v, j.advertised, j.asked.tail⟩ := by
      cases m with
      | frontierDigest tips => cases hb
      | _ => simp only [heard, hb, Option.isSome_some, if_true]
    have hsol := hm.1 batch hb
    rw [Answers] at hsol
    rw [hheard]
    refine ⟨hphase.trans h.established, fun tips htips o ho => ?_, fun _ _ => hopen,
      fun hnone => ?_⟩
    · rcases h.tips tips htips o ho with ho | ⟨w, hw, ho⟩
      · exact .inl ((hknown o).mpr (.inl ho))
      · cases hasked : j.asked with
        | nil => simp [hasked] at hw
        -- what was asked for first has come, the rest is still asked for
        | cons tips₀ rest =>
          rw [hasked] at hw hsol
          rcases List.mem_cons.mp hw with rfl | hw
          · exact .inl ((hknown o).mpr (hsol.2 o ho))
          · exact .inr ⟨w, hw, ho⟩
    · obtain ⟨hasked, hclosed⟩ := h.closed hnone
      rw [hasked] at hsol
      exact absurd (hsol.symm.trans hclosed) Bool.false_ne_true
  -- anything else leaves the gate as it is, and takes nothing from what is known
  | none =>
    obtain ⟨hphase, hcase⟩ := onEstablished_other hb hs
    have hpending : Replica.pending v = Replica.pending j.vault := by
      rcases hcase with ⟨raws, n, -, hint, -⟩ | ⟨rfl, -⟩
      · exact hint.pending
      · rfl
    have hmono : ∀ o ∈ SessionVault.known j.vault, o ∈ SessionVault.known v := by
      rcases hcase with ⟨raws, n, -, hint, -⟩ | ⟨rfl, -⟩
      · exact fun o ho => hint.mem_known.mpr (.inl ho)
      · exact fun o => id
    have other : (∀ tips, m ≠ .frontierDigest tips) → Gated (j.heard m s v) := by
      intro hdigest
      have hheard : j.heard m s v = ⟨s, v, j.advertised, j.asked⟩ := by
        cases m with
        | frontierDigest tips => exact absurd rfl (hdigest tips)
        | _ => simp [heard, hb]
      rw [hheard]
      refine ⟨hphase.trans h.established, fun tips htips o ho =>
        (h.tips tips htips o ho).imp_left (hmono o),
        fun hadv hasked => hpending.trans (h.opened hadv hasked), fun hnone => ?_⟩
      exact ⟨(h.closed hnone).1, hpending.trans (h.closed hnone).2⟩
    cases m with
    | frontierDigest tips =>
      refine ⟨hphase.trans h.established, fun all hall o ho => ?_, fun _ hasked => ?_,
        fun hnone => by cases hnone⟩
      · obtain rfl := Option.some.inj hall
        rcases List.mem_append.mp ho with ho | ho
        · cases hadv : j.advertised with
          | none => simp [hadv] at ho
          | some old =>
            rw [hadv] at ho
            rcases h.tips old hadv o ho with hk | ⟨w, hw, ho⟩
            · exact .inl (hmono o hk)
            · refine .inr ⟨w, ?_, ho⟩
              show w ∈ if wanted j.vault tips = [] then j.asked else _
              split_ifs
              · exact hw
              · exact List.mem_append_left _ hw
        · rcases mem_tipsOf_wanted (v := j.vault) ho with hk | hwant
          · exact .inl (hmono o hk)
          · refine .inr ⟨tipsOf (wanted j.vault tips), ?_, hwant⟩
            show _ ∈ if wanted j.vault tips = [] then j.asked else _
            rw [if_neg fun hnil => by simp [hnil, tipsOf] at hwant]
            exact List.mem_append_right _ (List.mem_singleton.mpr rfl)
      · -- with nothing asked for, the gate was open before
        replace hasked : (if wanted j.vault tips = [] then j.asked else
            j.asked ++ [tipsOf (wanted j.vault tips)]) = [] := hasked
        split_ifs at hasked with hwant
        · refine hpending.trans (Bool.eq_false_iff.mpr fun hp => ?_)
          rcases hm.2 tips rfl hp with hne | hne
          · exact hne hwant
          · exact hne hasked
        · simp at hasked
    | _ => exact other fun tips => by simp

/-- Run lemma. -/
theorem Gated.runs {j j' : Joining V Oid} (h : Gated j) (hr : Runs j j') : Gated j' := by
  induction hr with
  | refl => exact h
  | tail _ hstep ih =>
    obtain ⟨m, hm, hs⟩ := hstep
    exact ih.step hm hs

/-- On every run of such messages the gate is exact: once all requests are answered it is open,
and every tip that the peer advertised is known. Before the peer advertises anything it stays
closed, and what opens it is the verified answer to a request. -/
theorem bootstrap_gate_exact {s : Session} {v : V} {j : Joining V Oid} (hs : s.phase = .established)
    (hp : Replica.pending v = true) (hr : Runs ⟨s, v, none, []⟩ j) :
    (∀ tips, j.advertised = some tips → j.asked = [] →
      (Replica.pending j.vault = false ↔ ∀ o ∈ tips, o ∈ SessionVault.known j.vault) ∧
        Replica.pending j.vault = false) ∧
    (j.advertised = none → Replica.pending j.vault = true) ∧
    ∀ m j', j.Solicited m → j.Step m j' → Replica.pending j.vault = true →
    Replica.pending j'.vault = false →
      ∃ batch, finished j.session m = some batch ∧ batch ≠ [] ∧ j.asked ≠ [] ∧
        verifies (Replica.store j.vault) batch = true := by
  have h₀ : Gated (⟨s, v, none, []⟩ : Joining V Oid) :=
    ⟨hs, (fun tips htips => by cases htips), fun hadv => absurd rfl hadv, fun _ => ⟨rfl, hp⟩⟩
  have h := h₀.runs hr
  refine ⟨fun tips htips hasked => ?_, fun hnone => (h.closed hnone).2, ?_⟩
  · have hopen := h.opened (by rw [htips]; exact Option.some_ne_none tips) hasked
    refine ⟨⟨fun _ o ho => ?_, fun _ => hopen⟩, hopen⟩
    rcases h.tips tips htips o ho with hk | ⟨w, hw, -⟩
    · exact hk
    · rw [hasked] at hw
      cases hw
  · rintro m j' hm ⟨hstep⟩ hclosed hopen
    rename_i now st s' v'
    rw [onMsg_of_established h.established] at hstep
    have hvault : (j.heard m s' v').vault = v' := by cases m <;> rfl
    rw [hvault] at hopen
    cases hb : finished j.session m with
    | none =>
      obtain ⟨-, ⟨raws, n, -, hint, -⟩ | ⟨rfl, -⟩⟩ := onEstablished_other hb hstep
      · exact absurd (hint.pending.symm.trans hopen)
          (by rw [hclosed]; exact Bool.false_ne_true.symm)
      · exact absurd (hclosed.symm.trans hopen) Bool.false_ne_true.symm
    | some batch =>
      have hsol := hm.1 batch hb
      rw [Answers] at hsol
      cases hasked : j.asked with
      | nil =>
        rw [hasked] at hsol
        exact absurd (hclosed.symm.trans hsol) Bool.false_ne_true.symm
      | cons tips rest =>
        rw [hasked] at hsol
        obtain ⟨hver, hne⟩ := hsol.1 hclosed
        exact ⟨batch, rfl, hne, List.cons_ne_nil _ _, hver⟩

end Joining

end Csp

/-! ### A joining engine -/

namespace Csp.Small
open Session

def peer : MemEngine Shadow := (publish fresh nested).2

def peerTips : List Shadow :=
  match peer.frontierTips with
  | .ok tips => tips
  | .error _ => []

def peerClosure : List Bytes :=
  match peer.exportClosure peerTips with
  | .ok raws => raws
  | .error _ => []

def joined : Session := { role := .connector, channelBinding := [], myNonce := [], phase := .established }

def joiner : MemEngine Shadow := fresh.markBootstrapPending

def caughtUp : CspResult Step × Session × MemEngine Shadow :=
  onMsg 0 (.objectsBatch peerClosure true) (joined, joiner)

theorem peerClosure_spec : peerTips ≠ [] ∧ peerClosure ≠ [] ∧
    (∀ o ∈ peerTips, o ∈ accepted peerClosure) ∧ verifies joiner.store peerClosure = true ∧
    caughtUp.1.isOk = true ∧ tipsOf (peerTips.map toHex) = peerTips ∧
    wanted joiner (peerTips.map toHex) = peerTips.map toHex := by
  decide +kernel

theorem hear_peerTips (tips : List Str) : onMsg 0 (.frontierDigest tips) (joined, joiner) =
    (.ok { out := if wanted joiner tips = [] then [] else [.wantTips (wanted joiner tips)] },
      (joined, joiner)) := by
  rw [onMsg_of_established rfl, onEstablished_frontierDigest]

/-- The joiner hears of the peer's tip, asks for it, and is given it. -/
theorem bootstrap_gate_exact_joiner :
    caughtUp.2.2.state.bootstrapPending = false ∧ ∀ o ∈ peerTips, o ∈ caughtUp.2.2.state.known := by
  obtain ⟨hne, hraws, hacc, hver, hok, htips, hwant⟩ := peerClosure_spec
  have hstep₁ := Joining.Step.mk (j := ⟨joined, joiner, none, []⟩)
    (hear_peerTips (peerTips.map toHex))
  have hheard₁ : (⟨joined, joiner, none, []⟩ : Joining (MemEngine Shadow) Shadow).heard
      (.frontierDigest (peerTips.map toHex)) joined joiner = ⟨joined, joiner, some peerTips,
      [peerTips]⟩ := by
    have hnil : peerTips.map (toHex : Shadow → Str) ≠ [] := by simpa using hne
    simp [Joining.heard, htips, hwant, hnil]
  rw [hheard₁] at hstep₁
  obtain ⟨st, s, v, hst⟩ : ∃ st s v, caughtUp = (.ok st, s, v) := by
    generalize caughtUp = r at hok
    rcases r with ⟨_ | st, s, v⟩
    · cases hok
    · exact ⟨st, s, v, rfl⟩
  rw [hst]
  rw [caughtUp] at hst
  have hstep₂ := Joining.Step.mk (j := ⟨joined, joiner, some peerTips, [peerTips]⟩) hst
  have hsol₁ : (⟨joined, joiner, none, []⟩ : Joining (MemEngine Shadow) Shadow).Solicited
      (.frontierDigest (peerTips.map toHex)) := by
    refine ⟨(fun batch hb => by cases hb), fun tips htips' _ => .inl ?_⟩
    obtain rfl := Msg.frontierDigest.inj htips'
    show wanted joiner _ ≠ []
    rw [hwant]
    simpa using hne
  have hsol₂ : (⟨joined, joiner, some peerTips, [peerTips]⟩ :
        Joining (MemEngine Shadow) Shadow).Solicited
      (.objectsBatch peerClosure true) := by
    refine ⟨fun batch hb => ?_, (fun tips htips' => by cases htips')⟩
    obtain rfl : peerClosure = batch := by simpa [finished, joined] using hb
    exact ⟨fun _ => ⟨hver, hraws⟩, fun o ho => .inr ⟨hver, hacc o ho⟩⟩
  have hrun : Joining.Runs ⟨joined, joiner, none, []⟩ _ :=
    .tail (.single ⟨_, hsol₁, hstep₁⟩) ⟨_, hsol₂, hstep₂⟩
  obtain ⟨hexact, -, -⟩ := Joining.bootstrap_gate_exact (s := joined) (v := joiner) rfl rfl hrun
  obtain ⟨hiff, hopen⟩ := hexact peerTips rfl rfl
  exact ⟨hopen, hiff.mp hopen⟩

/-- An empty batch that nobody asked for opens the gate although the advertised tip is
missing, and a digest with nothing missing leaves it closed. -/
theorem bootstrap_gate_inexact :
    (onMsg 0 (.frontierDigest (peerTips.map toHex)) (joined, joiner)).2 = (joined, joiner) ∧
      (onMsg 0 (.objects []) (joined, joiner)).1.isOk = true ∧
      (onMsg 0 (.objects []) (joined, joiner)).2.2.state.bootstrapPending = false ∧
      (∃ o ∈ peerTips, o ∉ (onMsg 0 (.objects []) (joined, joiner)).2.2.state.known) ∧
    (onMsg 0 (.frontierDigest []) (joined, joiner)).1.isOk = true ∧
      (onMsg 0 (.frontierDigest []) (joined, joiner)).2.2.state.bootstrapPending = true := by
  refine ⟨by rw [hear_peerTips], ?_⟩
  decide +kernel

end Csp.Small
