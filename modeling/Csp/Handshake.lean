import Csp.SessionFacts
import Csp.Small

/-! The handshake on a network that an attacker holds. Messages come in any order and from
anyone; what the attacker cannot do is sign for an honest node. The transcript that is signed
covers both nonces and the binding, but neither the identities nor the roles, so what a proof
says about the peer depends on what the hello before it named. -/

namespace Csp
open Result
variable {Oid : Type} [ObjectId Oid] [Crates]

/-! ### The transcript -/

namespace Session

def script (s : Session) (peerNonce binding : Bytes) : Bytes :=
  match s.role with
  | .connector => transcript s.myNonce peerNonce binding
  | .listener => transcript peerNonce s.myNonce binding

end Session

omit [Crates] in
theorem transcript_injective {a b c a' b' c' : Bytes} (ha : a.length = a'.length)
    (hb : b.length = b'.length) (h : transcript a b c = transcript a' b' c') : a = a' ∧ b = b' := by
  have hcat : a ++ (b ++ c) = a' ++ (b' ++ c') := by
    simpa only [transcript, List.append_assoc, List.append_cancel_left_eq] using h
  obtain ⟨rfl, hrest⟩ := List.append_inj hcat ha
  exact ⟨rfl, (List.append_inj hrest hb).1⟩

omit [Crates] in
theorem transcript_ne_payload (a b cb : Bytes) (c : CommitObj Oid) :
    transcript a b cb ≠ (GitObject.commit c).payload := by
  intro h
  have hctx : authCtx = 99 :: authCtx.tail := by decide
  have htree : utf8 "tree ".toList = 116 :: (utf8 "tree ".toList).tail := by decide
  rw [transcript, hctx, GitObject.payload, commitText, utf8_append, htree] at h
  exact absurd (List.cons.inj h).1 (by decide)

/-! ### One message -/

variable {V : Type} [SessionVault V Oid] [Replica V Oid]

omit [Crates] in
theorem Still.refl (v : V) : Still v v := ⟨⟨rfl, rfl, rfl⟩, rfl, rfl⟩

omit [ObjectId Oid] [Crates] [Replica V Oid] in
theorem SameNode.trans {u v w : V} (h : SameNode u v) (h' : SameNode v w) : SameNode u w :=
  ⟨h'.vaultId.trans h.vaultId, h'.identitySsh.trans h.identitySsh, h'.sign.trans h.sign⟩

namespace Session

/-- What a session did with a message: it took the hello or the proof, refused, or was
established already. -/
inductive Took (now : Nat) (m : Msg) (s : Session) (v : V) : CspResult Step → Session → V → Prop
  | hello {vaultId name ssh : Str} {nonce cb binding : Bytes} {proto : Nat}
    (phase : s.phase = .awaitHello)
      (msg : m = .hello vaultId name ssh nonce cb proto)
      (agreed : s.agreedBinding cb = .ok binding) :
      Took now m s v (.ok { out := [.authProof (SessionVault.sign v (s.script nonce binding))] })
        { s with phase := .awaitAuth (s.script nonce binding) ssh } v
  | auth {script sig : Bytes} {ssh : Str} {peer : NodeId} {tips : List Oid} {v' : V}
      (phase : s.phase = .awaitAuth script ssh) (msg : m = .authProof sig)
      (key : parseSshPubkey ssh = some peer)
      (verified : Crates.verify peer script sig = true) (still : Still v v')
      (admitted : s.role = .listener →
        SessionVault.admitPeer ssh s.enrollmentAuthorized now v = (.ok true, v'))
      (kept : s.role = .connector → v' = v) (advertises : SessionVault.frontierTips v' = .ok tips) :
      Took now m s v (.ok { out := [.frontierDigest (tips.map toHex)] })
        { s with peerSsh := some ssh, phase := .established } v'
  | refused {e : CspError} {v' : V} (phase : s.phase ≠ .established) (still : Still v v') :
      Took now m s v (.error e) s v'
  | running {r : CspResult Step} {batch : List Bytes} {v' : V} (phase : s.phase = .established)
      (node : SameNode v v') : Took now m s v r { s with pendingBatch := batch } v'


theorem onHello_took {m : Msg} {s s' : Session} {v v' : V} {r : CspResult Step} (now : Nat)
    (hs : s.phase = .awaitHello) (h : onHello m (s, v) = (r, (s', v'))) :
    Took now m s v r s' v' := by
  have refused : ∀ e : CspError, ((.error e, (s, v)) : CspResult Step × Session × V) =
      (r, (s', v')) →
      Took now m s v r s' v' := by
    intro e he
    obtain ⟨rfl, rfl, rfl⟩ : _ ∧ s = s' ∧ v = v' := by simpa using he
    exact .refused (by rw [hs]; exact Phase.noConfusion) (.refl v)
  cases m with
  | hello vaultId name ssh nonce cb proto =>
    rw [onHello, run_bind_of_ok (run_get (s, v))] at h
    simp only at h
    by_cases hproto : proto ≠ protoVersion
    · rw [if_pos hproto] at h
      exact refused _ h
    rw [if_neg hproto] at h
    by_cases hvault : vaultId ≠ SessionVault.vaultId v
    · rw [if_pos hvault] at h
      exact refused _ h
    rw [if_neg hvault] at h
    cases hb : s.agreedBinding cb with
    | error e =>
      rw [hb] at h
      exact refused e h
    | ok binding =>
      rw [hb] at h
      obtain ⟨rfl, rfl, rfl⟩ : _ ∧ _ = s' ∧ v = v' := by simpa [run_bind] using h
      exact .hello hs rfl hb
  | _ => exact refused _ h

variable [LawfulSessionVault V]

theorem onAuth_took {m : Msg} {s s' : Session} {v v' : V} {r : CspResult Step}
    {script : Bytes} {ssh : Str} {now : Nat} (hs : s.phase = .awaitAuth script ssh)
    (h : onAuth script ssh now m (s, v) = (r, (s', v'))) :
    Took now m s v r s' v' := by
  have refused : ∀ (e : CspError) w, Still v w →
      ((.error e, (s, w)) : CspResult Step × Session × V) = (r, (s', v')) →
      Took now m s v r s' v' := by
    intro e w hw he
    obtain ⟨rfl, rfl, rfl⟩ : _ ∧ s = s' ∧ w = v' := by simpa using he
    exact .refused (by rw [hs]; exact Phase.noConfusion) hw
  cases m with
  | authProof sig =>
    rw [onAuth] at h
    cases hk : parseSshPubkey ssh with
    | none =>
      rw [hk] at h
      exact refused _ v (.refl v) h
    | some peer =>
      rw [hk] at h
      simp only at h
      by_cases hv : Crates.verify peer script sig = true
      · rw [hv, Bool.not_true, if_neg Bool.false_ne_true, run_bind_of_ok (run_get (s, v))] at h
        -- once the peer is admitted, the session advertises its tips
        have admitted : ∀ w, Still v w →
            (s.role = .listener → SessionVault.admitPeer ssh s.enrollmentAuthorized now v =
              (.ok true, w)) →
            (s.role = .connector → w = v) →
            ((SessionVault.frontierTips w).casesOn (fun e => (.error e, (s, w)))
              fun tips => (.ok { out := [.frontierDigest (tips.map toHex)] },
                ({ s with peerSsh := some ssh, phase := .established }, w)) :
                  CspResult Step × Session × V) = (r, (s', v')) →
            Took now (.authProof sig) s v r s' v' := by
          intro w hstill hadm hkept hw
          cases ht : SessionVault.frontierTips w with
          | error e =>
            rw [ht] at hw
            exact refused e w hstill hw
          | ok tips =>
            rw [ht] at hw
            obtain ⟨rfl, rfl, rfl⟩ : _ ∧ _ = s' ∧ w = v' := by simpa using hw
            exact .auth hs rfl hk hv hstill hadm hkept ht
        cases hrole : s.role with
        | listener =>
          obtain ⟨ok, w, hadm, hstill, -⟩ :=
            LawfulSessionVault.admitPeer_run ssh s.enrollmentAuthorized now v
          simp only [hrole] at h
          rw [run_bind, withVault, hadm] at h
          cases ok with
          | false => exact refused _ w hstill h
          | true =>
            refine admitted w hstill (fun _ => hadm)
              (fun hc => absurd (hrole.symm.trans hc) Role.noConfusion) (Eq.trans ?_ h)
            simp only [Bool.not_true, Bool.false_eq_true, if_false, run_bind, run_get]
            cases SessionVault.frontierTips w <;> rfl
        | connector =>
          simp only [hrole] at h
          refine admitted v (.refl v) (fun hl => absurd (hrole.symm.trans hl) Role.noConfusion)
            (fun _ => rfl)
            (Eq.trans ?_ h)
          simp only [run_bind, run_pure, Bool.not_true, Bool.false_eq_true, if_false, run_get]
          cases SessionVault.frontierTips v <;> rfl
      · rw [Bool.eq_false_iff.mpr hv, Bool.not_false, if_pos rfl] at h
        exact refused _ v (.refl v) h
  | _ => exact refused _ v (.refl v) h

theorem onEstablished_took {m : Msg} {s s' : Session} {v v' : V} {r : CspResult Step} (now : Nat)
    (hs : s.phase = .established) (h : onEstablished m (s, v) = (r, (s', v'))) :
    Took now m s v r s' v' := by
  have same : ∀ r₀ : CspResult Step, ((r₀, (s, v)) : CspResult Step × Session × V) = (r, (s', v')) →
      Took now m s v r s' v' := by
    intro r₀ he
    obtain ⟨rfl, rfl, rfl⟩ : _ ∧ s = s' ∧ v = v' := by simpa using he
    exact .running hs ⟨rfl, rfl, rfl⟩
  have finish : ∀ batch rest, finishBatch batch ({ s with pendingBatch := rest }, v) =
      (r, (s', v')) →
      Took now m s v r s' v' := by
    intro batch rest hf
    rw [finishBatch_run] at hf
    have hnode := LawfulSessionVault.integrate_node batch v
    rcases hi : SessionVault.integrate batch v with ⟨_ | n, w⟩
    · rw [hi] at hf hnode
      obtain ⟨rfl, rfl, rfl⟩ : _ ∧ _ = s' ∧ w = v' := by simpa using hf
      exact .running hs hnode
    · obtain ⟨w', hw', hstill, -⟩ := LawfulSessionVault.markBootstrapComplete_run w
      rw [hi] at hf hnode
      obtain ⟨rfl, rfl, rfl⟩ : _ ∧ _ = s' ∧ w' = v' := by simpa [hw'] using hf
      exact .running hs (hnode.trans hstill.node)
  cases m with
  | wantTips tips =>
    rw [onEstablished_wantTips] at h
    split at h
    · exact same _ h
    · exact same _ h
  | live raws =>
    rw [onEstablished_live] at h
    have hnode := LawfulSessionVault.integrate_node raws v
    split at h
    · rename_i n w hi
      rw [hi] at hnode
      obtain ⟨rfl, rfl, rfl⟩ : _ ∧ s = s' ∧ w = v' := by simpa using h
      exact .running hs hnode
    · rename_i e w hi
      rw [hi] at hnode
      obtain ⟨rfl, rfl, rfl⟩ : _ ∧ s = s' ∧ w = v' := by simpa using h
      exact .running hs hnode
  | objects raws => exact finish raws s.pendingBatch h
  | objectsBatch raws isLast =>
    rw [onEstablished_objectsBatch] at h
    split_ifs at h
    · exact finish _ [] h
    · obtain ⟨rfl, rfl, rfl⟩ : _ ∧ _ = s' ∧ v = v' := by simpa using h
      exact .running hs ⟨rfl, rfl, rfl⟩
  | _ => exact same _ h

omit [LawfulSessionVault V] in
theorem Took.sameNode {now : Nat} {m : Msg} {s s' : Session} {v v' : V} {r : CspResult Step}
    (h : Took now m s v r s' v') : SameNode v v' := by
  cases h with
  | hello _ _ _ => exact (Still.refl v).node
  | auth _ _ _ _ hstill _ _ _ => exact hstill.node
  | refused _ hstill => exact hstill.node
  | running _ hnode => exact hnode

/-- Everything that a message can do to a session and to the engine behind it. -/
theorem onMsg_took {m : Msg} {s s' : Session} {v v' : V} {r : CspResult Step} {now : Nat}
    (h : onMsg now m (s, v) = (r, (s', v'))) : Took now m s v r s' v' := by
  rw [onMsg, run_bind_of_ok (run_get (s, v))] at h
  cases hs : s.phase with
  | awaitHello =>
    simp only [hs] at h
    exact onHello_took now hs h
  | awaitAuth script ssh =>
    simp only [hs] at h
    exact onAuth_took hs h
  | established =>
    simp only [hs] at h
    exact onEstablished_took now hs h

end Session

/-! ### The network -/

/-- A session of an honest node, and the key line and the nonce in the hello that it took. -/
structure Party (ι : Type) where
  owner : ι
  session : Session
  heard : Option (Str × Bytes) := none

/-- The honest nodes, their sessions, and all that they have signed. -/
structure Network (ι V : Type) where
  vault : ι → V
  parties : List (Party ι) := []
  signed : List (ι × Bytes × Bytes) := []

namespace Party
variable {ι : Type}

def after (p : Party ι) (m : Msg) (r : CspResult Step) (s : Session) : Party ι :=
  { p with
    session := s
    heard := match p.session.phase, m, r with
      | .awaitHello, .hello _ _ ssh nonce _ _, .ok _ => some (ssh, nonce)
      | _, _, _ => p.heard }

omit [Crates] in
theorem after_heard {p : Party ι} {m : Msg} {r : CspResult Step} {s : Session}
    (h : p.session.phase ≠ .awaitHello ∨ ∃ e, r = .error e) : (p.after m r s).heard = p.heard := by
  cases hphase : p.session.phase with
  | awaitHello =>
    obtain ⟨e, rfl⟩ := h.resolve_left fun hne => hne hphase
    cases m <;> simp only [after, hphase]
  | _ => simp only [after, hphase]

def proofs (i : ι) (s : Session) : CspResult Step → List (ι × Bytes × Bytes)
  | .ok st =>
    match s.phase with
    | .awaitAuth script _ => st.out.filterMap fun
      | .authProof sig => some (i, script, sig)
      | _ => none
    | _ => []
  | .error _ => []

def Told (p : Party ι) : Prop :=
  match p.session.phase with
  | .awaitHello => p.heard = none
  | .awaitAuth script ssh => ∃ nonce binding, p.heard = some (ssh, nonce) ∧
    script = p.session.script nonce binding
  | .established => ∃ ssh nonce peer, p.heard = some (ssh, nonce) ∧ p.session.peerSsh = some ssh ∧
    parseSshPubkey ssh = some peer

structure Continues (p p' : Party ι) : Prop where
  owner : p'.owner = p.owner
  role : p'.session.role = p.session.role
  myNonce : p'.session.myNonce = p.session.myNonce
  heard : ∀ x, p.heard = some x → p'.heard = some x

omit [Crates] in
theorem Continues.refl (p : Party ι) : p.Continues p := ⟨rfl, rfl, rfl, fun _ => id⟩

omit [Crates] in
theorem Continues.script {p p' : Party ι} (h : p.Continues p') (nonce binding : Bytes) :
    p'.session.script nonce binding = p.session.script nonce binding := by
  rw [Session.script, Session.script, h.role, h.myNonce]

end Party

namespace Network
variable {ι : Type}

def key (w : Network ι V) (i : ι) : Option NodeId :=
  parseSshPubkey (SessionVault.identitySsh (w.vault i))

/-- A random nonce is none that any honest session has or has heard. -/
def Unseen (w : Network ι V) (nonce : Bytes) : Prop :=
  ∀ p ∈ w.parties, p.session.myNonce ≠ nonce ∧ ∀ ssh n, p.heard = some (ssh, n) → n ≠ nonce

/-- The attacker signs for no honest node: a proof that verifies under the key of one is of a
message which that node has signed, and a signature of one verifies under its key only. -/
def Unforged (w : Network ι V) (p : Party ι) (m : Msg) : Prop :=
  ∀ script ssh sig peer, p.session.phase = .awaitAuth script ssh → m = .authProof sig →
    parseSshPubkey ssh = some peer → Crates.verify peer script sig = true →
      (∀ i, w.key i = some peer → ∃ sig', (i, script, sig') ∈ w.signed) ∧
        ∀ i msg, (i, msg, sig) ∈ w.signed → w.key i = some peer

/-- One step: an honest node opens a session, works by itself and signs commits, or is
delivered a message. -/
inductive Step [DecidableEq ι] (w : Network ι V) : Option (Party ι × Msg) → Network ι V → Prop
  | opened {nonce : Bytes} (i : ι) (role : Role) (cb : Bytes) (enrolled : Bool)
    (length : nonce.length = 32)
      (unseen : w.Unseen nonce) :
      Step w none { w with parties := w.parties ++
        [⟨i, { role, channelBinding := cb, myNonce := nonce, enrollmentAuthorized := enrolled }, none⟩] }
  | worked {v : V} (i : ι) (made : List (CommitObj Oid)) (node : SameNode (w.vault i) v) :
      Step w none { w with
        vault := Function.update w.vault i v
        signed := w.signed ++ made.map fun c =>
          (i, (GitObject.commit c).payload, SessionVault.sign v (GitObject.commit c).payload) }
  | delivered {p : Party ι} {before after : List (Party ι)} {now : Nat} {m : Msg}
    {r : CspResult Csp.Step}
      {s : Session} {v : V} (parties : w.parties = before ++ p :: after)
      (run : Session.onMsg now m (p.session, w.vault p.owner) = (r, (s, v)))
      (unforged : w.Unforged p m) :
      Step w (some (p, m)) {
        vault := Function.update w.vault p.owner v
        parties := before ++ p.after m r s :: after
        signed := w.signed ++ Party.proofs p.owner s r }

/-- A hello that names whom it should: its nonce has the length of a nonce, it does not name
the receiver itself, and to a connector the nonce of an honest listener comes with that
listener's key. -/
def Named (w : Network ι V) (p : Party ι) (ssh : Str) (nonce : Bytes) : Prop :=
  nonce.length = 32 ∧ parseSshPubkey ssh ≠ w.key p.owner ∧
    (p.session.role = .connector → ∀ q ∈ w.parties, q.session.role = .listener →
      q.session.myNonce = nonce →
      parseSshPubkey ssh = w.key q.owner)

instance (w : Network ι V) (p : Party ι) (ssh : Str) (nonce : Bytes) :
    Decidable (w.Named p ssh nonce) :=
  inferInstanceAs (Decidable (_ ∧ _ ∧ (_ → ∀ _ ∈ _, _ → _ → _)))

/-- The steps on which every hello does. -/
def Clean (w : Network ι V) (e : Option (Party ι × Msg)) : Prop :=
  ∀ p vaultId name ssh nonce cb proto, e = some (p, .hello vaultId name ssh nonce cb proto) →
    p.session.phase = .awaitHello → w.Named p ssh nonce

abbrev Runs [DecidableEq ι] : Network ι V → Network ι V → Prop :=
  Relation.ReflTransGen fun w w' => ∃ e, w.Clean e ∧ w.Step e w'

/-- Node `i` ran a connector session with the listener `l` on these nonces. -/
def RanWith (w : Network ι V) (i : ι) (l : Party ι) (nonce : Bytes) : Prop :=
  ∃ c ∈ w.parties, c.owner = i ∧ c.session.role = .connector ∧ c.session.myNonce = nonce ∧
    ∃ ssh, c.heard = some (ssh, l.session.myNonce) ∧ parseSshPubkey ssh = w.key l.owner

structure Sound (w : Network ι V) : Prop where
  keys : Function.Injective w.key
  nonces : (w.parties.map (·.session.myNonce)).Nodup
  length : ∀ p ∈ w.parties, p.session.myNonce.length = 32
  told : ∀ p ∈ w.parties, p.Told
  named : ∀ p ∈ w.parties, ∀ ssh nonce, p.heard = some (ssh, nonce) → w.Named p ssh nonce
  signed : ∀ i m sig, (i, m, sig) ∈ w.signed →
    (∃ c : CommitObj Oid, m = (GitObject.commit c).payload) ∨
    ∃ p ∈ w.parties, p.owner = i ∧ ∃ ssh nonce binding, p.heard = some (ssh, nonce) ∧
      m = p.session.script nonce binding
  agreed : ∀ l ∈ w.parties, l.session.role = .listener → l.session.phase = .established →
    ∀ ssh nonce peer i, l.heard = some (ssh, nonce) → parseSshPubkey ssh = some peer →
    w.key i = some peer →
      w.RanWith i l nonce

omit [ObjectId Oid] [Replica V Oid] in
theorem key_update [DecidableEq ι] {w : Network ι V} {i : ι} {v : V} (h : SameNode (w.vault i) v)
    (parties : List (Party ι)) (signed : List (ι × Bytes × Bytes)) :
    key { vault := Function.update w.vault i v, parties, signed } = w.key := by
  funext j
  by_cases hj : j = i
  · subst j
    rw [key, key, ← h.identitySsh]
    exact congrArg (fun x => parseSshPubkey (SessionVault.identitySsh x)) (Function.update_self ..)
  · exact congrArg (fun x => parseSshPubkey (SessionVault.identitySsh x))
      (Function.update_of_ne hj ..)

omit [ObjectId Oid] [Replica V Oid] in
theorem RanWith.later {w w' : Network ι V} {i : ι} {l l' : Party ι} {nonce : Bytes}
    (h : w.RanWith i l nonce) (hkey : w'.key = w.key)
    (hparties : ∀ p ∈ w.parties, ∃ p' ∈ w'.parties, p.Continues p') (hl : l.Continues l') :
    w'.RanWith i l' nonce := by
  obtain ⟨c, hc, howner, hrole, hnonce, ssh, hheard, hssh⟩ := h
  obtain ⟨c', hc', hcont⟩ := hparties c hc
  refine ⟨c', hc', hcont.owner.trans howner, hcont.role.trans hrole, hcont.myNonce.trans hnonce,
    ssh, ?_, ?_⟩
  · rw [hl.myNonce]
    exact hcont.heard _ hheard
  · rw [hkey, hl.owner]
    exact hssh

omit [Replica V Oid] in
theorem Sound.deliver {w w' : Network ι V} (h : w.Sound) {before after : List (Party ι)}
    {p p' : Party ι} (hparties : w.parties = before ++ p :: after)
    (hparties' : w'.parties = before ++ p' :: after) (hcont : p.Continues p')
    (hkey : w'.key = w.key) (told : p'.Told) (named : ∀ ssh nonce, p'.heard = some (ssh, nonce) →
      w.Named p ssh nonce)
    (signed : ∀ i m sig, (i, m, sig) ∈ w'.signed → (i, m, sig) ∈ w.signed ∨
      i = p'.owner ∧ ∃ ssh nonce binding, p'.heard = some (ssh, nonce) ∧
      m = p'.session.script nonce binding)
    (agreed : p'.session.role = .listener → p'.session.phase = .established →
      ∀ ssh nonce peer i, p'.heard = some (ssh, nonce) → parseSshPubkey ssh = some peer →
      w.key i = some peer →
        w.RanWith i p nonce) : w'.Sound := by
  have hp : p ∈ w.parties := by simp [hparties]
  have hp' : p' ∈ w'.parties := by simp [hparties']
  -- every other party is as it was, so both directions are about the one that has heard
  have forth : ∀ q ∈ w.parties, ∃ q' ∈ w'.parties, q.Continues q' := by
    intro q hq
    rw [hparties] at hq
    rcases List.mem_append.mp hq with hq | hq
    · exact ⟨q, by simp [hparties', hq], .refl q⟩
    · rcases List.mem_cons.mp hq with rfl | hq
      · exact ⟨p', hp', hcont⟩
      · exact ⟨q, by simp [hparties', hq], .refl q⟩
  have back : ∀ q' ∈ w'.parties, q' = p' ∨ q' ∈ w.parties := by
    intro q' hq'
    rw [hparties'] at hq'
    rcases List.mem_append.mp hq' with hq' | hq'
    · exact .inr (by simp [hparties, hq'])
    · exact (List.mem_cons.mp hq').imp_right fun hq' => by simp [hparties, hq']
  have names : ∀ q q' ssh nonce, q.Continues q' → w.Named q ssh nonce → w'.Named q' ssh nonce := by
    rintro q q' ssh nonce hq ⟨hlen, hown, hlisten⟩
    refine ⟨hlen, by rwa [hkey, hq.owner], fun hrole l hl hlrole hlnonce => ?_⟩
    rw [hkey]
    rcases back l hl with rfl | hl
    · rw [hcont.owner]
      exact hlisten (hq.role.symm.trans hrole) p hp (hcont.role.symm.trans hlrole)
        (hcont.myNonce.symm.trans hlnonce)
    · exact hlisten (hq.role.symm.trans hrole) l hl hlrole hlnonce
  constructor
  case keys => rw [hkey]; exact h.keys
  case nonces =>
    have hmap : w'.parties.map (·.session.myNonce) = w.parties.map (·.session.myNonce) := by
      rw [hparties, hparties', List.map_append, List.map_append, List.map_cons, List.map_cons,
        hcont.myNonce]
    rw [hmap]
    exact h.nonces
  case length =>
    intro q' hq'
    rcases back q' hq' with rfl | hq'
    · rw [hcont.myNonce]
      exact h.length p hp
    · exact h.length q' hq'
  case told =>
    intro q' hq'
    rcases back q' hq' with rfl | hq'
    · exact told
    · exact h.told q' hq'
  case named =>
    intro q' hq' ssh nonce hheard
    rcases back q' hq' with rfl | hq'
    · exact names p q' ssh nonce hcont (named ssh nonce hheard)
    · exact names q' q' ssh nonce (.refl q') (h.named q' hq' ssh nonce hheard)
  case signed =>
    intro i m sig hsig
    rcases signed i m sig hsig with hsig | ⟨rfl, hscript⟩
    · refine (h.signed i m sig hsig).imp_right ?_
      rintro ⟨q, hq, rfl, ssh, nonce, binding, hheard, rfl⟩
      obtain ⟨q', hq', hqq⟩ := forth q hq
      exact ⟨q', hq', hqq.owner, ssh, nonce, binding, hqq.heard _ hheard,
        (hqq.script nonce binding).symm⟩
    · exact .inr ⟨p', hp', rfl, hscript⟩
  case agreed =>
    intro l hl hrole hphase ssh nonce peer i hheard hpeer hi
    rw [hkey] at hi
    rcases back l hl with rfl | hl
    · exact (agreed hrole hphase ssh nonce peer i hheard hpeer hi).later hkey forth hcont
    · exact (h.agreed l hl hrole hphase ssh nonce peer i hheard hpeer hi).later hkey forth (.refl l)

omit [Replica V Oid] in
/-- A proof that verifies is the proof of a connector that spoke with this listener: no other
session of the node signs these nonces, and the listener has not heard itself. -/
theorem Sound.agree {w : Network ι V} (h : w.Sound) {l : Party ι} (hl : l ∈ w.parties)
    (hrole : l.session.role = .listener) {ssh : Str} {nonce binding sig : Bytes}
    (hheard : l.heard = some (ssh, nonce)) {peer : NodeId} {i : ι}
    (hpeer : parseSshPubkey ssh = some peer) (hi : w.key i = some peer)
    (hsig : (i, l.session.script nonce binding, sig) ∈ w.signed) : w.RanWith i l nonce := by
  obtain ⟨hlen, hown, -⟩ := h.named l hl ssh nonce hheard
  have hscript : l.session.script nonce binding = transcript nonce l.session.myNonce binding := by
    rw [Session.script, hrole]
  rw [hscript] at hsig
  rcases h.signed i _ sig hsig with ⟨c, hc⟩ | ⟨q, hq, rfl, ssh', nonce', binding', hheard', hsame⟩
  · exact absurd hc (transcript_ne_payload _ _ _ c)
  · obtain ⟨hlen', -, hlisten'⟩ := h.named q hq ssh' nonce' hheard'
    cases hqrole : q.session.role with
    | listener =>
      rw [Session.script, hqrole] at hsame
      obtain ⟨-, hnonce⟩ := transcript_injective (hlen.trans hlen'.symm)
        ((h.length l hl).trans (h.length q hq).symm) hsame
      obtain rfl : l = q := List.inj_on_of_nodup_map h.nonces hl hq hnonce
      exact absurd (hpeer.trans hi.symm) hown
    | connector =>
      rw [Session.script, hqrole] at hsame
      obtain ⟨rfl, rfl⟩ := transcript_injective (hlen.trans (h.length q hq).symm)
        ((h.length l hl).trans hlen'.symm) hsame
      exact ⟨q, hq, rfl, hqrole, rfl, ssh', hheard', hlisten' hqrole l hl hrole rfl⟩

variable [DecidableEq ι]

omit [Replica V Oid] [DecidableEq ι] in
theorem Sound.opened {w : Network ι V} (h : w.Sound) {nonce : Bytes} (i : ι) (role : Role)
    (cb : Bytes) (enrolled : Bool) (length : nonce.length = 32) (unseen : w.Unseen nonce) :
    Sound { w with parties := w.parties ++
      [⟨i, { role, channelBinding := cb, myNonce := nonce, enrollmentAuthorized := enrolled },
      none⟩] } := by
  have old : ∀ {q : Party ι} {fresh : Party ι}, q ∈ w.parties → q ∈ w.parties ++ [fresh] :=
    fun hq => List.mem_append_left _ hq
  have later : ∀ {fresh : Party ι}, ∀ q ∈ w.parties, ∃ q' ∈ w.parties ++ [fresh], q.Continues q' :=
    fun q hq => ⟨q, old hq, .refl q⟩
  constructor
  case keys => exact h.keys
  case nonces =>
    rw [List.map_append, List.map_singleton]
    refine List.nodup_append.mpr ⟨h.nonces, List.nodup_singleton _, ?_⟩
    rintro _ hn _ hm rfl
    obtain ⟨q, hq, hqn⟩ := List.mem_map.mp hn
    exact (unseen q hq).1 (hqn.trans (List.mem_singleton.mp hm))
  case length =>
    intro q hq
    rcases List.mem_append.mp hq with hq | hq
    · exact h.length q hq
    · obtain rfl := List.mem_singleton.mp hq
      exact length
  case told =>
    intro q hq
    rcases List.mem_append.mp hq with hq | hq
    · exact h.told q hq
    · obtain rfl := List.mem_singleton.mp hq
      exact rfl
  case named =>
    intro q hq ssh n hheard
    rcases List.mem_append.mp hq with hq | hq
    · obtain ⟨hlen, hown, hlisten⟩ := h.named q hq ssh n hheard
      refine ⟨hlen, hown, fun hrole l hl hlrole hlnonce => ?_⟩
      rcases List.mem_append.mp hl with hl | hl
      · exact hlisten hrole l hl hlrole hlnonce
      · -- a nonce that was heard before is not the fresh one
        obtain rfl := List.mem_singleton.mp hl
        exact absurd hlnonce.symm ((unseen q hq).2 ssh n hheard)
    · obtain rfl := List.mem_singleton.mp hq
      cases hheard
  case signed =>
    intro j m sig hsig
    refine (h.signed j m sig hsig).imp_right ?_
    rintro ⟨q, hq, hscript⟩
    exact ⟨q, old hq, hscript⟩
  case agreed =>
    intro l hl hrole hphase ssh n peer j hheard hpeer hj
    rcases List.mem_append.mp hl with hl | hl
    · exact (h.agreed l hl hrole hphase ssh n peer j hheard hpeer hj).later rfl later (.refl l)
    · obtain rfl := List.mem_singleton.mp hl
      cases hphase

omit [Replica V Oid] in
theorem Sound.worked {w : Network ι V} (h : w.Sound) {v : V} (i : ι) (made : List (CommitObj Oid))
    (node : SameNode (w.vault i) v) :
    Sound { w with
      vault := Function.update w.vault i v
      signed := w.signed ++ made.map fun c =>
        (i, (GitObject.commit c).payload, SessionVault.sign v (GitObject.commit c).payload) } := by
  have hkey := key_update node w.parties (w.signed ++ made.map fun c =>
    (i, (GitObject.commit c).payload, SessionVault.sign v (GitObject.commit c).payload))
  constructor
  case keys => rw [hkey]; exact h.keys
  case nonces => exact h.nonces
  case length => exact h.length
  case told => exact h.told
  case named =>
    intro q hq ssh n hheard
    rw [Named, hkey]
    exact h.named q hq ssh n hheard
  case signed =>
    intro j m sig hsig
    rcases List.mem_append.mp hsig with hsig | hsig
    · exact h.signed j m sig hsig
    · obtain ⟨c, -, hc⟩ := List.mem_map.mp hsig
      exact .inl ⟨c, (congrArg (·.2.1) hc).symm⟩
  case agreed =>
    intro l hl hrole hphase ssh n peer j hheard hpeer hj
    rw [hkey] at hj
    exact (h.agreed l hl hrole hphase ssh n peer j hheard hpeer hj).later hkey
      (fun q hq => ⟨q, hq, .refl q⟩) (.refl l)

variable [LawfulSessionVault V]

theorem Sound.delivered {w : Network ι V} (h : w.Sound) {p : Party ι}
    {before after : List (Party ι)} {now : Nat} {m : Msg} {r : CspResult Csp.Step} {s : Session}
    {v : V} (hparties : w.parties = before ++ p :: after)
    (hrun : Session.onMsg now m (p.session, w.vault p.owner) = (r, (s, v)))
    (hunforged : w.Unforged p m) (hclean : w.Clean (some (p, m))) :
    Sound {
      vault := Function.update w.vault p.owner v
      parties := before ++ p.after m r s :: after
      signed := w.signed ++ Party.proofs p.owner s r } := by
  have htook := Session.onMsg_took hrun
  have hp : p ∈ w.parties := by simp [hparties]
  have htold := h.told p hp
  have hkey := key_update htook.sameNode (before ++ p.after m r s :: after)
    (w.signed ++ Party.proofs p.owner s r)
  rw [Party.Told] at htold
  -- a party whose session goes on without a hello has heard what it had heard
  have goesOn : (p.session.phase ≠ .awaitHello ∨ ∃ e, r = .error e) → s.role = p.session.role →
      s.myNonce = p.session.myNonce → Party.proofs p.owner s r = [] → (p.after m r s).Told →
      (s.role = .listener → s.phase = .established → ∀ ssh nonce peer i,
        p.heard = some (ssh, nonce) →
        parseSshPubkey ssh = some peer → w.key i = some peer → w.RanWith i p nonce) →
      Sound {
        vault := Function.update w.vault p.owner v
        parties := before ++ p.after m r s :: after
        signed := w.signed ++ Party.proofs p.owner s r } := by
    intro hheard hrole hnonce hproofs htold' hagreed
    have hheard' := Party.after_heard (m := m) (s := s) hheard
    refine h.deliver hparties rfl ⟨rfl, hrole, hnonce, fun x hx => hheard'.trans hx⟩ hkey
      htold' ?_ ?_ ?_
    · rw [hheard']
      exact h.named p hp
    · rw [hproofs, List.append_nil]
      exact fun i m sig hsig => .inl hsig
    · rw [hheard']
      exact hagreed
  cases htook with
  | hello phase msg agreed =>
    rename_i vaultId name ssh nonce cb binding proto
    subst msg
    rw [phase] at htold
    have hafter : (p.after (.hello vaultId name ssh nonce cb proto)
        (.ok { out := [.authProof (SessionVault.sign (w.vault p.owner)
          (p.session.script nonce binding))] })
        { p.session with phase := .awaitAuth (p.session.script nonce binding) ssh }).heard = some
        (ssh, nonce) := by
      simp only [Party.after, phase]
    refine h.deliver hparties rfl ⟨rfl, rfl, rfl, fun x hx => ?_⟩ hkey
      ⟨nonce, binding, hafter, rfl⟩ ?_ ?_ ?_
    · cases htold.symm.trans hx
    · intro ssh' nonce' hheard
      obtain ⟨rfl, rfl⟩ : ssh = ssh' ∧ nonce = nonce' := by simpa using hafter.symm.trans hheard
      exact hclean p vaultId name ssh nonce cb proto rfl phase
    · intro i m sig hsig
      refine (List.mem_append.mp hsig).imp_right fun hsig => ?_
      obtain ⟨rfl, rfl, rfl⟩ : i = p.owner ∧ m = p.session.script nonce binding ∧ _ := by
        simpa [Party.proofs] using hsig
      exact ⟨rfl, ssh, nonce, binding, hafter, rfl⟩
    · intro _ hphase
      cases hphase
  | auth phase msg key verified still admitted kept advertises =>
    rename_i script sig ssh peer tips
    subst msg
    rw [phase] at htold
    obtain ⟨nonce, binding, hheard, rfl⟩ := htold
    have hne : p.session.phase ≠ .awaitHello := by rw [phase]; exact Phase.noConfusion
    refine goesOn (.inl hne) rfl rfl rfl ⟨ssh, nonce, peer, ?_, rfl, key⟩ ?_
    · rw [Party.after_heard (.inl hne), hheard]
    · intro hrole _ ssh' nonce' peer' i hheard' hpeer' hi
      obtain ⟨rfl, rfl⟩ : ssh = ssh' ∧ nonce = nonce' := by simpa using hheard.symm.trans hheard'
      obtain rfl : peer = peer' := Option.some.inj (key.symm.trans hpeer')
      obtain ⟨sig', hsig'⟩ := (hunforged _ ssh sig peer phase rfl key verified).1 i hi
      exact h.agree hp hrole hheard key hi hsig'
  | refused phase still =>
    rename_i e
    refine goesOn (.inr ⟨e, rfl⟩) rfl rfl rfl ?_ fun _ hphase => absurd hphase phase
    have hheard := Party.after_heard (p := p) (m := m) (s := p.session) (.inr ⟨e, rfl⟩)
    rw [Party.Told, hheard]
    exact htold
  | running phase node =>
    rename_i batch
    have hne : p.session.phase ≠ .awaitHello := by rw [phase]; exact Phase.noConfusion
    have hproofs : Party.proofs p.owner { p.session with pendingBatch := batch } r = [] := by
      cases r with
      | error e => rfl
      | ok st => simp only [Party.proofs, phase]
    refine goesOn (.inl hne) rfl rfl hproofs ?_ fun hrole hphase => h.agreed p hp hrole phase
    have hheard :=
      Party.after_heard (m := m) (r := r) (s := { p.session with pendingBatch := batch }) (.inl hne)
    rw [Party.Told, hheard]
    exact htold

/-- Step lemma. -/
theorem Sound.step {w w' : Network ι V} {e : Option (Party ι × Msg)} (h : w.Sound)
    (hclean : w.Clean e) (hstep : w.Step e w') : w'.Sound := by
  cases hstep with
  | opened i role cb enrolled length unseen => exact h.opened i role cb enrolled length unseen
  | worked i made node => exact h.worked i made node
  | delivered parties run unforged => exact h.delivered parties run unforged hclean

/-- Run lemma. -/
theorem Sound.runs {w w' : Network ι V} (h : w.Sound) (hr : Runs w w') : w'.Sound := by
  induction hr with
  | refl => exact h
  | tail _ hstep ih =>
    obtain ⟨e, hclean, hstep⟩ := hstep
    exact ih.step hclean hstep

omit [Replica V Oid] [DecidableEq ι] [LawfulSessionVault V] in
theorem sound_start {vault : ι → V} (hkeys : Function.Injective (key { vault })) :
    Sound { vault } where
  keys := hkeys
  nonces := List.nodup_nil
  length := by rintro _ ⟨⟩
  told := by rintro _ ⟨⟩
  named := by rintro _ ⟨⟩
  signed := by rintro _ _ _ ⟨⟩
  agreed := by rintro _ ⟨⟩

/-- Against an attacker who cannot forge, on every run in which each hello names whom it should:
a listener that is established with the key of an honest node spoke with a connector of that
node, on the same two nonces; no session is established with its own key, or on a signature of
its own; and until it is established a session takes nothing in and gives nothing out. -/
theorem handshake_agreement {vault : ι → V} {w : Network ι V}
    (hkeys : Function.Injective (key { vault })) (hr : Runs { vault } w) :
    (∀ p ∈ w.parties, p.session.phase = .established → ∃ ssh nonce peer,
      p.heard = some (ssh, nonce) ∧
      p.session.peerSsh = some ssh ∧ parseSshPubkey ssh = some peer ∧ w.key p.owner ≠ some peer ∧
        (p.session.role = .listener → ∀ i, w.key i = some peer → w.RanWith i p nonce)) ∧
    ∀ p ∈ w.parties, p.session.phase ≠ .established → ∀ now m r s v,
      Session.onMsg now m (p.session, w.vault p.owner) = (r, (s, v)) →
        (w.Unforged p m → s.phase = .established →
          ∃ sig, m = .authProof sig ∧ ∀ msg, (p.owner, msg, sig) ∉ w.signed) ∧
        Replica.store v = Replica.store (w.vault p.owner) ∧
        SessionVault.known v = SessionVault.known (w.vault p.owner) ∧
        (∀ st, r = .ok st → st.integrated = 0 ∧ st.relay = [] ∧
          ∀ x ∈ st.out, (∃ sig, x = .authProof sig) ∨ s.phase = .established ∧ ∃ tips,
          x = .frontierDigest tips) ∧
        (s.phase = .established → p.session.role = .listener → ∃ ssh, s.peerSsh = some ssh ∧
          SessionVault.admitPeer ssh p.session.enrollmentAuthorized now (w.vault p.owner) =
          (.ok true, v)) := by
  have h := (sound_start hkeys).runs hr
  constructor
  · intro p hp hphase
    have htold := h.told p hp
    rw [Party.Told, hphase] at htold
    obtain ⟨ssh, nonce, peer, hheard, hssh, hpeer⟩ := htold
    obtain ⟨-, hown, -⟩ := h.named p hp ssh nonce hheard
    refine ⟨ssh, nonce, peer, hheard, hssh, hpeer, fun hk => hown (hpeer.trans hk.symm),
      fun hrole i hi => ?_⟩
    exact h.agreed p hp hrole hphase ssh nonce peer i hheard hpeer hi
  · intro p hp hphase now m r s v hrun
    have htold := h.told p hp
    rw [Party.Told] at htold
    cases Session.onMsg_took hrun with
    | hello _ _ _ =>
      refine ⟨(fun _ hs => by cases hs), rfl, rfl, fun st hst => ?_, fun hs => by cases hs⟩
      obtain rfl := Except.ok.inj hst
      exact ⟨rfl, rfl, fun x hx => .inl ⟨_, List.mem_singleton.mp hx⟩⟩
    | auth phase msg key verified still admitted kept advertises =>
      rename_i script sig ssh peer tips
      rw [phase] at htold
      obtain ⟨nonce, binding, hheard, rfl⟩ := htold
      obtain ⟨-, hown, -⟩ := h.named p hp ssh nonce hheard
      refine ⟨fun hunforged _ => ⟨sig, msg, fun msg' hmem => ?_⟩, still.store, still.known,
        fun st hst => ?_,
        fun _ hrole => ⟨ssh, rfl, admitted hrole⟩⟩
      · have hk := (hunforged _ ssh sig peer phase msg key verified).2 p.owner msg' hmem
        exact hown (key.trans hk.symm)
      · obtain rfl := Except.ok.inj hst
        exact ⟨rfl, rfl, fun x hx => .inr ⟨rfl, _, List.mem_singleton.mp hx⟩⟩
    | refused _ still =>
      exact ⟨(fun _ hs => absurd hs hphase), still.store, still.known, (fun st hst => by cases hst),
        fun hs => absurd hs hphase⟩
    | running hs _ => exact absurd hs hphase

end Network

end Csp

/-! ### Two nodes and an attacker -/

namespace Csp.Small
open Session

/-- Two honest nodes of one vault: `true` will listen and `false` connect. -/
def nodes (i : Bool) : MemEngine Digest := MemEngine.create ⟨[if i then 1 else 2]⟩ [] []

abbrev Net : Type := Network Bool (MemEngine Digest)

abbrev Reaches : Net → Net → Prop := Relation.ReflTransGen fun w w' => ∃ e, w.Step e w'

def honest (i : Bool) : Party Bool :=
  ⟨i, { role := if i then .listener else .connector, channelBinding := []
        myNonce := List.replicate 32 (if i then 7 else 8), enrollmentAuthorized := i }, none⟩

def opened : Net := { vault := nodes, parties := [honest true, honest false] }

def feed (w : Net) (n : Nat) (m : Msg) : Net :=
  match w.parties[n]? with
  | none => w
  | some p =>
    let (r, s, v) := onMsg 0 m (p.session, w.vault p.owner)
    { vault := Function.update w.vault p.owner v
      parties := w.parties.take n ++ p.after m r s :: w.parties.drop (n + 1)
      signed := w.signed ++ Party.proofs p.owner s r }

def greet (seed nonce : Bytes) : Msg := .hello [] [] (identitySsh ⟨seed⟩) nonce [] protoVersion

def firstProof (w : Net) : Msg := .authProof (w.signed.headD (true, [], [])).2.2

def genuine (w : Net) (p : Party Bool) : Msg → Bool
  | .authProof sig =>
    match p.session.phase with
    | .awaitAuth script ssh =>
      match parseSshPubkey ssh with
      | none => true
      | some peer =>
        decide ((∀ i, w.key i = some peer → ∃ x ∈ w.signed, x.1 = i ∧ x.2.1 = script) ∧
          ∀ x ∈ w.signed, x.2.2 = sig → w.key x.1 = some peer)
    | _ => true
  | _ => true

theorem unforged_of_genuine {w : Net} {p : Party Bool} {m : Msg} (h : genuine w p m = true) :
    w.Unforged p m := by
  rintro script ssh sig peer hphase rfl hpeer -
  simp only [genuine, hphase, hpeer, decide_eq_true_eq] at h
  constructor
  · intro i hi
    obtain ⟨⟨j, msg, sig'⟩, hx, rfl, rfl⟩ := h.1 i hi
    exact ⟨sig', hx⟩
  · exact fun i msg hmem => h.2 (i, msg, sig) hmem rfl

def deliverable (w : Net) (n : Nat) (m : Msg) : Bool := (w.parties[n]?).any fun p => genuine w p m

def wellNamed (w : Net) (n : Nat) : Msg → Bool
  | .hello _ _ ssh nonce _ _ => (w.parties[n]?).all fun p => decide (w.Named p ssh nonce)
  | _ => true

theorem step_feed {w : Net} {n : Nat} {m : Msg} (h : deliverable w n m = true) :
    ∃ e, w.Step e (feed w n m) ∧ (wellNamed w n m = true → w.Clean e) := by
  cases hp : w.parties[n]? with
  | none => simp [deliverable, hp] at h
  | some p =>
    rw [deliverable, hp] at h
    obtain ⟨hn, hget⟩ := List.getElem?_eq_some_iff.mp hp
    have hparties : w.parties = w.parties.take n ++ p :: w.parties.drop (n + 1) := by
      rw [← hget, ← List.drop_eq_getElem_cons hn, List.take_append_drop]
    refine ⟨some (p, m), ?_, ?_⟩
    · rcases hrun : onMsg 0 m (p.session, w.vault p.owner) with ⟨r, s, v⟩
      rw [feed, hp]
      simp only [hrun]
      exact .delivered hparties hrun (unforged_of_genuine h)
    · rintro hnamed q vaultId name ssh nonce cb proto hq -
      obtain ⟨rfl, rfl⟩ : p = q ∧ m = .hello vaultId name ssh nonce cb proto := by simpa using hq
      rw [wellNamed, hp] at hnamed
      exact of_decide_eq_true hnamed

theorem opened_run : Network.Runs { vault := nodes } opened := by
  have listens := Network.Step.opened (w := ({ vault := nodes } : Net)) true .listener [] true
    (show (honest true).session.myNonce.length = 32 by decide) (by rintro _ ⟨⟩)
  have connects := Network.Step.opened (w := { vault := nodes, parties := [honest true] }) false
    .connector [] false
    (show (honest false).session.myNonce.length = 32 by decide) (by
      rintro _ hp
      obtain rfl := List.mem_singleton.mp hp
      exact ⟨by decide, fun _ _ hheard => by cases hheard⟩)
  have quiet : ∀ w : Net, w.Clean none := by rintro w p _ _ _ _ _ _ ⟨⟩
  exact .tail (.single ⟨none, quiet _, listens⟩) ⟨none, quiet _, connects⟩

/-- The connector hears the listener's nonce with some key, the listener hears the connector,
and is handed its proof. -/
def greeted (seed : Bytes) : Net := feed opened 1 (greet seed (honest true).session.myNonce)
def met (seed : Bytes) : Net := feed (greeted seed) 0 (greet [2] (honest false).session.myNonce)
def proved (seed : Bytes) : Net := feed (met seed) 0 (firstProof (met seed))

def mirrored : Net := feed opened 1 (greet [2] (List.replicate 32 9))
def reflected : Net := feed mirrored 1 (firstProof mirrored)

/-- The nodes by themselves. -/
theorem handshake_agreement_nodes : ∃ l ∈ (proved [1]).parties, l.session.role = .listener ∧
    l.session.phase = .established ∧ (proved [1]).RanWith false l
    (honest false).session.myNonce := by
  have hkeys : Function.Injective (Network.key ({ vault := nodes } : Net)) := by decide +kernel
  obtain ⟨e₁, hs₁, hc₁⟩ := step_feed (w := opened) (n := 1)
    (m := greet [1] (honest true).session.myNonce)
    (by decide +kernel)
  obtain ⟨e₂, hs₂, hc₂⟩ := step_feed (w := greeted [1]) (n := 0)
    (m := greet [2] (honest false).session.myNonce)
    (by decide +kernel)
  obtain ⟨e₃, hs₃, hc₃⟩ := step_feed (w := met [1]) (n := 0) (m := firstProof (met [1]))
    (by decide +kernel)
  have hrun : Network.Runs { vault := nodes } (proved [1]) :=
    ((opened_run.tail ⟨e₁, hc₁ (by decide +kernel), hs₁⟩).tail
      ⟨e₂, hc₂ (by decide +kernel), hs₂⟩).tail
      ⟨e₃, hc₃ (by decide +kernel), hs₃⟩
  have hlistener : ∃ l ∈ (proved [1]).parties, l.session.role = .listener ∧
      l.session.phase = .established ∧
      l.heard.map (·.2) = some (honest false).session.myNonce ∧
      l.session.peerSsh.bind parseSshPubkey = (proved [1]).key false := by decide +kernel
  obtain ⟨l, hl, hrole, hphase, hnonce, hkey⟩ := hlistener
  obtain ⟨ssh, nonce, peer, hheard, hssh, hpeer, -, hran⟩ :=
    (Network.handshake_agreement hkeys hrun).1 l hl hphase
  have hn : nonce = (honest false).session.myNonce := by simpa [hheard] using hnonce
  refine ⟨l, hl, hrole, hphase, ?_⟩
  rw [← hn]
  exact hran hrole false (by rw [← hkey, hssh, Option.bind_some, hpeer])

/-- A listener that is established with the key of a node that never heard of it, and a session
that is established on its own proof. -/
theorem handshake_relayed_reflected :
    (Reaches { vault := nodes } (proved [3]) ∧
      ∃ l ∈ (proved [3]).parties, l.session.role = .listener ∧ l.session.phase = .established ∧
        l.session.peerSsh.bind parseSshPubkey = (proved [3]).key false ∧
        ∀ c ∈ (proved [3]).parties, ∀ x, c.heard = some x →
        parseSshPubkey x.1 ≠ (proved [3]).key l.owner) ∧
    Reaches { vault := nodes } reflected ∧
      ∃ p ∈ reflected.parties, p.session.phase = .established ∧
        p.session.peerSsh.bind parseSshPubkey = reflected.key p.owner ∧
        ∃ x ∈ reflected.signed, x.1 = p.owner ∧ firstProof mirrored = .authProof x.2.2 := by
  have hopened : Reaches { vault := nodes } opened :=
    Relation.ReflTransGen.mono (fun _ _ ⟨e, _, hs⟩ => ⟨e, hs⟩) _ _ opened_run
  obtain ⟨e₁, hs₁, -⟩ := step_feed (w := opened) (n := 1)
    (m := greet [3] (honest true).session.myNonce)
    (by decide +kernel)
  obtain ⟨e₂, hs₂, -⟩ := step_feed (w := greeted [3]) (n := 0)
    (m := greet [2] (honest false).session.myNonce)
    (by decide +kernel)
  obtain ⟨e₃, hs₃, -⟩ := step_feed (w := met [3]) (n := 0) (m := firstProof (met [3]))
    (by decide +kernel)
  obtain ⟨e₄, hs₄, -⟩ := step_feed (w := opened) (n := 1) (m := greet [2] (List.replicate 32 9))
    (by decide +kernel)
  obtain ⟨e₅, hs₅, -⟩ := step_feed (w := mirrored) (n := 1) (m := firstProof mirrored)
    (by decide +kernel)
  refine ⟨⟨((hopened.tail ⟨e₁, hs₁⟩).tail ⟨e₂, hs₂⟩).tail ⟨e₃, hs₃⟩, ?_⟩,
    (hopened.tail ⟨e₄, hs₄⟩).tail ⟨e₅, hs₅⟩, ?_⟩
  · have hl : ∃ l ∈ (proved [3]).parties, l.session.role = .listener ∧
        l.session.phase = .established ∧
        l.session.peerSsh.bind parseSshPubkey = (proved [3]).key false ∧
        ∀ c ∈ (proved [3]).parties, ∀ x ∈ c.heard.toList,
        parseSshPubkey x.1 ≠ (proved [3]).key l.owner := by
      decide +kernel
    obtain ⟨l, hl, hrole, hphase, hkey, hall⟩ := hl
    exact ⟨l, hl, hrole, hphase, hkey, fun c hc x hx => hall c hc x (by simp [hx])⟩
  · decide +kernel

end Csp.Small
