import Csp.Exchange

/-! A catch-up that comes in chunks against one that comes in a single frame. The splitter
loses nothing and keeps to its limit; the receiver takes the batch in at the last frame, in
one call, whatever else comes in between. -/

namespace Csp
open Result

/-! ### The splitter -/

def totalBytes (chunk : List Bytes) : Nat := (chunk.map List.length).sum

/-- A chunk that may be sent: not empty, and within the limit unless it is one object. -/
def Sendable (limit : Nat) (chunk : List Bytes) : Prop :=
  chunk ≠ [] ∧ (totalBytes chunk ≤ limit ∨ ∃ r, chunk = [r])

/-- What holds of the chunks sent so far, the one being filled and its size. -/
structure Packed (limit : Nat) (acc : List (List Bytes) × List Bytes × Nat) : Prop where
  sent : ∀ chunk ∈ acc.1, Sendable limit chunk
  filling : acc.2.1 = [] ∨ Sendable limit acc.2.1
  size : acc.2.2 = totalBytes acc.2.1

theorem Packed.chunkObject {limit : Nat} {acc : List (List Bytes) × List Bytes × Nat}
    (h : Packed limit acc) (r : Bytes) :
    Packed limit (Csp.chunkObject limit acc r) := by
  obtain ⟨out, current, size⟩ := acc
  obtain ⟨hsent, hfilling, hsize⟩ := h
  dsimp only at hsent hfilling hsize
  have hone : Sendable limit [r] := ⟨by simp, .inr ⟨r, rfl⟩⟩
  rw [Csp.chunkObject]
  split_ifs with hfull
  · have hcur : current ≠ [] := by
      intro hnil
      simp [hnil] at hfull
    refine ⟨fun chunk hc => ?_, .inr hone, by simp [totalBytes]⟩
    rcases List.mem_append.mp hc with hc | hc
    · exact hsent chunk hc
    · exact List.mem_singleton.mp hc ▸ hfilling.resolve_left hcur
  · refine ⟨hsent, .inr ?_, by simp [totalBytes, hsize]⟩
    by_cases hcur : current = []
    · rw [hcur]
      exact hone
    · have hroom : size + r.length ≤ limit := by
        by_contra hlt
        exact hfull (by simp [hcur]; omega)
      refine ⟨by simp, .inl ?_⟩
      simpa [totalBytes, hsize] using hroom

theorem sendable_chunkObjects {raws : List Bytes} {limit : Nat} {chunk : List Bytes}
    (h : chunk ∈ chunkObjects raws limit) : Sendable limit chunk := by
  have hrun : ∀ (raws : List Bytes) acc, Packed limit acc →
      Packed limit (raws.foldl (chunkObject limit) acc) := by
    intro raws
    induction raws with
    | nil => exact fun _ h => h
    | cons r raws ih => exact fun acc h => ih _ (h.chunkObject r)
  have hpacked := hrun raws ([], [], 0) ⟨by simp, .inl rfl, rfl⟩
  unfold chunkObjects at h
  generalize raws.foldl (chunkObject limit) ([], [], 0) = acc at h hpacked
  obtain ⟨out, current, size⟩ := acc
  dsimp only at h
  split_ifs at h with hcur
  · exact hpacked.sent chunk h
  · rcases List.mem_append.mp h with h | h
    · exact hpacked.sent chunk h
    · exact List.mem_singleton.mp h ▸ hpacked.filling.resolve_left hcur

/-! ### The receiver -/

/-- An engine with the batches that were handed to it, in order. -/
structure Logged (V : Type) where
  engine : V
  calls : List (List Bytes)

section Receiver
variable {V Oid : Type} [ObjectId Oid] [SessionVault V Oid]

namespace Logged

def withEngine {α : Type} (x : StM CspError V α) : StM CspError (Logged V) α := fun l =>
  let (r, engine) := x l.engine
  (r, { l with engine })

instance : SessionVault (Logged V) Oid where
  vaultId l := SessionVault.vaultId l.engine
  name l := SessionVault.name l.engine
  identitySsh l := SessionVault.identitySsh l.engine
  sign l := SessionVault.sign l.engine
  frontierTips l := SessionVault.frontierTips l.engine
  known l := SessionVault.known l.engine
  has l := SessionVault.has l.engine
  exportClosure l := SessionVault.exportClosure l.engine
  integrate raws := fun l =>
    let (r, engine) := SessionVault.integrate raws l.engine
    (r, ⟨engine, l.calls ++ [raws]⟩)
  admitPeer ssh enrolled now := withEngine (SessionVault.admitPeer ssh enrolled now)
  markBootstrapComplete := withEngine SessionVault.markBootstrapComplete

end Logged

def isSide : Msg → Bool
  | .live _ => true
  | .ping => true
  | .pong => true
  | .wantTips _ => true
  | .frontierDigest _ => true
  | _ => false

def livePushes (ms : List Msg) : List (List Bytes) := ms.filterMap fun m =>
  match m with
  | .live raws => some raws
  | _ => none

/-- The frames in order, with other messages anywhere between them. -/
inductive Woven : List Msg → List Msg → Prop
  | nil : Woven [] []
  | frame {f : Msg} {frames ms : List Msg} (h : Woven frames ms) : Woven (f :: frames) (f :: ms)
  | side {m : Msg} {frames ms : List Msg} (hm : isSide m = true) (h : Woven frames ms) :
    Woven frames (m :: ms)

variable [Crates]

def Session.onMsgs (now : Nat) (ms : List Msg) (x : Session × V) : Session × V :=
  ms.foldl (fun x m => (Session.onMsg now m x).2) x

/-- What a receiving end has come to between two answers: the handshake and whatever else its
peer sends, where the frames of an answer come whole. -/
inductive Receiving : Session × V → Prop
  | opened {s : Session} (v : V) (phase : s.phase = .awaitHello) (empty : s.pendingBatch = []) :
    Receiving (s, v)
  | message {x : Session × V} (now : Nat) {m : Msg} (h : Receiving x)
      (other : x.1.phase = .established → ∀ raws isLast, m ≠ .objectsBatch raws isLast) :
      Receiving (Session.onMsg now m x).2
  | answer {x : Session × V} (now : Nat) {chunks : List (List Bytes)} {ms : List Msg}
    (h : Receiving x)
      (phase : x.1.phase = .established) (woven : Woven (batchFrames chunks) ms) :
      Receiving (Session.onMsgs now ms x)

omit [ObjectId Oid] [Crates] in
theorem Logged.integrate_run (raws : List Bytes) (l : Logged V) :
    SessionVault.integrate raws l = ((SessionVault.integrate raws l.engine).1,
      (⟨(SessionVault.integrate raws l.engine).2, l.calls ++ [raws]⟩ : Logged V)) := rfl

omit [ObjectId Oid] [Crates] in
theorem Logged.markBootstrapComplete_run (l : Logged V) :
    SessionVault.markBootstrapComplete l = ((SessionVault.markBootstrapComplete l.engine).1,
      (⟨(SessionVault.markBootstrapComplete l.engine).2, l.calls⟩ : Logged V)) := rfl

theorem onMsg_side (now : Nat) {m : Msg} (hm : isSide m = true) {s : Session}
    (hs : s.phase = .established) (l : Logged V) :
    ∃ v, (Session.onMsg now m (s, l)).2 = (s, ⟨v, l.calls ++ livePushes [m]⟩) := by
  rw [Session.onMsg_of_established hs]
  have quiet : (s, l) = (s, (⟨l.engine, l.calls ++ []⟩ : Logged V)) := by rw [List.append_nil]
  cases m with
  | live raws =>
    refine ⟨(SessionVault.integrate raws l.engine).2, ?_⟩
    rw [Session.onEstablished_live, Logged.integrate_run]
    rcases SessionVault.integrate raws l.engine with ⟨_ | n, w⟩
    · rfl
    · rfl
  | ping => exact ⟨l.engine, quiet⟩
  | pong => exact ⟨l.engine, quiet⟩
  | wantTips tips =>
    refine ⟨l.engine, ?_⟩
    rw [Session.onEstablished_wantTips]
    split
    · exact quiet
    · exact quiet
  | frontierDigest tips => exact ⟨l.engine, quiet⟩
  | _ => cases hm

omit [ObjectId Oid] [Crates] in
theorem finishBatch_logged (raws : List Bytes) (s : Session) (l : Logged V) :
    ∃ v, (Session.finishBatch raws (s, l)).2 = (s, ⟨v, l.calls ++ [raws]⟩) := by
  rw [Session.finishBatch_run, Logged.integrate_run]
  rcases SessionVault.integrate raws l.engine with ⟨_ | n, w⟩
  · exact ⟨w, rfl⟩
  · refine ⟨(SessionVault.markBootstrapComplete w).2, ?_⟩
    simp only [Logged.markBootstrapComplete_run]
    rcases SessionVault.markBootstrapComplete w with ⟨_ | _, w'⟩
    · rfl
    · rfl

theorem onMsg_chunk (now : Nat) (chunk : List Bytes) {s : Session} (hs : s.phase = .established)
    (l : Logged V) :
    (Session.onMsg now (.objectsBatch chunk false) (s, l)).2 =
      ({ s with pendingBatch := s.pendingBatch ++ chunk }, l) := by
  rw [Session.onMsg_of_established hs, Session.onEstablished_objectsBatch]
  rfl

theorem onMsg_last (now : Nat) (chunk : List Bytes) {s : Session} (hs : s.phase = .established)
    (l : Logged V) :
    ∃ v, (Session.onMsg now (.objectsBatch chunk true) (s, l)).2 =
      ({ s with pendingBatch := [] }, ⟨v, l.calls ++ [s.pendingBatch ++ chunk]⟩) := by
  rw [Session.onMsg_of_established hs, Session.onEstablished_objectsBatch, if_pos rfl]
  exact finishBatch_logged _ _ l

/-! ### A run of messages -/

omit [Crates] in
theorem livePushes_append (ms ms' : List Msg) : livePushes (ms ++ ms') = livePushes ms ++
    livePushes ms' :=
  List.filterMap_append

theorem onMsgs_side (now : Nat) {ms : List Msg} (hms : ∀ m ∈ ms, isSide m = true) {s : Session}
    (hs : s.phase = .established) (l : Logged V) :
    ∃ v, Session.onMsgs now ms (s, l) = (s, ⟨v, l.calls ++ livePushes ms⟩) := by
  induction ms generalizing l with
  | nil => exact ⟨l.engine, by simp [Session.onMsgs, livePushes]⟩
  | cons m ms ih =>
    obtain ⟨v, hv⟩ := onMsg_side now (hms m List.mem_cons_self) hs l
    obtain ⟨w, hw⟩ := ih (fun m' h => hms m' (List.mem_cons_of_mem m h))
      ⟨v, l.calls ++ livePushes [m]⟩
    refine ⟨w, ?_⟩
    show Session.onMsgs now ms (Session.onMsg now m (s, l)).2 = _
    rw [hv, hw, List.append_assoc, ← livePushes_append]
    rfl

omit [Crates] in
theorem Woven.side_of_nil {ms : List Msg} (h : Woven [] ms) : ∀ m ∈ ms, isSide m = true := by
  generalize hf : ([] : List Msg) = frames at h
  induction h with
  | nil => simp
  | frame h ih => cases hf
  | side hm h ih => exact List.forall_mem_cons.mpr ⟨hm, ih hf⟩

/-- Up to the last frame nothing is handed over but what is pushed live; the batch is handed
over with the last frame. -/
theorem onMsgs_upToLast (now : Nat) {frames ms : List Msg} (hw : Woven frames ms)
    {chunks : List (List Bytes)} (hf : frames = batchFrames chunks) {s : Session}
    (hs : s.phase = .established) (l : Logged V) :
    ∃ front chunk back pend v, ms = front ++ .objectsBatch chunk true :: back ∧
    (∀ m ∈ back, isSide m = true) ∧
      Session.onMsgs now front (s, l) = ({ s with pendingBatch := pend },
        ⟨v, l.calls ++ livePushes front⟩) ∧
      pend ++ chunk = s.pendingBatch ++ chunks.flatten := by
  induction hw generalizing chunks s l with
  | nil =>
    rcases Session.batchFrames_cases chunks with h | ⟨_, _, _, _, h⟩
    · rw [h] at hf
      cases hf
    · rw [h] at hf
      cases hf
  | @frame f frames ms hw ih =>
    rcases Session.batchFrames_cases chunks with h | ⟨chunk, rest, rfl, hrest, h⟩
    · rw [h] at hf
      obtain ⟨rfl, rfl⟩ := List.cons.inj hf
      exact ⟨[], _, ms, s.pendingBatch, l.engine, rfl,
        hw.side_of_nil, by simp [Session.onMsgs, livePushes], rfl⟩
    · rw [h] at hf
      obtain ⟨rfl, rfl⟩ := List.cons.inj hf
      obtain ⟨front, last, back, pend, v, rfl, hback, hfeed, hpend⟩ :=
        ih rfl (s := { s with pendingBatch := s.pendingBatch ++ chunk }) hs l
      refine ⟨.objectsBatch chunk false :: front, last, back, pend, v, rfl, hback, ?_, ?_⟩
      · show Session.onMsgs now front (Session.onMsg now (.objectsBatch chunk false) (s, l)).2 = _
        rw [onMsg_chunk now chunk hs, hfeed]
        rfl
      · rw [hpend, List.append_assoc, List.flatten_cons]
  | @side m frames ms hm hw ih =>
    obtain ⟨v, hv⟩ := onMsg_side now hm hs l
    obtain ⟨front, last, back, pend, w, rfl, hback, hfeed, hpend⟩ :=
      ih hf hs ⟨v, l.calls ++ livePushes [m]⟩
    refine ⟨m :: front, last, back, pend, w, rfl, hback, ?_, hpend⟩
    show Session.onMsgs now front (Session.onMsg now m (s, l)).2 = _
    rw [hv, hfeed, List.append_assoc, ← livePushes_append]
    rfl

theorem onMsgs_append (now : Nat) (ms ms' : List Msg) (x : Session × V) :
    Session.onMsgs now (ms ++ ms') x = Session.onMsgs now ms' (Session.onMsgs now ms x) :=
  List.foldl_append

theorem onMsgs_answer (now : Nat) {chunks : List (List Bytes)} {ms : List Msg}
    (hw : Woven (batchFrames chunks) ms) {s : Session} (hs : s.phase = .established)
    (l : Logged V) :
    ∃ front chunk back v₀ v₁ v₂ pend, ms = front ++ .objectsBatch chunk true :: back ∧
      Session.onMsgs now front (s, l) = ({ s with pendingBatch := pend },
        ⟨v₀, l.calls ++ livePushes front⟩) ∧
      Session.onMsgs now (front ++ [.objectsBatch chunk true]) (s, l) =
        ({ s with pendingBatch := [] }, ⟨v₁, l.calls ++ livePushes front ++
        [s.pendingBatch ++ chunks.flatten]⟩) ∧
      Session.onMsgs now ms (s, l) = ({ s with pendingBatch := [] },
        ⟨v₂, l.calls ++ livePushes front ++ [s.pendingBatch ++ chunks.flatten] ++
        livePushes back⟩) := by
  obtain ⟨front, chunk, back, pend, v₀, rfl, hback, hfront, hpend⟩ :=
    onMsgs_upToLast now hw rfl hs l
  obtain ⟨v₁, hlast⟩ := onMsg_last now chunk (s := { s with pendingBatch := pend }) hs
    ⟨v₀, l.calls ++ livePushes front⟩
  have hupTo : Session.onMsgs now (front ++ [.objectsBatch chunk true]) (s, l) =
      ({ s with pendingBatch := [] }, ⟨v₁, l.calls ++ livePushes front ++
      [s.pendingBatch ++ chunks.flatten]⟩) := by
    rw [onMsgs_append, hfront]
    show (Session.onMsg now (.objectsBatch chunk true) _).2 = _
    rw [hlast, hpend]
  obtain ⟨v₂, hafter⟩ := onMsgs_side now hback (s := { s with pendingBatch := [] }) hs
    (⟨v₁, l.calls ++ livePushes front ++ [s.pendingBatch ++ chunks.flatten]⟩ : Logged V)
  refine ⟨front, chunk, back, v₀, v₁, v₂, pend, rfl, hfront, hupTo, ?_⟩
  rw [List.append_cons, onMsgs_append, hupTo, hafter]

/-! ### The answer to `WantTips` -/

section Answer
variable [Replica V Oid] [LawfulSessionVault V]

instance : Replica (Logged V) Oid where
  store l := Replica.store l.engine
  pending l := Replica.pending l.engine

instance : LawfulSessionVault (Logged V) where
  has_eq l := LawfulSessionVault.has_eq l.engine
  frontierTips_eq l := LawfulSessionVault.frontierTips_eq l.engine
  integrate_ok := by
    intro raws n l l' h
    rw [Logged.integrate_run] at h
    rcases hi : SessionVault.integrate raws l.engine with ⟨r, w⟩
    rw [hi] at h
    obtain ⟨rfl, rfl⟩ := Prod.mk.inj h
    obtain ⟨hnode, hdec, hpending, hknown, hcount⟩ := LawfulSessionVault.integrate_ok hi
    exact ⟨⟨hnode.vaultId, hnode.identitySsh, hnode.sign⟩, hdec, hpending, hknown, hcount⟩
  integrate_node raws l := by
    obtain ⟨hid, hssh, hsign⟩ := LawfulSessionVault.integrate_node raws l.engine
    exact ⟨hid, hssh, hsign⟩
  markBootstrapComplete_run l := by
    obtain ⟨w, hw, ⟨⟨hid, hssh, hsign⟩, hstore, hknown⟩, hpending⟩ :=
      LawfulSessionVault.markBootstrapComplete_run l.engine
    refine ⟨⟨w, l.calls⟩, ?_, ⟨⟨hid, hssh, hsign⟩, hstore, hknown⟩, hpending⟩
    rw [Logged.markBootstrapComplete_run, hw]
  admitPeer_run ssh enrolled now l := by
    obtain ⟨ok, w, hw, ⟨⟨hid, hssh, hsign⟩, hstore, hknown⟩, hpending⟩ :=
      LawfulSessionVault.admitPeer_run ssh enrolled now l.engine
    refine ⟨ok, ⟨w, l.calls⟩, ?_, ⟨⟨hid, hssh, hsign⟩, hstore, hknown⟩, hpending⟩
    show Logged.withEngine (SessionVault.admitPeer ssh enrolled now) l = _
    rw [Logged.withEngine, hw]

theorem onMsg_pendingBatch (now : Nat) {m : Msg} {s : Session} {l : Logged V}
    (hs : s.pendingBatch = []) (other : s.phase = .established → ∀ raws isLast,
      m ≠ .objectsBatch raws isLast) :
    (Session.onMsg now m (s, l)).2.1.pendingBatch = [] := by
  by_cases hphase : s.phase = .established
  · have side : isSide m = true → (Session.onMsg now m (s, l)).2.1.pendingBatch = [] := by
      intro hm
      obtain ⟨v, hv⟩ := onMsg_side now hm hphase l
      rw [hv, hs]
    cases m with
    | objectsBatch raws isLast => exact absurd rfl (other hphase raws isLast)
    | objects raws =>
      obtain ⟨v, hv⟩ := finishBatch_logged raws s l
      rw [Session.onMsg_of_established hphase, Session.onEstablished_objects, hv, hs]
    | hello _ _ _ _ _ _ =>
      rw [Session.onMsg_of_established hphase]
      exact hs
    | authProof _ =>
      rw [Session.onMsg_of_established hphase]
      exact hs
    | _ => exact side rfl
  · rcases hrun : Session.onMsg now m (s, l) with ⟨r, s', l'⟩
    cases Session.onMsg_took hrun with
    | hello _ _ _ => exact hs
    | auth _ _ _ _ _ _ _ _ => exact hs
    | refused _ _ => exact hs
    | running hest _ => exact absurd hest hphase

/-- Between two answers nothing is left behind. -/
theorem Receiving.pendingBatch {x : Session × Logged V} (h : Receiving x) :
    x.1.pendingBatch = [] := by
  induction h with
  | opened v phase empty => exact empty
  | message now h other ih => exact onMsg_pendingBatch now ih other
  | @answer x now chunks ms h phase woven ih =>
    obtain ⟨_, _, _, _, _, _, _, -, -, -, hall⟩ := onMsgs_answer now woven phase x.2
    exact congrArg (·.1.pendingBatch) hall

/-- What the chunks of an answer come to: the engine is handed the sender's objects once, with
the last frame. -/
theorem batch_handed_over_once {W : Type} [SessionVault W Oid] :
    (∀ (raws : List Bytes) (limit : Nat), (chunkObjects raws limit).flatten = raws ∧
      ∀ chunk ∈ chunkObjects raws limit, chunk ≠ [] ∧
      (totalBytes chunk ≤ limit ∨ ∃ r, chunk = [r])) ∧
    ∀ (now now' : Nat) (tips : List Str) (sender : Session) (w : W) (st : Step),
      sender.phase = .established → (Session.onMsg now (.wantTips tips) (sender, w)).1 = .ok st →
      ∃ raws, SessionVault.exportClosure w (tips.filterMap fun hex =>
        (fromHex hex : CspResult Oid).toOption) = .ok raws ∧
        ∀ (x : Session × Logged V) (ms : List Msg), Receiving x → x.1.phase = .established →
        Woven st.out ms →
          ∃ front chunk back, ms = front ++ .objectsBatch chunk true :: back ∧
            (Session.onMsgs now' front x).2.calls = x.2.calls ++ livePushes front ∧
            (Session.onMsgs now' (front ++ [.objectsBatch chunk true]) x).2.calls =
              x.2.calls ++ livePushes front ++ [raws] ∧
            (Session.onMsgs now' (front ++ [.objectsBatch chunk true]) x).1.pendingBatch = [] ∧
            (Session.onMsgs now' ms x).2.calls = x.2.calls ++ livePushes front ++ [raws] ++
            livePushes back ∧
            (Session.onMsgs now' ms x).1.pendingBatch = [] := by
  refine ⟨fun raws limit => ⟨Session.flatten_chunkObjects raws limit, fun chunk hc =>
    sendable_chunkObjects hc⟩, ?_⟩
  intro now now' tips sender w st hsender hstep
  rw [Session.onMsg_of_established hsender, Session.onEstablished_wantTips] at hstep
  rcases hraws : SessionVault.exportClosure w (tips.filterMap fun hex =>
      (fromHex hex : CspResult Oid).toOption) with e | raws
  · rw [hraws] at hstep
    cases hstep
  · rw [hraws] at hstep
    obtain rfl := Except.ok.inj hstep
    refine ⟨raws, rfl, fun x ms hx hphase hw => ?_⟩
    obtain ⟨front, chunk, back, v₀, v₁, v₂, pend, rfl, hfront, hlast, hall⟩ :=
      onMsgs_answer now' hw hphase x.2
    rw [hx.pendingBatch, List.nil_append, Session.flatten_chunkObjects] at hlast hall
    refine ⟨front, chunk, back, rfl, ?_, ?_, ?_, ?_, ?_⟩
    · exact congrArg (·.2.calls) hfront
    · exact congrArg (·.2.calls) hlast
    · exact congrArg (·.1.pendingBatch) hlast
    · exact congrArg (·.2.calls) hall
    · exact congrArg (·.1.pendingBatch) hall

end Answer

end Receiver

end Csp

namespace Csp.Small

theorem woven_self (frames : List Msg) : Woven frames frames := by
  induction frames with
  | nil => exact .nil
  | cons f frames ih => exact .frame ih

def server : MemEngine Digest := (MemEngine.commitFromFiles oneFile 0 founder).2

def advertised : List Str := server.state.known.map toHex

def dialer : Session := { role := .connector, channelBinding := [], myNonce := [8] }

def heardHello : Session × Logged (MemEngine Digest) :=
  (Session.onMsg 0 (greet [1] [7]) (dialer, ⟨founder, []⟩)).2

def welcomed : Session × Logged (MemEngine Digest) :=
  (Session.onMsg 0 (.authProof (Crates.sign [1] (transcript [8] [7] []))) heardHello).2

/-- The answer comes after a live push of nothing. -/
theorem batch_handed_over_once_welcomed : ∃ raws ms, raws ≠ [] ∧
    (Session.onMsgs 0 ms welcomed).2.calls = [[], raws] ∧
    (Session.onMsgs 0 ms welcomed).1.pendingBatch = [] := by
  have hphases : heardHello.1.phase ≠ .established ∧ welcomed.1.phase = .established ∧
      welcomed.2.calls = [] := by
    decide +kernel
  obtain ⟨hheard, hphase, hcalls⟩ := hphases
  have hwelcomed : Receiving welcomed :=
    .message 0 (.message 0 (.opened _ rfl rfl) fun h => Phase.noConfusion h) fun h =>
    absurd h hheard
  have hanswer : ((Session.onMsg 0 (.wantTips advertised) ({ dialer with phase := .established },
        server)).1.toOption.any
      fun st => decide (st.out ≠ [.objectsBatch [] true] ∧ livePushes st.out = [])) =
      true := by decide +kernel
  rcases hst : (Session.onMsg 0 (.wantTips advertised) ({ dialer with phase := .established },
      server)).1 with e | st
  · rw [hst] at hanswer
    cases hanswer
  · rw [hst] at hanswer
    obtain ⟨hout, hquiet⟩ : st.out ≠ [.objectsBatch [] true] ∧ livePushes st.out = [] :=
      of_decide_eq_true hanswer
    obtain ⟨raws, hraws, hrun⟩ :=
      (batch_handed_over_once (V := MemEngine Digest)).2 0 0 advertised _ _ st rfl hst
    have hne : raws ≠ [] := by
      rintro rfl
      rw [Session.onMsg_of_established rfl, Session.onEstablished_wantTips, hraws] at hst
      exact hout (Except.ok.inj hst ▸ rfl)
    obtain ⟨front, chunk, back, hms, -, -, -, hall, hleft⟩ :=
      hrun welcomed (.live [] :: st.out) hwelcomed hphase
      (.side rfl (woven_self _))
    refine ⟨raws, _, hne, ?_, hleft⟩
    -- the live push stands before the last frame, and nothing else is pushed
    cases front with
    | nil => cases hms
    | cons m front =>
      rw [List.cons_append, List.cons.injEq] at hms
      obtain ⟨rfl, hrest⟩ := hms
      rw [hrest, livePushes_append, List.append_eq_nil_iff] at hquiet
      obtain ⟨hfront, hback⟩ := hquiet
      have hback' : livePushes back = [] := hback
      have hfront' : livePushes (.live [] :: front) = [[]] := congrArg ([] :: ·) hfront
      rw [hall, hcalls, hback', hfront']
      rfl

end Csp.Small
