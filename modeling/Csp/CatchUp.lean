import Mathlib.Data.Multiset.DershowitzManna
import Csp.Convergence
import Csp.Exchange

/-! Catching up. Two honest engines on one connection advertise their frontiers, ask for what
they miss, and answer each other, in any order that the two queues allow. The exchange ends,
no step of it fails, and it leaves both with one `main`. -/

namespace Csp
open Result Session
variable {Oid : Type} [ObjectId Oid] [Crates]

/-- Two sessions on one connection, each with its engine and the messages on their way to it. -/
structure Link (Oid : Type) [ObjectId Oid] where
  session : Bool → Session
  engine : Bool → MemEngine Oid
  inbox : Bool → List Msg

namespace Link

def after (w : Link Oid) (b : Bool) (rest : List Msg) (r : CspResult Csp.Step) (s : Session)
    (e : MemEngine Oid) :
    Link Oid where
  session := Function.update w.session b s
  engine := Function.update w.engine b e
  inbox := Function.update (Function.update w.inbox b rest) (!b)
    (w.inbox (!b) ++ match r with
      | .ok st => st.out
      | .error _ => [])

inductive Delivered (w : Link Oid) : CspResult Csp.Step → Link Oid → Prop
  | mk {b : Bool} {now : Nat} {m : Msg} {rest : List Msg} {r : CspResult Csp.Step} {s : Session}
    {e : MemEngine Oid}
      (head : w.inbox b = m :: rest) (run : onMsg now m (w.session b, w.engine b) = (r, (s, e))) :
      Delivered w r (w.after b rest r s e)

abbrev Runs : Link Oid → Link Oid → Prop := Relation.ReflTransGen fun w w' => ∃ r, w.Delivered r w'

/-- Both ends are honest and established, and have just advertised their frontiers. -/
structure Joined (w : Link Oid) : Prop where
  honest : ∀ b, Honest (w.engine b)
  established : ∀ b, (w.session b).phase = .established
  pending : ∀ b, (w.session b).pendingBatch = []
  advertised : ∀ b, ∃ tips, (w.engine (!b)).frontierTips = .ok tips ∧
    w.inbox b = [.frontierDigest (tips.map toHex)]

section After
variable (w : Link Oid) (b : Bool) (rest : List Msg) (r : CspResult Csp.Step) (s : Session)
    (e : MemEngine Oid)

omit [Crates] in
@[simp] theorem after_session : (w.after b rest r s e).session b = s := Function.update_self ..
omit [Crates] in
@[simp] theorem after_engine : (w.after b rest r s e).engine b = e := Function.update_self ..
omit [Crates] in
@[simp] theorem after_session_not : (w.after b rest r s e).session (!b) = w.session (!b) :=
  Function.update_of_ne (by cases b <;> decide) ..
omit [Crates] in
@[simp] theorem after_engine_not : (w.after b rest r s e).engine (!b) = w.engine (!b) :=
  Function.update_of_ne (by cases b <;> decide) ..
omit [Crates] in
@[simp] theorem after_inbox : (w.after b rest r s e).inbox b = rest :=
  (Function.update_of_ne (by cases b <;> decide) ..).trans (Function.update_self ..)
omit [Crates] in
@[simp] theorem after_inbox_not (st : Csp.Step) :
    (w.after b rest (.ok st) s e).inbox (!b) = w.inbox (!b) ++ st.out := Function.update_self ..

end After

/-! ### The measure -/

/-- What a message can still cause: an answer ranks below what it answers. -/
def rank : Msg → Nat
  | .frontierDigest _ => 2
  | .wantTips _ => 1
  | _ => 0

def inFlight (w : Link Oid) : Multiset Nat := ((w.inbox true ++ w.inbox false).map rank : List Nat)

omit [Crates] in
theorem inFlight_eq (w : Link Oid) (b : Bool) :
    w.inFlight = ((w.inbox b ++ w.inbox (!b)).map rank : List Nat) := by
  cases b with
  | true => rfl
  | false =>
    rw [inFlight, Multiset.coe_eq_coe]
    exact List.perm_append_comm.map rank

omit [Crates] in
theorem inFlight_after {w : Link Oid} {b : Bool} {m : Msg} {rest : List Msg}
    (head : w.inbox b = m :: rest) {st : Csp.Step} {s : Session} {e : MemEngine Oid}
    (hout : ∀ x ∈ st.out, rank x < rank m) :
    Multiset.IsDershowitzMannaLT (w.after b rest (.ok st) s e).inFlight w.inFlight := by
  rw [inFlight_eq _ b, inFlight_eq w b, after_inbox, after_inbox_not, head]
  refine ⟨((rest ++ w.inbox (!b)).map rank : List Nat), (st.out.map rank : List Nat), {rank m},
    ?_, ?_, ?_, ?_⟩
  · exact Multiset.singleton_ne_zero _
  · rw [Multiset.coe_add, ← List.map_append, List.append_assoc]
  · rw [add_comm, ← Multiset.coe_singleton, Multiset.coe_add, List.cons_append, List.map_cons,
      List.singleton_append]
  · intro y hy
    obtain ⟨x, hx, rfl⟩ := List.mem_map.mp (Multiset.mem_coe.mp hy)
    exact ⟨rank m, Multiset.mem_singleton_self _, hout x hx⟩

/-! ### The invariant -/

/-- What holds all the time of an exchange that started at `w₀`. -/
structure Catching (w₀ w : Link Oid) : Prop where
  established : ∀ b, (w.session b).phase = .established
  honest : ∀ b, Honest (w.engine b)
  grown : ∀ b, (w₀.engine b).store.Extends (w.engine b).store
  kept : ∀ b, ∀ o ∈ (w₀.engine b).state.known, o ∈ (w.engine b).state.known
  bound : ∀ b, ∀ o ∈ (w.engine b).state.known, ∃ c, o ∈ (w₀.engine c).state.known
  kinds : ∀ b, ∀ m ∈ w.inbox b, mine m = true ∨ isWant m = true
  flow : ∀ b, ∃ tips, (w₀.engine (!b)).frontierTips = .ok tips ∧
    Flow tips (fun o => ∃ c, o ∈ (w₀.engine c).state.known) (w.engine b).state.known
    (w.session b).pendingBatch
      ((w.inbox b).filter mine) ((w.inbox (!b)).filter isWant)

omit [Crates] in
theorem forall_end {P : Bool → Prop} {b : Bool} (h : P b) (h' : P (!b)) : ∀ c, P c := by
  cases b with
  | true => exact fun c => by cases c <;> assumption
  | false => exact fun c => by cases c <;> assumption

theorem Joined.catching {w : Link Oid} (h : w.Joined) : w.Catching w where
  established := h.established
  honest := h.honest
  grown _ := .refl _
  kept _ _ ho := ho
  bound b _ ho := ⟨b, ho⟩
  kinds b m hm := by
    obtain ⟨tips, -, hin⟩ := h.advertised b
    rw [hin, List.mem_singleton] at hm
    exact .inl (hm ▸ rfl)
  flow b := by
    obtain ⟨tips, htips, hin⟩ := h.advertised b
    obtain ⟨tips', -, hin'⟩ := h.advertised (!b)
    refine ⟨tips, htips, ?_⟩
    rw [hin, hin']
    exact .advertised (h.pending b)

/-! ### One message -/

section Spec
variable [LawfulObjectId Oid] [LawfulCrates]

theorem Catching.onEstablished_ok {w₀ w : Link Oid} (h : w₀.Catching w) {b : Bool} {m : Msg}
    {rest : List Msg} (head : w.inbox b = m :: rest) :
    ∃ st s e, onEstablished m (w.session b, w.engine b) = (.ok st, (s, e)) := by
  obtain ⟨tips, htips, own⟩ := h.flow b
  obtain ⟨tips', htips', other⟩ := h.flow (!b)
  have hm := h.kinds b m (head ▸ List.mem_cons_self)
  rw [Bool.not_not, head] at other
  rw [head] at own
  rw [Bool.not_not] at htips'
  cases m with
  | frontierDigest hexes => exact ⟨_, _, _, onEstablished_frontierDigest hexes _ _⟩
  | wantTips hexes =>
    have hin : ∀ o ∈ tips', o ∈ (w.engine b).state.known := fun o ho =>
        h.kept b o (mem_of_mem_frontier htips' ho).1
    obtain ⟨raws, hraws, -⟩ := exchanged_want (v := w.engine b) (h.honest b)
      (h.established b) own other hin (h.bound b)
    refine ⟨{ out := batchFrames (chunkObjects raws catchupChunkBytes) }, w.session b,
      w.engine b, ?_⟩
    rw [onEstablished_wantTips, hraws]
  | objectsBatch raws isLast =>
    rw [List.filter_cons_of_pos rfl] at own
    generalize htoMe : Msg.objectsBatch raws isLast :: rest.filter mine = toMe at own
    generalize (w.inbox (!b)).filter isWant = asked at own
    cases own with
    | advertised => cases htoMe
    | asked => cases htoMe
    | done => cases htoMe
    | @answering chunks gathered =>
      rcases batchFrames_cases chunks with heq | ⟨chunk, chunks, rfl, -, heq⟩
      · rw [heq] at htoMe
        obtain ⟨rfl, rfl⟩ := Msg.objectsBatch.inj (List.cons.inj htoMe).1
        obtain ⟨n, e, hrun, -⟩ := (h.honest b).integrate_gathered gathered
        have hrun : SessionVault.integrate ((w.session b).pendingBatch ++ chunks.flatten)
            (w.engine b) = (.ok n, e) := hrun
        refine ⟨batchStep ((w.session b).pendingBatch ++ chunks.flatten) n,
          { w.session b with pendingBatch := [] },
          e.markBootstrapComplete, ?_⟩
        rw [onEstablished_objectsBatch, if_pos rfl, finishBatch_run, hrun]
        rfl
      · rw [heq] at htoMe
        obtain ⟨rfl, rfl⟩ := Msg.objectsBatch.inj (List.cons.inj htoMe).1
        exact ⟨_, _, _, onEstablished_objectsBatch _ _ _ _⟩
  | _ => simp [mine, isWant] at hm

omit [Crates] [LawfulObjectId Oid] [LawfulCrates] in
/-- What answers a message of a catch-up belongs to one, and ranks lower. -/
theorem rank_of_answers {m x : Msg} (hm : mine m = true ∨ isWant m = true)
    (h : answers m x = true) :
    rank x < rank m ∧ (mine x = true ∨ isWant x = true) := by
  cases m with
  | frontierDigest =>
    cases x with
    | wantTips => exact ⟨Nat.one_lt_two, .inr rfl⟩
    | _ => cases h
  | wantTips =>
    cases x with
    | objectsBatch => exact ⟨Nat.zero_lt_one, .inl rfl⟩
    | _ => cases h
  | ping => simp [mine, isWant] at hm
  | _ => cases h

theorem Catching.after {w₀ w : Link Oid} (h : w₀.Catching w) {b : Bool} {m : Msg} {rest : List Msg}
    (head : w.inbox b = m :: rest) {st : Csp.Step} {s : Session} {e : MemEngine Oid}
    (run : onEstablished m (w.session b, w.engine b) = (.ok st, (s, e))) :
    (∀ x ∈ st.out, rank x < rank m) ∧ w₀.Catching (w.after b rest (.ok st) s e) := by
  have hm := h.kinds b m (head ▸ List.mem_cons_self)
  have hpush : pushed m = none := by
    cases m with
    | live => simp [mine, isWant] at hm
    | objects => simp [mine, isWant] at hm
    | _ => rfl
  obtain ⟨tips, htips, own⟩ := h.flow b
  obtain ⟨tips', htips', other⟩ := h.flow (!b)
  rw [Bool.not_not, head] at other
  rw [head] at own
  rw [Bool.not_not] at htips'
  have hin : ∀ o ∈ tips', o ∈ (w.engine b).state.known := fun o ho =>
      h.kept b o (mem_of_mem_frontier htips' ho).1
  have hex := onEstablished_exchanged (h.honest b) (h.established b) run
    (fun raws hr => by rw [hpush] at hr; cases hr)
    own other hin (h.bound b)
  -- each answer ranks below the message, so the exchange comes to an end
  refine ⟨fun x hx => (rank_of_answers hm (hex.answers x hx)).1, ?_, ?_, ?_, ?_, ?_, ?_, ?_⟩
  · exact forall_end (b := b) (by rw [after_session]; exact hex.phase)
      (by rw [after_session_not]; exact h.established _)
  · exact forall_end (b := b) (by rw [after_engine]; exact hex.honest)
      (by rw [after_engine_not]; exact h.honest _)
  · exact forall_end (b := b) (by rw [after_engine]; exact (h.grown b).trans hex.ext)
      (by rw [after_engine_not]; exact h.grown _)
  · refine forall_end (b := b) ?_ (by rw [after_engine_not]; exact h.kept _)
    rw [after_engine]
    exact fun o ho => known_mono_of_learned hex.learned o (h.kept b o ho)
  · refine forall_end (b := b) ?_ (by rw [after_engine_not]; exact h.bound _)
    rw [after_engine]
    intro o ho
    rcases hex.bounded o ho with ho | ho | ⟨raws, hr, -⟩
    · exact h.bound b o ho
    · exact ho
    · rw [hpush] at hr
      cases hr
  · refine forall_end (b := b) ?_ ?_
    · rw [after_inbox]
      exact fun x hx => h.kinds b x (head ▸ List.mem_cons_of_mem _ hx)
    · rw [after_inbox_not]
      exact fun x hx => (List.mem_append.mp hx).elim (h.kinds _ x) fun hx =>
        (rank_of_answers hm (hex.answers x hx)).2
  · refine forall_end (b := b) ?_ ?_
    · refine ⟨tips, htips, ?_⟩
      rw [after_engine, after_session, after_inbox, after_inbox_not]
      exact hex.own
    · refine ⟨tips', by rwa [Bool.not_not], ?_⟩
      rw [Bool.not_not, after_engine_not, after_session_not, after_inbox, after_inbox_not]
      exact hex.other

/-- Step lemma: a message is taken without an error, the invariant stays, and the exchange
comes closer to its end. -/
theorem Catching.step {w₀ w w' : Link Oid} (h : w₀.Catching w) {r : CspResult Csp.Step}
    (hd : w.Delivered r w') :
    (∃ st, r = .ok st) ∧ w₀.Catching w' ∧ Multiset.IsDershowitzMannaLT w'.inFlight w.inFlight := by
  cases hd with
  | @mk b now m rest _ s e head run =>
    rw [onMsg_of_established (h.established b)] at run
    obtain ⟨st, s', e', hok⟩ := h.onEstablished_ok head
    obtain ⟨rfl, rfl, rfl⟩ : _ = r ∧ s' = s ∧ e' =
      e := by simpa only [Prod.mk.injEq] using hok.symm.trans run
    obtain ⟨hrank, hcatch⟩ := h.after head hok
    exact ⟨⟨st, rfl⟩, hcatch, inFlight_after head hrank⟩

/-- Run lemma. -/
theorem Catching.runs {w₀ w w' : Link Oid} (h : w₀.Catching w) (hr : Runs w w') :
    w₀.Catching w' := by
  induction hr with
  | refl => exact h
  | tail _ hstep ih =>
    obtain ⟨r, hd⟩ := hstep
    exact (ih.step hd).2.1

/-! ### The end of the exchange -/

/-- Nothing is on its way any more. -/
def Drained (w : Link Oid) : Prop := ∀ b, w.inbox b = []

omit [LawfulObjectId Oid] [LawfulCrates] in
theorem Catching.mem_tips {w₀ w : Link Oid} (h : w₀.Catching w) (hd : w.Drained) {b : Bool}
    {tips : List Oid} (htips : (w₀.engine (!b)).frontierTips = .ok tips) :
    ∀ o ∈ tips, o ∈ (w.engine b).state.known := by
  obtain ⟨tips', htips', hf⟩ := h.flow b
  obtain rfl := Except.ok.inj (htips.symm.trans htips')
  rw [hd b, hd (!b)] at hf
  exact hf.drained

omit [LawfulCrates] in
theorem Catching.mem_below {w₀ w : Link Oid} (h₀ : ∀ b, Honest (w₀.engine b)) (h : w₀.Catching w)
    (hd : w.Drained) {b : Bool} {tips : List Oid} (htips : (w₀.engine (!b)).frontierTips = .ok tips)
    {o p : Oid} (ho : o ∈ tips) (hdesc : Descends (w₀.engine (!b)).store o p)
    (hprim : isPrimitiveOid (w₀.engine (!b)).store p = true) :
    p ∈ (w.engine b).state.known := by
  have hknown := h.mem_tips hd htips o ho
  have hin := (h₀ (!b)).history.commitIn (mem_of_mem_frontier htips ho).1
  have hin' := (h.honest b).history.commitIn hknown
  have hdesc' := descends_tidy (h₀ (!b)).history.store (h.honest b).history.store hin hin' hdesc
  refine (h.honest b).history.covered o hknown p hdesc' ?_
  rwa [isPrimitiveOid_sound (h₀ (!b)).history.store.sound (h.honest b).history.store.sound
    (hin.ancestor hdesc)
    (hin'.ancestor hdesc')]

omit [LawfulCrates] in
theorem Catching.mem_kept {w₀ w : Link Oid} (h₀ : ∀ b, Honest (w₀.engine b)) (h : w₀.Catching w)
    (hd : w.Drained) (b : Bool) {o : Oid} (ho : o ∈ Csp.kept (w.engine b).store
      (w.engine b).state.known) :
    o ∈ Csp.kept (w.engine (!b)).store (w.engine (!b)).state.known := by
  obtain ⟨hknown, heff⟩ := (Csp.mem_kept fun _ => (h.honest b).history.commitIn).mp ho
  have hin := (h.honest b).history.commitIn hknown
  have hother : o ∈ (w.engine (!b)).state.known := by
    obtain ⟨c, hc⟩ := h.bound b o hknown
    by_cases hcb : c = b
    · -- it was known here, so a tip that was advertised is above it
      subst c
      have hin₀ := (h₀ b).history.commitIn hc
      have heff₀ := (effective_tidy (h.honest b).history.store
          (h₀ b).history.store hin hin₀).mpr heff
      obtain ⟨tips, htips, -⟩ := h.flow (!b)
      rw [Bool.not_not] at htips
      obtain ⟨k, hk, hdesc⟩ := exists_mem_frontier (fun _ => (h₀ b).history.commitIn)
        (h₀ b).history.primitive
        htips hc heff₀
      refine h.mem_below h₀ hd (b := !b) (by rwa [Bool.not_not]) hk (p := o) ?_ ?_
      · rwa [Bool.not_not]
      · rw [Bool.not_not]
        exact (h₀ b).history.primitive o hc
    · obtain rfl : c = !b := Bool.eq_not_of_ne hcb
      exact h.kept (!b) o hc
  refine (Csp.mem_kept fun _ => (h.honest (!b)).history.commitIn).mpr ⟨hother, ?_⟩
  exact (effective_tidy (h.honest b).history.store (h.honest (!b)).history.store hin
    ((h.honest (!b)).history.commitIn hother)).mpr heff

omit [LawfulObjectId Oid] [LawfulCrates] in
theorem exists_delivered {w : Link Oid} (h : ¬ w.Drained) : ∃ r w', w.Delivered r w' := by
  obtain ⟨b, hb⟩ := not_forall.mp h
  obtain ⟨m, rest, head⟩ := List.exists_cons_of_ne_nil hb
  exact ⟨onMsg 0 m (w.session b, w.engine b) |>.1, _, .mk head rfl⟩

theorem Catching.acc {w₀ w : Link Oid} (h : w₀.Catching w) :
    Acc (fun w' w => ∃ r, w.Delivered r w') w := by
  have hacc := (InvImage.wf inFlight Multiset.wellFounded_isDershowitzMannaLT).apply w
  induction hacc with
  | intro w _ ih =>
    refine .intro w fun w' ⟨r, hd⟩ => ?_
    obtain ⟨-, hcatch, hless⟩ := h.step hd
    exact ih w' hless hcatch

omit [LawfulObjectId Oid] [LawfulCrates] in
theorem exists_drained {w : Link Oid} (h : Acc (fun w' w => ∃ r, w.Delivered r w') w) :
    ∃ w', Runs w w' ∧ w'.Drained := by
  induction h with
  | intro w _ ih =>
    by_cases hd : w.Drained
    · exact ⟨w, .refl, hd⟩
    · obtain ⟨r, w', hstep⟩ := exists_delivered hd
      obtain ⟨w'', hrun, hd'⟩ := ih w' ⟨r, hstep⟩
      exact ⟨w'', .head ⟨r, hstep⟩ hrun, hd'⟩

/-- Two honest engines that are joined catch up: no message fails, every way of delivering them
comes to an end, and at the end each knows every primitive below what the other advertised,
and both have one `main`. -/
theorem catchup_converges {w₀ : Link Oid} (h : w₀.Joined) :
    (∀ w w' r, Runs w₀ w → w.Delivered r w' → ∃ st, r = .ok st) ∧
    Acc (fun w' w => ∃ r, w.Delivered r w') w₀ ∧
    (∀ w, Runs w₀ w → ∃ w', Runs w w' ∧ w'.Drained) ∧
    ∀ w, Runs w₀ w → w.Drained →
      (∀ b tips o p, (w₀.engine (!b)).frontierTips = .ok tips → o ∈ tips →
        Descends (w₀.engine (!b)).store o p →
        isPrimitiveOid (w₀.engine (!b)).store p = true → p ∈ (w.engine b).state.known) ∧
      ∃ m c files, ∀ b, (w.engine b).main = some m ∧ loadCommit (w.engine b).store m = .ok c ∧
        treeFiles (w.engine b).store c.tree = .ok files := by
  refine ⟨fun w w' r hr hd => ((h.catching.runs hr).step hd).1, h.catching.acc,
    fun w hr => exists_drained (h.catching.runs hr).acc, fun w hr hd => ?_⟩
  have hcatch := h.catching.runs hr
  refine ⟨fun b tips o p htips ho hdesc hprim => hcatch.mem_below h.honest hd htips ho hdesc hprim, ?_⟩
  obtain ⟨m, c, files, hm, hm', hc, hc', hf, hf'⟩ :=
    (hcatch.honest true).main_eq (hcatch.honest false) fun o =>
      ⟨hcatch.mem_kept h.honest hd true, hcatch.mem_kept h.honest hd false⟩
  exact ⟨m, c, files, forall_end (b := true) ⟨hm, hc, hf⟩ ⟨hm', hc', hf'⟩⟩

omit [LawfulObjectId Oid] [LawfulCrates] in
/-- Any two honest engines can be joined. -/
theorem exists_joined {engine : Bool → MemEngine Oid} (h : ∀ b, Honest (engine b)) :
    ∃ w : Link Oid, w.Joined ∧ w.engine = engine := by
  have htips : ∀ b, ∃ tips, (engine b).frontierTips = .ok tips := fun b =>
    ⟨_, frontier_eq fun _ => (h b).history.commitIn⟩
  choose tips htips using htips
  let s : Session := { role := .listener, channelBinding := [], myNonce := [], phase := .established }
  exact ⟨{ session := fun _ => s, engine, inbox := fun b =>
    [.frontierDigest ((tips (!b)).map toHex)] },
    ⟨h, fun _ => rfl, fun _ => rfl, fun b => ⟨tips (!b), htips (!b), rfl⟩⟩, rfl⟩

end Spec

end Link

end Csp

/-! ### Two engines -/

namespace Csp.Small
open Link

theorem honest_committed : Honest committed := by
  obtain ⟨-, -, hnames⟩ := committed_spec
  obtain ⟨r, e, hrun, hpub⟩ := Gossip.commitFromFiles_run (honest_create owner [] [] :
      Honest fresh) hnames
    (show 0 < 2 ^ 64 by decide)
  have hcommitted : committed = e := congrArg Prod.snd hrun
  rw [hcommitted]
  exact hpub.honest

/-- An engine that published a file, and a new one. -/
theorem catchup_converges_pair : ∃ w₀ w : Link Shadow, w₀.engine true = committed ∧
    w₀.engine false = fresh ∧ Runs w₀ w ∧ w.Drained ∧ ∃ m, ∀ b, (w.engine b).main = some m := by
  obtain ⟨w₀, hjoined, hengine⟩ := exists_joined
    (show ∀ b, Honest (cond b committed fresh) from fun b =>
      b.rec (honest_create owner [] []) honest_committed)
  obtain ⟨-, -, hdrained, hdone⟩ := catchup_converges hjoined
  obtain ⟨w, hrun, hd⟩ := hdrained w₀ .refl
  obtain ⟨-, m, c, files, hm⟩ := hdone w hrun hd
  exact ⟨w₀, w, by rw [hengine]; rfl, by rw [hengine]; rfl, hrun, hd, m, fun b => (hm b).1⟩

end Csp.Small
