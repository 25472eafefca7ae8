import Csp.BridgeRuns

/-! The invariant of the clean runs. At every path that the bridge syncs the engine and the
editor agree, or something that waits or runs will still bring one to the other, and the tokens
are those of the events that wait and of the call that runs. The user, the engine and the
handlers of events keep it. -/

namespace Csp.Bridge
open Fifo

variable {filter : Path → Bool} {s s' : State} {p q : Path} {e : Event} {id : FileId}
    {own : Option Path}

/-! ### The invariant -/

def Act.target : Act → Option (Path × Option Content)
  | .read _ p c => some (p, some c)
  | .modify _ p c => some (p, some c)
  | .ensureFolder p c _ => some (p, some c)
  | .create p c => some (p, some c)
  | .delete _ p => some (p, none)
  | .prune _ => none
  | .rmdir _ => none

def Act.holds : Act → Option Path
  | .modify _ p _ => some p
  | .create p _ => some p
  | .delete _ p => some p
  | .rmdir dir => some dir
  | _ => none

def Running.holds : Running → Option Path
  | .apply (some act) _ => act.holds
  | _ => none

namespace State

def Covers (s : State) (p : Path) : Rest → Prop
  | .changes _ => False
  | .files ps current => p ∈ ps ∨ (s.engine.lookup p = none ∧ p ∈ s.knownSdkPaths ∧ p ∉ current)
  | .tombstones ps current => s.engine.lookup p = none ∧ p ∈ ps ∧ p ∉ current

def Underway (s : State) (p : Path) : Prop :=
  match s.running with
  | some (.write id) => ∃ t, s.editor.lookup p = some (id, t)
  | some (.moved id) => ∃ t, s.editor.lookup p = some (id, t)
  | some (.compare id content remote) => s.editor.lookup p = some (id, content) ∧
    s.engine.lookup p = some remote
  | some (.apply act rest) => act.bind Act.target = some (p, s.engine.lookup p) ∨ s.Covers p rest
  | _ => False

def Settled (s : State) (p : Path) : Prop :=
  s.engine.lookup p = s.textAt p ∨ s.UserDue p ∨ s.ChangeDue p ∨ s.PassDue ∨ s.Underway p

/-- What the running operation has learnt still holds, or the user has changed it. -/
def Poised (s : State) : Prop :=
  match s.running with
  | some (.compare id content _) => (∃ p, s.editor.lookup p = some (id, content)) ∨
    ∃ e ∈ s.waiting, e.of id
  | some (.apply (some (.read file p _)) _) =>
    (∃ t, s.editor.lookup p = some (file, t)) ∨ s.UserDue p
  | some (.deleteChildren _) => False
  | _ => True

end State

structure Inv (filter : Path → Bool) (s : State) : Prop where
  ledger : Ledger s.editor s.shown s.nextFile s.waiting
  tokens : ∀ p, s.suppressed p = s.owned p + if s.running.bind Running.holds = some p then 1 else 0
  settled : ∀ p, Synced filter p → s.Settled p
  poised : s.Poised

/-! ### What keeps a path settled -/

theorem textAt_eq {t : Content} (h : s.editor.lookup p = some (id, t)) : s.textAt p = some t := by
  rw [State.textAt, h, Option.map_some]

theorem textAt_eq_none (h : s.editor.lookup p = none) : s.textAt p = none := by
  rw [State.textAt, h, Option.map_none]

theorem State.UserDue.settled (h : s.UserDue p) : s.Settled p := .inr (.inl h)

theorem State.ChangeDue.settled (h : s.ChangeDue p) : s.Settled p := .inr (.inr (.inl h))

theorem State.PassDue.settled (h : s.PassDue) : s.Settled p := .inr (.inr (.inr (.inl h)))

theorem State.Underway.settled (h : s.Underway p) : s.Settled p := .inr (.inr (.inr (.inr h)))

theorem Running.holds_apply (act : Option Act) (rest : Rest) :
    (Running.apply act rest).holds = act.bind Act.holds := by
  cases act <;> rfl

theorem State.underway_apply {act : Option Act} {rest : Rest}
    (hrun : s.running = some (.apply act rest)) :
    s.Underway p ↔ act.bind Act.target = some (p, s.engine.lookup p) ∨ s.Covers p rest := by
  unfold State.Underway
  rw [hrun]

theorem State.not_underway (hrun : s.running = none) : ¬s.Underway p := by
  unfold State.Underway
  rw [hrun]
  exact id

theorem State.pendingChanges_of {r : Running} (hrun : s.running = some r) :
    s.pendingChanges = r.toApply ++ s.opQueue.flatMap Op.changes := by
  unfold State.pendingChanges
  rw [hrun]
  rfl

theorem State.pendingChanges_idle (hrun : s.running = none) :
    s.pendingChanges = s.opQueue.flatMap Op.changes := by
  unfold State.pendingChanges
  rw [hrun]
  rfl

theorem State.ChangeDue.congr (h : s.ChangeDue p)
    (hv : verdict s'.pendingChanges p = verdict s.pendingChanges p)
    (hg : s'.engine.lookup p = s.engine.lookup p) : s'.ChangeDue p := by
  unfold State.ChangeDue at h ⊢
  rw [hv, hg]
  exact h

theorem State.UserDue.of_writes {t : Content} (h : s.editor.lookup p = some (id, t))
    (he : e ∈ s.waiting) (hw : e.writes id) : s.UserDue p := by
  refine ⟨e, he, ?_⟩
  rw [h]
  exact hw

theorem State.UserDue.of_erases (h : s.editor.lookup p = none) (he : e ∈ s.waiting)
    (hw : e.erases s.shown p) :
    s.UserDue p := by
  refine ⟨e, he, ?_⟩
  rw [h]
  exact hw

theorem State.UserDue.mono (h : s.UserDue p) (hd : s'.editor.lookup p = s.editor.lookup p)
    (hw : ∀ e ∈ s.waiting, e ∈ s'.waiting) (hs : ∀ e ∈ s.waiting, e.erases s.shown p →
      e.erases s'.shown p) :
    s'.UserDue p := by
  obtain ⟨e, he, hr⟩ := h
  cases hp : s.editor.lookup p with
  | none =>
    rw [hp] at hr
    exact .of_erases (hd.trans hp) (hw e he) (hs e he hr)
  | some f =>
    rw [hp] at hr
    exact .of_writes (hd.trans hp) (hw e he) hr

theorem State.Spared.settled (h : s.Spared filter p) (hp : Synced filter p)
    (hg : s'.engine.lookup p = s.engine.lookup p) (hd : s'.textAt p = s.textAt p)
    (hu : s.UserDue p → s'.UserDue p) (hc : State.ChangeDue { s with running := none } p →
      s'.ChangeDue p) (hpass : s.PassDue → s'.PassDue) :
    s'.Settled p := by
  rcases h hp.1 hp.2 with h | h | h | h
  · exact .inl (by rw [hg, h, hd])
  · exact (hu h).settled
  · exact (hc h).settled
  · exact (hpass h).settled

theorem State.Settled.mono (h : s.Settled p) (hg : s'.engine.lookup p = s.engine.lookup p)
    (hd : s'.editor.lookup p = s.editor.lookup p) (hu : s.UserDue p → s'.UserDue p)
    (hc : s.ChangeDue p → s'.Settled p) (hp : s.PassDue → s'.PassDue)
    (hr : s.Underway p → s'.Settled p) :
    s'.Settled p := by
  rcases h with h | h | h | h | h
  · exact .inl (by rw [hg, h, State.textAt, State.textAt, hd])
  · exact (hu h).settled
  · exact hc h
  · exact (hp h).settled
  · exact hr h

theorem Inv.tokens_of (h : Inv filter s) {r : Running} (hrun : s.running = some r) (p : Path) :
    s.suppressed p = s.owned p + if r.holds = some p then 1 else 0 := by
  have hp := h.tokens p
  rw [hrun] at hp
  exact hp

theorem Inv.tokens_idle (h : Inv filter s) (hrun : s.running = none) (p : Path) :
    s.suppressed p = s.owned p := by
  have hp := h.tokens p
  rw [hrun] at hp
  exact hp

/-! ### The user -/

abbrev State.edited (s : State) (editor : EditorFiles) (shown : FileId → Path) (next : FileId)
    (e : Event) : State :=
  { s with editor, shown, nextFile := next, inflight := s.inflight ++ [e] }

theorem waiting_edited (editor : EditorFiles) (shown : FileId → Path) (next : FileId) :
    (s.edited editor shown next e).waiting = s.waiting ++ [e] := (List.append_assoc ..).symm

theorem Inv.edited (h : Inv filter s) (id : FileId) {editor : EditorFiles} {shown : FileId → Path}
    {next : FileId} (hl : Ledger editor shown next (s.waiting ++ [e])) (he : e.of id)
    (hfile : ∀ p f t, s.editor.lookup p = some (f, t) → editor.lookup p = some (f, t) ∨ f = id)
    (hplace : ∀ p, editor.lookup p = s.editor.lookup p ∨
      (∃ t, editor.lookup p = some (id, t) ∧ e.writes id) ∨ editor.lookup p = none ∧
      e.erases shown p)
    (hshown : ∀ e ∈ s.waiting, ∀ p, e.erases s.shown p → e.erases shown p) :
    Inv filter (s.edited editor shown next e) := by
  have hw := waiting_edited (s := s) (e := e) editor shown next
  have hold : ∀ e' ∈ s.waiting, e' ∈
      (s.edited editor shown next e).waiting := by
    intro e' he'
    rw [hw]
    exact List.mem_append_left _ he'
  have hnew : e ∈ (s.edited editor shown next e).waiting := by
    rw [hw]
    exact List.mem_append_right _ List.mem_cons_self
  -- where the editor has changed, the event of the change is waiting
  have hdue : ∀ p, editor.lookup p = s.editor.lookup p ∨
      (s.edited editor shown next e).UserDue p := by
    intro p
    rcases hplace p with hp | ⟨t, hp, hwr⟩ | ⟨hp, her⟩
    · exact .inl hp
    · exact .inr (.of_writes hp hnew hwr)
    · exact .inr (.of_erases hp hnew her)
  have hmono : ∀ p, s.UserDue p →
      (s.edited editor shown next e).UserDue p := by
    intro p hu
    rcases hdue p with hp | hp
    · exact hu.mono hp hold fun e' he' => hshown e' he' p
    · exact hp
  refine ⟨hw ▸ hl, fun p => ?_, fun p hp => ?_, ?_⟩
  -- an event of the user takes no token
  · have hown : ¬(e.own = some p) := by
      obtain ⟨k, rfl⟩ := Event.exists_kind he
      simp [Event.own]
    rw [State.owned, hw, List.countP_append, List.countP_singleton,
      if_neg (by simpa using hown), add_zero]
    exact h.tokens p
  · rcases hdue p with hd | hd
    · refine (h.settled p hp).mono rfl hd (hmono p)
        (fun hc => State.ChangeDue.settled (hc.congr rfl rfl)) (fun hp => hp) fun hr => ?_
      refine State.Underway.settled ?_
      unfold State.Underway at hr ⊢
      simp only [hd]
      exact hr
    · exact .inr (.inl hd)
  -- what the running handler counts on is there still, or its event is waiting
  · have hpoised := h.poised
    unfold State.Poised at hpoised ⊢
    simp only
    split
    · next f content remote hrun =>
      simp only [hrun] at hpoised
      rcases hpoised with ⟨p, hp⟩ | ⟨e', he', hof⟩
      · rcases hfile p f content hp with hp | rfl
        · exact .inl ⟨p, hp⟩
        · exact .inr ⟨e, hnew, he⟩
      · exact .inr ⟨e', hold e' he', hof⟩
    · next f p content rest hrun =>
      simp only [hrun] at hpoised
      rcases hpoised with ⟨t, hp⟩ | hu
      · rcases hdue p with hd | hd
        · exact .inl ⟨t, hd.trans hp⟩
        · exact .inr hd
      · exact .inr (hmono p hu)
    · next ps hrun => simp only [hrun] at hpoised
    · trivial

theorem Inv.created (h : Inv filter s) {path : Path} {text : Content}
    (hp : s.editor.lookup path = none) :
    Inv filter (s.createFile path text none) := by
  have hnew : ∀ own, .file s.nextFile .deleted own ∉ s.waiting :=
    fun own he => absurd (h.ledger.early _ _ _ he) (lt_irrefl _)
  refine h.edited s.nextFile (h.ledger.create hp (.inl rfl)) (by simp [Event.of])
    (fun p f t hf => ?_)
    (fun p => ?_) fun e he p hr => (Ledger.erases_update hnew he).trans hr
  · refine .inl ?_
    rw [lookup_insert_ite, if_neg, hf]
    rintro rfl
    rw [hp] at hf
    cases hf
  · by_cases hpath : p = path
    · exact .inr (.inl ⟨text, by rw [hpath, AList.lookup_insert], by simp [Event.writes, Event.of]⟩)
    · exact .inl (by rw [lookup_insert_ite, if_neg hpath])

theorem Inv.modified (h : Inv filter s) {path : Path} {t text : Content}
    (hp : s.editor.lookup path = some (id, t)) :
    Inv filter (s.modifyFile id text none) := by
  have hshown : s.shown id = path := (h.ledger.located path id t hp).1
  unfold State.modifyFile
  rw [hshown]
  refine h.edited id (h.ledger.modify hp none) (by simp [Event.of]) (fun p f u hf => ?_)
    (fun p => ?_)
    fun e he p hr => hr
  · by_cases hpath : p = path
    · rw [hpath, hp, Option.some.injEq, Prod.mk.injEq] at hf
      exact .inr hf.1.symm
    · exact .inl (by rw [lookup_insert_ite, if_neg hpath, hf])
  · by_cases hpath : p = path
    · exact .inr (.inl ⟨text, by rw [hpath, AList.lookup_insert], by simp [Event.writes, Event.of]⟩)
    · exact .inl (by rw [lookup_insert_ite, if_neg hpath])

theorem Inv.removed (h : Inv filter s) {path : Path} {t : Content}
    (hp : s.editor.lookup path = some (id, t)) :
    Inv filter (s.removeFile id none) := by
  have hshown : s.shown id = path := (h.ledger.located path id t hp).1
  unfold State.removeFile
  rw [hshown]
  refine h.edited id (h.ledger.remove hp (.inl rfl)) (by simp [Event.of]) (fun p f u hf => ?_)
    (fun p => ?_)
    fun e he p hr => hr
  · by_cases hpath : p = path
    · rw [hpath, hp, Option.some.injEq, Prod.mk.injEq] at hf
      exact .inr hf.1.symm
    · exact .inl (by rw [lookup_erase_ite, if_neg hpath, hf])
  · by_cases hpath : p = path
    · exact .inr (.inr ⟨by rw [hpath, AList.lookup_erase], by simp [Event.erases, hshown, hpath]⟩)
    · exact .inl (by rw [lookup_erase_ite, if_neg hpath])

theorem Inv.renamed (h : Inv filter s) {path new : Path} {t : Content}
    (hp : s.editor.lookup path = some (id, t)) (hnew : s.editor.lookup new = none) :
    Inv filter (s.moveFile id t new) := by
  have hshown : s.shown id = path := (h.ledger.located path id t hp).1
  have hne : path ≠ new := by
    rintro rfl
    rw [hp] at hnew
    cases hnew
  unfold State.moveFile
  rw [hshown]
  refine h.edited id (h.ledger.move hp hnew) (by simp [Event.of]) (fun p f u hf => ?_) (fun p => ?_)
    fun e he p hr => (Ledger.erases_update (h.ledger.not_deleted hp) he).trans hr
  · by_cases hid : f = id
    · exact .inr hid
    · refine .inl ?_
      rw [lookup_insert_ite, lookup_erase_ite, if_neg, if_neg, hf]
      · rintro rfl
        rw [hp, Option.some.injEq, Prod.mk.injEq] at hf
        exact hid hf.1.symm
      · rintro rfl
        rw [hnew] at hf
        cases hf
  · by_cases hp' : p = new
    · exact .inr (.inl ⟨t, by rw [hp', AList.lookup_insert], by simp [Event.writes, Event.of]⟩)
    · by_cases hpath : p = path
      · refine .inr (.inr ⟨?_, by simp [Event.erases, hpath]⟩)
        rw [lookup_insert_ite, if_neg hp', hpath, AList.lookup_erase]
      · exact .inl (by rw [lookup_insert_ite, if_neg hp', lookup_erase_ite, if_neg hpath])

/-! ### The engine and the clock -/

theorem Inv.background (h : Inv filter s) {engine : EngineFiles} {opQueue : List Op}
    {inflight : List Event} {timer pending flight : Bool}
    (hw : opQueue.filterMap Op.event? ++ inflight = s.waiting)
    (hs : ∀ p, Synced filter p → State.Settled { s with
      engine, opQueue, inflight, applyTimer := timer, applyPending := pending, applyInFlight :=
  flight } p) :
    Inv filter { s with
      engine, opQueue, inflight, applyTimer := timer, applyPending := pending, applyInFlight :=
  flight } := by
  have hwait : State.waiting { s with
      engine, opQueue, inflight, applyTimer := timer, applyPending := pending,
      applyInFlight := flight } =
      s.waiting := hw
  refine ⟨by rw [hwait]; exact h.ledger, fun p => ?_, hs, ?_⟩
  · rw [State.owned, hwait]
    exact h.tokens p
  · have hp := h.poised
    unfold State.Poised State.UserDue at hp ⊢
    rw [hwait]
    exact hp

theorem State.Settled.background (h : s.Settled p) {engine : EngineFiles} {opQueue : List Op}
    {inflight : List Event} {timer pending flight : Bool}
    (hw : opQueue.filterMap Op.event? ++ inflight = s.waiting)
    (hg : engine.lookup p = s.engine.lookup p)
    (hc : verdict (opQueue.flatMap Op.changes) p = verdict (s.opQueue.flatMap Op.changes) p)
    (hp : s.PassDue → State.PassDue { s with
      engine, opQueue, inflight, applyTimer := timer, applyPending :=
  pending, applyInFlight := flight }) :
    State.Settled { s with
      engine, opQueue, inflight, applyTimer := timer, applyPending := pending, applyInFlight :=
  flight } p := by
  have hwait : State.waiting { s with
      engine, opQueue, inflight, applyTimer := timer, applyPending := pending,
      applyInFlight := flight } =
      s.waiting := hw
  refine h.mono hg rfl (fun hu => hu.mono rfl (fun e he => hwait ▸ he) fun e he hr => hr)
    (fun hd => ?_) hp fun hr => ?_
  · refine (hd.congr ?_ hg).settled
    unfold State.pendingChanges
    rw [verdict_append, verdict_append, hc]
  · refine State.Underway.settled ?_
    unfold State.Underway State.Covers at hr ⊢
    simp only [hg]
    exact hr

theorem Inv.materialized (h : Inv filter s) (changes : List (Path × Option Content)) :
    Inv filter { s with
      engine := changes.foldl materializeOne s.engine
      opQueue := if changes.isEmpty then s.opQueue else s.opQueue ++
      [.applyTreeChanges changes] } := by
  have hqueue : (if changes.isEmpty then s.opQueue else s.opQueue ++
        [.applyTreeChanges changes]).flatMap Op.changes =
      s.opQueue.flatMap Op.changes ++ changes := by
    cases changes <;> simp [Op.changes]
  have hw : (if changes.isEmpty then s.opQueue else s.opQueue ++
        [.applyTreeChanges changes]).filterMap Op.event? ++
      s.inflight = s.waiting := by
    cases changes <;> simp [State.waiting, Op.event?]
  refine h.background hw fun p hp => ?_
  cases hv : verdict changes p with
  | some v =>
    -- the change set that joins the queue has the last word on the path
    refine State.ChangeDue.settled ?_
    unfold State.ChangeDue State.pendingChanges
    simp only
    rw [hqueue, ← List.append_assoc, verdict_append, hv, lookup_materialize, hv]
    rfl
  | none =>
    refine (h.settled p hp).background hw (by rw [lookup_materialize, hv]; rfl) ?_ fun hd => ?_
    · rw [hqueue, verdict_append, hv]
      rfl
    · rcases hd with hd | hd
      · refine .inl ?_
        simp only
        split_ifs
        · exact hd
        · exact List.mem_append_left _ hd
      · exact .inr hd

theorem Inv.restored (h : Inv filter s) (tree : EngineFiles) :
    Inv filter { s with engine := tree }.scheduleApplyRemoteState := by
  unfold State.scheduleApplyRemoteState
  split_ifs with hbusy
  · refine h.background rfl fun p hp => State.PassDue.settled ?_
    rcases Bool.or_eq_true .. |>.mp hbusy with hf | ht
    · exact .inr (.inr ⟨rfl, hf⟩)
    · exact .inr (.inl ht)
  · exact h.background rfl fun p hp => State.PassDue.settled (.inr (.inl rfl))

theorem Inv.delivered (h : Inv filter s) {rest : List Event} (hi : s.inflight = e :: rest) :
    Inv filter { s with opQueue := s.opQueue ++ [.event e], inflight := rest } := by
  have hw : (s.opQueue ++ [Op.event e]).filterMap Op.event? ++ rest = s.waiting := by
    simp [State.waiting, Op.event?, hi]
  refine h.background hw fun p hp => (h.settled p hp).background hw rfl ?_ fun hd => ?_
  · rw [List.flatMap_append]
    simp [Op.changes]
  · exact hd.imp_left (List.mem_append_left _)

theorem Inv.fired (h : Inv filter s) :
    Inv filter { s with applyTimer := false, applyInFlight := true, opQueue := s.opQueue ++
    [.applyRemoteState] } := by
  have hw : (s.opQueue ++ [Op.applyRemoteState]).filterMap Op.event? ++ s.inflight = s.waiting := by
    simp [State.waiting, Op.event?]
  exact h.background hw fun p hp => State.PassDue.settled
    (.inl (List.mem_append_right _ List.mem_cons_self))

/-! ### The handlers of events -/

/-- An event has been taken off the queue, and its handler begins. -/
structure Popped (filter : Path → Bool) (s : State) (e : Event) : Prop where
  ledger : Ledger s.editor s.shown s.nextFile (e :: s.waiting)
  idle : s.running = none
  tokens : ∀ p, s.suppressed p = s.owned p + if e.own = some p then 1 else 0
  settled : ∀ p, Synced filter p → s.Settled p ∨
    (∃ id t, s.editor.lookup p = some (id, t) ∧ e.writes id) ∨ s.editor.lookup p = none ∧
    e.erases s.shown p

theorem Inv.popped (h : Inv filter s) {rest : List Op} (hr : s.running = none)
    (hq : s.opQueue = .event e :: rest) :
    Popped filter { s with opQueue := rest } e := by
  have hw : s.waiting = e :: State.waiting { s with opQueue := rest } := by
    simp [State.waiting, hq, Op.event?]
  refine ⟨hw ▸ h.ledger, hr, fun p => ?_, fun p hp => ?_⟩
  · have htokens := h.tokens p
    rw [hr, State.owned, hw, List.countP_cons] at htokens
    simpa [State.owned] using htokens
  · rcases h.settled p hp with hs | hs | hs | hs | hs
    · exact .inl (.inl hs)
    · obtain ⟨e', he', htells⟩ := hs
      rw [hw] at he'
      cases hd : s.editor.lookup p with
      | some f =>
        have hwrites : e'.writes f.1 := by simpa only [hd] using htells
        rcases List.mem_cons.mp he' with rfl | he'
        · exact .inr (.inl ⟨f.1, f.2, rfl, hwrites⟩)
        · exact .inl (State.UserDue.settled (.of_writes hd he' hwrites))
      | none =>
        have herases : e'.erases s.shown p := by simpa only [hd] using htells
        rcases List.mem_cons.mp he' with rfl | he'
        · exact .inr (.inr ⟨rfl, herases⟩)
        · exact .inl (State.UserDue.settled (.of_erases hd he' herases))
    · refine .inl (State.ChangeDue.settled (hs.congr ?_ rfl))
      unfold State.pendingChanges
      rw [hq]
      rfl
    · refine .inl (State.PassDue.settled ?_)
      rcases hs with hs | hs
      · rw [hq] at hs
        exact .inl ((List.mem_cons.mp hs).resolve_left (by simp))
      · exact .inr hs
    · exact absurd hs (State.not_underway hr)

/-- An event of the bridge finds its token. -/
theorem Popped.consumed (h : Popped filter s e) (hown : e.own = some p) :
    ∃ s', s.consumeSuppression p = some s' ∧ Inv filter s' := by
  have hp := h.tokens p
  rw [if_pos hown] at hp
  have hforeign : ∀ id, ¬e.of id := by
    intro id he
    obtain ⟨k, rfl⟩ := Event.exists_kind he
    simp [Event.own] at hown
  unfold State.consumeSuppression
  rw [if_neg (by rw [hp]; exact Nat.succ_ne_zero _)]
  refine ⟨_, rfl, h.ledger.tail, fun q => ?_, fun q hq => ?_, ?_⟩
  · have hidle : (s.running.bind Running.holds) = none := by rw [h.idle]; rfl
    simp only [hidle]
    by_cases hqp : q = p
    · rw [hqp, Function.update_self, hp]
      rfl
    · rw [Function.update_of_ne hqp, h.tokens q, hown]
      simp [State.owned, State.waiting, Ne.symm hqp]
  · rcases h.settled q hq with hs | ⟨id, -, -, hw⟩ | ⟨-, he⟩
    · exact hs
    · exact absurd (Event.writes_iff.mp hw).1 (hforeign id)
    · exact absurd he (Event.not_erases hforeign)
  · unfold State.Poised
    simp only [h.idle]

theorem not_consumed (h : s.suppressed p = 0) : s.consumeSuppression p = none := if_pos h

theorem Popped.proceed (h : Popped filter s e) (hown : e.own = none) {engine : EngineFiles}
    {running : Option Running} (hr : running.bind Running.holds = none)
    (hs : ∀ p, Synced filter p → State.Settled { s with engine, running } p)
    (hp : State.Poised { s with engine, running }) : Inv filter { s with engine, running } := by
  refine ⟨h.ledger.tail, fun p => ?_, hs, hp⟩
  have hp := h.tokens p
  simp only [hown, hr] at hp ⊢
  exact hp

theorem State.Settled.handled (h : s.Settled p) (hidle : s.running = none) {engine : EngineFiles}
    {running : Option Running} (hr : (running.map Running.toApply).getD [] = [])
    (hg : engine.lookup p = s.engine.lookup p) : State.Settled { s with engine, running } p := by
  refine h.mono hg rfl (fun hu => hu) (fun hd => (hd.congr ?_ hg).settled)
    (fun hd => hd) fun hd => ?_
  · unfold State.pendingChanges
    rw [hr, hidle]
    rfl
  · exact absurd hd (State.not_underway hidle)

/-- What the event has taken away is gone from the engine, or the user has put another file
there. -/
theorem Popped.settled_of_erases (h : Popped filter s e) (he : e.erases s.shown p)
    {engine : EngineFiles} {running : Option Running} (hg : engine.lookup p = none) :
    State.Settled { s with engine, running } p := by
  cases hd : s.editor.lookup p with
  | none => exact .inl (by rw [hg]; exact (textAt_eq_none hd).symm)
  | some f =>
    obtain ⟨e', he', hw⟩ := (h.ledger.erased p f.1 f.2 hd).1 he
    exact State.UserDue.settled (.of_writes hd he' hw)

/-- While an event of the user waits, the path that its file shows is due. -/
theorem State.UserDue.of_of (hl : Ledger s.editor s.shown s.nextFile s.waiting) (he : e ∈ s.waiting)
    (ho : e.of id) :
    s.UserDue (s.shown id) := by
  by_cases halive : ∃ p t, s.editor.lookup p = some (id, t)
  · obtain ⟨p, t, hp⟩ := halive
    rw [(hl.located p id t hp).1]
    refine .of_writes hp he (Event.writes_iff.mpr ⟨ho, fun hr => ?_⟩)
    exact hl.not_deleted hp none (Event.removes_iff.mp hr ▸ he)
  · have hdead : Dead s.editor id := fun p t hp => halive ⟨p, t, hp⟩
    obtain ⟨r, hr, hrem⟩ : ∃ r ∈ s.waiting, r.removes id := by
      by_cases hrem : e.removes id
      · exact ⟨e, he, hrem⟩
      · exact (hl.buried id hdead).exists_of_mem he (Event.writes_iff.mpr ⟨ho, hrem⟩)
    have herases : r.erases s.shown (s.shown id) := by
      rw [Event.removes_iff.mp hrem]
      simp [Event.erases]
    cases hd : s.editor.lookup (s.shown id) with
    | none => exact .of_erases hd hr herases
    | some f =>
      obtain ⟨e', he', hw⟩ := (hl.erased _ f.1 f.2 hd).exists_of_mem hr herases
      exact .of_writes hd he' hw

theorem Popped.wrote (h : Popped filter s (.file id .wrote own))
    (hc : s.CleanEvent filter (.file id .wrote own)) :
    Inv filter (s.runHandleObsidianWrite filter id) := by
  unfold State.runHandleObsidianWrite
  cases own with
  | some own =>
    obtain ⟨s', hs', hinv⟩ := h.consumed rfl
    rw [show s.shown id = own from hc, hs']
    exact hinv
  | none =>
    rw [not_consumed hc]
    have hkeep : ∀ p, Synced filter p → s.Settled p ∨ ∃ t, s.editor.lookup p = some (id, t) := by
      intro p hp
      rcases h.settled p hp with hs | ⟨f, t, hd, hw⟩ | ⟨-, he⟩
      · exact .inl hs
      · obtain rfl : id = f := by simpa [Event.writes, Event.of] using hw
        exact .inr ⟨t, hd⟩
      · simp [Event.erases] at he
    simp only
    split_ifs with hfilter
    · refine h.proceed rfl rfl (fun p hp => ?_) trivial
      rcases hkeep p hp with hs | hd
      · exact hs.handled h.idle rfl rfl
      · exact State.Underway.settled hd
    · refine h.proceed rfl (by rw [h.idle]; rfl) (fun p hp => ?_)
        (by unfold State.Poised; simp only [h.idle])
      rcases hkeep p hp with hs | ⟨t, hd⟩
      · exact hs
      · exact absurd ((h.ledger.located p id t hd).1 ▸ hp.1) hfilter

theorem Popped.deleted (h : Popped filter s (.file id .deleted own))
    (hc : s.CleanEvent filter (.file id .deleted own)) :
    Inv filter (s.runHandleObsidianDelete id) := by
  unfold State.runHandleObsidianDelete
  cases own with
  | some own =>
    obtain ⟨s', hs', hinv⟩ := h.consumed rfl
    rw [show s.shown id = own from hc, hs']
    exact hinv
  | none =>
    rw [not_consumed hc]
    have herases : (Event.file id .deleted none).erases s.shown
        (s.shown id) := by simp [Event.erases]
    have hkeep : ∀ p, Synced filter p → s.Settled p ∨ p = s.shown id := by
      intro p hp
      rcases h.settled p hp with hs | ⟨f, t, -, hw⟩ | ⟨-, he⟩
      · exact .inl hs
      · simp [Event.writes] at hw
      · exact .inr (by simpa [Event.erases, eq_comm] using he)
    simp only
    split_ifs with hin
    · refine h.proceed rfl rfl (fun p hp => ?_) trivial
      by_cases hpath : p = s.shown id
      · rw [hpath]
        exact h.settled_of_erases herases (AList.lookup_erase _ _)
      · exact ((hkeep p hp).resolve_right hpath).handled h.idle rfl
          (lookup_erase_ite.trans (if_neg hpath))
    · refine h.proceed rfl (by rw [h.idle]; rfl) (fun p hp => ?_)
        (by unfold State.Poised; simp only [h.idle])
      by_cases hpath : p = s.shown id
      · rw [hpath]
        exact h.settled_of_erases herases (by simpa using hin)
      · exact (hkeep p hp).resolve_right hpath

theorem Popped.renamed {old : Path} (h : Popped filter s (.file id (.renamed old) own))
    (hc : s.CleanEvent filter (.file id (.renamed old) own)) :
    Inv filter (s.runHandleObsidianRename filter id old) := by
  unfold State.runHandleObsidianRename
  cases own with
  | some own =>
    obtain ⟨s', hs', hinv⟩ := h.consumed rfl
    rw [show s.shown id = own from hc, hs']
    exact hinv
  | none =>
    rw [not_consumed hc.1]
    have herases : (Event.file id (.renamed old) none).erases s.shown old := by simp [Event.erases]
    have hidle : (s.running.map Running.toApply).getD [] = [] := by rw [h.idle]; rfl
    have hpoised : ∀ engine, State.Poised { s with engine } := by
      intro engine
      unfold State.Poised
      simp only [h.idle]
    -- the event speaks of the place that the file has now, and of the one that it left
    have hkeep : ∀ p, Synced filter p →
        s.Settled p ∨ (p = s.shown id ∧ ∃ t, s.editor.lookup p = some (id, t)) ∨ p = old := by
      intro p hp
      rcases h.settled p hp with hs | ⟨f, t, hd, hw⟩ | ⟨-, he⟩
      · exact .inl hs
      · obtain rfl : id = f := by simpa [Event.writes, Event.of] using hw
        exact .inr (.inl ⟨(h.ledger.located p id t hd).1.symm, t, hd⟩)
      · exact .inr (.inr (by simpa [Event.erases, eq_comm] using he))
    have hmoved : s.engine.lookup old = none ∨ filter old = false →
        Inv filter { s with running := some (.moved id) } := by
      intro hold
      refine h.proceed rfl rfl (fun p hp => ?_) trivial
      by_cases hpath : p = old
      · rcases hold with hold | hold
        · rw [hpath]
          exact h.settled_of_erases herases hold
        · exact absurd (hpath ▸ hp.1) (by simp [hold])
      · rcases hkeep p hp with hs | ⟨-, hd⟩ | hs
        · exact hs.handled h.idle rfl rfl
        · exact State.Underway.settled hd
        · exact absurd hs hpath
    cases hfrom : filter old <;> cases hto : filter (s.shown id) <;> simp only
    · refine h.proceed rfl (by rw [h.idle]; rfl) (fun p hp => ?_) (hpoised _)
      rcases hkeep p hp with hs | ⟨hs, -⟩ | hs
      · exact hs
      · exact absurd (hs ▸ hp.1) (by simp [hto])
      · exact absurd (hs ▸ hp.1) (by simp [hfrom])
    · exact hmoved (.inr hfrom)
    · refine h.proceed rfl (by rw [h.idle]; rfl) (fun p hp => ?_) (hpoised _)
      by_cases hpath : p = old
      · rw [hpath]
        exact h.settled_of_erases herases (AList.lookup_erase _ _)
      · rcases hkeep p hp with hs | ⟨hs, -⟩ | hs
        · exact hs.handled h.idle hidle (lookup_erase_ite.trans (if_neg hpath))
        · exact absurd (hs ▸ hp.1) (by simp [hto])
        · exact absurd hs hpath
    · split_ifs with hin
      · obtain ⟨t, ht⟩ := Option.isSome_iff_exists.mp hin
        unfold State.renameFile
        rw [ht]
        refine h.proceed rfl (by rw [h.idle]; rfl) (fun p hp => ?_) (hpoised _)
        by_cases hpath : p = old
        · rw [hpath]
          exact h.settled_of_erases herases (AList.lookup_erase _ _)
        · have hgone : ((s.engine.insert (s.shown id) t).erase old).lookup p =
              (s.engine.insert (s.shown id) t).lookup p := lookup_erase_ite.trans (if_neg hpath)
          by_cases hnew : p = s.shown id
          · have hthere : ((s.engine.insert (s.shown id) t).erase old).lookup p =
                s.engine.lookup old := by
              rw [hgone, hnew, AList.lookup_insert, ht]
            rcases hc.2 hfrom hto hin with ⟨-, htext | hlast⟩ | ⟨e', he', hof⟩ | hpass
            · refine .inl ?_
              rw [hthere, htext, hnew]
              rfl
            · refine State.ChangeDue.settled ?_
              unfold State.ChangeDue
              rw [hthere, hnew]
              exact hlast
            · rw [hnew]
              exact State.UserDue.settled (.of_of
                  (s := { s with engine := (s.engine.insert (s.shown id) t).erase old })
                h.ledger.tail he' hof)
            · exact State.PassDue.settled hpass
          · rcases hkeep p hp with hs | ⟨hs, -⟩ | hs
            · exact hs.handled h.idle hidle (hgone.trans (lookup_insert_ite.trans (if_neg hnew)))
            · exact absurd hs hnew
            · exact absurd hs hpath
      · exact hmoved (.inl (by simpa using hin))

theorem isKeepSentinel_keepOf (dir : Path) : isKeepSentinel (keepOf dir) := by
  simp [isKeepSentinel, keepOf]

theorem Synced.ne_keepOf (h : Synced filter p) (dir : Path) : p ≠ keepOf dir := by
  rintro rfl
  exact h.2 (isKeepSentinel_keepOf dir)

theorem Popped.folderMade {dir : Path} (h : Popped filter s (.folderMade dir)) :
    Inv filter (s.runHandleFolder filter dir) := by
  have hidle : (s.running.map Running.toApply).getD [] = [] := by rw [h.idle]; rfl
  have hkeep : ∀ p, Synced filter p → s.Settled p := by
    intro p hp
    rcases h.settled p hp with hs | ⟨f, t, -, hw⟩ | ⟨-, he⟩
    · exact hs
    · simp [Event.writes, Event.of] at hw
    · simp [Event.erases] at he
  unfold State.runHandleFolder
  split_ifs
  · refine h.proceed rfl (by rw [h.idle]; rfl) (fun p hp => ?_)
      (by unfold State.Poised; simp only [h.idle])
    exact (hkeep p hp).handled h.idle hidle (lookup_insert_ite.trans (if_neg (hp.ne_keepOf dir)))
  · exact h.proceed rfl (by rw [h.idle]; rfl) hkeep (by unfold State.Poised; simp only [h.idle])

theorem Popped.folderGone {dir : Path} (h : Popped filter s (.folderGone dir)) :
    Inv filter (s.runHandleFolderDelete dir) := by
  obtain ⟨s', hs', hinv⟩ := h.consumed rfl
  unfold State.runHandleFolderDelete
  rw [hs']
  exact hinv

/-! ### The handlers after an `await` -/

theorem Inv.resumed (h : Inv filter s) {r : Running} (hrun : s.running = some r)
    (hr : r.holds = none) {engine : EngineFiles} {running : Option Running}
    (hr' : running.bind Running.holds = none) (hs : ∀ p, Synced filter p →
      State.Settled { s with engine, running } p)
    (hp : State.Poised { s with engine, running }) : Inv filter { s with engine, running } := by
  refine ⟨h.ledger, fun p => ?_, hs, hp⟩
  have hp := h.tokens_of hrun p
  rw [hr] at hp
  simp only [hr']
  exact hp

theorem State.Settled.resumed (h : s.Settled p) {r : Running} (hrun : s.running = some r)
    (hr : r.toApply = []) {engine : EngineFiles} {running : Option Running}
    (hr' : (running.map Running.toApply).getD [] = []) (hg : engine.lookup p = s.engine.lookup p)
    (hu : s.Underway p → State.Settled { s with engine, running } p) :
    State.Settled { s with engine, running } p := by
  refine h.mono hg rfl (fun hu => hu) (fun hd => (hd.congr ?_ hg).settled) (fun hd => hd) hu
  rw [State.pendingChanges_of hrun, hr]
  unfold State.pendingChanges
  rw [hr']

theorem lookup_of_read {t : Content} (h : s.read id = some t) : s.editor.lookup (s.shown id) = some
    (id, t) := by
  unfold State.read at h
  split at h
  · next f u hd =>
    split_ifs at h with hid
    rw [hd, hid, Option.some.inj h]
  · cases h

theorem read_of_lookup (hl : Ledger s.editor s.shown s.nextFile s.waiting) {t : Content}
    (h : s.editor.lookup p = some (id, t)) : s.read id = some t := by
  unfold State.read
  rw [hl.lookup_eq_of_shown h]
  exact if_pos rfl

theorem Inv.pushed (h : Inv filter s) {r : Running} (hrun : s.running = some r)
    (hr : r.holds = none) (hr' : r.toApply = []) {content : Content}
    (hnow : s.editor.lookup (s.shown id) = some (id, content) ∨ s.UserDue (s.shown id))
    (hother : ∀ p, p ≠ s.shown id → ¬s.Underway p) :
    Inv filter { s.writeTextFile (s.shown id) content with running := none } := by
  refine h.resumed hrun hr rfl (fun p hp => ?_) trivial
  by_cases hpath : p = s.shown id
  · rw [hpath]
    rcases hnow with hd | hu
    · refine .inl ?_
      refine (AList.lookup_insert _).trans ?_
      exact (textAt_eq hd).symm
    · exact State.UserDue.settled hu
  · exact (h.settled p hp).resumed hrun hr' rfl (lookup_insert_ite.trans (if_neg hpath))
      fun hu => absurd hu (hother p hpath)

theorem Inv.read (h : Inv filter s) {content : Content} (hrun : s.running = some (.write id))
    (hread : s.read id = some content) :
    Inv filter (match s.engine.lookup (s.shown id) with
      | some remote => { s with running := some (.compare id content remote) }
      | none => { s.writeTextFile (s.shown id) content with running := none }) := by
  have hd := lookup_of_read hread
  have hother : ∀ p, p ≠ s.shown id → ¬s.Underway p := by
    intro p hp hu
    unfold State.Underway at hu
    rw [hrun] at hu
    obtain ⟨t, ht⟩ := hu
    exact hp (h.ledger.located p id t ht).1.symm
  cases hremote : s.engine.lookup (s.shown id) with
  | none => exact h.pushed hrun rfl rfl (.inl hd) hother
  | some remote =>
    refine h.resumed hrun rfl rfl (fun p hp => ?_) (.inl ⟨_, hd⟩)
    by_cases hpath : p = s.shown id
    · rw [hpath]
      exact State.Underway.settled ⟨hd, hremote⟩
    · exact (h.settled p hp).resumed hrun rfl rfl rfl fun hu => absurd hu (hother p hpath)

theorem Inv.moved (h : Inv filter s) {content : Content} (hrun : s.running = some (.moved id))
    (hread : s.read id = some content) :
    Inv filter { s.writeTextFile (s.shown id) content with running := none } := by
  refine h.pushed hrun rfl rfl (.inl (lookup_of_read hread)) fun p hp hu => ?_
  unfold State.Underway at hu
  rw [hrun] at hu
  obtain ⟨t, ht⟩ := hu
  exact hp (h.ledger.located p id t ht).1.symm

theorem Inv.compared (h : Inv filter s) {content remote : Content}
    (hrun : s.running = some (.compare id content remote)) :
    Inv filter (if remote = content then { s with running := none }
      else { s.writeTextFile (s.shown id) content with running := none }) := by
  have hunder : ∀ p, s.Underway p → s.editor.lookup p = some (id, content) ∧
      s.engine.lookup p = some remote := by
    intro p hu
    unfold State.Underway at hu
    rw [hrun] at hu
    exact hu
  split_ifs with heq
  · refine h.resumed hrun rfl rfl (fun p hp => ?_) trivial
    refine (h.settled p hp).resumed hrun rfl rfl rfl fun hu => .inl ?_
    obtain ⟨hd, hg⟩ := hunder p hu
    rw [show State.textAt { s with running := none } p = s.textAt p from rfl, textAt_eq hd, ← heq]
    exact hg
  · refine h.pushed hrun rfl rfl ?_ fun p hp hu =>
      hp (h.ledger.located p id content (hunder p hu).1).1.symm
    have hpoised := h.poised
    unfold State.Poised at hpoised
    rw [hrun] at hpoised
    rcases hpoised with ⟨p, hp⟩ | ⟨e, he, hof⟩
    · exact .inl (h.ledger.lookup_eq_of_shown hp)
    · exact .inr (.of_of h.ledger he hof)

theorem Inv.ended (h : Inv filter s) {r : Running} (hrun : s.running = some r) (hr : r.holds = none)
    (hr' : r.toApply = []) (hu : ∀ p, s.Underway p → s.Spared filter p) {engine : EngineFiles}
    (hg : ∀ p, Synced filter p → engine.lookup p = s.engine.lookup p) :
    Inv filter { s with engine, running := none } := by
  refine h.resumed hrun hr rfl (fun p hp => ?_) trivial
  refine (h.settled p hp).resumed hrun hr' rfl (hg p hp) fun hunder => ?_
  exact (hu p hunder).settled hp (hg p hp) rfl (fun hu => hu)
    (fun hd => hd.congr rfl (hg p hp)) fun hd => hd

theorem Inv.unread (h : Inv filter s) {r : Running} (hrun : s.running = some r)
    (hr : r.holds = none) (hr' : r.toApply = [])
    (hu : ∀ p, s.Underway p → ∃ t, s.editor.lookup p = some (id, t))
    (hc : s.read id = none ∨ s.Spared filter (s.shown id)) :
    Inv filter { s with running := none } := by
  refine h.ended hrun hr hr' (fun p hunder => ?_) fun p hp => rfl
  obtain ⟨t, ht⟩ := hu p hunder
  rcases hc with hc | hc
  · exact absurd ((read_of_lookup h.ledger ht).symm.trans hc) (by simp)
  · exact (h.ledger.located p id t ht).1 ▸ hc

end Csp.Bridge
