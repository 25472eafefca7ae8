import Csp.BridgeInvariant

/-! The applies keep the invariant of the clean runs, and so does every run. What a run leaves
out, each branch with a run that takes it, makes the bridge lose an event or a token. -/

namespace Csp.Bridge
open Fifo

variable {filter : Path → Bool} {s s' : State} {p q : Path} {e : Event} {id : FileId}
    {own : Option Path}

/-! ### The applies -/

theorem Inv.advanced (h : Inv filter s) {r : Running} (hrun : s.running = some r)
    (running : Option Running) (suppressed : Path → Nat) (known : List Path)
    (ht : ∀ p, suppressed p + (if r.holds = some p then 1 else 0) =
      s.suppressed p + if running.bind Running.holds = some p then 1 else 0)
    (hc : ∀ p, Synced filter p → verdict r.toApply p = verdict
      ((running.map Running.toApply).getD []) p ∨
      State.Settled { s with running, suppressed, knownSdkPaths := known } p ∨ ¬s.ChangeDue p)
    (hu : ∀ p, Synced filter p → s.Underway p →
      State.Settled { s with running, suppressed, knownSdkPaths := known } p)
    (hp : State.Poised { s with running, suppressed, knownSdkPaths := known }) :
    Inv filter { s with running, suppressed, knownSdkPaths := known } := by
  refine ⟨h.ledger, fun p => ?_, fun p hp => ?_, hp⟩
  · have hp := h.tokens_of hrun p
    have := ht p
    rw [show State.owned { s with running, suppressed, knownSdkPaths := known } p =
      s.owned p from rfl]
    simp only
    omega
  · refine (h.settled p hp).mono rfl rfl (fun hu => hu) (fun hd => ?_) (fun hd => hd) (hu p hp)
    rcases hc p hp with hv | hs | hn
    · refine State.ChangeDue.settled (hd.congr ?_ rfl)
      rw [State.pendingChanges_of hrun, verdict_append, hv, ← verdict_append]
      rfl
    · exact hs
    · exact absurd hd hn

theorem Inv.awaited (h : Inv filter s) {act : Option Act} {rest : Rest}
    (hrun : s.running = some (.apply act rest)) (act' : Option Act) (suppressed : Path → Nat)
    (ht : ∀ p, suppressed p + (if act.bind Act.holds = some p then 1 else 0) =
      s.suppressed p + if act'.bind Act.holds = some p then 1 else 0)
    (hu : ∀ p, Synced filter p → act.bind Act.target = some (p, s.engine.lookup p) →
      act'.bind Act.target = some (p, s.engine.lookup p) ∨ s.engine.lookup p = s.textAt p ∨
      s.UserDue p)
    (hp : State.Poised { s with running := some (.apply act' rest), suppressed }) :
    Inv filter (State.await { s with suppressed } act' rest) := by
  refine h.advanced hrun (some (.apply act' rest)) suppressed s.knownSdkPaths (fun p => ?_)
    (fun p hp => .inl rfl)
    (fun p hp hunder => ?_) hp
  · rw [Running.holds_apply, Option.bind_some, Running.holds_apply]
    exact ht p
  · rcases (State.underway_apply hrun).mp hunder with htarget | hcovers
    · rcases hu p hp htarget with ha | ha | ha
      · exact State.Underway.settled (.inl ha)
      · exact .inl ha
      · exact State.UserDue.settled ha
    · exact State.Underway.settled (.inr hcovers)

theorem Inv.effected (h : Inv filter s) {act act' : Option Act} {rest : Rest} {path : Path}
    {want : Option Content} {editor : EditorFiles} {shown : FileId → Path} {next : FileId}
    (hrun : s.running = some (.apply act rest)) (hholds : act.bind Act.holds = some path)
    (htarget : act.bind Act.target = some (path, want)) (hown : e.own = some path)
    (hl : Ledger editor shown next (s.waiting ++ [e]))
    (hplace : ∀ p, p ≠ path → editor.lookup p = s.editor.lookup p)
    (htext : (editor.lookup path).map Prod.snd = want)
    (hshown : ∀ e ∈ s.waiting, ∀ p, e.erases s.shown p → e.erases shown p)
    (hu : State.Undisturbed (s.await none rest) path want) (hholds' : act'.bind Act.holds = none)
    (hpoised : State.Poised ((s.edited editor shown next e).await act' rest)) :
    Inv filter ((s.edited editor shown next e).await act' rest) := by
  have hw : State.waiting ((s.edited editor shown next e).await act' rest) = s.waiting ++ [e] :=
    waiting_edited (s := s) (e := e) editor shown next
  have hold : ∀ e' ∈ s.waiting, e' ∈ State.waiting
      ((s.edited editor shown next e).await act' rest) := by
    intro e' he'
    rw [hw]
    exact List.mem_append_left _ he'
  refine ⟨hw ▸ hl, fun p => ?_, fun p hp => ?_, hpoised⟩
  · have htokens := h.tokens_of hrun p
    rw [Running.holds_apply, hholds] at htokens
    rw [State.owned, hw, List.countP_append, List.countP_singleton]
    simp only [State.await, Option.bind_some, Running.holds_apply, hholds', hown]
    rw [htokens, State.owned]
    simp
  · by_cases hpath : p = path
    · subst hpath
      rcases hu.1 with hg | hd | hd
      · exact .inl (hg.trans htext.symm)
      · exact State.ChangeDue.settled hd
      · exact State.PassDue.settled hd
    · refine (h.settled p hp).mono rfl (hplace p hpath) (fun hu => hu.mono (hplace p hpath) hold
        fun e he hr => hshown e he p hr) (fun hd => State.ChangeDue.settled (hd.congr ?_ rfl))
        (fun hd => hd)
        fun hunder => ?_
      · rw [State.pendingChanges_of hrun]
        rfl
      · rcases (State.underway_apply hrun).mp hunder with hunder | hcovers
        · rw [htarget, Option.some.injEq, Prod.mk.injEq] at hunder
          exact absurd hunder.1.symm hpath
        · exact State.Underway.settled (.inr hcovers)

theorem Inv.emitted (h : Inv filter s) {act act' : Option Act} {rest : Rest}
    (hrun : s.running = some (.apply act rest)) (he : ∀ id k own, e ≠ .file id k own)
    (hholds : act.bind Act.holds = e.own) (hholds' : act'.bind Act.holds = none)
    (htarget : act'.bind Act.target = act.bind Act.target)
    (hpoised : State.Poised ((s.emit e).await act' rest)) :
    Inv filter ((s.emit e).await act' rest) := by
  have hw : State.waiting ((s.emit e).await act' rest) = s.waiting ++ [e] :=
      (List.append_assoc ..).symm
  have hold : ∀ e' ∈ s.waiting, e' ∈ State.waiting ((s.emit e).await act' rest) := by
    intro e' he'
    rw [hw]
    exact List.mem_append_left _ he'
  have hl : Ledger s.editor s.shown s.nextFile (s.waiting ++ [e]) := by
    refine h.ledger.append (fun id k own hmem => ?_) (fun id own hmem => ?_) fun e' he' id hof => ?_
    · exact absurd (List.mem_singleton.mp hmem).symm (he id k own)
    · exact absurd (List.mem_singleton.mp hmem).symm (he id .deleted own)
    · obtain ⟨k, hk⟩ := Event.exists_kind hof
      exact he id k none ((List.mem_singleton.mp he').symm.trans hk)
  refine ⟨hw ▸ hl, fun p => ?_, fun p hp => ?_, hpoised⟩
  · have htokens := h.tokens_of hrun p
    rw [Running.holds_apply, hholds] at htokens
    rw [State.owned, hw, List.countP_append, List.countP_singleton]
    simp only [State.await, State.emit, Option.bind_some, Running.holds_apply, hholds']
    rw [htokens, State.owned]
    simp
  · refine (h.settled p hp).mono rfl rfl (fun hu => hu.mono rfl hold fun e he hr => hr)
      (fun hd => State.ChangeDue.settled (hd.congr ?_ rfl)) (fun hd => hd) fun hunder =>
      State.Underway.settled ?_
    · rw [State.pendingChanges_of hrun]
      rfl
    · exact ((State.underway_apply hrun).mp hunder).imp_left htarget.trans

theorem Inv.finished (h : Inv filter s) {rest : Rest} (hrun : s.running = some (.apply none rest))
    (hrest : rest.toApply = []) (hcovers : ∀ p, ¬s.Covers p rest) {known : List Path} :
    Inv filter (State.finish { s with knownSdkPaths := known } rest false) := by
  have hsettled : ∀ (timer pending flight : Bool), (s.PassDue → State.PassDue { s with
      applyTimer := timer, applyPending := pending, applyInFlight := flight }) → ∀ p,
      Synced filter p →
      State.Settled { s with
        knownSdkPaths := known, running := none, applyTimer := timer, applyPending := pending,
        applyInFlight := flight }
        p := by
    intro timer pending flight hpass p hp
    refine (h.settled p hp).mono rfl rfl (fun hu => hu)
      (fun hd => State.ChangeDue.settled (hd.congr ?_ rfl)) hpass
      fun hu => ?_
    · rw [State.pendingChanges_of hrun, Running.toApply, hrest]
      rfl
    · rcases (State.underway_apply hrun).mp hu with hu | hu
      · cases hu
      · exact absurd hu (hcovers p)
  have htokens : ∀ p, s.suppressed p = s.owned p + if (none : Option Running).bind
      Running.holds = some p then 1 else 0 :=
    h.tokens_of hrun
  unfold State.finish
  split
  · exact ⟨h.ledger, htokens, hsettled _ _ _ fun hd => hd, trivial⟩
  · split_ifs with hpending
    · -- the pass that was asked for meanwhile is scheduled
      unfold State.scheduleApplyRemoteState
      split_ifs
      · refine ⟨h.ledger, htokens, hsettled _ _ _ fun hd => ?_, trivial⟩
        next ht => exact .inr (.inl (by simpa using ht))
      · exact ⟨h.ledger, htokens, hsettled _ _ _ fun hd => .inr (.inl rfl), trivial⟩
    · refine ⟨h.ledger, htokens, hsettled _ _ _ fun hd => ?_, trivial⟩
      rcases hd with hd | hd | ⟨hd, -⟩
      · exact .inl hd
      · exact .inr (.inl hd)
      · exact absurd (by simp [hd]) hpending

theorem verdict_eq_none {cs : List (Path × Option Content)} (h : p ∉ cs.map Prod.fst) :
    verdict cs p = none := by
  have hfilter : cs.filter (·.1 = p) = [] := by
    refine List.filter_eq_nil_iff.mpr fun c hc => ?_
    have hne : c.1 ≠ p := fun heq => h (heq ▸ List.mem_map_of_mem hc)
    simpa using hne
  rw [verdict, hfilter]
  rfl

/-- An apply is given up, and what it leaves behind is not lost. -/
theorem Inv.thrown (h : Inv filter s) {act : Option Act} {rest rest' : Rest} {path : Path}
    (known : List Path) (hrun : s.running = some (.apply act rest))
    (hholds : act.bind Act.holds = none) (hleft : ∀ p, s.Underway p ∨
      p ∈ rest.toApply.map Prod.fst → p ∈ path :: s.left rest')
    (hc : s.CleanThrow filter path rest') : Inv filter
    (State.finish { s with knownSdkPaths := known } rest' true) := by
  have hsettled : ∀ flight : Bool, (s.PassDue → State.PassDue { s with applyInFlight := flight }) →
      ∀ p, Synced filter p → State.Settled { s with
        knownSdkPaths := known, running := none, applyInFlight := flight } p := by
    intro flight hpass p hp
    have hspared : p ∈ path :: s.left rest' → State.Settled { s with
        knownSdkPaths := known, running := none, applyInFlight := flight } p :=
      fun hmem => (hc.2 p hmem).settled hp rfl rfl (fun hu => hu) (fun hd => hd) hpass
    refine (h.settled p hp).mono rfl rfl (fun hu => hu) (fun hd => ?_) hpass fun hu =>
      hspared (hleft p (.inl hu))
    by_cases hmem : p ∈ rest.toApply.map Prod.fst
    · exact hspared (hleft p (.inr hmem))
    · refine State.ChangeDue.settled (hd.congr ?_ rfl)
      rw [State.pendingChanges_of hrun, verdict_append, Running.toApply, verdict_eq_none hmem,
        Option.or_none]
      rfl
  have htokens : ∀ p, s.suppressed p = s.owned p + if (none : Option Running).bind
      Running.holds = some p then 1 else 0 := by
    intro p
    have hp := h.tokens_of hrun p
    rw [Running.holds_apply, hholds] at hp
    exact hp
  unfold State.finish
  split
  · exact ⟨h.ledger, htokens, hsettled _ fun hd => hd, trivial⟩
  · next hpass =>
    have hpending : s.applyPending = false := by
      refine hc.1 ?_
      cases rest' with
      | changes cs => exact absurd rfl (hpass cs)
      | _ => rfl
    rw [Bool.not_true, Bool.and_false, if_neg Bool.false_ne_true]
    refine ⟨h.ledger, htokens, hsettled _ fun hd => ?_, trivial⟩
    rcases hd with hd | hd | ⟨hd, -⟩
    · exact .inl hd
    · exact .inr (.inl hd)
    · rw [hpending] at hd
      cases hd

/-- What the apply does for a path brings it to the engine's text, or it has that. -/
def State.Reached (s : State) (path : Path) (act : Option Act) : Prop :=
  act.bind Act.target = some (path, s.engine.lookup path) ∨ s.engine.lookup path = s.textAt path

theorem Inv.taken (h : Inv filter s) {rest rest' : Rest} {act : Option Act} {path : Path}
    (suppressed : Path → Nat) (known : List Path) (hrun : s.running = some (.apply none rest))
    (hv : ∀ p, p ≠ path → verdict rest.toApply p = verdict rest'.toApply p)
    (hvp : Synced filter path → verdict rest.toApply path = verdict rest'.toApply path ∨
      ∃ want, verdict rest.toApply path = (verdict rest'.toApply path).or (some want) ∧
        (s.engine.lookup path = want → s.Reached path act))
    (hcov : ∀ p, p ≠ path → s.Covers p rest → State.Covers
      { s with knownSdkPaths := known } p rest')
    (hcovp : Synced filter path → s.Covers path rest → s.Reached path act)
    (ht : ∀ p, suppressed p = s.suppressed p + if act.bind Act.holds = some p then 1 else 0)
    (hp : State.Poised { s with
      running := some (.apply act rest'), suppressed, knownSdkPaths := known }) :
    Inv filter (State.await { s with suppressed, knownSdkPaths := known } act rest') := by
  have hreached : ∀ p, s.Reached p act → State.Settled { s with
      running := some (.apply act rest'), suppressed, knownSdkPaths := known } p := by
    rintro p (hr | hr)
    · exact State.Underway.settled (.inl hr)
    · exact .inl hr
  refine h.advanced hrun (some (.apply act rest')) suppressed known (fun p => ?_) (fun p hp => ?_)
    (fun p hp hunder => ?_) hp
  · rw [Option.bind_some, Running.holds_apply, Running.holds_apply]
    exact (ht p).trans rfl
  · by_cases hpath : p = path
    · subst hpath
      rcases hvp hp with hvp | ⟨want, hvp, hwant⟩
      · exact .inl hvp
      · refine .inr (or_not_of_imp fun hd => ?_)
        have hlast : (verdict (s.opQueue.flatMap Op.changes) p).or
            ((verdict rest'.toApply p).or (some want)) =
            some (s.engine.lookup p) := by
          unfold State.ChangeDue at hd
          rw [State.pendingChanges_of hrun, verdict_append] at hd
          rw [← hvp]
          exact hd
        rw [← Option.or_assoc] at hlast
        cases hrest : (verdict (s.opQueue.flatMap Op.changes) p).or (verdict rest'.toApply p) with
        | some v =>
          refine State.ChangeDue.settled ?_
          unfold State.ChangeDue State.pendingChanges
          rw [verdict_append]
          rw [hrest] at hlast
          exact hrest.trans hlast
        | none =>
          rw [hrest] at hlast
          exact hreached p (hwant (Option.some.inj hlast).symm)
    · exact .inl (hv p hpath)
  · rcases (State.underway_apply hrun).mp hunder with hunder | hunder
    · cases hunder
    · by_cases hpath : p = path
      · exact hreached p (hpath ▸ hcovp (hpath ▸ hp) (hpath ▸ hunder))
      · exact State.Underway.settled (.inr (hcov p hpath hunder))

theorem Inv.passed (h : Inv filter s) {rest rest' : Rest} {path : Path}
    (hrun : s.running = some (.apply none rest))
    (hv : ∀ p, p ≠ path → verdict rest.toApply p = verdict rest'.toApply p)
    (hcov : ∀ p, p ≠ path → s.Covers p rest → s.Covers p rest')
    (hnot : ¬Synced filter path ∨ rest.toApply = rest'.toApply ∧ ¬s.Covers path rest) :
    Inv filter (s.await none rest') := by
  refine h.taken s.suppressed s.knownSdkPaths hrun hv (fun hp => ?_) hcov (fun hp hc => ?_)
    (fun p => rfl) trivial
  · exact .inl (by rw [(hnot.resolve_left (not_not_intro hp)).1])
  · exact absurd hc (hnot.resolve_left (not_not_intro hp)).2

theorem Inv.applyContent (h : Inv filter s) {rest rest' : Rest} {path : Path} {content : Content}
    {warm : Bool} {known : List Path} (hrun : s.running = some (.apply none rest))
    (hv : ∀ p, p ≠ path → verdict rest.toApply p = verdict rest'.toApply p)
    (hvp : verdict rest.toApply path = verdict rest'.toApply path ∨
      verdict rest.toApply path = (verdict rest'.toApply path).or (some (some content)))
    (hcov : ∀ p, p ≠ path → s.Covers p rest → State.Covers
      { s with knownSdkPaths := known } p rest')
    (hcovp : s.Covers path rest → s.engine.lookup path = some content) :
    Inv filter (State.applyContent { s with knownSdkPaths := known } warm path content rest') := by
  have hreached : ∀ act : Act, act.target = some (path, some content) →
      s.engine.lookup path = some content →
      s.Reached path (some act) := by
    intro act hact hg
    exact .inl (by rw [Option.bind_some, hact, hg])
  have hgo : ∀ act : Act, act.target = some (path, some content) → act.holds = none →
      State.Poised { s with running := some (.apply (some act) rest'), knownSdkPaths := known } →
      Inv filter (State.await { s with knownSdkPaths := known } (some act) rest') := by
    intro act hact hholds hp
    refine h.taken s.suppressed known hrun hv (fun _ => ?_) hcov
      (fun _ hc => hreached act hact (hcovp hc))
      (fun p => ?_) hp
    · exact hvp.imp_right fun hvp => ⟨_, hvp, hreached act hact⟩
    · rw [Option.bind_some, hholds]
      rfl
  unfold State.applyContent
  split
  · next file t hd => exact hgo (.read file path content) rfl rfl (.inl ⟨t, hd⟩)
  · exact hgo (.ensureFolder path content (folders path)) rfl rfl trivial

theorem Inv.applyRemoval (h : Inv filter s) {rest rest' : Rest} {path : Path} {known : List Path}
    (hrun : s.running = some (.apply none rest))
    (hv : ∀ p, p ≠ path → verdict rest.toApply p = verdict rest'.toApply p)
    (hvp : verdict rest.toApply path = verdict rest'.toApply path ∨
      verdict rest.toApply path = (verdict rest'.toApply path).or (some none))
    (hcov : ∀ p, p ≠ path → s.Covers p rest → State.Covers
      { s with knownSdkPaths := known } p rest')
    (hcovp : s.Covers path rest → s.engine.lookup path = none) :
    Inv filter (State.applyRemoval { s with knownSdkPaths := known } path rest') := by
  unfold State.applyRemoval
  split
  · next file t hd =>
    have hreached : s.engine.lookup path = none → s.Reached path (some (.delete file path)) :=
      fun hg => .inl (by rw [hg]; rfl)
    refine h.taken (Function.update s.suppressed path (s.suppressed path + 1)) known hrun hv
      (fun _ => hvp.imp_right fun hvp => ⟨_, hvp, hreached⟩) hcov (fun _ hc => hreached (hcovp hc))
      (fun p => ?_) trivial
    by_cases hpath : p = path
    · rw [hpath, Function.update_self]
      simp [Act.holds]
    · rw [Function.update_of_ne hpath]
      simp [Act.holds, Ne.symm hpath]
  · next hd =>
    have hreached : s.engine.lookup path = none → s.Reached path none :=
      fun hg => .inr (hg.trans (textAt_eq_none hd).symm)
    exact h.taken s.suppressed known hrun hv (fun _ => hvp.imp_right fun hvp =>
        ⟨_, hvp, hreached⟩) hcov
      (fun _ hc => hreached (hcovp hc)) (fun p => rfl) trivial

theorem verdict_cons_ne {path : Path} {change : Option Content} {cs : List (Path × Option Content)}
    (h : p ≠ path) :
    verdict ((path, change) :: cs) p = verdict cs p := by
  rw [verdict_cons, if_neg (Ne.symm h), Option.or_none]

theorem verdict_cons_self {path : Path} {change : Option Content}
    {cs : List (Path × Option Content)} :
    verdict ((path, change) :: cs) path = (verdict cs path).or (some change) := by
  rw [verdict_cons, if_pos rfl]

theorem Inv.advance (h : Inv filter s) {rest : Rest} {reply : Reply}
    (hrun : s.running = some (.apply none rest))
    (hc : s.CleanResume filter (.apply none rest) reply) (warm : Bool) :
    Inv filter (s.advance filter warm rest) := by
  unfold State.advance
  split
  · exact h.finished hrun rfl (fun p => id)
  · next path change cs =>
    split_ifs with hf
    · exact h.passed hrun (fun p hp => verdict_cons_ne hp) (fun p _ => id)
        (.inl fun hp => by simp [hp.1] at hf)
    · cases change with
      | none =>
        exact h.applyRemoval hrun (fun p hp => verdict_cons_ne hp) (.inr verdict_cons_self)
          (fun p _ => id) False.elim
      | some content =>
        exact h.applyContent hrun (fun p hp => verdict_cons_ne hp) (.inr verdict_cons_self)
          (fun p _ => id) False.elim
  · next current =>
    -- the first loop has come to every path that the engine had; the rest is the baseline's
    refine h.advanced hrun (some (.apply none (.tombstones s.knownSdkPaths current))) s.suppressed
      s.knownSdkPaths
      (fun p => rfl) (fun p hp => .inl rfl) (fun p hp hu => ?_) trivial
    rcases (State.underway_apply hrun).mp hu with hu | hu | hu
    · cases hu
    · cases hu
    · exact State.Underway.settled (.inr hu)
  · next path ps current =>
    split_ifs with hf
    · have hnot : ¬Synced filter path := fun hp => by simp [hp.1] at hf
      refine h.passed hrun (fun p hp => rfl) (fun p hp hcov => ?_) (.inl hnot)
      exact hcov.imp_left fun hmem => (List.mem_cons.mp hmem).resolve_left hp
    · cases hg : s.engine.lookup path with
      | none =>
        have hthrow := (hc (by simpa using hf)).resolve_left (by simp [hg])
        simp only [hg]
        refine h.thrown _ hrun rfl (fun p hp => ?_) hthrow
        rcases hp with hu | hmem
        · rcases (State.underway_apply hrun).mp hu with hu | hmem | ⟨-, hknown, -⟩
          · cases hu
          · exact List.mem_cons.mpr ((List.mem_cons.mp hmem).imp_right (List.mem_append_left _))
          · exact List.mem_cons_of_mem _ (List.mem_append_right _ hknown)
        · cases hmem
      | some content =>
        simp only [hg]
        refine h.applyContent hrun (fun p hp => rfl) (.inl rfl) (fun p hp hcov => ?_) fun _ => hg
        rcases hcov with hmem | ⟨hnone, hknown, hcur⟩
        · exact .inl ((List.mem_cons.mp hmem).resolve_left hp)
        · refine .inr ⟨hnone, List.mem_insert_of_mem hknown, fun hmem => hcur ?_⟩
          exact (List.mem_insert_iff.mp hmem).resolve_left hp
  · exact h.finished hrun rfl (fun p hp => by cases hp.2.1)
  · next path ps current =>
    have hcov : ∀ p, p ≠ path → s.Covers p (.tombstones (path :: ps) current) →
        s.Covers p (.tombstones ps current) :=
      fun p hp hc => ⟨hc.1, (List.mem_cons.mp hc.2.1).resolve_left hp, hc.2.2⟩
    split_ifs with hskip
    · refine h.passed hrun (fun p hp => rfl) hcov ?_
      rcases Bool.or_eq_true .. |>.mp hskip with hcur | hf
      · exact .inr ⟨rfl, fun hc => hc.2.2 (by simpa using hcur)⟩
      · exact .inl fun hp => by simp [hp.1] at hf
    · exact h.applyRemoval hrun (fun p hp => rfl) (.inl rfl) hcov fun hc => hc.1

/-! ### The answers of the host -/

theorem Inv.answered_read (h : Inv filter s) {file : FileId} {path : Path} {content cur : Content}
    {rest : Rest} (hrun : s.running = some (.apply (some (.read file path content)) rest))
    (hread : s.read file = some cur) :
    Inv filter (if cur = content then s.await none rest
      else (s.suppress path).await (some (.modify file path content)) rest) := by
  split_ifs with heq
  · refine h.awaited hrun none s.suppressed (fun p => rfl) (fun p hp ht => .inr ?_) trivial
    obtain ⟨rfl, hg⟩ : path = p ∧ some content = s.engine.lookup p := by simpa [Act.target] using ht
    have hpoised := h.poised
    unfold State.Poised at hpoised
    rw [hrun] at hpoised
    rcases hpoised with ⟨t, hd⟩ | hu
    · have hcur : s.read file = some t := read_of_lookup h.ledger hd
      obtain rfl : cur = t := Option.some.inj (hread.symm.trans hcur)
      exact .inl (by rw [← hg, textAt_eq hd, heq])
    · exact .inr hu
  · refine h.awaited hrun (some (.modify file path content)) _ (fun p => ?_)
      (fun p hp ht => .inl ht) trivial
    by_cases hpath : p = path
    · rw [hpath, Function.update_self]
      simp [Act.holds]
    · rw [Function.update_of_ne hpath]
      simp [Act.holds, Ne.symm hpath]

theorem Inv.answered_modify (h : Inv filter s) {file : FileId} {path : Path} {content cur : Content}
    {rest : Rest} (hrun : s.running = some (.apply (some (.modify file path content)) rest))
    (hread : s.read file = some cur) (hc : s.CleanAnswer filter rest
      (.modify file path content) .done) :
    Inv filter ((s.modifyFile file content (some path)).await none rest) := by
  obtain ⟨hshown, hu⟩ := hc
  have hd : s.editor.lookup path = some (file, cur) := hshown ▸ lookup_of_read hread
  unfold State.modifyFile
  rw [hshown]
  exact h.effected hrun rfl rfl rfl (h.ledger.modify hd _)
    (fun p hp => by rw [lookup_insert_ite, if_neg hp])
    (by rw [AList.lookup_insert]; rfl) (fun e he p hr => hr) hu rfl trivial

theorem Inv.answered_create (h : Inv filter s) {path : Path} {content : Content} {rest : Rest}
    (hrun : s.running = some (.apply (some (.create path content)) rest))
    (hd : s.editor.lookup path = none) (hc : s.CleanAnswer filter rest
      (.create path content) .done) :
    Inv filter ((s.createFile path content (some path)).await none rest) := by
  have hnew : ∀ own, .file s.nextFile .deleted own ∉ s.waiting :=
    fun own he => absurd (h.ledger.early _ _ _ he) (lt_irrefl _)
  exact h.effected hrun rfl rfl rfl (h.ledger.create hd (.inr hc.2))
    (fun p hp => by rw [lookup_insert_ite, if_neg hp])
    (by rw [AList.lookup_insert]; rfl) (fun e he p hr => (Ledger.erases_update hnew he).trans hr)
    hc rfl trivial

theorem Inv.answered_delete (h : Inv filter s) {file : FileId} {path : Path} {cur : Content}
    {rest : Rest} (hrun : s.running = some (.apply (some (.delete file path)) rest))
    (hread : s.read file = some cur) (hc : s.CleanAnswer filter rest (.delete file path) .done) :
    Inv filter ((s.removeFile file (some path)).await (State.pruneEmptyFolders path) rest) := by
  obtain ⟨hshown, hu⟩ := hc
  have hd : s.editor.lookup path = some (file, cur) := hshown ▸ lookup_of_read hread
  have hprune : (State.pruneEmptyFolders path).bind Act.holds = none := by
    unfold State.pruneEmptyFolders
    split_ifs <;> rfl
  unfold State.removeFile
  rw [hshown]
  refine h.effected hrun rfl rfl rfl (h.ledger.remove hd (.inr hu.2))
    (fun p hp => by rw [lookup_erase_ite, if_neg hp])
    (by rw [AList.lookup_erase]; rfl) (fun e he p hr => hr) hu hprune ?_
  unfold State.pruneEmptyFolders
  split_ifs <;> trivial

theorem Inv.answered_rmdir (h : Inv filter s) {dir : Path} {rest : Rest}
    (hrun : s.running = some (.apply (some (.rmdir dir)) rest))
    (hc : s.CleanAnswer filter rest (.rmdir dir) .done) :
    Inv filter ((s.removeFolder dir).await (State.pruneEmptyFolders dir) rest) := by
  have hinside : s.editor.keys.filter (inFolder dir) = [] := List.filter_eq_nil_iff.mpr hc
  have hremove : s.removeFolder dir = s.emit (.folderGone dir) := by
    unfold State.removeFolder
    rw [hinside]
    simp only [List.foldl_nil, List.filterMap_nil, List.append_nil]
    rfl
  rw [hremove]
  unfold State.pruneEmptyFolders
  split_ifs
  · exact h.emitted hrun (by simp) rfl rfl rfl trivial
  · exact h.emitted hrun (by simp) rfl rfl rfl trivial

theorem Inv.continued (h : Inv filter s) {act act' : Act} {rest : Rest}
    (hrun : s.running = some (.apply (some act) rest)) (hholds : act'.holds = act.holds)
    (htarget : act'.target = act.target)
    (hp : State.Poised { s with running := some (.apply (some act') rest) }) :
    Inv filter (s.await (some act') rest) := by
  refine h.awaited hrun (some act') s.suppressed (fun p => ?_) (fun p hp ht => .inl ?_) hp
  · simp only [Option.bind_some, hholds]
  · rw [Option.bind_some, htarget]
    exact ht

theorem Inv.suppressed (h : Inv filter s) {act act' : Act} {path : Path} {rest : Rest}
    (hrun : s.running = some (.apply (some act) rest)) (hholds : act.holds = none)
    (hholds' : act'.holds = some path) (htarget : act'.target = act.target)
    (hp : State.Poised { s.suppress path with running := some (.apply (some act') rest) }) :
    Inv filter ((s.suppress path).await (some act') rest) := by
  refine h.awaited hrun (some act') _ (fun p => ?_) (fun p hp ht => .inl ?_) hp
  · rw [Option.bind_some, Option.bind_some, hholds, hholds']
    by_cases hpath : p = path
    · rw [hpath, Function.update_self]
      simp
    · rw [Function.update_of_ne hpath]
      simp [Ne.symm hpath]
  · rw [Option.bind_some, htarget]
    exact ht

theorem Inv.dropped (h : Inv filter s) {act : Act} {rest : Rest}
    (hrun : s.running = some (.apply (some act) rest)) (hholds : act.holds = none)
    (htarget : act.target = none) : Inv filter (s.await none rest) := by
  refine h.awaited hrun none s.suppressed (fun p => ?_) (fun p hp ht => ?_) trivial
  · rw [Option.bind_some, hholds]
    rfl
  · rw [Option.bind_some, htarget] at ht
    cases ht

theorem Inv.answered_throw (h : Inv filter s) {act : Act} {rest : Rest} {path : Path}
    (hrun : s.running = some (.apply (some act) rest)) (hholds : act.holds = none)
    (htarget : ∀ {p : Path} (want : Option Content), act.target = some (p, want) → path = p)
    (hc : s.CleanThrow filter path rest) : Inv filter (s.finish rest true) := by
  refine h.thrown s.knownSdkPaths hrun hholds (fun p hp => ?_) hc
  rcases hp with hu | hmem
  · rcases (State.underway_apply hrun).mp hu with hu | hu
    · exact htarget _ hu ▸ List.mem_cons_self
    · refine List.mem_cons_of_mem _ ?_
      cases rest with
      | changes cs => exact hu.elim
      | files ps current =>
        rcases hu with hmem | ⟨-, hknown, -⟩
        · exact List.mem_append_left _ hmem
        · exact List.mem_append_right _ hknown
      | tombstones ps current => exact hu.2.1
  · refine List.mem_cons_of_mem _ ?_
    cases rest with
    | changes cs => exact hmem
    | _ => cases hmem

theorem Inv.answered (h : Inv filter s) {act : Act} {rest : Rest} {reply : Reply}
    (hrun : s.running = some (.apply (some act) rest)) (hc : s.CleanAnswer filter rest act reply)
    (ha : s.answer rest act reply = some s') : Inv filter s' := by
  cases act with
  | read file path content =>
    cases reply with
    | done =>
      obtain ⟨cur, hread, rfl⟩ := Option.map_eq_some_iff.mp ha
      exact h.answered_read hrun hread
    | fails =>
      obtain rfl := Option.some.inj ha
      exact h.answered_throw hrun rfl (fun _ ht => (Prod.mk.inj (Option.some.inj ht)).1) hc
    | _ => cases ha
  | modify file path content =>
    cases reply with
    | done =>
      obtain ⟨cur, hread, rfl⟩ := Option.map_eq_some_iff.mp ha
      exact h.answered_modify hrun hread hc
    | fails => exact hc.elim
    | _ => cases ha
  | ensureFolder path content folders =>
    cases folders with
    | nil =>
      cases reply with
      | done =>
        obtain rfl := Option.some.inj ha
        exact h.suppressed hrun rfl rfl rfl trivial
      | _ => cases ha
    | cons dir folders =>
      cases reply with
      | done =>
        obtain rfl := Option.some.inj ha
        exact h.continued hrun rfl rfl trivial
      | alreadyExists =>
        obtain rfl := Option.some.inj ha
        exact h.continued hrun rfl rfl trivial
      | cold =>
        obtain rfl := Option.some.inj ha
        exact h.emitted hrun (by simp) rfl rfl rfl trivial
      | fails =>
        obtain rfl := Option.some.inj ha
        exact h.answered_throw hrun rfl (fun _ ht => (Prod.mk.inj (Option.some.inj ht)).1) hc
      | notFound => cases ha
  | create path content =>
    -- after `already exists` the file is found and takes the text
    have hfound : (s.editor.lookup path).isSome →
        Inv filter (s.await ((s.editor.lookup path).map fun f =>
          .modify f.1 path content) rest) := by
      intro hin
      obtain ⟨f, hf⟩ := Option.isSome_iff_exists.mp hin
      rw [hf]
      exact h.continued hrun rfl rfl trivial
    cases reply with
    | done =>
      obtain ⟨hnone, hs⟩ := (Option.ite_none_right_eq_some ..).mp ha
      obtain rfl := Option.some.inj hs
      exact h.answered_create hrun (by simpa using hnone) hc
    | alreadyExists =>
      obtain rfl := Option.some.inj ha
      exact hfound hc
    | cold =>
      cases rest with
      | changes cs => cases hc.1
      | files ps current =>
        obtain rfl := Option.some.inj ha
        exact hfound hc.2
      | tombstones ps current =>
        obtain rfl := Option.some.inj ha
        exact hfound hc.2
    | fails => exact hc.elim
    | notFound => cases ha
  | delete file path =>
    cases reply with
    | done =>
      obtain ⟨cur, hread, rfl⟩ := Option.map_eq_some_iff.mp ha
      exact h.answered_delete hrun hread hc
    | notFound => exact hc.elim
    | fails => exact hc.elim
    | _ => cases ha
  | prune dir =>
    cases reply with
    | cold =>
      obtain rfl := Option.some.inj ha
      exact h.dropped hrun rfl rfl
    | done =>
      simp only [State.answer] at ha
      split_ifs at ha
      · obtain rfl := Option.some.inj ha
        exact h.dropped hrun rfl rfl
      · obtain rfl := Option.some.inj ha
        exact h.suppressed hrun rfl rfl rfl trivial
    | _ => cases ha
  | rmdir dir =>
    cases reply with
    | done =>
      obtain rfl := Option.some.inj ha
      exact h.answered_rmdir hrun hc
    | fails => exact hc.elim
    | _ => cases ha

theorem Inv.resume (h : Inv filter s) {r : Running} {reply : Reply} (hrun : s.running = some r)
    (hc : s.CleanResume filter r reply) (hs : s.resume filter r reply = some s') :
    Inv filter s' := by
  cases r with
  | write file =>
    cases reply with
    | done =>
      obtain ⟨content, hread, rfl⟩ := Option.map_eq_some_iff.mp hs
      exact h.read hrun hread
    | fails =>
      obtain rfl := Option.some.inj hs
      refine h.unread hrun rfl rfl (fun p hu => ?_) hc
      unfold State.Underway at hu
      rw [hrun] at hu
      exact hu
    | _ => cases hs
  | compare file content remote =>
    cases reply with
    | done =>
      obtain rfl := Option.some.inj hs
      exact h.compared hrun
    | _ => cases hs
  | afterDelete path =>
    have hnone : ∀ p, s.Underway p → s.Spared filter p := by
      intro p hu
      unfold State.Underway at hu
      rw [hrun] at hu
      exact hu.elim
    cases reply with
    | done =>
      simp only [State.resume] at hs
      split_ifs at hs
      · obtain rfl := Option.some.inj hs
        exact h.ended hrun rfl rfl hnone fun p hp => lookup_insert_ite.trans
          (if_neg (hp.ne_keepOf _))
      · obtain rfl := Option.some.inj hs
        exact h.ended hrun rfl rfl hnone fun p hp => rfl
    | cold =>
      obtain rfl := Option.some.inj hs
      exact h.ended hrun rfl rfl hnone fun p hp => rfl
    | _ => cases hs
  | deleteChildren ps =>
    have hpoised := h.poised
    unfold State.Poised at hpoised
    rw [hrun] at hpoised
    exact hpoised.elim
  | moved file =>
    cases reply with
    | done =>
      obtain ⟨content, hread, rfl⟩ := Option.map_eq_some_iff.mp hs
      exact h.moved hrun hread
    | fails =>
      obtain rfl := Option.some.inj hs
      refine h.unread hrun rfl rfl (fun p hu => ?_) hc
      unfold State.Underway at hu
      rw [hrun] at hu
      exact hu
    | _ => cases hs
  | apply act rest =>
    cases act with
    | some act =>
      have ha : s.answer rest act reply = some s' := by
        cases reply <;> exact hs
      have hca : s.CleanAnswer filter rest act reply := by
        cases reply <;> exact hc
      exact h.answered hrun hca ha
    | none =>
      cases reply with
      | done =>
        obtain rfl := Option.some.inj hs
        exact h.advance hrun hc true
      | cold =>
        obtain rfl := Option.some.inj hs
        exact h.advance hrun hc false
      | _ => cases hs

/-! ### The runs -/

theorem Inv.applied (h : Inv filter s) {op : Op} {queue : List Op} {rest : Rest}
    (hrun : s.running = none) (hq : s.opQueue = op :: queue) (hop : op.event? = none)
    (hs : ∀ p, Synced filter p → State.Settled
      (State.await { s with opQueue := queue } none rest) p) :
    Inv filter (State.await { s with opQueue := queue } none rest) := by
  have hw : s.waiting = State.waiting (State.await { s with opQueue := queue } none rest) := by
    unfold State.waiting State.await
    rw [hq, List.filterMap_cons_none hop]
  have hl := h.ledger
  rw [hw] at hl
  refine ⟨hl, fun p => ?_, hs, trivial⟩
  have hp := h.tokens_idle hrun p
  rw [State.owned, hw] at hp
  exact hp

theorem Inv.start (h : Inv filter s) {op : Op} {rest : List Op} (hrun : s.running = none)
    (hq : s.opQueue = op :: rest) (hc : CleanStart filter { s with opQueue := rest } op) :
    Inv filter (State.start filter { s with opQueue := rest } op) := by
  cases op with
  | event e =>
    have hpop := h.popped hrun hq
    rcases e with ⟨id, _ | _ | old, own⟩ | dir | dir
    · exact hpop.wrote hc
    · exact hpop.deleted hc
    · exact hpop.renamed hc
    · exact hpop.folderMade
    · exact hpop.folderGone
  | applyTreeChanges changes =>
    refine h.applied hrun hq rfl fun p hp => ?_
    refine (h.settled p hp).mono rfl rfl (fun hu => hu.mono rfl (fun e he => ?_) fun e he hr => hr)
      (fun hd => ?_)
      (fun hd => ?_) fun hu => absurd hu (State.not_underway hrun)
    · unfold State.waiting at he
      rw [hq] at he
      exact he
    · refine State.ChangeDue.settled (hd.congr ?_ rfl)
      rw [State.pendingChanges_idle hrun, hq]
      rfl
    · rcases hd with hd | hd
      · rw [hq] at hd
        exact .inl ((List.mem_cons.mp hd).resolve_left (by simp))
      · exact .inr hd
  | applyRemoteState =>
    refine h.applied hrun hq rfl fun p hp => ?_
    have hcovers : State.Covers { s with opQueue := rest } p (.files s.engine.keys []) →
        State.Settled (State.await { s with opQueue := rest } none (.files s.engine.keys [])) p :=
      fun hcov => State.Underway.settled (.inr hcov)
    cases hg : s.engine.lookup p with
    | some content =>
      refine hcovers (.inl (AList.mem_keys.mp (AList.lookup_isSome.mp ?_)))
      rw [hg]
      rfl
    | none =>
      cases hd : s.editor.lookup p with
      | none => exact .inl (hg.trans (textAt_eq_none hd).symm)
      | some f =>
        have hkey : p ∈ s.editor.keys :=
            AList.mem_keys.mp (AList.lookup_isSome.mp (by rw [hd]; rfl))
        rcases hc p hkey hg with hknown | hspared
        · exact hcovers (.inr ⟨hg, hknown, List.not_mem_nil⟩)
        · exact hspared.settled hp rfl rfl (fun hu => hu) (fun hd => hd) fun hd => hd

theorem Inv.step (h : Inv filter s) {a : Action} (hc : Clean filter s a)
    (hs : step filter s a = some s') :
    Inv filter s' := by
  cases a with
  | userCreate path text =>
    obtain ⟨hnone, hs⟩ := (Option.ite_none_right_eq_some ..).mp hs
    obtain rfl := Option.some.inj hs
    exact h.created (by simpa using hnone)
  | userModify path text =>
    obtain ⟨f, hf, rfl⟩ := Option.map_eq_some_iff.mp hs
    exact h.modified hf
  | userDelete path =>
    obtain ⟨f, hf, rfl⟩ := Option.map_eq_some_iff.mp hs
    exact h.removed hf
  | userRename path new =>
    obtain ⟨hnone, hs⟩ := (Option.ite_none_left_eq_some ..).mp hs
    obtain ⟨f, hf, rfl⟩ := Option.map_eq_some_iff.mp hs
    exact h.renamed hf (by simpa using hnone)
  | materialize changes =>
    obtain rfl := Option.some.inj hs
    exact h.materialized changes
  | restore tree =>
    obtain rfl := Option.some.inj hs
    exact h.restored tree
  | deliver =>
    simp only [Bridge.step] at hs
    split at hs
    · cases hs
    · next e rest hi =>
      obtain rfl := Option.some.inj hs
      exact h.delivered hi
  | timerFires =>
    obtain ⟨-, hs⟩ := (Option.ite_none_right_eq_some ..).mp hs
    obtain rfl := Option.some.inj hs
    exact h.fired
  | start =>
    simp only [Bridge.step] at hs
    split at hs
    · next op rest hrun hq =>
      obtain rfl := Option.some.inj hs
      have hclean : CleanStart filter { s with opQueue := rest } op := by
        simp only [Clean] at hc
        split at hc
        · next op' rest' _ hq' =>
          obtain ⟨rfl, rfl⟩ := List.cons.inj (hq.symm.trans hq')
          exact hc
        · next hne => exact (hne op rest hrun hq).elim
      exact h.start hrun hq hclean
    · cases hs
  | resume reply =>
    obtain ⟨r, hrun, hs⟩ := Option.bind_eq_some_iff.mp hs
    unfold Clean at hc
    rw [hrun] at hc
    exact h.resume hrun hc hs

theorem Started.inv (h : Started filter s) : Inv filter s := by
  have hw : s.waiting = [] := by
    rw [State.waiting, h.opQueue, h.inflight]
    rfl
  refine ⟨?_, fun p => ?_, fun p hp => .inl (h.agree p hp), ?_⟩
  · rw [hw]
    exact ⟨h.located, by simp, by simp, fun p id t hp => trivial, fun id hd => trivial⟩
  · rw [h.suppressed p, State.owned, hw, h.running]
    rfl
  · unfold State.Poised
    rw [h.running]
    trivial

theorem Inv.cleanRun (h : Inv filter s) {as : List Action} (hr : cleanRun filter s as = some s') :
    Inv filter s' := by
  induction as generalizing s with
  | nil =>
    obtain rfl := Option.some.inj hr
    exact h
  | cons a as ih =>
    obtain ⟨hc, hr⟩ := (Option.ite_none_right_eq_some ..).mp hr
    obtain ⟨t, ht, hr⟩ := Option.bind_eq_some_iff.mp hr
    exact ih (h.step hc ht) hr

theorem Inv.agree (h : Inv filter s) (hd : Drained s) (hp : Synced filter p) :
    s.engine.lookup p = s.textAt p := by
  obtain ⟨hrun, hq, hi, ht, hf⟩ := hd
  have hw : s.waiting = [] := by
    rw [State.waiting, hq, hi]
    rfl
  rcases h.settled p hp with hs | hs | hs | hs | hs
  · exact hs
  · obtain ⟨e, he, -⟩ := hs
    rw [hw] at he
    cases he
  · unfold State.ChangeDue at hs
    rw [State.pendingChanges_idle hrun, hq] at hs
    cases hs
  · unfold State.PassDue at hs
    rw [hq, ht, hf] at hs
    simp at hs
  · exact absurd hs (State.not_underway hrun)

def plain : Path → Bool := shouldSync fun _ => false

def note : Path := "notes/a.md".toList
def other : Path := "notes/b.md".toList
structure View where
  idle : Bool
  drained : Bool
  engine : Option Content
  editor : Option Content
  tokens : Nat
  owned : Nat
  deriving DecidableEq

def look (p : Path) (s : State) : View where
  idle := decide (s.running = none)
  drained := decide (Drained s)
  engine := s.engine.lookup p
  editor := s.textAt p
  tokens := s.suppressed p
  owned := s.owned p

section Runs
open Csp.Bridge.Action Csp.Bridge.Reply

/-- The host does not delete a file, and the token is left for the user's next edit. -/
def refused : List Action :=
  [materialize [(note, none)], start, resume done, resume fails, resume done, userModify note ['y'],
    deliver, start]

def unread : List Action := [userModify note ['y'], deliver, start, resume fails]

end Runs

end Csp.Bridge
