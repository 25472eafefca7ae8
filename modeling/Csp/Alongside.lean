import Csp.Persist
import Csp.Recheck
import Csp.Atomic

/-! What comes after a refused batch. An engine, or a vault, that was delivered batches which it
refused is followed next to the same one without them. They part only where something that was left
behind is read. -/

namespace Csp
open Result
variable {Oid : Type} [ObjectId Oid] [Crates] {s t u : Store Oid}

omit [Crates] in
theorem Same.of_mainTree {m tree : Oid} (h : Same s t m) (ht : Csp.mainTree s m = .ok tree) :
    Same s t tree := by
  obtain ⟨x, hx, ht⟩ := bind_ok.mp ht
  cases x with
  | commit c =>
    obtain rfl := pure_ok.mp ht
    exact h.ref hx List.mem_cons_self
  | blob b => cases ht
  | tree es => cases ht

/-- Once the batch is put, both stores read the same below its commits and below what is known. -/
def BatchReads (raws : List Bytes) (known : List Oid) (s t : Store Oid) : Prop :=
  ∀ o, (o ∈ known ∨ ∃ c, .commit c ∈ (decoded raws : List (GitObject Oid) × Option CspError).1 ∧
    (GitObject.commit c).oid = o) → Same (s.putAll (decoded raws).1) (t.putAll (decoded raws).1) o

theorem commit_of_synthetic {raws : List Bytes}
    (hd : (decoded raws : List (GitObject Oid) × Option CspError).2 = none) {r : Bytes}
    (hr : r ∈ raws) {o : Oid} (ho : syntheticOf r = some o) :
    ∃ c, .commit c ∈ (decoded raws : List (GitObject Oid) × Option CspError).1 ∧
    (GitObject.commit c).oid = o := by
  obtain ⟨x, hx, hparse⟩ := decoded_of_all hd r hr
  rw [syntheticOf, hparse] at ho
  cases x with
  | commit c =>
    obtain ⟨-, ho⟩ := Option.ite_none_right_eq_some.mp ho
    exact ⟨c, hx, Option.some.inj ho⟩
  | blob b => cases ho
  | tree es => cases ho

theorem commit_of_accepted {raws : List Bytes}
    (hd : (decoded raws : List (GitObject Oid) × Option CspError).2 = none) {o : Oid}
    (ho : o ∈ accepted raws) :
    ∃ c, .commit c ∈ (decoded raws : List (GitObject Oid) × Option CspError).1 ∧
    (GitObject.commit c).oid = o := by
  obtain ⟨r, hr, c, hparse, -, -, rfl⟩ := mem_accepted.mp ho
  obtain ⟨x, hx, hx'⟩ := decoded_of_all hd r hr
  obtain rfl := Except.ok.inj (hparse.symm.trans hx')
  exact ⟨c, hx, rfl⟩

namespace MemEngine

/-- An engine that has more in its store than one that is otherwise the same. -/
structure Richer (u : Store Oid) (e f : MemEngine Oid) : Prop where
  rest : f = { e with store := f.store }
  stores : Csp.Richer u e.store f.store

section Richer
variable {e f : MemEngine Oid}

omit [Crates] in
theorem Richer.state (h : Richer u e f) : f.state = e.state := by rw [h.rest]

omit [Crates] in
theorem Richer.main (h : Richer u e f) : f.main = e.main := by rw [h.rest]

omit [Crates] in
theorem Richer.working (h : Richer u e f) : f.working = e.working := by rw [h.rest]

omit [Crates] in
theorem Richer.scope (h : Richer u e f) : f.scope = e.scope := by rw [h.rest]

omit [Crates] in
theorem Richer.dropQuarantined (h : Richer u e f) (ts : Str) (paths : List Path) :
    Richer u (e.dropQuarantined ts paths) (f.dropQuarantined ts paths) := by
  obtain ⟨hrest, hstores⟩ := h
  rw [hrest]
  exact ⟨rfl, hstores⟩

end Richer

/-- Both read the same below what is known and below `main`. -/
def ReadsAs (e f : MemEngine Oid) : Prop :=
  ∀ o, o ∈ e.state.known ∨ e.main = some o → Same e.store f.store o

section Spec
variable [LawfulObjectId Oid] [LawfulCrates] [AcyclicObjectId Oid] {e f : MemEngine Oid}
    {raws : List Bytes}

omit [LawfulObjectId Oid] [LawfulCrates] in
theorem Richer.frontierTips (h : Richer u e f)
    (hreads : ∀ o ∈ e.state.known, Same e.store f.store o) :
    f.frontierTips = e.frontierTips := by
  rw [h.rest]
  exact Same.frontier h.stores.left h.stores.right hreads

theorem Richer.recompute (h : Richer u e f) (hreads : ∀ o ∈ e.state.known, Same e.store f.store o)
    (hu : (recompute e).2.store.Extends u) : Matched (Richer u) (recompute e) (recompute f) := by
  obtain ⟨hrest, hstores⟩ := h
  rw [recompute_run] at hu ⊢
  rw [recompute_run, hrest]
  dsimp only
  have hfold := paired_computeMain hstores hreads
  rcases hs : computeMain e.state.known e.store with ⟨r, s'⟩
  rcases ht : computeMain e.state.known f.store with ⟨r', t'⟩
  rw [hs] at hu
  rw [hs, ht] at hfold
  have hpair := hfold (by cases r <;> exact hu)
  obtain rfl : r = r' := hpair.result.symm
  cases r with
  | error err => exact ⟨rfl, rfl, hpair.richer⟩
  | ok m => exact ⟨rfl, rfl, hpair.richer⟩

omit [LawfulObjectId Oid] [LawfulCrates] [AcyclicObjectId Oid] in
theorem extends_recompute (e : MemEngine Oid) :
    e.store.Extends (MemEngine.recompute e).2.store := by
  have hext := extends_computeMain e.state.known e.store
  rw [recompute_run]
  split
  · rename_i hrun
    rwa [hrun] at hext
  · rename_i hrun
    rwa [hrun] at hext

omit [LawfulObjectId Oid] [LawfulCrates] [AcyclicObjectId Oid] in
theorem integrate_verified (hd : (decoded raws : List (GitObject Oid) × Option CspError).2 = none)
    (hv : verifyBatch raws (e.store.putAll (decoded raws).1) = (.ok true, s)) :
    MemEngine.integrate raws e =
      (do
        if (raws.foldl admitOne (e.state, 0)).2 > 0 then MemEngine.recompute
        pure (raws.foldl admitOne (e.state, 0)).2 : EngineM Oid Nat)
        { e with store := s, state := (raws.foldl admitOne (e.state, 0)).1 } := by
  rw [MemEngine.integrate, run_bind, withStore, putRaws_run, hd]
  simp only
  rw [run_bind, withStore, hv]
  rfl

theorem Richer.integrate (h : Richer u e f) (hreads : BatchReads raws e.state.known e.store f.store)
    (hu : (integrate raws e).2.store.Extends u) : Matched (Richer u) (integrate raws e)
    (integrate raws f) := by
  have henc : ∀ x ∈ (decoded raws : List (GitObject Oid) × Option CspError).1, x.Encodable :=
    fun x hx => encodable_of_mem_decoded hx
  have hrest : ∀ (s t : Store Oid) (st : EngineState Oid), { f with store := t, state := st } =
      { ({ e with store := s, state := st } : MemEngine Oid) with store := t } :=
    fun s t st => by rw [h.rest]
  cases hd : (decoded raws : List (GitObject Oid) × Option CspError).2 with
  | some err =>
    rw [integrate_run, hd] at hu ⊢
    rw [integrate_run, hd]
    exact ⟨rfl, by rw [h.rest], h.stores.putAll henc hu⟩
  | none =>
    have hverified := extends_verifyBatch raws (e.store.putAll (decoded raws).1)
    -- the objects of the batch are put, then what its synthetic commits fold to
    have hverify : (verifyBatch raws (e.store.putAll (decoded raws).1)).2.Extends u →
        Paired u (e.store.putAll (decoded raws).1) (f.store.putAll (decoded raws).1)
          (verifyBatch raws (e.store.putAll (decoded raws).1))
          (verifyBatch raws (f.store.putAll (decoded raws).1)) :=
      fun hu => paired_verifyBatch (h.stores.putAll henc (hverified.trans hu))
        (fun r hr o ho => hreads o (.inr (commit_of_synthetic hd hr ho))) hu
    obtain ⟨b, s', hs⟩ := verifyBatch_total raws (e.store.putAll (decoded raws).1)
    obtain ⟨b', t', ht⟩ := verifyBatch_total raws (f.store.putAll (decoded raws).1)
    rw [hs, ht] at hverify
    cases b with
    | false =>
      rw [integrate_run, hd, hs] at hu ⊢
      have hpair := hverify hu
      obtain rfl := Except.ok.inj hpair.result
      rw [integrate_run, hd, ht]
      exact ⟨rfl, by rw [h.rest], hpair.richer⟩
    | true =>
      rw [integrate_verified hd hs] at hu ⊢
      have hadmitted : ∀ o ∈ (raws.foldl admitOne (e.state, 0)).1.known,
          Same (e.store.putAll (decoded raws).1) (f.store.putAll (decoded raws).1) o := by
        intro o ho
        rw [(admits_foldl raws e.state 0).known] at ho
        exact hreads o ((mem_foldl_addNew.mp ho).imp_right (commit_of_accepted hd))
      generalize hadm : raws.foldl admitOne (e.state, 0) = admitted at hu hadmitted ⊢
      by_cases hn : admitted.2 > 0
      · rw [if_pos hn, run_bind] at hu
        -- the fold may fail, and its store stays
        have hfolded :
            (MemEngine.recompute { e with store := s', state := admitted.1 }).2.store.Extends u := by
          rcases hr : MemEngine.recompute { e with store := s', state := admitted.1 } with ⟨r, e'⟩
          rw [hr] at hu
          cases r <;> exact hu
        have hpair := hverify ((extends_recompute { e with store := s', state := admitted.1 }).trans hfolded)
        obtain rfl := Except.ok.inj hpair.result
        rw [integrate_verified hd ht, h.state, hadm, if_pos hn]
        exact (Richer.recompute ⟨hrest s' t' admitted.1, hpair.richer⟩
          (fun o ho => hpair.kept o (hadmitted o ho)) hfolded).bind fun _ _ _ _ _ h' => ⟨rfl, h'⟩
      · rw [if_neg hn] at hu
        have hpair := hverify hu
        obtain rfl := Except.ok.inj hpair.result
        rw [integrate_verified hd ht, h.state, hadm, if_neg hn]
        exact ⟨rfl, hrest s' t' admitted.1, hpair.richer⟩

omit [LawfulObjectId Oid] [LawfulCrates] [AcyclicObjectId Oid] in
theorem refs_authoredObjects {id : Identity} {st : EngineState Oid} {m : Oid}
    {l : Layer1 Oid} {now : Nat} (hm : Same s t m) :
    ∀ x ∈ authoredObjects l (authored id st m l now), ∀ r ∈ x.refs,
      Same s t r ∨ ∃ y ∈ authoredObjects l (authored id st m l now), y.oid = r := by
  intro x hx r hr
  rcases List.mem_append.mp hx with hx | hx
  · obtain ⟨y, hy, hyr⟩ := refs_of_mem_writeTree hx hr
    exact .inr ⟨y, List.mem_append_left _ hy, hyr⟩
  · obtain rfl := List.mem_singleton.mp hx
    rcases List.mem_cons.mp hr with rfl | hr
    · obtain ⟨y, hy, hyr⟩ : ∃ y ∈ (writeTreeFromFiles l.filtered).1,
        y.oid = (writeTreeFromFiles l.filtered : _ × Oid).2 :=
        root_mem_writeTree l.filtered
      exact .inr ⟨y, List.mem_append_left _ hy, hyr⟩
    · obtain rfl := List.mem_singleton.mp hr
      exact .inl hm

theorem Richer.author {m : Oid} {l : Layer1 Oid} {now : Nat} (h : Richer u e f)
    (hm : Same e.store f.store m) (hreads : ∀ o ∈ e.state.known, Same e.store f.store o)
    (hfr : ∀ p ∈ l.filtered.keys, Framable p) (hnow : now < 2 ^ 64)
    (hu : (author m l now e).2.store.Extends u) :
    Matched (Richer u) (author m l now e) (author m l now f) := by
  obtain ⟨hrest, hstores⟩ := h
  have henc := encodable_authoredObjects e.identity e.state m hfr hnow
  rw [author_run] at hu ⊢
  rw [author_run, hrest]
  simp only [published] at hu ⊢
  generalize hc : authored e.identity e.state m l now = c at hu henc ⊢
  have hfolded := extends_computeMain (e.state.nextCounter.2.addKnown
      (GitObject.commit c).oid).known
    (e.store.putAll (authoredObjects l c))
  have hfold : (computeMain (e.state.nextCounter.2.addKnown (GitObject.commit c).oid).known
      (e.store.putAll (authoredObjects l c))).2.Extends u → PairedCommit u _ _ _ _ := fun hu => by
    have hput := hfolded.trans hu
    refine paired_computeMain (hstores.putAll henc hput) (fun o ho => ?_) hu
    refine Same.putAll hstores henc hput (hc ▸ refs_authoredObjects hm) ?_
    rw [known_addKnown] at ho
    rcases mem_addNew.mp ho with ho | rfl
    · exact .inl (hreads o ho)
    · exact .inr ⟨.commit c, List.mem_append_right _ List.mem_cons_self, rfl⟩
  rcases hs : computeMain (e.state.nextCounter.2.addKnown (GitObject.commit c).oid).known
    (e.store.putAll (authoredObjects l c)) with ⟨r, s'⟩
  rcases ht : computeMain (e.state.nextCounter.2.addKnown (GitObject.commit c).oid).known
    (f.store.putAll (authoredObjects l c)) with ⟨r', t'⟩
  rw [hs] at hu
  rw [hs, ht] at hfold
  have hpair := hfold (by cases r <;> exact hu)
  obtain rfl : r = r' := hpair.result.symm
  cases r with
  | error err => exact ⟨rfl, rfl, hpair.richer⟩
  | ok m' => exact ⟨rfl, rfl, hpair.richer⟩

theorem Richer.commitStaged {now : Nat} (h : Richer u e f) (hmain : ∃ m, e.main = some m)
    (hreads : e.ReadsAs f) (hnames : ∀ p ∈ e.working.keys, Framable p) (hnow : now < 2 ^ 64)
    (hu : (commitStaged now e).2.store.Extends u) :
    Matched (Richer u) (commitStaged now e) (commitStaged now f) := by
  obtain ⟨m, hm⟩ := hmain
  have hsame := hreads m (.inr hm)
  have hm' : f.main = some m := h.main.trans hm
  have hstaged : ∀ e : MemEngine Oid, MemEngine.commitStaged now e =
    commitScoped (canonicalizeKeeps e.working e.scope) now e := fun _ => rfl
  rw [hstaged, commitScoped_run _ now hm] at hu ⊢
  rw [hstaged, commitScoped_run _ now hm', hsame.mainTree, h.state, h.working, h.scope]
  split_ifs with hb
  · exact ⟨rfl, h⟩
  rw [if_neg hb] at hu
  cases htree : mainTree e.store m with
  | error err => exact ⟨rfl, h⟩
  | ok tree =>
    rw [htree] at hu
    simp only at hu ⊢
    rw [hsame.layer1 (hsame.of_mainTree htree)]
    cases hl : layer1 e.store m tree e.state.materialized (canonicalizeKeeps e.working e.scope) with
    | error err => exact ⟨rfl, h⟩
    | ok l =>
      rw [hl] at hu
      have hdrop := h.dropQuarantined (orphansBucket now) l.quarantines
      have hkept : ∀ o, o ∈ e.state.known ∨ e.main = some o →
          Same (e.dropQuarantined (orphansBucket now) l.quarantines).store
            (f.dropQuarantined (orphansBucket now) l.quarantines).store o := hreads
      have hknown : (e.dropQuarantined (orphansBucket now) l.quarantines).state.known =
          e.state.known := rfl
      dsimp only at hu ⊢
      generalize e.dropQuarantined (orphansBucket now) l.quarantines = e₁ at hdrop hkept hknown hu ⊢
      generalize f.dropQuarantined (orphansBucket now) l.quarantines = f₁ at hdrop hkept ⊢
      rw [hdrop.state]
      by_cases hg : genuineChange e₁.state.materialized l.filtered = true
      · have hauthor := hdrop.author (hkept m (.inr hm)) (fun o ho => hkept o (.inl (hknown ▸ ho)))
          (framable_filtered hnames hl) hnow
        rw [if_pos hg] at hu
        rw [if_pos hg, if_pos hg]
        rcases hs : MemEngine.author m l now e₁ with ⟨r, e'⟩
        rcases ht : MemEngine.author m l now f₁ with ⟨r', f'⟩
        rw [hs] at hu
        rw [hs, ht] at hauthor
        obtain ⟨hresult, hstates⟩ := hauthor (by cases r <;> exact hu)
        cases hresult
        cases r with
        | error err => exact ⟨rfl, hstates⟩
        | ok o => exact ⟨rfl, hstates⟩
      · rw [if_neg hg, if_neg hg]
        exact ⟨rfl, hdrop⟩

end Spec

/-- The next commit does not meet what the one has more: it reads the same in both, and where it
stores an object that is there already, this is the same object. -/
structure CommitsAs (now : Nat) (e f : MemEngine Oid) : Prop where
  reads : e.ReadsAs f
  agrees : ∀ (o : Oid) x y, (commitStaged now e).2.store.get o = .ok x →
    f.store.get o = .ok y → y = x
  names : ∀ p ∈ e.working.keys, Framable p
  clock : now < 2 ^ 64

structure TakesAs (raws : List Bytes) (e f : MemEngine Oid) : Prop where
  reads : BatchReads raws e.state.known e.store f.store
  agrees : ∀ (o : Oid) x y, (integrate raws e).2.store.get o = .ok x → f.store.get o = .ok y → y = x

/-- An engine without the batches that it refused, and the same engine with them. -/
inductive Alongside : MemEngine Oid → MemEngine Oid → Prop
  | start {e : MemEngine Oid} (h : Hosted e) : Alongside e e
  | refused {e f f' : MemEngine Oid} {raws : List Bytes} {err : CspError} (h : Alongside e f)
      (hrun : integrate raws f = (.error err, f')) (hrec : f.Recovers raws) : Alongside e f'
  | stage {e f : MemEngine Oid} (h : Alongside e f) (working : FileMap) :
      Alongside { e with working } { f with working }
  | commit {e f : MemEngine Oid} (h : Alongside e f) {now : Nat} (hc : e.CommitsAs now f) :
      Alongside (commitStaged now e).2 (commitStaged now f).2
  | integrate {e f : MemEngine Oid} (h : Alongside e f) {raws : List Bytes}
    (ht : e.TakesAs raws f) :
      Alongside (integrate raws e).2 (integrate raws f).2

section Runs
variable [LawfulObjectId Oid] [LawfulCrates] [AcyclicObjectId Oid] {e f : MemEngine Oid}

omit [LawfulObjectId Oid] [LawfulCrates] [AcyclicObjectId Oid] in
theorem extends_integrate (raws : List Bytes) (e : MemEngine Oid) :
    e.store.Extends (MemEngine.integrate raws e).2.store :=
  (grows_integrate raws e).ext

/-- Run lemma. The two part in nothing but in what the one store has more. -/
theorem Alongside.richer (h : e.Alongside f) : Richer e.store e f ∧ ∃ m, e.main = some m := by
  induction h with
  | start h => exact ⟨⟨rfl, .refl h.kept.sound⟩, h.kept.main⟩
  | @refused e f f' raws err _ hrun hrec ih =>
    obtain ⟨⟨hrest, hstores⟩, m, hm⟩ := ih
    have hleft := (f.integrate_atomic raws).mpr hrec err f' hrun
    have hsound := Rooted.integrate (e := f) ⟨hstores.right, m,
      (Richer.main ⟨hrest, hstores⟩).trans hm⟩ raws
    have hext := extends_integrate raws f
    rw [hrun] at hsound hext
    refine ⟨⟨?_, hstores.more hsound.sound hext⟩, m, hm⟩
    rw [hleft, hrest]
  | stage _ working ih =>
    obtain ⟨⟨hrest, hstores⟩, hmain⟩ := ih
    refine ⟨⟨?_, hstores⟩, hmain⟩
    rw [hrest]
  | commit _ hc ih =>
    obtain ⟨⟨hrest, hstores⟩, hmain⟩ := ih
    have hstep := Richer.commitStaged ⟨hrest, hstores.of_agrees hc.agrees⟩ hmain hc.reads hc.names
      hc.clock (.refl _)
    exact ⟨hstep.states, (Rooted.commitStaged ⟨hstores.left, hmain⟩ hc.names hc.clock).main⟩
  | @integrate e f _ raws ht ih =>
    obtain ⟨⟨hrest, hstores⟩, hmain⟩ := ih
    have hstep := Richer.integrate ⟨hrest, hstores.of_agrees ht.agrees⟩ ht.reads (.refl _)
    exact ⟨hstep.states, (Rooted.integrate ⟨hstores.left, hmain⟩ raws).main⟩

end Runs
end MemEngine

end Csp
