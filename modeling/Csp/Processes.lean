import Csp.Contribution
import Csp.HonestVault
import Csp.Snapshots

/-! Processes over one vault. The working tree, the objects, the refs and the state file are
shared; the known list that a process folds is its own, from when it opened the vault. -/

namespace Csp
open Result
variable {ι Oid : Type} [ObjectId Oid] [Crates]

/-- What a process has read or computed and is yet to write. -/
inductive Pending (Oid : Type)
  | idle
  | compared (parent : Oid) (l : Layer1 Oid)
  | folded (main : Oid)

structure Process (Oid : Type) where
  state : EngineState Oid
  scope : Scope
  identity : Identity
  config : VaultConfig
  pending : Pending Oid

structure Processes (ι Oid : Type) [ObjectId Oid] where
  root : Key
  disk : Disk
  store : Store Oid
  mainRef : Option Oid
  nodeTips : Std.ExtTreeMap NodeId Oid compare
  saved : EngineState Oid
  proc : ι → Process Oid
  /-- The primitives authored by any of them so far. -/
  edits : List Oid

/-- The ids that `main` is computed from are stored: the same objects, list and ref. -/
structure Vault.Aside (v w : Vault Oid) : Prop where
  store : w.store = v.store
  known : w.state.known = v.state.known
  mainRef : w.mainRef = v.mainRef

omit [Crates] in
theorem Vault.Aside.trans {u v w : Vault Oid} (h : u.Aside v) (h' : v.Aside w) : u.Aside w :=
  ⟨h'.store.trans h.store, h'.known.trans h.known, h'.mainRef.trans h.mainRef⟩

omit [Crates] in
theorem Vault.Filed.aside {v w : Vault Oid} (h : v.Filed w) : v.Aside w :=
  ⟨h.store, h.known, h.mainRef⟩

theorem complete_extends {s t : Store Oid} (he : s.Extends t) {o : Oid}
    (h : CommitIn s o ∧ isPrimitiveOid s o = true) : CommitIn t o ∧ isPrimitiveOid t o = true :=
  ⟨h.1.extends he, isPrimitiveOid_extends he h.2⟩

omit [Crates] in
theorem Above.of_extends {s t : Store Oid} (he : s.Extends t) {o r : Oid} (h : Above t o r)
    (hin : CommitIn s o) :
    Above s o r := by
  obtain ⟨p, hp, hr⟩ := Relation.TransGen.head'_iff.mp h
  obtain ⟨c, hc, -⟩ := hin.load
  rw [parentsOf_of_load (loadCommit_extends he hc), ← parentsOf_of_load hc] at hp
  exact .head' hp (Descends.of_extends he (hin.parentsOf hp) hr)

def Pending.Held (s : Store Oid) (known : List Oid) : Pending Oid → Prop
  | .idle => True
  | .compared parent l => CommitIn s parent ∧ ∀ p ∈ l.filtered.keys, Framable p
  | .folded main => ∃ u t, u.Sound ∧ (∀ o ∈ known, CommitIn u o ∧ isPrimitiveOid u o = true) ∧
      computeMain known u = (.ok main, t) ∧ t.Extends s

theorem Pending.Held.extends {s t : Store Oid} {known : List Oid} {p : Pending Oid}
    (h : p.Held s known) (he : s.Extends t) : p.Held t known := by
  cases p with
  | idle => trivial
  | compared parent l => exact ⟨h.1.extends he, h.2⟩
  | folded main =>
    obtain ⟨u, v, hu, hk, hm, hext⟩ := h
    exact ⟨u, v, hu, hk, hm, hext.trans he⟩

namespace Processes

def vault (σ : Processes ι Oid) (i : ι) : Vault Oid where
  root := σ.root
  disk := σ.disk
  store := σ.store
  mainRef := σ.mainRef
  nodeTips := σ.nodeTips
  state := (σ.proc i).state
  saved := σ.saved
  scope := (σ.proc i).scope
  identity := (σ.proc i).identity
  config := (σ.proc i).config

variable [DecidableEq ι]

/-- A process has gone on to a vault: its memory is its own, the rest is there for all. -/
def wrote (σ : Processes ι Oid) (i : ι) (v : Vault Oid) (pending : Pending Oid) :
    Processes ι Oid where
  root := v.root
  disk := v.disk
  store := v.store
  mainRef := v.mainRef
  nodeTips := v.nodeTips
  saved := v.saved
  proc := Function.update σ.proc i
    { state := v.state, scope := v.scope, identity := v.identity, config := v.config, pending }
  edits := σ.edits

def setMain (σ : Processes ι Oid) (i : ι) (m : Oid) : Processes ι Oid :=
  σ.wrote i { σ.vault i with mainRef := some m } .idle

def publish (σ : Processes ι Oid) (i : ι) (m : Oid) (l : Layer1 Oid) (now : Nat) :
    Processes ι Oid :=
  let c := authored (σ.proc i).identity (σ.proc i).state m l now
  { σ.wrote i ((σ.vault i).published l c) .idle with edits := σ.edits ++
    [(GitObject.commit c).oid] }

/-- The steps of one process, as fine as the others can see. A commit compares, publishes and
folds; an integrate takes a batch in and folds; a restore puts what a subset folds to, writes
files and commits. -/
inductive Step (σ : Processes ι Oid) (i : ι) : Processes ι Oid → Prop
  /-- Files, records, the state file, the settings; also dropping what is pending. -/
  | aside {w : Vault Oid} {p : Pending Oid} (h : (σ.vault i).Aside w)
    (hp : p = .idle ∨ p = (σ.proc i).pending) :
      Step σ i (σ.wrote i w p)
  /-- Objects that nothing refers to yet. -/
  | put {t : Store Oid} (ext : σ.store.Extends t) (sound : σ.store.Sound → t.Sound) :
      Step σ i (σ.wrote i { σ.vault i with store := t } (σ.proc i).pending)
  | compare {m tree : Oid} {files : FileMap} {l : Layer1 Oid} (main : σ.mainRef = some m)
      (ht : mainTree σ.store m = .ok tree) (names : ∀ p ∈ files.keys, Framable p)
      (hl : layer1 σ.store m tree (σ.proc i).state.materialized files = .ok l) :
      Step σ i (σ.wrote i (σ.vault i) (.compared m l))
  | publish {m : Oid} {l : Layer1 Oid} {now : Nat} (hp : (σ.proc i).pending = .compared m l)
    (hnow : now < 2 ^ 64) :
      Step σ i (σ.publish i m l now)
  | take {raws : List Bytes} {t : Store Oid} (complete : CompleteBatch σ.store raws)
      (verified : verifyBatch raws (σ.store.putAll (decoded raws).1) = (.ok true, t)) :
      Step σ i (σ.wrote i
        { σ.vault i with store := t, state := (raws.foldl admitOne ((σ.proc i).state, 0)).1 } .idle)
  | fold {m : Oid} {t : Store Oid} (h : computeMain (σ.proc i).state.known σ.store = (.ok m, t)) :
      Step σ i (σ.wrote i { σ.vault i with store := t } (.folded m))
  | setMain {m : Oid} (hp : (σ.proc i).pending = .folded m) : Step σ i (σ.setMain i m)

abbrev Steps (i : ι) : Processes ι Oid → Processes ι Oid → Prop :=
  Relation.ReflTransGen fun σ σ' => Step σ i σ'

abbrev Run : Processes ι Oid → Processes ι Oid → Prop :=
  Relation.ReflTransGen fun σ σ' => ∃ i, Step σ i σ'

/-- Each process has opened the vault, on which every known primitive is complete. -/
structure Opened (σ : Processes ι Oid) : Prop where
  sound : σ.store.Sound
  known : ∀ i, ∀ o ∈ (σ.proc i).state.known, CommitIn σ.store o ∧ isPrimitiveOid σ.store o = true
  main : ∃ m, σ.mainRef = some m ∧ CommitIn σ.store m
  idle : ∀ i, (σ.proc i).pending = .idle
  edits : σ.edits = []

/-! ### What every step keeps -/

structure Inv (σ : Processes ι Oid) : Prop where
  sound : σ.store.Sound
  main : ∃ m, σ.mainRef = some m ∧ CommitIn σ.store m
  known : ∀ i, ∀ o ∈ (σ.proc i).state.known, CommitIn σ.store o ∧ isPrimitiveOid σ.store o = true
  pending : ∀ i, (σ.proc i).pending.Held σ.store (σ.proc i).state.known
  edits : ∀ o ∈ σ.edits, CommitIn σ.store o ∧ isPrimitiveOid σ.store o = true

omit [DecidableEq ι] in
theorem Opened.inv {σ : Processes ι Oid} (h : σ.Opened) : σ.Inv where
  sound := h.sound
  main := h.main
  known := h.known
  pending i := by
    rw [h.idle i]
    trivial
  edits o ho := by
    rw [h.edits] at ho
    cases ho

variable {σ σ' σ₀ : Processes ι Oid} {i : ι}

omit [Crates] in
@[simp] theorem proc_wrote_self (w : Vault Oid) (p : Pending Oid) :
    (σ.wrote i w p).proc i = ⟨w.state, w.scope, w.identity, w.config, p⟩ :=
  Function.update_self _ _ _

omit [Crates] in
theorem proc_wrote_of_ne (w : Vault Oid) (p : Pending Oid) {j : ι} (hj : j ≠ i) :
    (σ.wrote i w p).proc j = σ.proc j :=
  Function.update_of_ne hj _ _

omit [Crates] in
@[simp] theorem vault_wrote (w : Vault Oid) (p : Pending Oid) : (σ.wrote i w p).vault i = w := by
  rw [vault, proc_wrote_self]
  rfl

theorem Step.frame (hs : Step σ i σ') {j : ι} (hj : j ≠ i) : σ'.proc j = σ.proc j := by
  cases hs <;> exact Function.update_of_ne hj _ _

theorem Steps.frame (hr : Steps i σ σ') {j : ι} (hj : j ≠ i) : σ'.proc j = σ.proc j := by
  induction hr with
  | refl => rfl
  | tail _ hs ih => exact (hs.frame hj).trans ih

theorem Steps.run (hr : Steps i σ σ') : Run σ σ' :=
  Relation.ReflTransGen.mono (fun _ _ hs => ⟨i, hs⟩) _ _ hr

theorem Inv.wrote (h : σ.Inv) {w : Vault Oid} {p : Pending Oid} (ext : σ.store.Extends w.store)
    (sound : w.store.Sound) (main : ∃ m, w.mainRef = some m ∧ CommitIn w.store m)
    (known : ∀ o ∈ w.state.known, CommitIn w.store o ∧ isPrimitiveOid w.store o = true)
    (pending : p.Held w.store w.state.known) : (σ.wrote i w p).Inv where
  sound := sound
  main := main
  known j o ho := by
    by_cases hj : j = i
    · subst hj
      rw [proc_wrote_self] at ho
      exact known o ho
    · rw [proc_wrote_of_ne w p hj] at ho
      exact complete_extends ext (h.known j o ho)
  pending j := by
    by_cases hj : j = i
    · subst hj
      rw [proc_wrote_self]
      exact pending
    · rw [proc_wrote_of_ne w p hj]
      exact (h.pending j).extends ext
  edits o ho := complete_extends ext (h.edits o ho)

section Lawful
variable [LawfulObjectId Oid] [LawfulCrates]

theorem Inv.publish (h : σ.Inv) {m : Oid} {l : Layer1 Oid} {now : Nat}
    (hp : (σ.proc i).pending = .compared m l) (hnow : now < 2 ^ 64) :
    (σ.publish i m l now).Inv := by
  have hheld := h.pending i
  rw [hp] at hheld
  obtain ⟨hm, hfr⟩ := hheld
  have hauth : AuthoredIn σ.store _ (σ.proc i).identity (σ.proc i).state m l now :=
      authoredIn_putAll h.sound hm hfr hnow
  obtain ⟨main, hmain, hin⟩ := h.main
  have hwrote := h.wrote (i := i) (p := .idle)
    (w := (σ.vault i).published l (authored (σ.proc i).identity (σ.proc i).state m l now))
    hauth.ext hauth.sound ⟨main, hmain, hin.extends hauth.ext⟩ (fun o ho => ?_) trivial
  · refine { hwrote with edits := fun o ho => ?_ }
    rcases List.mem_append.mp ho with ho | ho
    · exact complete_extends hauth.ext (h.edits o ho)
    · rw [List.mem_singleton.mp ho]
      exact ⟨hauth.commitIn, hauth.isPrimitiveOid⟩
  · have hknown : ((σ.vault i).published l (authored (σ.proc i).identity
          (σ.proc i).state m l now)).state.known =
        addNew (σ.proc i).state.known _ := known_addKnown _ _
    rw [hknown] at ho
    rcases mem_addNew.mp ho with ho | rfl
    · exact complete_extends hauth.ext (h.known i o ho)
    · exact ⟨hauth.commitIn, hauth.isPrimitiveOid⟩

theorem Inv.take (h : σ.Inv) {raws : List Bytes} {t : Store Oid}
    (complete : CompleteBatch σ.store raws) (verified :
      verifyBatch raws (σ.store.putAll (decoded raws).1) = (.ok true, t)) :
    (σ.wrote i { σ.vault i with store := t, state := (raws.foldl admitOne ((σ.proc i).state, 0)).1 }
      .idle).Inv := by
  have hput : (σ.store.putAll (decoded raws : List (GitObject Oid) × Option CspError).1).Extends
      t := by
    have := extends_verifyBatch raws (σ.store.putAll (decoded raws).1)
    rwa [verified] at this
  have hext : σ.store.Extends t := (σ.store.extends_putAll _).trans hput
  have hsound : t.Sound := by
    have hdec := h.sound.putAll fun x (hx : x ∈ (decoded raws).1) => encodable_of_mem_decoded hx
    have := hdec.verifyBatch raws
    rwa [verified] at this
  obtain ⟨m, hm, hin⟩ := h.main
  refine h.wrote hext hsound ⟨m, hm, hin.extends hext⟩ (fun o ho => ?_) trivial
  rw [(admits_foldl raws (σ.proc i).state 0).known, mem_foldl_addNew] at ho
  rcases ho with ho | ho
  · exact complete_extends hext (h.known i o ho)
  · exact complete_extends hput ⟨complete.2 o ho, isPrimitiveOid_accepted h.sound complete ho⟩

theorem Inv.step (h : σ.Inv) (hs : Step σ i σ') : σ'.Inv := by
  obtain ⟨m, hm, hin⟩ := h.main
  cases hs with
  | @aside w p ha hp =>
    have hstore : w.store = σ.store := ha.store
    have hknown : w.state.known = (σ.proc i).state.known := ha.known
    refine h.wrote ?_ ?_ ⟨m, ha.mainRef.trans hm, ?_⟩ ?_ ?_
    · rw [hstore]
      exact .refl _
    · rw [hstore]
      exact h.sound
    · rw [hstore]
      exact hin
    · rw [hstore, hknown]
      exact h.known i
    · rw [hstore, hknown]
      rcases hp with rfl | rfl
      · trivial
      · exact h.pending i
  | put ext sound =>
    exact h.wrote ext (sound h.sound) ⟨m, hm, hin.extends ext⟩
      (fun o ho => complete_extends ext (h.known i o ho))
      ((h.pending i).extends ext)
  | compare main ht names hl =>
    obtain rfl := Option.some.inj (hm.symm.trans main)
    exact h.wrote (.refl _) h.sound h.main (h.known i)
      ⟨hin, fun p hp => names p (mem_of_mem_filtered hl hp)⟩
  | publish hp hnow => exact h.publish hp hnow
  | take complete verified => exact h.take complete verified
  | @fold n t hfold =>
    have hext : σ.store.Extends t := by
      have := extends_computeMain (σ.proc i).state.known σ.store
      rwa [hfold] at this
    have hsound : t.Sound := by
      have := h.sound.computeMain (σ.proc i).state.known
      rwa [hfold] at this
    exact h.wrote hext hsound ⟨m, hm, hin.extends hext⟩
      (fun o ho => complete_extends hext (h.known i o ho))
      ⟨σ.store, t, h.sound, h.known i, hfold, .refl _⟩
  | @setMain n hp =>
    have hheld := h.pending i
    rw [hp] at hheld
    obtain ⟨u, t, hu, hk, hfold, hext⟩ := hheld
    have hmain := (commitIn_computeMain hu (fun o ho => (hk o ho).1) hfold).extends hext
    exact h.wrote (.refl _) h.sound ⟨n, rfl, hmain⟩ (h.known i) trivial

theorem Inv.run (h : σ.Inv) (hr : Run σ σ') : σ'.Inv := by
  induction hr with
  | refl => exact h
  | tail _ hs ih =>
    obtain ⟨i, hs⟩ := hs
    exact ih.step hs

/-- In every run of any number of processes, a step that sets `main` to what its process has
folded leaves every edit so far below `main` if and only if each of them is at or below an
effective primitive that this process knows. -/
theorem main_keeps_edits_iff (h₀ : σ₀.Opened) (hr : Run σ₀ σ) {m : Oid}
    (hp : (σ.proc i).pending = .folded m) :
    (∃ main, (σ.setMain i m).mainRef = some main ∧
        ∀ o ∈ (σ.setMain i m).edits, Above (σ.setMain i m).store main o) ↔
      ∀ o ∈ σ.edits, ∃ q ∈ (σ.proc i).state.known, Effective σ.store q ∧ Descends σ.store q o := by
  have h := h₀.inv.run hr
  have hheld := h.pending i
  rw [hp] at hheld
  obtain ⟨u, t, hu, hk, hfold, hext⟩ := hheld
  have hut : u.Extends t := by
    have := extends_computeMain (σ.proc i).state.known u
    rwa [hfold] at this
  have hmain := commitIn_computeMain hu (fun o ho => (hk o ho).1) hfold
  have key : ∀ o ∈ σ.edits, Above σ.store m o ↔
      ∃ q ∈ (σ.proc i).state.known, Effective σ.store q ∧ Descends σ.store q o := by
    intro o ho
    have hprim : isPrimitiveOid σ.store o = true := (h.edits o ho).2
    constructor
    · intro habove
      have hlow : Above t m o := Above.of_extends hext habove hmain
      rw [isPrimitiveOid_of_extends hext (hmain.ancestor hlow.to_reflTransGen)] at hprim
      obtain ⟨q, hq, heff, hqo⟩ :=
        (computeMain_above_iff hu (fun o ho => (hk o ho).1) (fun o ho => (hk o ho).2) hfold
        hprim).mp hlow
      exact ⟨q, hq, (effective_of_extends (hut.trans hext) (hk q hq).1).mpr heff,
        Descends.extends hqo (hut.trans hext)⟩
    · rintro ⟨q, hq, heff, hqo⟩
      have heff' := (effective_of_extends (hut.trans hext) (hk q hq).1).mp heff
      have hqo' : Descends u q o := Descends.of_extends (hut.trans hext) (hk q hq).1 hqo
      have habove := computeMain_above hu (fun o ho => (hk o ho).1)
        (fun o ho => (hk o ho).2) hfold hq heff'
      exact Above.extends (habove.trans_left (Descends.extends hqo' hut)) hext
  constructor
  · rintro ⟨main, hset, habove⟩ o ho
    obtain rfl : m = main := Option.some.inj hset
    exact (key o ho).mp (habove o ho)
  · exact fun hall => ⟨m, rfl, fun o ho => (key o ho).mpr (hall o ho)⟩

end Lawful

/-! ### The calls of a process are runs -/

omit [Crates] in
@[simp] theorem edits_wrote (w : Vault Oid) (p : Pending Oid) : (σ.wrote i w p).edits = σ.edits :=
  rfl

/-- Some run of one process leads to a vault, after the given edits. -/
def Leads (σ : Processes ι Oid) (i : ι) (w : Vault Oid) (edits : List Oid) : Prop :=
  ∃ σ', Steps i σ σ' ∧ σ'.vault i = w ∧ σ'.edits = edits

theorem Leads.aside {w w' : Vault Oid} {edits : List Oid} (h : σ.Leads i w edits)
    (ha : w.Aside w') :
    σ.Leads i w' edits := by
  obtain ⟨σ', hr, rfl, rfl⟩ := h
  exact ⟨_, hr.tail (.aside (p := .idle) ha (.inl rfl)), vault_wrote _ _, rfl⟩

section Lawful
variable [LawfulObjectId Oid] [LawfulCrates]

theorem Leads.recompute {w : Vault Oid} {edits : List Oid} (h : σ.Leads i w edits) :
    σ.Leads i (Vault.recomputeAndMaterialize w).2 edits := by
  obtain ⟨σ, hr, rfl, rfl⟩ := h
  rw [Vault.recomputeAndMaterialize, run_bind_of_ok (run_get _), run_bind]
  rcases Vault.withPuts_cases .putFold (computeMain (σ.vault i).state.known)
    (σ.vault i) with ⟨-, hput⟩ | hput
  · rw [hput]
    exact ⟨σ, hr, rfl, rfl⟩
  rw [hput]
  rcases hm : computeMain (σ.vault i).state.known (σ.vault i).store with ⟨e | m, t⟩
  · have hext := extends_computeMain (σ.vault i).state.known σ.store
    have hsound := fun h : σ.store.Sound => h.computeMain (σ.vault i).state.known
    rw [show computeMain (σ.vault i).state.known σ.store = _ from hm] at hext hsound
    exact ⟨_, hr.tail (.put hext hsound), vault_wrote _ _, rfl⟩
  have hfold : Step σ i (σ.wrote i { σ.vault i with store := t } (.folded m)) := .fold hm
  simp only
  rw [run_bind]
  by_cases hrefused : (σ.vault i).disk.refuses .setMain = true
  · have hset : Vault.setMain m { σ.vault i with store := t } =
        (.error ioError, { σ.vault i with store := t }) :=
      if_pos hrefused
    rw [hset]
    exact ⟨_, hr.tail hfold, vault_wrote _ _, rfl⟩
  · rw [Vault.setMain_of_granted (v := { σ.vault i with store := t })
      (Bool.eq_false_iff.mpr hrefused)]
    have hset := Step.setMain (σ := σ.wrote i { σ.vault i with store := t } (.folded m))
      (i := i) (m := m)
      (by rw [proc_wrote_self])
    refine Leads.aside ⟨_, (hr.tail hfold).tail hset, ?_, rfl⟩ (Vault.filed_materialize _).aside
    rw [setMain, vault_wrote, vault_wrote]

theorem leads_author {m : Oid} {l : Layer1 Oid} {now : Nat}
    (hp : (σ.proc i).pending = .compared m l) (hfr : ∀ p ∈ l.filtered.keys, Framable p)
    (hnow : now < 2 ^ 64) :
    ∃ edits, σ.Leads i (Vault.author m l now (σ.vault i)).2 edits ∧
      ∀ o, (Vault.author m l now (σ.vault i)).1 = .ok o → edits = σ.edits ++ [o] := by
  have hpub : σ.Leads i ((σ.vault i).published l (authored (σ.vault i).identity (σ.vault i).state m l now))
      (σ.publish i m l now).edits := ⟨_, .single (.publish hp hnow), vault_wrote _ .idle, rfl⟩
  rcases Vault.author_cases m l now (σ.vault i) with ⟨w, hrun, hw⟩ | hrun
  · -- the commit is stopped before it folds
    rw [hrun]
    have hnone : ∀ o edits, (.error ioError : CspResult Oid) = .ok o → edits = σ.edits ++ [o] := by
      intro o edits ho
      cases ho
    cases hw with
    | refused => exact ⟨_, ⟨σ, .refl, rfl, rfl⟩, fun o => hnone o _⟩
    | tree =>
      have hput : σ.Leads i
          { σ.vault i with store := (σ.vault i).store.putAll (writeTreeFromFiles l.filtered).1 } σ.edits :=
        ⟨_, .single (.put (σ.store.extends_putAll _) fun h => h.putAll fun x hx =>
          encodable_authoredObjects (σ.vault i).identity (σ.vault i).state m hfr hnow x
          (List.mem_append_left _ hx)),
          vault_wrote _ _, rfl⟩
      exact ⟨_, hput.aside ⟨rfl, rfl, rfl⟩, fun o => hnone o _⟩
    | known => exact ⟨_, hpub.aside ⟨rfl, rfl, rfl⟩, fun o => hnone o _⟩
  · have hfolded := hpub.recompute
    rw [hrun, run_bind]
    rcases hfold : Vault.recomputeAndMaterialize
      ((σ.vault i).published l (authored (σ.vault i).identity (σ.vault i).state m l now))
      with ⟨e | _, x⟩
    · rw [hfold] at hfolded
      exact ⟨_, hfolded, fun o ho => by cases ho⟩
    rw [hfold] at hfolded
    have hsaved := hfolded.aside (Vault.filed_save x).aside
    simp only
    rw [run_bind]
    rcases hsave : Vault.save x with ⟨e | _, y⟩
    · rw [hsave] at hsaved
      exact ⟨_, hsaved, fun o ho => by cases ho⟩
    · rw [hsave] at hsaved
      exact ⟨_, hsaved, fun o ho => congrArg (σ.edits ++ [·]) (Except.ok.inj ho)⟩

theorem leads_published {m tree : Oid} {files : FileMap} {l : Layer1 Oid}
    {v w : Vault Oid} {now : Nat} (hm : σ.mainRef = some m) (ht : mainTree σ.store m = .ok tree)
    (hl : layer1 σ.store m tree (σ.proc i).state.materialized files = .ok l)
    (names : ∀ p ∈ files.keys, Framable p) (hv : (σ.vault i).Aside v)
    (hmat : v.state.materialized = (σ.proc i).state.materialized) (hw : v.Aside w)
    (hnow : now < 2 ^ 64) : ∃ edits, σ.Leads i (Vault.author m l now w).2 edits ∧
      ∀ o, (Vault.author m l now w).1 = .ok o → edits = σ.edits ++ [o] := by
  have hfresh : Step σ i (σ.wrote i v .idle) := .aside hv (.inl rfl)
  have hcompare : Step (σ.wrote i v .idle) i ((σ.wrote i v .idle).wrote i v (.compared m l)) := by
    have htree : mainTree (σ.wrote i v .idle).store m = .ok tree := by
      rwa [show (σ.wrote i v .idle).store = σ.store from hv.store]
    have hlayer : layer1 (σ.wrote i v .idle).store m tree
        ((σ.wrote i v .idle).proc i).state.materialized files = .ok l := by
      rw [show (σ.wrote i v .idle).store = σ.store from hv.store, proc_wrote_self]
      exact hmat ▸ hl
    have hstep := Step.compare (i := i) (hv.mainRef.trans hm) htree names hlayer
    rwa [vault_wrote] at hstep
  have hguard : Step ((σ.wrote i v .idle).wrote i v (.compared m l)) i
      (((σ.wrote i v .idle).wrote i v (.compared m l)).wrote i w (.compared m l)) :=
    .aside (by rw [vault_wrote]; exact hw) (.inr (by rw [proc_wrote_self]))
  obtain ⟨edits, ⟨σ', hr, hvault, hedits⟩, hok⟩ := leads_author
    (σ := ((σ.wrote i v .idle).wrote i v (.compared m l)).wrote i w (.compared m l))
    (by rw [proc_wrote_self])
    (fun p hp => names p (mem_of_mem_filtered hl hp)) hnow
  rw [vault_wrote] at hvault hok
  exact ⟨edits, ⟨σ', .head hfresh (.head hcompare (.head hguard hr)), hvault, hedits⟩, hok⟩

theorem leads_commitLocalChanges {m : Oid} (hm : σ.mainRef = some m) (hnames : σ.disk.NulFree)
    (bucketTime : Nat) {now : Nat} (hnow : now < 2 ^ 64) :
    ∃ edits, σ.Leads i (Vault.commitLocalChanges bucketTime now (σ.vault i)).2 edits ∧
      ∀ o, (Vault.commitLocalChanges bucketTime now (σ.vault i)).1 = .ok (some o) →
      edits = σ.edits ++ [o] := by
  have hsame : ∀ (w : Vault Oid) (r : CspResult (Option Oid)), (∀ o, r ≠ .ok (some o)) →
      (σ.vault i).Aside w →
      ∃ edits, σ.Leads i w edits ∧ ∀ o, r = .ok (some o) → edits = σ.edits ++ [o] := by
    intro w r hr ha
    have hstart : σ.Leads i (σ.vault i) σ.edits := ⟨σ, .refl, rfl, rfl⟩
    exact ⟨_, hstart.aside ha, fun o ho => absurd ho (hr o)⟩
  have hfresh : (σ.vault i).Aside (σ.vault i).refreshScope := ⟨rfl, rfl, rfl⟩
  rw [Vault.commitLocalChanges_run bucketTime now (show (σ.vault i).mainRef = some m from hm)]
  split_ifs with hb
  · exact hsame _ _ (by simp) ⟨rfl, rfl, rfl⟩
  split
  · exact hsame _ _ (by simp) hfresh
  rename_i files hfiles
  split
  · exact hsame _ _ (by simp) hfresh
  rename_i tree ht
  split
  · exact hsame _ _ (by simp) hfresh
  rename_i l hl
  have hguarded := Vault.filed_guarded (σ.vault i).refreshScope bucketTime l
  split_ifs
  · obtain ⟨edits, hpub, hok⟩ := leads_published hm ht hl
      (framable_workingFiles (v := (σ.vault i).refreshScope) hnames hfiles) hfresh rfl
      hguarded.aside hnow
    split
    · rename_i o w hw
      rw [hw] at hpub hok
      exact ⟨edits, hpub, fun o' ho' => hok o'
        (congrArg Except.ok (Option.some.inj (Except.ok.inj ho')))⟩
    · rename_i e w hw
      rw [hw] at hpub
      exact ⟨edits, hpub, by simp⟩
  · have hsaved := hguarded.trans (Vault.filed_save _)
    split
    · rename_i w hw
      rw [hw] at hsaved
      exact hsame _ _ (by simp) (hfresh.trans hsaved.aside)
    · rename_i e w hw
      rw [hw] at hsaved
      exact hsame _ _ (by simp) (hfresh.trans hsaved.aside)
  · exact hsame _ _ (by simp) (hfresh.trans hguarded.aside)

theorem leads_integrate {raws : List Bytes} (complete : CompleteBatch σ.store raws) :
    σ.Leads i (Vault.integrate raws (σ.vault i)).2 σ.edits := by
  have hstored : ∀ t, σ.store.Extends t → (σ.store.Sound → t.Sound) →
      σ.Leads i { σ.vault i with store := t } σ.edits :=
    fun t he hs => ⟨_, .single (.put he hs), vault_wrote _ _, rfl⟩
  have hputs : ∀ xs : List Bytes, σ.store.Extends
      (σ.store.putAll (decoded xs : List (GitObject Oid) × Option CspError).1) ∧
      (σ.store.Sound → (σ.store.putAll (decoded xs :
        List (GitObject Oid) × Option CspError).1).Sound) :=
    fun xs => ⟨σ.store.extends_putAll _, fun h => h.putAll fun x hx => encodable_of_mem_decoded hx⟩
  -- a write that is refused part of the way is one step that has put what it could
  obtain ⟨r, hput, hok⟩ := Vault.putEach_run 0 raws (σ.vault i)
  cases r with
  | error e =>
    rw [Vault.integrate, run_bind, hput]
    exact hstored _ (hputs _).1 (hputs _).2
  | ok _ =>
    obtain ⟨hkept, -⟩ := hok rfl
    rw [hkept] at hput
    rw [Vault.integrate_put hput]
    have hext := extends_verifyBatch raws (σ.store.putAll
        (decoded raws : List (GitObject Oid) × Option CspError).1)
    have hsound := fun h => ((hputs raws).2 h).verifyBatch raws
    rcases hv : verifyBatch raws (σ.store.putAll (decoded raws).1) with ⟨e | b, t⟩
    all_goals
      rw [hv] at hext hsound
      rw [show (σ.vault i).store = σ.store from rfl, hv]
    · exact hstored t ((hputs raws).1.trans hext) hsound
    cases b with
    | false => exact hstored t ((hputs raws).1.trans hext) hsound
    | true =>
      have htake : Step σ i (σ.wrote i
          { σ.vault i with store := t, state := (raws.foldl admitOne ((σ.proc i).state, 0)).1 }
        .idle) := .take complete hv
      have htaken : σ.Leads i
          { σ.vault i with store := t, state := (raws.foldl admitOne ((σ.proc i).state, 0)).1 } σ.edits :=
        ⟨_, .single htake, vault_wrote _ _, rfl⟩
      -- saving touches neither the store nor `main`
      have hrest : ∀ (n : Nat) {w : Vault Oid}, σ.Leads i w σ.edits →
          σ.Leads i ((do Vault.save; pure n : VaultM Oid Nat) w).2 σ.edits := by
        intro n w hw
        have hsaved := hw.aside (Vault.filed_save w).aside
        rw [run_bind]
        rcases hsave : Vault.save w with ⟨_ | _, x⟩
        · rwa [hsave] at hsaved
        · rwa [hsave] at hsaved
      simp only
      split_ifs
      · have hfolded := htaken.recompute
        rw [run_bind]
        rcases hfold : Vault.recomputeAndMaterialize
          { σ.vault i with store := t, state := (raws.foldl admitOne ((σ.proc i).state, 0)).1 }
          with ⟨_ | _, x⟩
        · rw [hfold] at hfolded
          rw [show (σ.vault i).state = (σ.proc i).state from rfl, hfold]
          exact hfolded
        · rw [hfold] at hfolded
          rw [show (σ.vault i).state = (σ.proc i).state from rfl, hfold]
          exact hrest _ hfolded
      · exact hrest _ htaken

theorem leads_foldSubset (subset : List Oid) :
    σ.Leads i (Vault.withPuts .putFold (foldSubset subset) (σ.vault i)).2 σ.edits := by
  rcases Vault.withPuts_cases .putFold (foldSubset subset) (σ.vault i) with ⟨-, hrun⟩ | hrun
  · rw [hrun]
    exact ⟨σ, .refl, rfl, rfl⟩
  · rw [hrun]
    exact ⟨_, .single (.put (extends_foldSubset subset σ.store) fun h => sound_foldSubset h subset),
      vault_wrote _ _, rfl⟩

end Lawful

end Processes

end Csp

/-! ### A restore beside a daemon -/

namespace Csp.Small
open Processes

def besideObjects : List (GitObject (Num [])) :=
  [emptyTree, .commit (foldCommit 0 [] 0 genesisMsg), .blob [49], .tree [⟨fileMode, ['x'], 2⟩],
    .commit (signedPrimitive owner 3 1 1 0 "ctx edit".toList []),
    .commit (foldCommit 3 [4] 0 foldMsg),
    .blob [50], .tree [⟨fileMode, ['y'], 6⟩],
    .commit (signedPrimitive ⟨[2]⟩ 7 1 1 0 "ctx edit".toList []),
    .commit (foldCommit 7 [8] 0 foldMsg)]

abbrev Beside : Type := Num (besideObjects.map GitObject.framed)

def atRest : Process Beside where
  state := { vaultId := [] }
  scope := { includes := [], ignore := [], allowBinary := false }
  identity := owner
  config := { vaultId := [], name := [] }
  pending := .idle

def openedTwice : Processes Bool Beside where
  root := []
  disk := {
    files := (∅ : Std.ExtTreeMap Key Bytes compare).insert [['x']] [49]
    dirs := ∅
    refuses := fun _ => false }
  store := (genesis (Store.empty .disk)).2
  mainRef := some (GitObject.commit genesisCommit).oid
  nodeTips := ∅
  saved := { vaultId := [] }
  proc _ := atRest
  edits := []

def besideBatch : List Bytes :=
  [(.blob [50] : GitObject Beside), .tree [⟨fileMode, ['y'], 6⟩],
    .commit (signedPrimitive ⟨[2]⟩ 7 1 1 0 "ctx edit".toList [])].map GitObject.compress

def besideCommit : CspResult (Option Beside) × Vault Beside :=
  Vault.commitLocalChanges 0 0 (openedTwice.vault false)

def besideTaken : CspResult Bool × Store Beside :=
  verifyBatch besideBatch (besideCommit.2.store.putAll (decoded besideBatch).1)

def besideFold : CspResult Beside × Store Beside :=
  computeMain (besideBatch.foldl admitOne (atRest.state, 0)).1.known besideTaken.2

theorem beside_spec :
    openedTwice.disk.NulFree ∧ besideCommit.1 = .ok (some 4) ∧ besideCommit.2.state.known = [4] ∧
      isGhostAddClosureOnly besideCommit.2.store 4 = .ok false ∧
      (computeMain [4] besideCommit.2.store).1 = .ok 5 ∧
      (decoded besideBatch : List (GitObject Beside) × Option CspError).2 = none ∧
      (∀ o ∈ (accepted besideBatch : List Beside),
        holdsCommit (besideCommit.2.store.putAll (decoded besideBatch).1) 10 o = true) ∧
      besideTaken.1 = .ok true ∧ besideFold.1 = .ok 9 ∧
      (ancestors besideFold.2 9).toOption = some [1, 8] := by
  decide +kernel

theorem opened_openedTwice : openedTwice.Opened where
  sound := by
    show (genesis (Store.empty .disk)).2.Sound
    rw [genesis_run]
    exact (Store.sound_empty .disk).putAll written_genesis.encodable
  known i o ho := by cases ho
  main := by
    refine ⟨_, rfl, ?_⟩
    show CommitIn (genesis (Store.empty .disk)).2 _
    rw [genesis_run]
    exact (commitIn_genesis (Store.sound_empty .disk)).2
  idle _ := rfl
  edits := rfl

theorem beside_run : ∃ σ, Run openedTwice σ ∧ σ.vault false = besideCommit.2 ∧ σ.edits = [4] ∧
    σ.proc true = atRest := by
  obtain ⟨hnames, hok, -⟩ := beside_spec
  obtain ⟨edits, ⟨σ, hr, hv, rfl⟩, hedits⟩ := leads_commitLocalChanges (σ := openedTwice)
    (i := false)
    (m := (GitObject.commit genesisCommit).oid) rfl hnames 0 (show 0 < 2 ^ 64 by decide)
  exact ⟨σ, Steps.run hr, hv, hedits 4 hok, Steps.frame hr (by decide)⟩

/-- The restore, which knows what it has authored, folds once more. -/
theorem main_keeps_edits_iff_beside : ∃ σ m, Run openedTwice σ ∧
    (σ.proc false).pending = .folded m ∧ σ.edits = [4] ∧ ∃ main, (σ.setMain false m).mainRef =
    some main ∧ Above (σ.setMain false m).store main 4 := by
  obtain ⟨-, -, hknown, heff, hfold, -⟩ := beside_spec
  obtain ⟨σ, hr, hv, hedits, -⟩ := beside_run
  have hstore : σ.store = besideCommit.2.store := congrArg Vault.store hv
  have hstate : (σ.proc false).state = besideCommit.2.state := congrArg Vault.state hv
  rcases hm : computeMain [4] besideCommit.2.store with ⟨r, t⟩
  rw [hm] at hfold
  obtain rfl : r = .ok 5 := hfold
  have hstep : Processes.Step σ false (σ.wrote false { σ.vault false with store := t }
        (.folded 5)) :=
    .fold (by rw [hstate, hknown, hstore, hm])
  have hext : besideCommit.2.store.Extends t := by
    have := extends_computeMain [4] besideCommit.2.store
    rwa [hm] at this
  have hcommit : CommitIn besideCommit.2.store 4 := by
    have h := (opened_openedTwice.inv.run hr).edits 4
      (by rw [hedits]; exact List.mem_singleton_self _)
    rw [hstore] at h
    exact h.1
  have hpending : ((σ.wrote false { σ.vault false with store := t } (.folded 5)).proc
        false).pending = .folded 5 := by
    rw [proc_wrote_self]
  obtain ⟨main, hmain, habove⟩ :=
    (main_keeps_edits_iff opened_openedTwice (hr.tail ⟨false, hstep⟩) hpending).mpr
    fun o ho => by
      rw [edits_wrote, hedits] at ho
      obtain rfl := List.mem_singleton.mp ho
      refine ⟨4, ?_, (effective_of_extends hext hcommit).mpr heff, .refl⟩
      rw [proc_wrote_self, hv, hknown]
      exact List.mem_singleton_self _
  refine ⟨_, 5, hr.tail ⟨false, hstep⟩, hpending, hedits, main, hmain, habove 4 ?_⟩
  show (4 : Beside) ∈ σ.edits
  rw [hedits]
  exact List.mem_singleton_self _

/-- The daemon folds what it knows, and `main` leaves the edit of the restore behind. -/
theorem restored_edit_lost : openedTwice.Opened ∧
    ∃ σ m, Run openedTwice σ ∧ (σ.proc true).pending = .folded m ∧
      (σ.setMain true m).mainRef = some m ∧
      ∃ o ∈ (σ.setMain true m).edits, ¬ Above (σ.setMain true m).store m o := by
  obtain ⟨-, -, -, -, -, hdec, hheld, hverified, hfold, hanc⟩ := beside_spec
  obtain ⟨σ, hr, hv, hedits, hrest⟩ := beside_run
  have hstore : σ.store = besideCommit.2.store := congrArg Vault.store hv
  rcases hu : besideTaken with ⟨r, u⟩
  rcases hm : besideFold with ⟨r', t⟩
  rw [hu] at hverified
  rw [hm] at hfold hanc
  obtain rfl : r = .ok true := hverified
  obtain rfl : r' = .ok 9 := hfold
  have hcomplete : CompleteBatch σ.store besideBatch := by
    rw [hstore]
    exact ⟨hdec, fun o ho => commitIn_of_holdsCommit (hheld o ho)⟩
  have htake := Processes.Step.take (i := true) hcomplete (t := u) (by rw [hstore]; exact hu)
  rw [hrest] at htake
  generalize hw : ({ σ.vault true with
    store := u, state := (besideBatch.foldl admitOne (atRest.state, 0)).1 } :
    Vault Beside) = w at htake
  have hknown : computeMain w.state.known w.store = (.ok 9, t) := by
    rw [← hw, ← hm, besideFold, hu]
  have hfolded : Processes.Step (σ.wrote true w .idle) true
      ((σ.wrote true w .idle).wrote true { (σ.wrote true w .idle).vault true with store := t }
        (.folded 9)) :=
    .fold (by rw [proc_wrote_self]; exact hknown)
  refine ⟨opened_openedTwice, _, 9, (hr.tail ⟨true, htake⟩).tail
    ⟨true, hfolded⟩, by rw [proc_wrote_self], rfl, 4, ?_, ?_⟩
  · show (4 : Beside) ∈ σ.edits
    rw [hedits]
    exact List.mem_singleton_self _
  · show ¬ Above t 9 4
    cases hl : ancestors t 9 with
    | error e =>
      rw [hl] at hanc
      cases hanc
    | ok l =>
      rw [hl] at hanc
      obtain rfl : l = [1, 8] := Option.some.inj hanc
      rw [Above, ← (ancestors_spec hl).2 4]
      decide

end Csp.Small
