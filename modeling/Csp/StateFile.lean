import Csp.Integrate
import Csp.Recovery

/-! Several processes on one `.context/state`. Each holds the state that it loaded, works on
that, and merges it into the file when it saves. -/

namespace Csp

/-! ### The merge on save -/

section MergeOnSave
variable {Oid : Type}

theorem getElem?_foldl_insertIfNew (fs : List (Str × Snapshot Oid))
    (m : Std.ExtTreeMap Str (Snapshot Oid) compare) (k : Str) :
    (fs.foldl (fun m (f : Str × Snapshot Oid) => m.insertIfNew f.1 f.2) m)[k]? =
      m[k]?.or ((fs.find? fun f => f.1 = k).map Prod.snd) := by
  induction fs generalizing m with
  | nil => simp
  | cons f fs ih =>
    rw [List.foldl_cons, ih, Std.ExtTreeMap.getElem?_insertIfNew]
    by_cases hf : f.1 = k
    · subst hf
      rw [List.find?_cons_of_pos (by simp)]
      by_cases hm : f.1 ∈ m
      · simp [hm]
      · simp [hm]
    · rw [List.find?_cons_of_neg (by simpa using hf)]
      simp [hf]

theorem find?_toList (m : Std.ExtTreeMap Str (Snapshot Oid) compare) (k : Str) :
    (m.toList.find? fun f => f.1 = k).map Prod.snd = m[k]? := by
  cases hk : m[k]? with
  | none =>
    have hnone : m.toList.find? (fun f => f.1 = k) = none := by
      refine List.find?_eq_none.mpr fun f hf => ?_
      have hget : m[f.1]? = some f.2 := Std.ExtTreeMap.mem_toList_iff_getElem?_eq_some.mp hf
      intro heq
      rw [decide_eq_true_eq] at heq
      rw [heq, hk] at hget
      cases hget
    rw [hnone, Option.map_none]
  | some x =>
    have hmem : (k, x) ∈ m.toList := Std.ExtTreeMap.mem_toList_iff_getElem?_eq_some.mpr hk
    obtain ⟨f, hf⟩ := Option.isSome_iff_exists.mp
      (List.find?_isSome.mpr ⟨(k, x), hmem, by rw [decide_eq_true_eq]⟩ :
        (m.toList.find? fun f => f.1 = k).isSome = true)
    have hget : m[f.1]? = some f.2 := Std.ExtTreeMap.mem_toList_iff_getElem?_eq_some.mp
        (List.mem_of_find?_eq_some hf)
    have hkey : decide (f.1 = k) = true :=
        List.find?_some (p := fun f : Str × Snapshot Oid => decide (f.1 = k)) hf
    rw [decide_eq_true_eq] at hkey
    rw [hf, Option.map_some, ← hget, hkey, hk]

namespace Vault
variable [ObjectId Oid] (st saved : EngineState Oid)

theorem snapshots_mergeSaved (k : Str) :
    (mergeSaved st saved).snapshots[k]? = st.snapshots[k]?.or saved.snapshots[k]? := by
  show (saved.snapshots.foldl (fun m k v => m.insertIfNew k v) st.snapshots)[k]? = _
  rw [Std.ExtTreeMap.foldl_eq_foldl_toList, getElem?_foldl_insertIfNew, find?_toList]

theorem mem_known_mergeSaved {o : Oid} : o ∈ (mergeSaved st saved).known ↔ o ∈ st.known ∨
    o ∈ saved.known :=
  mem_foldl_addNew

end Vault
end MergeOnSave

/-! ### The processes -/

/-- Processes on one state file. The last two fields only watch. -/
structure Shared (ι Oid : Type) where
  file : Option (EngineState Oid)
  /-- What a process that has opened the vault holds. -/
  mem : ι → Option (EngineState Oid)
  /-- The record of the latest `snapshot` call for a name. -/
  latest : Str → Option (Snapshot Oid)
  /-- The process of that call, until it has saved. -/
  pending : Str → Option ι

namespace Shared
variable {ι Oid : Type} [DecidableEq ι] [ObjectId Oid]

/-- `EngineState::load`. -/
def load (w : Shared ι Oid) : EngineState Oid := w.file.getD {}

def setMem (w : Shared ι Oid) (i : ι) (st : EngineState Oid) : Shared ι Oid :=
  { w with mem := Function.update w.mem i (some st) }

def snapshot (w : Shared ι Oid) (i : ι) (st : EngineState Oid) (name : Str) (tips : List Oid)
    (now : Nat) :
    Shared ι Oid :=
  { w.setMem i (st.addSnapshot name tips now) with
    latest := Function.update w.latest name (some { label := name, frontier := tips, createdUnix := now })
    pending := Function.update w.pending name (some i) }

def save (w : Shared ι Oid) (i : ι) (st : EngineState Oid) : Shared ι Oid :=
  { w with
    file := some (Vault.mergeSaved st w.load)
    pending := fun name => if w.pending name = some i then none else w.pending name }

/-- What a process does. It loads the file when it opens the vault. -/
inductive Act (ι Oid : Type)
  | opens (i : ι)
  | snapshot (i : ι) (name : Str) (tips : List Oid) (now : Nat)
  | addKnown (i : ι) (o : Oid)
  | nextCounter (i : ι)
  | observe (i : ι) (counter : Nat)
  | save (i : ι)

def step (w : Shared ι Oid) : Act ι Oid → Option (Shared ι Oid)
  | .opens i => match w.mem i with
    | none => some (w.setMem i w.load)
    | some _ => none
  | .snapshot i name tips now => (w.mem i).map fun st => w.snapshot i st name tips now
  | .addKnown i o => (w.mem i).map fun st => w.setMem i (st.addKnown o)
  | .nextCounter i => (w.mem i).map fun st => w.setMem i st.nextCounter.2
  | .observe i counter => (w.mem i).map fun st => w.setMem i (st.observe counter)
  | .save i => (w.mem i).map fun st => w.save i st

/-- Before any process opens the vault. -/
structure Idle (w : Shared ι Oid) : Prop where
  mem : ∀ i, w.mem i = none
  latest : ∀ k, w.latest k = w.load.snapshots[k]?
  pending : ∀ k, w.pending k = none

/-- A process that saves holds no record that another process has replaced and saved. -/
def Fresh (w : Shared ι Oid) : Act ι Oid → Prop
  | .save i => ∀ st, w.mem i = some st → ∀ k snap, st.snapshots[k]? = some snap →
    w.pending k = none →
      w.latest k = some snap
  | _ => True

/-- A run, in any order of the steps, from one world to another. -/
inductive Run (P : Shared ι Oid → Act ι Oid → Prop) (w₀ : Shared ι Oid) : Shared ι Oid → Prop
  | start : Run P w₀ w₀
  | step {w w' : Shared ι Oid} {a : Act ι Oid} (run : Run P w₀ w) (guard : P w a)
    (step : w.step a = some w') :
      Run P w₀ w'

theorem Run.mono {P Q : Shared ι Oid → Act ι Oid → Prop} (hPQ : ∀ w a, P w a → Q w a)
    {w₀ w : Shared ι Oid} (h : Run P w₀ w) : Run Q w₀ w := by
  induction h with
  | start => exact .start
  | step _ guard hstep ih => exact .step ih (hPQ _ _ guard) hstep

/-! ### What a step preserves -/

/-- What is known in the file stays known, its counters do not go back, and no name of a
snapshot goes. -/
structure Grows (a b : EngineState Oid) : Prop where
  known : ∀ o ∈ a.known, o ∈ b.known
  counter : a.counter ≤ b.counter
  observed : a.observed ≤ b.observed
  snapshots : ∀ k : Str, a.snapshots[k]? ≠ none → b.snapshots[k]? ≠ none

omit [ObjectId Oid] in
theorem Grows.refl (a : EngineState Oid) : Grows a a := ⟨fun _ h => h, le_rfl, le_rfl, fun _ h => h⟩

omit [ObjectId Oid] in
theorem Grows.trans {a b c : EngineState Oid} (h : Grows a b) (h' : Grows b c) : Grows a c where
  known o ho := h'.known o (h.known o ho)
  counter := h.counter.trans h'.counter
  observed := h.observed.trans h'.observed
  snapshots k hk := h'.snapshots k (h.snapshots k hk)

theorem grows_mergeSaved (st saved : EngineState Oid) :
    Grows saved (Vault.mergeSaved st saved) where
  known o ho := (Vault.mem_known_mergeSaved st saved).mpr (.inr ho)
  counter := le_max_right _ _
  observed := le_max_right _ _
  snapshots k hk := by
    rw [Vault.snapshots_mergeSaved]
    cases hs : st.snapshots[k]? with
    | none => simpa using hk
    | some x => simp

/-- Where the record of the latest call is: with its process, or in the file. -/
structure Inv (w : Shared ι Oid) : Prop where
  held : ∀ k i, w.pending k = some i →
    ∃ st snap, w.mem i = some st ∧ st.snapshots[k]? = some snap ∧ w.latest k = some snap
  filed : ∀ k, w.pending k = none → w.load.snapshots[k]? = w.latest k

variable {w w' w₀ : Shared ι Oid}

theorem load_eq_of_step {a : Act ι Oid} (ha : ∀ i, a ≠ .save i) (h : w.step a = some w') :
    w'.load = w.load := by
  cases a with
  | opens i =>
    rw [step] at h
    split at h
    · cases h
      rfl
    · cases h
  | save i => exact absurd rfl (ha i)
  | _ =>
    obtain ⟨st, -, rfl⟩ := Option.map_eq_some_iff.mp h
    rfl

theorem step_save {i : ι} (h : w.step (.save i) = some w') : ∃ st, w.mem i = some st ∧
    w' = w.save i st := by
  obtain ⟨st, hst, rfl⟩ := Option.map_eq_some_iff.mp h
  exact ⟨st, hst, rfl⟩

theorem grows_step {a : Act ι Oid} (h : w.step a = some w') : Grows w.load w'.load := by
  by_cases ha : ∃ i, a = .save i
  · obtain ⟨i, rfl⟩ := ha
    obtain ⟨st, -, rfl⟩ := step_save h
    exact grows_mergeSaved _ _
  · rw [load_eq_of_step (fun i hi => ha ⟨i, hi⟩) h]
    exact .refl _

omit [ObjectId Oid] in
theorem Inv.setMem (h : w.Inv) {i : ι} {st st' : EngineState Oid}
    (hi : w.mem i = none ∨ w.mem i = some st) (hs : st'.snapshots = st.snapshots) :
    (w.setMem i st').Inv where
  held k j hj := by
    obtain ⟨x, snap, hx, hk, hlatest⟩ := h.held k j hj
    by_cases hji : j = i
    · subst hji
      have hst : w.mem j = some st := hi.resolve_left fun hnone => by
        rw [hnone] at hx
        cases hx
      obtain rfl := Option.some.inj (hst.symm.trans hx)
      exact ⟨st', snap, Function.update_self .., by rwa [hs], hlatest⟩
    · exact ⟨x, snap, (Function.update_of_ne hji ..).trans hx, hk, hlatest⟩
  filed k hk := h.filed k hk

omit [ObjectId Oid] in
theorem Inv.snapshot (h : w.Inv) {i : ι} {st : EngineState Oid} (hi : w.mem i = some st)
    (name : Str) (tips : List Oid) (now : Nat) : (w.snapshot i st name tips now).Inv := by
  have hmem : (w.snapshot i st name tips now).mem =
      Function.update w.mem i (some (st.addSnapshot name tips now)) := rfl
  have hpend : (w.snapshot i st name tips now).pending = Function.update w.pending name (some i) := rfl
  have hlate : (w.snapshot i st name tips now).latest =
    Function.update w.latest name (some { label := name, frontier := tips, createdUnix := now }) :=
    rfl
  constructor
  · intro k j hj
    rw [hpend] at hj
    rw [hmem, hlate]
    by_cases hk : k = name
    · subst hk
      rw [Function.update_self] at hj ⊢
      obtain rfl := Option.some.inj hj
      exact ⟨_, _, Function.update_self .., Std.ExtTreeMap.getElem?_insert_self, rfl⟩
    · rw [Function.update_of_ne hk] at hj ⊢
      obtain ⟨x, snap, hx, hkx, hlatest⟩ := h.held k j hj
      by_cases hji : j = i
      · subst hji
        obtain rfl := Option.some.inj (hi.symm.trans hx)
        refine ⟨_, snap, Function.update_self .., ?_, hlatest⟩
        have hne : ¬ compare name k = .eq := fun heq => hk (Std.LawfulEqCmp.eq_of_compare heq).symm
        show (st.snapshots.insert name _)[k]? = some snap
        rw [Std.ExtTreeMap.getElem?_insert, if_neg hne, hkx]
      · exact ⟨x, snap, (Function.update_of_ne hji ..).trans hx, hkx, hlatest⟩
  · intro k hk
    rw [hpend] at hk
    rw [hlate]
    by_cases hkn : k = name
    · subst hkn
      rw [Function.update_self] at hk
      cases hk
    · rw [Function.update_of_ne hkn] at hk ⊢
      exact h.filed k hk

theorem Inv.save (h : w.Inv) {i : ι} {st : EngineState Oid} (hi : w.mem i = some st)
    (hfresh : w.Fresh (.save i)) :
    (w.save i st).Inv where
  held k j hj := by
    change (if w.pending k = some i then none else w.pending k) = some j at hj
    split_ifs at hj
    exact h.held k j hj
  filed k hk := by
    change (if w.pending k = some i then none else w.pending k) = none at hk
    show (Vault.mergeSaved st w.load).snapshots[k]? = w.latest k
    rw [Vault.snapshots_mergeSaved]
    split_ifs at hk with hp
    · -- the latest call was this process's own
      obtain ⟨x, snap, hx, hkx, hlatest⟩ := h.held k i hp
      obtain rfl := Option.some.inj (hi.symm.trans hx)
      rw [hkx, Option.some_or, hlatest]
    · -- the file has the latest record, and what the process holds is no older
      cases hs : st.snapshots[k]? with
      | none => rw [Option.none_or, h.filed k hk]
      | some snap => rw [Option.some_or, hfresh st hi k snap hs hk]

theorem Inv.step (h : w.Inv) {a : Act ι Oid} (hfresh : w.Fresh a) (hstep : w.step a = some w') :
    w'.Inv := by
  cases a with
  | opens i =>
    rw [Shared.step] at hstep
    split at hstep
    · rename_i hnone
      obtain rfl := Option.some.inj hstep
      exact h.setMem (.inl hnone) (rfl : w.load.snapshots = w.load.snapshots)
    · cases hstep
  | snapshot i name tips now =>
    obtain ⟨st, hst, rfl⟩ := Option.map_eq_some_iff.mp hstep
    exact h.snapshot hst name tips now
  | addKnown i o =>
    obtain ⟨st, hst, rfl⟩ := Option.map_eq_some_iff.mp hstep
    exact h.setMem (.inr hst) (snapshots_addKnown st o)
  | nextCounter i =>
    obtain ⟨st, hst, rfl⟩ := Option.map_eq_some_iff.mp hstep
    exact h.setMem (.inr hst) rfl
  | observe i counter =>
    obtain ⟨st, hst, rfl⟩ := Option.map_eq_some_iff.mp hstep
    exact h.setMem (.inr hst) rfl
  | save i =>
    obtain ⟨st, hst, rfl⟩ := step_save hstep
    exact h.save hst hfresh

omit [DecidableEq ι] [ObjectId Oid] in
theorem Idle.inv (h : w.Idle) : w.Inv where
  held k i hk := by
    rw [h.pending] at hk
    cases hk
  filed k _ := (h.latest k).symm

/-- Every snapshot that a process holds when it saves is in the file afterwards. -/
theorem saved_of_step {i : ι} {st : EngineState Oid} (hi : w.mem i = some st)
    (h : w.step (.save i) = some w') {k : Str} (hk : st.snapshots[k]? ≠ none) :
    w'.load.snapshots[k]? ≠ none := by
  obtain ⟨x, hx, rfl⟩ := step_save h
  obtain rfl := Option.some.inj (hi.symm.trans hx)
  obtain ⟨snap, hsnap⟩ := Option.ne_none_iff_exists'.mp hk
  have hload : (w.save i st).load.snapshots[k]? = st.snapshots[k]?.or w.load.snapshots[k]? :=
    Vault.snapshots_mergeSaved st w.load k
  rw [hload, hsnap, Option.some_or]
  exact Option.some_ne_none snap

/-- In every run in which no process saves a record that another one has replaced and saved,
the known set and the counters of the file never shrink and no name of a snapshot goes, a save
brings in each snapshot of its process, and a record in the file is that of the latest call as
soon as the process of that call has saved. -/
theorem saves_lose_nothing (h₀ : w₀.Idle) (run : Run Fresh w₀ w) :
    Grows w₀.load w.load ∧ (∀ a w', w.step a = some w' → Grows w.load w'.load) ∧
      (∀ i st w' (k : Str), w.mem i = some st → w.step (.save i) = some w' →
        st.snapshots[k]? ≠ none →
        w'.load.snapshots[k]? ≠ none) ∧
      ∀ k, w.pending k = none → w.load.snapshots[k]? = w.latest k := by
  have key : Grows w₀.load w.load ∧ w.Inv := by
    induction run with
    | start => exact ⟨.refl _, h₀.inv⟩
    | step run guard hstep ih => exact ⟨ih.1.trans (grows_step hstep), ih.2.step guard hstep⟩
  exact ⟨key.1, fun a w' hstep => grows_step hstep, fun i st w' k hi hstep hk =>
    saved_of_step hi hstep hk, key.2.filed⟩

end Shared

/-! ### A daemon and a one-shot -/

namespace Small
open Shared

def noProcess : Shared Bool Digest :=
  { file := none, mem := fun _ => none, latest := fun _ => none, pending := fun _ => none }

def release : Str := "release".toList

def daemonTook : Shared Bool Digest :=
  ((noProcess.setMem true {}).setMem false {}).snapshot true {} release [] 1

def daemonHolds : EngineState Digest := EngineState.addSnapshot {} release [] 1

def daemonSaved : Shared Bool Digest := daemonTook.save true daemonHolds

def oneShotSaved : Shared Bool Digest :=
  (daemonSaved.snapshot false {} release [] 2).save false (EngineState.addSnapshot {} release [] 2)

theorem run_daemonTook : Run Fresh noProcess daemonTook := by
  have h₁ : Run Fresh noProcess (noProcess.setMem true {}) :=
      .step (a := .opens true) .start trivial rfl
  have h₂ : Run Fresh noProcess ((noProcess.setMem true {}).setMem false {}) :=
      .step (a := .opens false) h₁ trivial rfl
  exact .step (a := .snapshot true release [] 1) h₂ trivial rfl

theorem fresh_of_own {w : Shared Bool Digest} {i : Bool} {name : Str} {now : Nat}
    (hmem : w.mem i = some (EngineState.addSnapshot {} name [] now))
    (hown : w.pending name = some i) :
    w.Fresh (.save i) := by
  intro st hst k snap hk hp
  obtain rfl := Option.some.inj (hmem.symm.trans hst)
  by_cases hkn : k = name
  · subst hkn
    cases hown.symm.trans hp
  · have hne : ¬ compare name k = .eq := fun heq => hkn (Std.LawfulEqCmp.eq_of_compare heq).symm
    change ((∅ : Std.ExtTreeMap Str (Snapshot Digest) compare).insert name _)[k]? = some snap at hk
    rw [Std.ExtTreeMap.getElem?_insert, if_neg hne, Std.ExtTreeMap.getElem?_empty] at hk
    cases hk

def draft : Str := "draft".toList

def oneShotTook : Shared Bool Digest := daemonSaved.snapshot false {} draft [] 2

def bothSaved : Shared Bool Digest := oneShotTook.save false (EngineState.addSnapshot {} draft [] 2)

/-- Each saves after the other has: the file has both records. -/
theorem saves_lose_nothing_both : bothSaved.load.snapshots[release]? = daemonSaved.latest release ∧
    bothSaved.load.snapshots[draft]? = oneShotTook.latest draft ∧ oneShotTook.latest draft ≠ none ∧
    daemonSaved.latest release ≠ none := by
  have run₁ : Run Fresh noProcess daemonSaved :=
    .step (a := .save true) run_daemonTook (fresh_of_own rfl rfl) rfl
  have run₂ : Run Fresh noProcess oneShotTook :=
    .step (a := .snapshot false draft [] 2) run₁ trivial rfl
  have run₃ : Run Fresh noProcess bothSaved := .step (a := .save false) run₂
      (fresh_of_own rfl rfl) rfl
  have idle : noProcess.Idle := ⟨fun _ => rfl, fun _ => rfl, fun _ => rfl⟩
  have hall := (saves_lose_nothing idle run₃).2.2.2
  exact ⟨hall release rfl, hall draft rfl, by decide, by decide⟩

/-- The daemon's next save brings its own record back over the later one. -/
theorem save_loses_snapshot :
    ∃ w : Shared Bool Digest, Run (fun _ _ => True) noProcess w ∧ (∀ k, w.pending k = none) ∧
      w.load.snapshots[release]? ≠ w.latest release := by
  refine ⟨oneShotSaved.save true daemonHolds, ?_, ?_, ?_⟩
  · have h₀ : Run (fun _ _ => True) noProcess daemonTook := run_daemonTook.mono fun _ _ _ => trivial
    have h₁ : Run (fun _ _ => True) noProcess daemonSaved := .step (a := .save true) h₀ trivial rfl
    have h₂ : Run (fun _ _ => True) noProcess (daemonSaved.snapshot false {} release [] 2) :=
      .step (a := .snapshot false release [] 2) h₁ trivial rfl
    have h₃ : Run (fun _ _ => True) noProcess oneShotSaved :=
        .step (a := .save false) h₂ trivial rfl
    exact .step (a := .save true) h₃ trivial rfl
  · intro k
    by_cases hk : k = release
    · subst hk
      rfl
    · simp [oneShotSaved, daemonSaved, daemonTook, noProcess, save, snapshot, setMem, Function.update, hk]
  · decide +kernel

end Small
end Csp
