import Csp.Ledger

/-! Runs of the bridge in which no step takes one of the branches that go wrong: the engine and
the editor agree once everything has drained, and the tokens are those of the bridge's events
that still wait. -/

namespace Csp.Bridge
open Fifo

variable {filter : Path → Bool} {s s' : State} {p q : Path} {e : Event} {id : FileId}

/-! ### What is still due at a path -/

def verdict (changes : List (Path × Option Content)) (p : Path) : Option (Option Content) :=
  ((changes.filter (·.1 = p)).map Prod.snd).getLast?

theorem verdict_append (as bs : List (Path × Option Content)) (p : Path) :
    verdict (as ++ bs) p = (verdict bs p).or (verdict as p) := by
  rw [verdict, List.filter_append, List.map_append, List.getLast?_append]
  rfl

theorem verdict_singleton (c : Path × Option Content) (p : Path) :
    verdict [c] p = if c.1 = p then some c.2 else none := by
  by_cases h : c.1 = p <;> simp [verdict, h]

theorem verdict_cons (c : Path × Option Content) (cs : List (Path × Option Content)) (p : Path) :
    verdict (c :: cs) p = (verdict cs p).or (if c.1 = p then some c.2 else none) := by
  rw [← verdict_singleton]
  exact verdict_append [c] cs p

theorem lookup_materialize (changes : List (Path × Option Content)) (engine : EngineFiles)
    (p : Path) :
    (changes.foldl materializeOne engine).lookup p = (verdict changes p).getD
    (engine.lookup p) := by
  induction changes generalizing engine with
  | nil => rfl
  | cons c changes ih =>
    rw [List.foldl_cons, ih, verdict_cons]
    cases verdict changes p with
    | some v => rfl
    | none =>
      obtain ⟨q, _ | content⟩ := c
      · rw [materializeOne, lookup_erase_ite]
        by_cases h : p = q <;> simp [h, eq_comm]
      · rw [materializeOne, lookup_insert_ite]
        by_cases h : p = q <;> simp [h, eq_comm]

def Op.changes : Op → List (Path × Option Content)
  | .applyTreeChanges cs => cs
  | _ => []

def Rest.toApply : Rest → List (Path × Option Content)
  | .changes cs => cs
  | _ => []

def Rest.isPass : Rest → Bool
  | .changes _ => false
  | _ => true

def Running.toApply : Running → List (Path × Option Content)
  | .apply _ rest => rest.toApply
  | _ => []

namespace State

def pendingChanges (s : State) : List (Path × Option Content) :=
  (s.running.map Running.toApply).getD [] ++ s.opQueue.flatMap Op.changes

def ChangeDue (s : State) (p : Path) : Prop := verdict s.pendingChanges p = some (s.engine.lookup p)

def PassDue (s : State) : Prop :=
  .applyRemoteState ∈ s.opQueue ∨ s.applyTimer = true ∨
    (s.applyPending = true ∧ s.applyInFlight = true)

/-- An event of the user that waits tells of what the editor has at the path. -/
def UserDue (s : State) (p : Path) : Prop :=
  ∃ e ∈ s.waiting,
    match s.editor.lookup p with
    | some f => e.writes f.1
    | none => e.erases s.shown p

def owned (s : State) (p : Path) : Nat := s.waiting.countP fun e => e.own = some p

/-- The host may change the path to what an apply wants there: the engine has that or more is
to come, and no event of the user waits at the path. -/
def Undisturbed (s : State) (p : Path) (want : Option Content) : Prop :=
  (s.engine.lookup p = want ∨ s.ChangeDue p ∨ s.PassDue) ∧ ∀ e ∈ s.waiting, ¬e.touches s.shown p

end State

/-- The admitted paths but for the sentinels of empty folders, which the editor does not have. -/
def Synced (filter : Path → Bool) (p : Path) : Prop := filter p ∧ ¬isKeepSentinel p

/-! ### The branches that go wrong -/

namespace State

/-- Without the operation that runs the path still comes to agree. -/
def Spared (filter : Path → Bool) (s : State) (p : Path) : Prop :=
  filter p → ¬isKeepSentinel p →
    s.engine.lookup p = s.textAt p ∨ s.UserDue p ∨
    ChangeDue { s with running := none } p ∨ s.PassDue

/-- The event that is handled next, in the state without it. An event of the bridge finds its
file where the bridge left it. One of the user finds no token, and the text that a rename takes
along is the editor's or is replaced by what waits. -/
def CleanEvent (filter : Path → Bool) (s : State) : Event → Prop
  | .file id _ (some own) => s.shown id = own
  | .file id (.renamed old) none =>
    s.suppressed (s.shown id) = 0 ∧
      (filter old → filter (s.shown id) → (s.engine.lookup old).isSome →
        (old ≠ s.shown id ∧ (s.engine.lookup old = s.textAt (s.shown id) ∨
          verdict s.pendingChanges (s.shown id) = some (s.engine.lookup old))) ∨
        (∃ e ∈ s.waiting, e.of id) ∨ s.PassDue)
  | .file id _ none => s.suppressed (s.shown id) = 0
  | _ => True

/-- A pass removes what the engine lacks only where its baseline has the path. -/
def CleanPass (filter : Path → Bool) (s : State) : Prop :=
  ∀ p ∈ s.editor.keys, s.engine.lookup p = none → p ∈ s.knownSdkPaths ∨ s.Spared filter p

def left (s : State) : Rest → List Path
  | .changes cs => cs.map Prod.fst
  | .files ps _ => ps ++ s.knownSdkPaths
  | .tombstones ps _ => ps

/-- An apply that is given up at a path leaves nothing behind that only it would have done. -/
def CleanThrow (filter : Path → Bool) (s : State) (path : Path) (rest : Rest) : Prop :=
  (rest.isPass → s.applyPending = false) ∧ ∀ p ∈ path :: s.left rest, s.Spared filter p

/-- No call for which a token was taken fails, and none meets an edit under way or is made for
a text that the engine has given up. -/
def CleanAnswer (filter : Path → Bool) (s : State) (rest : Rest) : Act → Reply → Prop
  | .read _ path _, .fails => s.CleanThrow filter path rest
  | .ensureFolder path _ _, .fails => s.CleanThrow filter path rest
  | _, .fails => False
  | .delete _ _, .notFound => False
  | .modify file path content, .done => s.shown file = path ∧ Undisturbed (s.await none rest) path
    (some content)
  | .create path content, .done => Undisturbed (s.await none rest) path (some content)
  | .create path _, .alreadyExists => (s.editor.lookup path).isSome
  | .create path _, .cold => rest.isPass ∧ (s.editor.lookup path).isSome
  | .delete file path, .done => s.shown file = path ∧ Undisturbed (s.await none rest) path none
  | .rmdir dir, .done => ∀ p ∈ s.editor.keys, ¬inFolder dir p
  | _, _ => True

/-- A handler that cannot read its file is not the only one to attend to the file's path. -/
def CleanResume (filter : Path → Bool) (s : State) : Running → Reply → Prop
  | .write file, .fails => s.read file = none ∨ s.Spared filter (s.shown file)
  | .moved file, .fails => s.read file = none ∨ s.Spared filter (s.shown file)
  | .apply none (.files (p :: ps) current), _ =>
    filter p → (s.engine.lookup p).isSome ∨ s.CleanThrow filter p (.files ps current)
  | .apply (some act) rest, reply => s.CleanAnswer filter rest act reply
  | _, _ => True

end State

def CleanStart (filter : Path → Bool) (s : State) : Op → Prop
  | .event e => s.CleanEvent filter e
  | .applyTreeChanges _ => True
  | .applyRemoteState => s.CleanPass filter

/-- The step takes none of the branches that go wrong. -/
def Clean (filter : Path → Bool) (s : State) : Action → Prop
  | .start =>
    match s.running, s.opQueue with
    | none, op :: rest => CleanStart filter { s with opQueue := rest } op
    | _, _ => True
  | .resume reply =>
    match s.running with
    | some r => s.CleanResume filter r reply
    | none => True
  | _ => True

section Decidable

instance : Decidable (s.ChangeDue p) := inferInstanceAs (Decidable (_ = _))

instance : Decidable s.PassDue := inferInstanceAs (Decidable (_ ∨ _ ∨ _))

instance : Decidable (s.UserDue p) := by
  unfold State.UserDue
  cases s.editor.lookup p <;> infer_instance

instance (want : Option Content) : Decidable (s.Undisturbed p want) :=
  inferInstanceAs (Decidable (_ ∧ _))

instance : Decidable (s.Spared filter p) := by
  unfold State.Spared
  infer_instance

instance (rest : Rest) : Decidable (s.CleanThrow filter p rest) :=
  inferInstanceAs (Decidable (_ ∧ _))

instance : Decidable (s.CleanEvent filter e) := by
  unfold State.CleanEvent
  split <;> infer_instance

instance : Decidable (s.CleanPass filter) :=
  decidable_of_iff (∀ p ∈ s.editor.keys, s.engine.lookup p = none → s.knownSdkPaths.contains p ∨
      s.Spared filter p)
    (by simp [State.CleanPass])

instance (rest : Rest) (act : Act) (reply : Reply) :
    Decidable (s.CleanAnswer filter rest act reply) := by
  unfold State.CleanAnswer
  split <;> infer_instance

instance (r : Running) (reply : Reply) : Decidable (s.CleanResume filter r reply) := by
  unfold State.CleanResume
  split <;> infer_instance

instance (op : Op) : Decidable (CleanStart filter s op) := by
  unfold CleanStart
  split <;> infer_instance

instance (a : Action) : Decidable (Clean filter s a) := by
  unfold Clean
  split
  · split <;> infer_instance
  · split <;> infer_instance
  · infer_instance

end Decidable

/-- The bridge after its start: nothing waits, and engine and editor agree. -/
structure Started (filter : Path → Bool) (s : State) : Prop where
  located : ∀ p id t, s.editor.lookup p = some (id, t) → s.shown id = p ∧ id < s.nextFile
  agree : ∀ p, Synced filter p → s.engine.lookup p = s.textAt p
  suppressed : ∀ p, s.suppressed p = 0
  opQueue : s.opQueue = []
  inflight : s.inflight = []
  running : s.running = none

def Drained (s : State) : Prop :=
  s.running = none ∧ s.opQueue = [] ∧ s.inflight = [] ∧ s.applyTimer = false ∧
    s.applyInFlight = false

instance : Decidable (Drained s) := inferInstanceAs (Decidable (_ ∧ _))

def run (filter : Path → Bool) : State → List Action → Option State
  | s, [] => some s
  | s, a :: as => (step filter s a).bind fun s => run filter s as

def cleanRun (filter : Path → Bool) : State → List Action → Option State
  | s, [] => some s
  | s, a :: as => if Clean filter s a then (step filter s a).bind fun s =>
    cleanRun filter s as else none

end Csp.Bridge
