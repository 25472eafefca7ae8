import Mathlib.Logic.Function.Basic
import Csp.Lib.Result

/-! Memoized computations. A table that holds results of a function may be consulted in its
place; it stays valid where the function gains results and keeps those it had. -/

namespace Memo
open Result
variable {ε σ κ ν α β : Type} {inv : σ → Prop} {r : Except ε α}

abbrev Table (κ ν : Type) := κ → Option ν

def Table.empty : Table κ ν := fun _ => none

def Table.store [DecidableEq κ] (m : Table κ ν) (k : κ) (v : ν) : Table κ ν :=
  Function.update m k (some v)

def Table.Agrees (m : Table κ ν) (f : κ → Except ε ν) : Prop := ∀ k v, m k = some v → f k = .ok v

theorem Table.agrees_empty (f : κ → Except ε ν) : (Table.empty : Table κ ν).Agrees f :=
  fun _ _ h => by cases h

theorem Table.Agrees.store [DecidableEq κ] {m : Table κ ν} {f : κ → Except ε ν} (h : m.Agrees f)
    {k : κ} {v : ν} (hv : f k = .ok v) : (m.store k v).Agrees f := by
  intro k' v' hk
  unfold Table.store at hk
  by_cases he : k' = k
  · subst he
    rw [Function.update_self, Option.some.injEq] at hk
    rw [hv, hk]
  · rw [Function.update_of_ne he] at hk
    exact h k' v' hk

theorem Table.Agrees.mono {m : Table κ ν} {f g : κ → Except ε ν} (h : m.Agrees f)
    (hfg : ∀ k v, f k = .ok v → g k = .ok v) : m.Agrees g := fun k v hk => hfg k v (h k v hk)

/-- From every state with the invariant the computation has the given result, and keeps the
invariant. -/
def Transparent (inv : σ → Prop) (x : StM ε σ α) (r : Except ε α) : Prop :=
  ∀ s, inv s → (x s).1 = r ∧ inv (x s).2

def lift (r : Except ε α) : StM ε σ α := fun s => (r, s)

theorem transparent_lift (r : Except ε α) : Transparent inv (lift r) r := fun _ h => ⟨rfl, h⟩

theorem transparent_pure (a : α) : Transparent inv (pure a : StM ε σ α) (pure a) :=
  fun _ h => ⟨rfl, h⟩

theorem Transparent.bind {x : StM ε σ α} {f : α → StM ε σ β} {g : α → Except ε β}
    (hx : Transparent inv x r) (hf : ∀ a, r = .ok a → Transparent inv (f a) (g a)) :
    Transparent inv (x >>= f) (r >>= g) := by
  intro s hs
  obtain ⟨hres, hinv⟩ := hx s hs
  rw [run_bind]
  rcases hrun : x s with ⟨e | a, s'⟩
  · rw [hrun] at hres hinv
    subst hres
    exact ⟨rfl, hinv⟩
  · rw [hrun] at hres hinv
    subst hres
    exact hf a rfl s' hinv

def mapResult (g : Except ε α → Except ε β) (x : StM ε σ α) : StM ε σ β :=
  fun s => (g (x s).1, (x s).2)

theorem Transparent.mapResult {x : StM ε σ α} (hx : Transparent inv x r)
    (g : Except ε α → Except ε β) :
    Transparent inv (mapResult g x) (g r) := by
  intro s hs
  obtain ⟨hres, hinv⟩ := hx s hs
  exact ⟨congrArg g hres, hinv⟩

/-- The result from the table if it is there; else it is computed, and stored unless that fails. -/
def memo (table : σ → Table κ ν) (store : κ → ν → σ → σ) (k : κ) (compute : StM ε σ ν) :
    StM ε σ ν := fun s =>
  match table s k with
  | some v => (.ok v, s)
  | none => match compute s with
    | (.ok v, s) => (.ok v, store k v s)
    | (.error e, s) => (.error e, s)

theorem Transparent.memo {table : σ → Table κ ν} {store : κ → ν → σ → σ} {k : κ}
    {compute : StM ε σ ν} {r : Except ε ν} (hhit : ∀ s, inv s → ∀ v, table s k = some v → r = .ok v)
    (hstore : ∀ s, inv s → ∀ v, r = .ok v → inv (store k v s)) (hx : Transparent inv compute r) :
    Transparent inv (memo table store k compute) r := by
  intro s hs
  unfold Memo.memo
  cases hk : table s k with
  | some v => exact ⟨(hhit s hs v hk).symm, hs⟩
  | none =>
    obtain ⟨hres, hinv⟩ := hx s hs
    dsimp only
    rcases hrun : compute s with ⟨e | v, s'⟩
    · rw [hrun] at hres hinv
      exact ⟨hres, hinv⟩
    · rw [hrun] at hres hinv
      exact ⟨hres, hstore s' hinv v hres.symm⟩

end Memo
