import Mathlib.Data.List.Forall2
import Mathlib.Tactic.Common

/-! Inversion and congruence for `Except` computations and for computations that carry a
state through errors. -/

namespace Result
variable {ε α β : Type}

theorem bind_ok {x : Except ε α} {f : α → Except ε β} {b : β} :
    (x >>= f) = .ok b ↔ ∃ a, x = .ok a ∧ f a = .ok b := by
  cases x with
  | error e => simp [bind, Except.bind]
  | ok a => simp [bind, Except.bind]

@[simp] theorem pure_ok {a b : α} : (pure a : Except ε α) = .ok b ↔ a = b := by
  simp [pure, Except.pure]

@[simp] theorem ok_bind (a : α) (f : α → Except ε β) : ((.ok a : Except ε α) >>= f) = f a := rfl

@[simp] theorem error_bind (e : ε) (f : α → Except ε β) :
    ((.error e : Except ε α) >>= f) = .error e := rfl

theorem bind_error {x : Except ε α} {f : α → Except ε β} {e : ε} :
    (x >>= f) = .error e ↔ x = .error e ∨ ∃ a, x = .ok a ∧ f a = .error e := by
  cases x with
  | error e' => simp [bind, Except.bind]
  | ok a => simp [bind, Except.bind]

theorem bind_congr_ok {x : Except ε α} {f g : α → Except ε β} (h : ∀ a, x = .ok a → f a = g a) :
    (x >>= f) = (x >>= g) := by
  cases x with
  | error e => rfl
  | ok a => exact h a rfl

theorem mapM_congr {f g : α → Except ε β} {l : List α} (h : ∀ a ∈ l, f a = g a) :
    l.mapM f = l.mapM g := by
  induction l with
  | nil => rfl
  | cons a l ih =>
    rw [List.mapM_cons, List.mapM_cons, h a List.mem_cons_self, ih fun b hb =>
      h b (List.mem_cons_of_mem _ hb)]

theorem foldlM_congr {f g : β → α → Except ε β} {l : List α}
    (h : ∀ b, ∀ a ∈ l, f b a = g b a) (b : β) :
    l.foldlM f b = l.foldlM g b := by
  induction l generalizing b with
  | nil => rfl
  | cons a l ih =>
    rw [List.foldlM_cons, List.foldlM_cons, h b a List.mem_cons_self]
    exact bind_congr_ok fun b' _ => ih (fun b a ha => h b a (List.mem_cons_of_mem _ ha)) b'

theorem mapM_ok_iff {f : α → Except ε β} {l : List α} {r : List β} :
    l.mapM f = .ok r ↔ List.Forall₂ (fun a b => f a = .ok b) l r := by
  induction l generalizing r with
  | nil =>
    rw [List.mapM_nil, pure_ok, List.forall₂_nil_left_iff, eq_comm]
  | cons a l ih =>
    rw [List.mapM_cons, bind_ok]
    constructor
    · rintro ⟨b, hb, h⟩
      obtain ⟨bs, hbs, h⟩ := bind_ok.mp h
      obtain rfl := pure_ok.mp h
      exact .cons hb (ih.mp hbs)
    · rintro (_ | ⟨hb, hbs⟩)
      exact ⟨_, hb, bind_ok.mpr ⟨_, ih.mpr hbs, rfl⟩⟩

theorem mapM_ok_mem {f : α → Except ε β} {l : List α} {r : List β} (h : l.mapM f = .ok r) {a : α}
    (ha : a ∈ l) : ∃ b ∈ r, f a = .ok b := by
  rw [mapM_ok_iff] at h
  induction h with
  | nil => cases ha
  | cons hb _ ih =>
    rcases List.mem_cons.mp ha with rfl | ha
    · exact ⟨_, List.mem_cons_self, hb⟩
    · obtain ⟨b, hbm, hb⟩ := ih ha
      exact ⟨b, List.mem_cons_of_mem _ hbm, hb⟩

theorem mapM_ok_mem_right {f : α → Except ε β} {l : List α} {r : List β} (h : l.mapM f = .ok r)
    {b : β} (hb : b ∈ r) : ∃ a ∈ l, f a = .ok b := by
  rw [mapM_ok_iff] at h
  induction h with
  | nil => cases hb
  | cons ha _ ih =>
    rcases List.mem_cons.mp hb with rfl | hb
    · exact ⟨_, List.mem_cons_self, ha⟩
    · obtain ⟨a, ham, ha⟩ := ih hb
      exact ⟨a, List.mem_cons_of_mem _ ham, ha⟩

theorem mapM_eq_ok_map {f : α → Except ε β} {g : α → β} {l : List α}
    (h : ∀ a ∈ l, f a = .ok (g a)) : l.mapM f = .ok (l.map g) := by
  rw [mapM_ok_iff, List.forall₂_map_right_iff, List.forall₂_same]
  exact h

theorem mapM_ok_of_forall {f : α → Except ε β} {l : List α} (h : ∀ a ∈ l, ∃ b, f a = .ok b) :
    ∃ r, l.mapM f = .ok r := by
  induction l with
  | nil => exact ⟨[], rfl⟩
  | cons a l ih =>
    obtain ⟨b, hb⟩ := h a List.mem_cons_self
    obtain ⟨r, hr⟩ := ih fun a ha => h a (List.mem_cons_of_mem _ ha)
    exact ⟨b :: r, mapM_ok_iff.mpr (.cons hb (mapM_ok_iff.mp hr))⟩

theorem foldlM_ok_cons {f : β → α → Except ε β} {a : α} {l : List α} {b r : β} :
    (a :: l).foldlM f b = .ok r ↔ ∃ b', f b a = .ok b' ∧ l.foldlM f b' = .ok r := by
  rw [List.foldlM_cons, bind_ok]

theorem foldlM_ok_induction {f : β → α → Except ε β} (P : β → Prop) {l : List α} {b r : β}
    (h : l.foldlM f b = .ok r) (hb : P b)
    (hstep : ∀ b a b', a ∈ l → P b → f b a = .ok b' → P b') : P r := by
  induction l generalizing b with
  | nil =>
    obtain rfl := pure_ok.mp h
    exact hb
  | cons a l ih =>
    obtain ⟨b', hb', h⟩ := foldlM_ok_cons.mp h
    exact ih h (hstep b a b' List.mem_cons_self hb hb')
      fun b a b' ha => hstep b a b' (List.mem_cons_of_mem _ ha)

/-- Two folds agree if the second does whatever the first does, element by element. -/
theorem foldlM_ok_transfer {f g : β → α → Except ε β} {l : List α} {b r : β}
    (h : l.foldlM f b = .ok r) (hfg : ∀ a ∈ l, ∀ b b', f b a = .ok b' → g b a = .ok b') :
    l.foldlM g b = .ok r := by
  induction l generalizing b with
  | nil => exact h
  | cons a l ih =>
    obtain ⟨b', hb', h⟩ := foldlM_ok_cons.mp h
    exact foldlM_ok_cons.mpr ⟨b', hfg a List.mem_cons_self b b' hb',
      ih h fun a ha => hfg a (List.mem_cons_of_mem _ ha)⟩

theorem mapM_ok_transfer {f g : α → Except ε β} {l : List α} {r : List β}
    (h : l.mapM f = .ok r) (hfg : ∀ a ∈ l, ∀ b, f a = .ok b → g a = .ok b) :
    l.mapM g = .ok r := by
  rw [mapM_ok_iff] at h ⊢
  induction h with
  | nil => exact .nil
  | @cons a b l r hab _ ih =>
    exact .cons (hfg a List.mem_cons_self b hab) (ih fun a ha => hfg a (List.mem_cons_of_mem _ ha))

/-! ### Computations with a state -/

/-- A computation that may fail; what it did to the state before an error stays done. -/
def StM (ε σ α : Type) : Type := σ → Except ε α × σ

section StM
variable {ε σ α β : Type}

instance : Monad (StM ε σ) where
  pure a s := (.ok a, s)
  bind x f s := match x s with
    | (.ok a, s') => f a s'
    | (.error e, s') => (.error e, s')

instance : MonadExceptOf ε (StM ε σ) where
  throw e s := (.error e, s)
  tryCatch x h s := match x s with
    | (.ok a, s') => (.ok a, s')
    | (.error e, s') => h e s'

instance : MonadStateOf σ (StM ε σ) where
  get s := (.ok s, s)
  set s' _ := (.ok ⟨⟩, s')
  modifyGet f s := let (a, s') := f s; (.ok a, s')

instance : LawfulMonad (StM ε σ) := by
  refine LawfulMonad.mk' (StM ε σ) (fun x => ?_) (fun _ _ => rfl) fun x f g => ?_
  · funext s
    change (match x s with | (.ok a, s') => (.ok a, s') | (.error e, s') => (.error e, s')) = x s
    rcases x s with ⟨_ | _, _⟩ <;> rfl
  · funext s
    change (match (match x s with | (.ok a, s') => f a s' | (.error e, s') => (.error e, s')) with
      | (.ok b, s') => g b s' | (.error e, s') => (.error e, s')) = _
    rcases hx : x s with ⟨_ | _, _⟩ <;> simp [bind, hx]

@[simp] theorem run_pure (a : α) (s : σ) : (pure a : StM ε σ α) s = (.ok a, s) := rfl
@[simp] theorem run_throw (e : ε) (s : σ) : (throw e : StM ε σ α) s = (.error e, s) := rfl
@[simp] theorem run_get (s : σ) : (get : StM ε σ σ) s = (.ok s, s) := rfl
@[simp] theorem run_set (s' s : σ) : (set s' : StM ε σ PUnit) s = (.ok ⟨⟩, s') := rfl
@[simp] theorem run_modify (f : σ → σ) (s : σ) :
    (modify f : StM ε σ PUnit) s = (.ok ⟨⟩, f s) := rfl

theorem run_bind (x : StM ε σ α) (f : α → StM ε σ β) (s : σ) :
    (x >>= f) s = match x s with
      | (.ok a, s') => f a s'
      | (.error e, s') => (.error e, s') := rfl

theorem run_bind_ok {x : StM ε σ α} {f : α → StM ε σ β} {s s' : σ} {b : β} :
    (x >>= f) s = (.ok b, s') ↔ ∃ a t, x s = (.ok a, t) ∧ f a t = (.ok b, s') := by
  rw [run_bind]
  rcases x s with ⟨_ | a, t⟩
  · simp
  · simp [and_assoc]

theorem run_bind_of_ok {x : StM ε σ α} {f : α → StM ε σ β} {s t : σ} {a : α}
    (h : x s = (.ok a, t)) : (x >>= f) s = f a t := by
  rw [run_bind, h]

theorem run_bind_of_error {x : StM ε σ α} {f : α → StM ε σ β} {s t : σ} {e : ε}
    (h : x s = (.error e, t)) : (x >>= f) s = (.error e, t) := by
  rw [run_bind, h]

theorem run_bind_induction {x : StM ε σ α} {f : α → StM ε σ β} (P : σ → σ → Prop)
    (htrans : ∀ s t u, P s t → P t u → P s u) {s : σ} (hx : P s (x s).2)
    (hf : ∀ a t, x s = (.ok a, t) → P t (f a t).2) : P s ((x >>= f) s).2 := by
  rw [run_bind]
  rcases hr : x s with ⟨_ | a, t⟩
  · rw [hr] at hx
    exact hx
  · rw [hr] at hx
    exact htrans _ _ _ hx (hf a t hr)

theorem run_foldlM_induction {f : β → α → StM ε σ β} (P : σ → σ → Prop)
    (hrefl : ∀ s, P s s) (htrans : ∀ s t u, P s t → P t u → P s u)
    (hf : ∀ b a s, P s (f b a s).2) (l : List α) (b : β) (s : σ) :
    P s (l.foldlM f b s).2 := by
  induction l generalizing b s with
  | nil => exact hrefl s
  | cons a l ih =>
    rw [List.foldlM_cons]
    exact run_bind_induction P htrans (hf b a s) fun b' t _ => ih b' t

theorem run_forM_nil (f : α → StM ε σ PUnit) (s : σ) : ([] : List α).forM f s = (.ok ⟨⟩, s) := rfl

theorem run_forM_cons (f : α → StM ε σ PUnit) (a : α) (l : List α) (s : σ) :
    (a :: l).forM f s = match f a s with
      | (.ok _, s') => l.forM f s'
      | (.error e, s') => (.error e, s') := by
  have h : (a :: l).forM f = (f a >>= fun _ => l.forM f) := rfl
  rw [h, run_bind]
  rcases f a s with ⟨_ | _, t⟩
  · rfl
  · rfl

theorem run_forM_induction {f : α → StM ε σ PUnit} (P : σ → σ → Prop) (hrefl : ∀ s, P s s)
    (htrans : ∀ s t u, P s t → P t u → P s u) (hf : ∀ a s, P s (f a s).2) (l : List α) (s : σ) :
    P s (l.forM f s).2 := by
  induction l generalizing s with
  | nil => exact hrefl s
  | cons a l ih =>
    have ha := hf a s
    rw [run_forM_cons]
    rcases h : f a s with ⟨_ | _, t⟩
    · rw [h] at ha
      exact ha
    · rw [h] at ha
      exact htrans _ _ _ ha (ih t)

/-! ### Two runs -/

/-- Two runs with one result that end in states of the relation. -/
structure Matched (R : σ → σ → Prop) (x y : Except ε α × σ) : Prop where
  result : y.1 = x.1
  states : R x.2 y.2

theorem Matched.bind {R : σ → σ → Prop} {x y : StM ε σ α} {f g : α → StM ε σ β} {s t : σ}
    (h : Matched R (x s) (y t)) (hf : ∀ a s' t', x s = (.ok a, s') → y t = (.ok a, t') → R s' t' →
      Matched R (f a s') (g a t')) :
    Matched R ((x >>= f) s) ((y >>= g) t) := by
  rw [run_bind, run_bind]
  rcases hx : x s with ⟨r, s'⟩
  rcases hy : y t with ⟨r', t'⟩
  rw [hx, hy] at h
  obtain rfl := h.result
  cases r' with
  | error e => exact ⟨rfl, h.states⟩
  | ok a => exact hf a s' t' hx hy h.states

end StM

end Result
