import Csp.Bridge
import Csp.Lib.Fifo

/-! What the events that wait say of the editor's files. A file that the user put in the place
of one that was removed or moved away has an event of its own behind that one, and a file that
the user removed has the removal behind its other events. -/

namespace Csp.Bridge
open Fifo

/-! ### Events of the user -/

def Event.of (id : FileId) : Event → Bool
  | .file f _ none => f = id
  | _ => false

/-- The user's event of the file, unless it is the file's removal. -/
def Event.writes (id : FileId) : Event → Bool
  | .file _ .deleted _ => false
  | e => e.of id

def Event.removes (id : FileId) : Event → Bool
  | .file f .deleted none => f = id
  | _ => false

def Event.erases (shown : FileId → Path) (p : Path) : Event → Bool
  | .file f .deleted none => shown f = p
  | .file _ (.renamed old) none => old = p
  | _ => false

def Event.touches (shown : FileId → Path) (p : Path) : Event → Bool
  | .file f (.renamed old) none => shown f = p || old = p
  | .file f _ none => shown f = p
  | _ => false


section Event
variable {e : Event} {id : FileId} {p : Path} {shown shown' : FileId → Path}

theorem Event.not_erases (h : ∀ id, ¬e.of id) : ¬e.erases shown p := by
  rcases e with ⟨f, k, _ | own⟩ | d | d
  · exact absurd (by simp [Event.of]) (h f)
  · cases k <;> simp [Event.erases]
  · simp [Event.erases]
  · simp [Event.erases]

theorem Event.writes_iff : e.writes id ↔ e.of id ∧ ¬e.removes id := by
  rcases e with ⟨f, _ | _ | old, _ | own⟩ | d | d <;> simp [Event.writes, Event.of, Event.removes]

theorem Event.removes_iff : e.removes id ↔ e = .file id .deleted none := by
  rcases e with ⟨f, _ | _ | old, _ | own⟩ | d | d <;> simp [Event.removes]

theorem Event.exists_kind (h : e.of id) : ∃ k, e = .file id k none := by
  rcases e with ⟨f, k, _ | own⟩ | d | d <;> simp [Event.of] at h
  exact ⟨k, by rw [h]⟩

theorem Event.erases_congr (h : ∀ id own, e = .file id .deleted own → shown' id = shown id) :
    e.erases shown' p = e.erases shown p := by
  rcases e with ⟨f, _ | _ | old, _ | own⟩ | d | d
  all_goals try rfl
  rw [Event.erases, Event.erases, h f none rfl]

theorem Event.touches_of_erases (h : e.erases shown p) : e.touches shown p := by
  rcases e with ⟨f, _ | _ | old, _ | own⟩ | d | d <;> simp_all [Event.erases, Event.touches]

theorem Event.touches_of_of (h : e.of id) : e.touches shown (shown id) := by
  obtain ⟨k, rfl⟩ := Event.exists_kind h
  cases k <;> simp [Event.touches]

end Event

/-! ### Files -/

section Files
variable {α : Type} {β : Type} [DecidableEq α] {m : AList fun _ : α => β} {a a' : α} {b : β}

theorem lookup_insert_ite : (m.insert a b).lookup a' = if a' = a then some b else m.lookup a' := by
  split_ifs with h
  · rw [h, AList.lookup_insert]
  · exact AList.lookup_insert_ne h

theorem lookup_erase_ite : (m.erase a).lookup a' = if a' = a then none else m.lookup a' := by
  split_ifs with h
  · rw [h, AList.lookup_erase]
  · exact AList.lookup_erase_ne h

end Files

def Dead (editor : EditorFiles) (id : FileId) : Prop := ∀ p t, editor.lookup p ≠ some (id, t)

structure Ledger (editor : EditorFiles) (shown : FileId → Path) (next : FileId)
    (w : List Event) : Prop where
  located : ∀ p id t, editor.lookup p = some (id, t) → shown id = p ∧ id < next
  early : ∀ id k own, .file id k own ∈ w → id < next
  gone : ∀ id own, .file id .deleted own ∈ w → Dead editor id
  erased : ∀ p id t, editor.lookup p = some (id, t) → Followed (fun e => e.erases shown p)
    (fun e => e.writes id) w
  buried : ∀ id, Dead editor id → Followed (fun e => e.writes id) (fun e => e.removes id) w

namespace Ledger
variable {editor : EditorFiles} {shown : FileId → Path} {next : FileId} {w : List Event}
    {p q : Path} {id : FileId}
  {t text : Content} {e : Event}

theorem tail (h : Ledger editor shown next (e :: w)) : Ledger editor shown next w where
  located := h.located
  early id k own he := h.early id k own (List.mem_cons_of_mem _ he)
  gone id own he := h.gone id own (List.mem_cons_of_mem _ he)
  erased p id t hp := (h.erased p id t hp).2
  buried id hd := (h.buried id hd).2

theorem lookup_eq_of_shown (h : Ledger editor shown next w) (hp : editor.lookup p = some (id, t)) :
    editor.lookup (shown id) = some (id, t) := by
  rwa [(h.located p id t hp).1]

theorem unique (h : Ledger editor shown next w) (hp : editor.lookup p = some (id, t))
    (hq : editor.lookup q = some (id, text)) : p = q :=
  (h.located p id t hp).1.symm.trans (h.located q id text hq).1

theorem not_deleted (h : Ledger editor shown next w) (hp : editor.lookup p = some (id, t))
    (own : Option Path) :
    .file id .deleted own ∉ w := fun he => h.gone id own he p t hp

theorem append (h : Ledger editor shown next w) {l : List Event}
    (hearly : ∀ id k own, .file id k own ∈ l → id < next)
    (hgone : ∀ id own, .file id .deleted own ∈ l → Dead editor id)
    (huser : ∀ e ∈ l, ∀ id, ¬e.of id) :
    Ledger editor shown next (w ++ l) where
  located := h.located
  early id k own he := (List.mem_append.mp he).elim (h.early id k own) (hearly id k own)
  gone id own he := (List.mem_append.mp he).elim (h.gone id own) (hgone id own)
  erased p id t hp := (h.erased p id t hp).append fun e he => Event.not_erases (huser e he)
  buried id hd := (h.buried id hd).append fun e he hw => huser e he id (Event.writes_iff.mp hw).1

theorem erases_update (hid : ∀ own, .file id .deleted own ∉ w) {r : Path} (he : e ∈ w) :
    e.erases (Function.update shown id q) r = e.erases shown r := by
  apply Event.erases_congr
  rintro f own rfl
  apply Function.update_of_ne
  rintro rfl
  exact hid own he

theorem create (h : Ledger editor shown next w) (hp : editor.lookup p = none) {own : Option Path}
    (hown : own = none ∨ ∀ e ∈ w, ¬e.touches shown p) :
    Ledger (editor.insert p (next, text)) (Function.update shown next p) (next + 1)
    (w ++ [.file next .wrote own]) := by
  have hnew : ∀ k own, .file next k own ∉ w := fun k own he => absurd (h.early next k own he)
      (lt_irrefl _)
  have hcongr : ∀ e ∈ w, ∀ r, e.erases (Function.update shown next p) r = e.erases shown r :=
    fun e he r => erases_update (fun own => hnew _ own) he
  have hwrote : ∀ r, ¬(Event.file next .wrote own).erases (Function.update shown next p) r := by
    cases own <;> simp [Event.erases]
  refine ⟨fun q id t hq => ?_, fun id k own he => ?_, fun id own he q t hq => ?_, fun q id t hq =>
    ?_, fun id hd => ?_⟩
  · rw [lookup_insert_ite] at hq
    split_ifs at hq with hqp
    · obtain ⟨rfl, -⟩ : next = id ∧ text = t := by simpa using hq
      exact ⟨by rw [Function.update_self, hqp], Nat.lt_succ_self _⟩
    · obtain ⟨hshown, hlt⟩ := h.located q id t hq
      exact ⟨by rw [Function.update_of_ne (ne_of_lt hlt), hshown], Nat.lt_succ_of_lt hlt⟩
  · rcases List.mem_append.mp he with he | he
    · exact Nat.lt_succ_of_lt (h.early id k own he)
    · obtain ⟨rfl, -⟩ : id = next ∧ _ := by simpa using he
      exact Nat.lt_succ_self _
  · have he : .file id .deleted own ∈ w := by simpa using he
    rw [lookup_insert_ite] at hq
    split_ifs at hq
    · obtain ⟨rfl, -⟩ : next = id ∧ text = t := by simpa using hq
      exact hnew _ _ he
    · exact h.gone id own he q t hq
  · rw [lookup_insert_ite] at hq
    split_ifs at hq with hqp
    · obtain ⟨rfl, -⟩ : next = id ∧ text = t := by simpa using hq
      rcases hown with rfl | hown
      · exact followed_concat (by simp [Event.writes, Event.of]) (hwrote q)
      · refine (followed_of_forall_not fun e he h' => ?_).append (by simpa using hwrote q)
        rw [hcongr e he, hqp] at h'
        exact hown e he (Event.touches_of_erases h')
    · exact ((h.erased q id t hq).mono (fun e he h' => (hcongr e he q).symm.trans h')
          fun _ _ h' => h').append
        (by simpa using hwrote q)
  · have hne : next ≠ id := fun hid => hd p text (by rw [AList.lookup_insert, hid])
    have hd' : Dead editor id := by
      intro q t hq
      refine hd q t ?_
      rw [lookup_insert_ite, if_neg (by rintro rfl; rw [hp] at hq; cases hq), hq]
    exact (h.buried id hd').append (by cases own <;> simp [Event.writes, Event.of, hne])

theorem modify (h : Ledger editor shown next w) (hp : editor.lookup p = some (id, t))
    (own : Option Path) :
    Ledger (editor.insert p (id, text)) shown next (w ++ [.file id .wrote own]) := by
  have hplace : ∀ q f u, (editor.insert p (id, text)).lookup q = some (f, u) → ∃ u',
      editor.lookup q = some (f, u') := by
    intro q f u hq
    rw [lookup_insert_ite] at hq
    split_ifs at hq with hqp
    · obtain ⟨rfl, -⟩ : id = f ∧ text = u := by simpa using hq
      exact ⟨t, hqp ▸ hp⟩
    · exact ⟨u, hq⟩
  have hdead : ∀ f, Dead (editor.insert p (id, text)) f → Dead editor f ∧ f ≠ id := by
    intro f hd
    have hne : f ≠ id := by
      rintro rfl
      exact hd p text (AList.lookup_insert _)
    refine ⟨fun q u hq => hd q u ?_, hne⟩
    rw [lookup_insert_ite, if_neg, hq]
    rintro rfl
    rw [hp, Option.some.injEq, Prod.mk.injEq] at hq
    exact hne hq.1.symm
  refine ⟨fun q f u hq => ?_, fun f k own he => ?_, fun f own he q u hq => ?_, fun q f u hq => ?_,
    fun f hd => ?_⟩
  · obtain ⟨u', hq⟩ := hplace q f u hq
    exact h.located q f u' hq
  · rcases List.mem_append.mp he with he | he
    · exact h.early f k own he
    · obtain ⟨rfl, -⟩ : f = id ∧ _ := by simpa using he
      exact (h.located p f t hp).2
  · obtain ⟨u', hq⟩ := hplace q f u hq
    exact h.gone f own (by simpa using he) q u' hq
  · obtain ⟨u', hq⟩ := hplace q f u hq
    exact (h.erased q f u' hq).append (by cases own <;> simp [Event.erases])
  · obtain ⟨hd, hne⟩ := hdead f hd
    exact (h.buried f hd).append (by cases own <;> simp [Event.writes, Event.of, Ne.symm hne])

theorem remove (h : Ledger editor shown next w) (hp : editor.lookup p = some (id, t))
    {own : Option Path} (hown : own = none ∨ ∀ e ∈ w, ¬e.touches shown p) :
    Ledger (editor.erase p) shown next (w ++ [.file id .deleted own]) := by
  have hplace : ∀ q f u, (editor.erase p).lookup q = some (f, u) → q ≠ p ∧ editor.lookup q = some
      (f, u) := by
    intro q f u hq
    rw [lookup_erase_ite] at hq
    split_ifs at hq with hqp
    exact ⟨hqp, hq⟩
  refine ⟨fun q f u hq => h.located q f u (hplace q f u hq).2, fun f k own he => ?_,
    fun f own he q u hq => ?_,
    fun q f u hq => ?_, fun f hd => ?_⟩
  · rcases List.mem_append.mp he with he | he
    · exact h.early f k own he
    · obtain ⟨rfl, -⟩ : f = id ∧ _ := by simpa using he
      exact (h.located p f t hp).2
  · obtain ⟨hqp, hq⟩ := hplace q f u hq
    rcases List.mem_append.mp he with he | he
    · exact h.gone f own he q u hq
    · obtain ⟨rfl, -⟩ : f = id ∧ _ := by simpa using he
      exact hqp (h.unique hq hp)
  · obtain ⟨hqp, hq⟩ := hplace q f u hq
    refine (h.erased q f u hq).append ?_
    cases own <;> simp [Event.erases, (h.located p id t hp).1, Ne.symm hqp]
  · by_cases hf : f = id
    · subst hf
      rcases hown with rfl | hown
      · exact followed_concat (by simp [Event.removes]) (by simp [Event.writes])
      · refine (followed_of_forall_not fun e he h' => hown e he ?_).append (by simp [Event.writes])
        rw [← (h.located p f t hp).1]
        exact Event.touches_of_of (Event.writes_iff.mp h').1
    · have hd' : Dead editor f := by
        intro q u hq
        refine hd q u ?_
        rw [lookup_erase_ite, if_neg, hq]
        rintro rfl
        rw [hp, Option.some.injEq, Prod.mk.injEq] at hq
        exact hf hq.1.symm
      exact (h.buried f hd').append (by simp [Event.writes])

theorem move (h : Ledger editor shown next w) (hp : editor.lookup p = some (id, t))
    (hq : editor.lookup q = none) :
    Ledger ((editor.erase p).insert q (id, t)) (Function.update shown id q) next
      (w ++ [.file id (.renamed p) none]) := by
  have hpq : p ≠ q := by
    rintro rfl
    rw [hp] at hq
    cases hq
  -- what lies at a path now is the moved file, or lay there before
  have hplace : ∀ r f u, ((editor.erase p).insert q (id, t)).lookup r = some (f, u) →
      (r = q ∧ f = id) ∨ (r ≠ q ∧ r ≠ p ∧ f ≠ id ∧ editor.lookup r = some (f, u)) := by
    intro r f u hr
    rw [lookup_insert_ite, lookup_erase_ite] at hr
    split_ifs at hr with hrq hrp
    · obtain ⟨rfl, -⟩ : id = f ∧ t = u := by simpa using hr
      exact .inl ⟨hrq, rfl⟩
    · refine .inr ⟨hrq, hrp, ?_, hr⟩
      rintro rfl
      exact hrp (h.unique hr hp)
  have hcongr : ∀ e ∈ w, ∀ r, e.erases (Function.update shown id q) r = e.erases shown r :=
    fun e he r => erases_update (h.not_deleted hp) he
  refine ⟨fun r f u hr => ?_, fun f k own he => ?_, fun f own he r u hr => ?_, fun r f u hr => ?_,
    fun f hd => ?_⟩
  · rcases hplace r f u hr with ⟨rfl, rfl⟩ | ⟨-, -, hf, hr⟩
    · exact ⟨Function.update_self .., (h.located p f t hp).2⟩
    · obtain ⟨hshown, hlt⟩ := h.located r f u hr
      exact ⟨by rw [Function.update_of_ne hf, hshown], hlt⟩
  · rcases List.mem_append.mp he with he | he
    · exact h.early f k own he
    · obtain ⟨rfl, -⟩ : f = id ∧ _ := by simpa using he
      exact (h.located p f t hp).2
  · have hold : .file f .deleted own ∈ w := by simpa using he
    rcases hplace r f u hr with ⟨-, rfl⟩ | ⟨-, -, -, hr⟩
    · exact h.not_deleted hp own hold
    · exact h.gone f own hold r u hr
  · rcases hplace r f u hr with ⟨rfl, rfl⟩ | ⟨-, hrp, -, hr⟩
    · exact followed_concat (by simp [Event.writes, Event.of]) (by simpa [Event.erases] using hpq)
    · refine ((h.erased r f u hr).mono (fun e he h' => (hcongr e he r).symm.trans h') fun _ _ h' =>
          h').append ?_
      simpa [Event.erases] using Ne.symm hrp
  · have hne : f ≠ id := by
      rintro rfl
      exact hd q t (AList.lookup_insert _)
    have hd' : Dead editor f := by
      intro r u hr
      refine hd r u ?_
      rw [lookup_insert_ite, lookup_erase_ite, if_neg, if_neg, hr]
      · rintro rfl
        rw [hp, Option.some.injEq, Prod.mk.injEq] at hr
        exact hne hr.1.symm
      · rintro rfl
        rw [hq] at hr
        cases hr
    exact (h.buried f hd').append (by simp [Event.writes, Event.of, Ne.symm hne])

end Ledger

end Csp.Bridge
