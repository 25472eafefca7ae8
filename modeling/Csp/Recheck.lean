import Csp.Stable
import Csp.Verification
import Csp.Vetting

/-! Verification in two stores of which one holds more. The verdict is the same, and so is what is
put, if both read the same below the commits of the batch. -/

namespace Csp
open Result
variable {Oid : Type} [ObjectId Oid] [Crates] {s t u w : Store Oid}

/-! ### Fuel -/

/-- A store in a run of verification: the commits are those that were there. -/
structure Rechecking (s w : Store Oid) : Prop where
  sound : w.Sound
  loads : ∀ p c, loadCommit w p = .ok c → loadCommit s p = .ok c

section Fuel
variable [LawfulObjectId Oid] [LawfulCrates]

theorem Rechecking.refold (h : Rechecking s w) {ps : List Oid} {o : Oid} {c : CommitObj Oid}
    {w' : Store Oid} (hc : loadCommit w o = .ok c) (hrun : Csp.refold ps w = (.ok o, w')) :
    Rechecking s w' := by
  obtain ⟨objs, d, hf, rfl, rfl⟩ := refold_ok hrun
  have henc := (written_foldObjects h.sound hf).encodable
  refine ⟨h.sound.putAll henc, fun p c' hp => ?_⟩
  rcases Store.getElem?_putAll (Store.get_eq_ok.mp (loadCommit_ok.mp hp)) with hold | ⟨x,
    hx, hxp, hr⟩
  · exact h.loads p c' (loadCommit_ok.mpr (Store.get_eq_ok.mpr hold))
  obtain ⟨y, hy, hcanon, -⟩ := Store.reread_eq w.backend (henc x hx)
  obtain rfl := Except.ok.inj (hy.symm.trans hr.symm)
  obtain rfl := commit_of_canon hcanon.symm
  rcases List.mem_append.mp hx with hx | hx
  · obtain ⟨-, ⟨tip, -, rfl, -⟩ | ⟨acc, tk, m, -, -, rfl, -⟩⟩ := foldObjects_commit hf
    · cases hx
    · exact absurd hx notMem_commit_buildTree
  · obtain rfl := GitObject.commit.inj (List.mem_singleton.mp hx)
    subst hxp
    have henc' : (GitObject.commit c').Encodable :=
        henc _ (List.mem_append_right _ List.mem_cons_self)
    obtain rfl := eq_of_oid h.sound henc' hc
    exact h.loads _ _ hc

omit [LawfulObjectId Oid] [LawfulCrates] in
theorem extends_verifyInner (n : Nat) (o : Oid) (seen : List Oid) (s : Store Oid) :
    s.Extends (verifyInner n o seen s).2 :=
  verifyInner_induction _ .refl (fun _ _ _ => .trans) extends_refold n o seen s

omit [LawfulObjectId Oid] [LawfulCrates] in
theorem extends_descent (n : Nat) (ps seen : List Oid) (s : Store Oid) :
    s.Extends (ps.foldlM (fun seen p => verifyInner n p seen) seen s).2 :=
  run_foldlM_induction Store.Extends .refl (fun _ _ _ => .trans)
    (fun seen p s => extends_verifyInner n p seen s)
    ps seen s

/-- Two computations that do the same in every store of the run, and stay in it. -/
def Refuels (s : Store Oid) (x y : StoreM Oid (List Oid)) : Prop :=
  ∀ w, Rechecking s w → x w = y w ∧ ∀ seen w', x w = (.ok seen, w') → Rechecking s w'

omit [Crates] [LawfulObjectId Oid] [LawfulCrates] in
theorem Refuels.foldlM {f g : List Oid → Oid → StoreM Oid (List Oid)} {ps : List Oid}
    (h : ∀ p ∈ ps, ∀ seen, Refuels s (f seen p) (g seen p)) (seen : List Oid) :
    Refuels s (ps.foldlM f seen) (ps.foldlM g seen) := by
  induction ps generalizing seen with
  | nil => exact fun w hw => ⟨rfl, fun seen' w' hr => (Prod.mk.inj hr).2 ▸ hw⟩
  | cons p ps ih =>
    intro w hw
    obtain ⟨heq, hkeep⟩ := h p List.mem_cons_self seen w hw
    rw [List.foldlM_cons, List.foldlM_cons, run_bind, run_bind, ← heq]
    rcases hv : f seen p w with ⟨e | seen₁, w₁⟩
    · exact ⟨rfl, fun _ _ hr => by cases hr⟩
    · exact ih (fun q hq => h q (List.mem_cons_of_mem _ hq)) seen₁ w₁ (hkeep seen₁ w₁ hv)

/-- Fuel for the commits that were there is as good as more. -/
theorem verifyInner_fuel {n m : Nat} {o : Oid} (hn : Depth.Within (descents s) n o)
    (hm : Depth.Within (descents s) m o) (seen : List Oid) :
    Refuels s (verifyInner n o seen) (verifyInner m o seen) := by
  induction n generalizing m o seen with
  | zero => exact hn.elim
  | succ n ih =>
    cases m with
    | zero => exact hm.elim
    | succ m =>
      intro w h
      have stays : ∀ r : CspResult (List Oid), ∀ seen' w', (r, w) = (.ok seen', w') →
          Rechecking s w' :=
        fun r seen' w' hr => (Prod.mk.inj hr).2 ▸ h
      rw [verifyInner_succ, verifyInner_succ]
      by_cases hseen : o ∈ seen
      · rw [if_pos hseen, if_pos hseen]
        exact ⟨rfl, stays _⟩
      rw [if_neg hseen, if_neg hseen]
      cases hc : loadCommit w o with
      | error e => exact ⟨rfl, stays _⟩
      | ok c =>
        simp only
        by_cases hp : isPrimitive c = true
        · rw [if_pos hp, if_pos hp]
          exact ⟨rfl, stays _⟩
        rw [if_neg hp, if_neg hp]
        by_cases hps : c.parents = []
        · rw [if_pos hps, if_pos hps]
          exact ⟨rfl, by split_ifs <;> exact stays _⟩
        rw [if_neg hps, if_neg hps]
        have hdescents : descents s o = c.parents := by rw [descents_of_load (h.loads o c hc), if_neg hp]
        obtain ⟨heq, hkeep⟩ := Refuels.foldlM
          (fun p hp seen => ih (hn p (hdescents ▸ hp)) (hm p (hdescents ▸ hp)) seen) (o :: seen) w h
        unfold verifyParents
        rw [run_bind, run_bind, ← heq]
        rcases hv : c.parents.foldlM (fun seen p => verifyInner n p seen)
          (o :: seen) w with ⟨e | seen₁, w₁⟩
        · exact ⟨rfl, fun _ _ hr => by cases hr⟩
        -- past the parents both refold; only a commit that comes out as itself goes on
        refine ⟨rfl, fun seen' w' hr => ?_⟩
        obtain ⟨o', w₂, hrefold, hr⟩ := run_bind_ok.mp hr
        by_cases ho : o' = o
        · subst ho
          obtain ⟨-, rfl⟩ := Prod.mk.inj ((congrFun (if_pos rfl) w₂).symm.trans hr)
          have hext := extends_descent n c.parents (o' :: seen) w
          rw [hv] at hext
          exact (hkeep seen₁ w₁ hv).refold (loadCommit_extends hext hc) hrefold
        · cases (congrFun (if_neg ho) w₂).symm.trans hr

end Fuel

/-! ### Both stores -/

section Both
variable [LawfulObjectId Oid] [LawfulCrates] {α β : Type}

omit [Crates] [LawfulObjectId Oid] [LawfulCrates] in
theorem Paired.bind {x : StoreM Oid α} {f : α → StoreM Oid β}
    (hgrow : ∀ a (w : Store Oid), w.Extends (f a w).2) (hu : ((x >>= f) s).2.Extends u)
    (hx : (x s).2.Extends u → Paired u s t (x s) (x t))
    (hf : ∀ a s' t', Richer u s' t' → (∀ o, Same s t o → Same s' t' o) → (f a s').2.Extends u →
      Paired u s' t' (f a s') (f a t')) : Paired u s t ((x >>= f) s) ((x >>= f) t) := by
  rw [run_bind] at hu
  rw [run_bind, run_bind]
  rcases hs : x s with ⟨r, s'⟩
  rcases ht : x t with ⟨r', t'⟩
  rw [hs] at hu
  rw [hs, ht] at hx
  cases r with
  | error e =>
    have hfirst := hx hu
    obtain rfl := hfirst.result
    exact ⟨rfl, hfirst.richer, hfirst.kept⟩
  | ok a =>
    have hfirst := hx ((hgrow a s').trans hu)
    obtain rfl := hfirst.result
    have hlater := hf a s' t' hfirst.richer hfirst.kept hu
    exact ⟨hlater.result, hlater.richer, fun o ho => hlater.kept o (hfirst.kept o ho)⟩

variable [AcyclicObjectId Oid]

theorem paired_verifyInner (n : Nat) {o : Oid} {seen : List Oid} (h : Richer u s t)
    (ho : Same s t o) (hu : (verifyInner n o seen s).2.Extends u) :
    Paired u s t (verifyInner n o seen s) (verifyInner n o seen t) := by
  induction n generalizing o seen s t with
  | zero => exact ⟨rfl, h, fun _ => id⟩
  | succ n ih =>
    -- the loop over the parents, by induction on them, from the claim for less fuel
    have hparents : ∀ (ps seen : List Oid) (s t : Store Oid), Richer u s t →
        (∀ p ∈ ps, Same s t p) →
        (ps.foldlM (fun seen p => verifyInner n p seen) seen s).2.Extends u →
          Paired u s t (ps.foldlM (fun seen p => verifyInner n p seen) seen s)
            (ps.foldlM (fun seen p => verifyInner n p seen) seen t) := by
      intro ps
      induction ps with
      | nil => exact fun seen s t h _ _ => ⟨rfl, h, fun _ => id⟩
      | cons p ps ihps =>
        intro seen s t h hps hu
        rw [List.foldlM_cons] at hu ⊢
        refine Paired.bind (fun seen w => extends_descent n ps seen w) hu
          (ih h (hps p List.mem_cons_self))
          fun seen' s' t' h' hkept hu' => ihps seen' s' t' h'
          (fun q hq => hkept q (hps q (List.mem_cons_of_mem _ hq))) hu'
    rw [verifyInner_succ] at hu ⊢
    rw [verifyInner_succ, ho.loadCommit]
    by_cases hseen : o ∈ seen
    · rw [if_pos hseen, if_pos hseen]
      exact ⟨rfl, h, fun _ => id⟩
    rw [if_neg hseen] at hu ⊢
    rw [if_neg hseen]
    cases hc : loadCommit s o with
    | error e => exact ⟨rfl, h, fun _ => id⟩
    | ok c =>
      rw [hc] at hu
      simp only at hu ⊢
      by_cases hp : isPrimitive c = true
      · rw [if_pos hp, if_pos hp]
        exact ⟨rfl, h, fun _ => id⟩
      rw [if_neg hp] at hu ⊢
      rw [if_neg hp]
      by_cases hps : c.parents = []
      · rw [if_pos hps, if_pos hps]
        split_ifs
        · exact ⟨rfl, h, fun _ => id⟩
        · exact ⟨rfl, h, fun _ => id⟩
      rw [if_neg hps] at hu ⊢
      rw [if_neg hps]
      have hsame : ∀ p ∈ c.parents, Same s t p := fun p hp => ho.parent hc hp
      -- the comparison with the recomputed id puts nothing
      have hcheck : ∀ (seen : List Oid) (o' : Oid) (w : Store Oid), w.Extends
          ((if o' = o then pure seen else throw (.foldVerify
            ("fold commit ".toList ++ toHex o ++ " does not reproduce".toList)) :
            StoreM Oid (List Oid)) w).2 := by
        intro seen o' w
        split_ifs <;> exact .refl w
      refine Paired.bind (fun seen' w => ?_) hu (hparents c.parents (o :: seen) s t h hsame)
        fun seen' s' t' h' hkept hu' => ?_
      · exact run_bind_induction Store.Extends (fun _ _ _ => .trans) (extends_refold c.parents w)
          fun o' w' _ => hcheck seen' o' w'
      refine Paired.bind (hcheck seen') hu' (fun hu'' =>
          (paired_refold h' c.parents (fun p hp => hkept p (hsame p hp)) hu'').toPaired)
        fun o' s'' t'' h'' _ _ => ?_
      split_ifs
      · exact ⟨rfl, h'', fun _ => id⟩
      · exact ⟨rfl, h'', fun _ => id⟩

omit [LawfulCrates] [LawfulObjectId Oid] in
theorem Store.Sound.within_descents (hs : s.Sound) (o : Oid) :
    Depth.Within (descents s) (s.size + 1) o :=
  (hs.within o).congr fun a _ b hb => by
    rw [descents] at hb
    split at hb
    · rename_i c hc
      rw [s.refsOf_of_get (loadCommit_ok.mp hc)]
      split_ifs at hb
      · cases hb
      · exact List.mem_cons_of_mem _ hb
    · cases hb

theorem verifyFoldCommit_eq (hs : s.Sound) (o : Oid) {n : Nat} (hn : s.size + 1 ≤ n) :
    verifyFoldCommit o s = (do
      let _ ← verifyInner n o []
      pure () : StoreM Oid Unit) s := by
  have hfuel := verifyInner_fuel (hs.within_descents o) ((hs.within_descents o).mono hn) [] s
    ⟨hs, fun _ _ => id⟩
  have hrun : verifyFoldCommit o s = (do
      let _ ← verifyInner (s.size + 1) o []
      pure () : StoreM Oid Unit) s := rfl
  rw [hrun, run_bind, run_bind, hfuel.1]

theorem paired_verifyFoldCommit (h : Richer u s t) {o : Oid} (ho : Same s t o)
    (hu : (verifyFoldCommit o s).2.Extends u) : Paired u s t (verifyFoldCommit o s)
    (verifyFoldCommit o t) := by
  rw [verifyFoldCommit_eq (n := s.size + t.size + 1) h.left o (by omega)] at hu ⊢
  rw [verifyFoldCommit_eq (n := s.size + t.size + 1) h.right o (by omega)]
  exact Paired.bind (fun _ w => .refl w) hu (paired_verifyInner _ h ho) fun _ s' t' h' _ _ =>
    ⟨rfl, h', fun _ => id⟩

/-- The batch gets one verdict, if both stores read the same below its synthetic commits. -/
theorem paired_verifyBatch (h : Richer u s t) {raws : List Bytes}
    (hsame : ∀ r ∈ raws, ∀ o, syntheticOf r = some o → Same s t o)
    (hu : (verifyBatch raws s).2.Extends u) :
    Paired u s t (verifyBatch raws s) (verifyBatch raws t) := by
  induction raws generalizing s t with
  | nil => exact ⟨rfl, h, fun _ => id⟩
  | cons r rs ih =>
    have hrest := fun q hq => hsame q (List.mem_cons_of_mem r hq)
    rw [verifyBatch_cons] at hu ⊢
    rw [verifyBatch_cons]
    cases hr : (syntheticOf r : Option Oid) with
    | none =>
      rw [hr] at hu
      exact ih h hrest hu
    | some o =>
      rw [hr] at hu
      simp only at hu ⊢
      have hone := paired_verifyFoldCommit h (hsame r List.mem_cons_self o hr)
      rcases hs : verifyFoldCommit o s with ⟨e | _, s'⟩
      · rw [hs] at hu hone
        have hfirst := hone hu
        rcases ht : verifyFoldCommit o t with ⟨r', t'⟩
        rw [ht] at hfirst
        obtain rfl := hfirst.result
        exact ⟨rfl, hfirst.richer, hfirst.kept⟩
      · rw [hs] at hu hone
        have hfirst := hone ((extends_verifyBatch rs s').trans hu)
        rcases ht : verifyFoldCommit o t with ⟨r', t'⟩
        rw [ht] at hfirst
        obtain rfl := hfirst.result
        have hlater := ih hfirst.richer (fun q hq o ho => hfirst.kept o (hrest q hq o ho)) hu
        exact ⟨hlater.result, hlater.richer, fun o ho => hlater.kept o (hfirst.kept o ho)⟩

end Both

end Csp
