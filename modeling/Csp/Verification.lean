import Csp.Readings

/-! Fold verification is complete and sound. What the fold creates reproduces wherever its
closure is held, and a synthetic commit that passes is the one its parents fold to. -/

namespace Csp
open Result
variable {Oid : Type} [ObjectId Oid] {s s' t u : Store Oid}

/-! ### Commits that reproduce -/

section Reproduce
variable [Crates]

/-- A primitive, genesis, or the fold of parents that reproduce. -/
inductive Reproduces (s : Store Oid) : Oid → Prop
  | primitive {o : Oid} {c : CommitObj Oid} (hc : loadCommit s o = .ok c)
    (hp : isPrimitive c = true) :
      Reproduces s o
  | genesis {o : Oid} (hc : loadCommit s o = .ok genesisCommit)
      (ho : (GitObject.commit (genesisCommit : CommitObj Oid)).oid = o) : Reproduces s o
  | fold {o : Oid} {c : CommitObj Oid} {objs : List (GitObject Oid)} (hc : loadCommit s o = .ok c)
      (hp : isPrimitive c = false) (ho : (GitObject.commit c).oid = o)
      (hf : foldObjects s c.parents = .ok (objs, c)) (hparents : ∀ p ∈ c.parents, Reproduces s p) :
      Reproduces s o

theorem Reproduces.load {o : Oid} (h : Reproduces s o) : ∃ c, loadCommit s o = .ok c := by
  cases h with
  | primitive hc => exact ⟨_, hc⟩
  | genesis hc => exact ⟨_, hc⟩
  | fold hc => exact ⟨_, hc⟩

def descents (s : Store Oid) (o : Oid) : List Oid :=
  match loadCommit s o with
  | .ok c => if isPrimitive c then [] else c.parents
  | .error _ => []

theorem descents_of_load {o : Oid} {c : CommitObj Oid} (hc : loadCommit s o = .ok c) :
    descents s o = if isPrimitive c then [] else c.parents := by
  rw [descents, hc]

theorem Reproduces.descent {o p : Oid} (h : Reproduces s o) (hp : p ∈ descents s o) :
    Reproduces s p := by
  cases h with
  | primitive hc hprim =>
    rw [descents_of_load hc, if_pos hprim] at hp
    cases hp
  | genesis hc =>
    rw [descents_of_load hc, isPrimitive_genesis] at hp
    cases hp
  | fold hc hprim _ _ hparents =>
    rw [descents_of_load hc, hprim] at hp
    exact hparents p hp

theorem Reproduces.within {o : Oid} (h : Reproduces s o) :
    Depth.Within (descents s) (s.size + 1) o := by
  have hfin : ∃ n, Depth.Within (descents s) n o := by
    induction h with
    | primitive hc hprim =>
      refine ⟨1, fun p hp => ?_⟩
      rw [descents_of_load hc, if_pos hprim] at hp
      cases hp
    | genesis hc =>
      refine ⟨1, fun p hp => ?_⟩
      rw [descents_of_load hc, isPrimitive_genesis] at hp
      cases hp
    | @fold o c objs hc hprim _ _ _ ih =>
      obtain ⟨n, hn⟩ := exists_within ih
      refine ⟨n + 1, fun p hp => ?_⟩
      rw [descents_of_load hc, hprim] at hp
      exact hn p hp
  obtain ⟨n, hn⟩ := hfin
  have hcard : s.objs.keys.toFinset.card = s.size := by
    rw [List.toFinset_card_of_nodup s.nodup_keys, Std.ExtTreeMap.length_keys, Store.size]
  have hreach : ∀ p, Relation.ReflTransGen (fun a b => b ∈ descents s a) o p →
      p ∈ s.objs.keys.toFinset := by
    intro p hp
    have hrep : Reproduces s p := by
      induction hp with
      | refl => exact h
      | tail _ hbc ih => exact ih.descent hbc
    obtain ⟨c, hc⟩ := hrep.load
    exact List.mem_toFinset.mpr (s.mem_keys_of_get (loadCommit_ok.mp hc))
  have hw := hn.card s.objs.keys.toFinset hreach
  rw [hcard] at hw
  exact hw.mono (Nat.le_succ _)

variable [LawfulObjectId Oid] [LawfulCrates]

/-- A store in which a run of verification may be. -/
structure Verifying (s t : Store Oid) : Prop where
  ext : s.Extends t
  sound : t.Sound

theorem Verifying.refold (h : Verifying s t) {ps : List Oid} {objs : List (GitObject Oid)}
    {c : CommitObj Oid} (hf : foldObjects s ps = .ok (objs, c)) :
    ∃ t', refold ps t = (.ok (GitObject.commit c).oid, t') ∧ Verifying s t' := by
  have hf' := foldObjects_extends h.ext hf
  refine ⟨t.putAll (objs ++ [.commit c]), by rw [refold_run, hf'], h.ext.trans (t.extends_putAll _), ?_⟩
  exact h.sound.putAll (written_foldObjects h.sound hf').encodable

theorem verifyInner_of_reproduces (n : Nat) {o : Oid} (h : Reproduces s o)
    (hw : Depth.Within (descents s) n o) (seen : List Oid) (ht : Verifying s t) :
    ∃ seen' t', verifyInner n o seen t = (.ok seen', t') ∧ Verifying s t' := by
  induction n generalizing o seen t with
  | zero => exact hw.elim
  | succ n ih =>
    rw [verifyInner_succ]
    by_cases hseen : o ∈ seen
    · exact ⟨seen, t, if_pos hseen, ht⟩
    rw [if_neg hseen]
    cases h with
    | primitive hc hprim =>
      rw [loadCommit_extends ht.ext hc]
      exact ⟨_, t, if_pos hprim, ht⟩
    | genesis hc ho =>
      rw [loadCommit_extends ht.ext hc]
      refine ⟨o :: seen, t, ?_, ht⟩
      simp only [isPrimitive_genesis, Bool.false_eq_true, if_false]
      exact (if_pos rfl).trans (if_pos ho)
    | @fold _ c objs hc hprim ho hf hparents =>
      rw [loadCommit_extends ht.ext hc]
      have hne : c.parents ≠ [] := by
        obtain ⟨-, ⟨tip, hps, -⟩ | ⟨acc, tk, m, hps, -⟩⟩ := foldObjects_commit hf
        · rw [hps]
          exact List.cons_ne_nil _ _
        · rw [hps]
          exact List.cons_ne_nil _ _
      -- the descent into the parents keeps the run inside sound extensions
      have hdesc : ∀ (ps : List Oid) (seen : List Oid) (t : Store Oid), (∀ p ∈ ps, p ∈ c.parents) →
          Verifying s t → ∃ seen' t', ps.foldlM (fun seen p => verifyInner n p seen) seen t =
          (.ok seen', t') ∧
            Verifying s t' := by
        intro ps
        induction ps with
        | nil => exact fun seen t _ ht => ⟨seen, t, rfl, ht⟩
        | cons p ps ihps =>
          intro seen t hmem ht
          have hp : p ∈ c.parents := hmem p List.mem_cons_self
          have hwp : Depth.Within (descents s) n p := hw p (by rwa [descents_of_load hc, hprim])
          obtain ⟨seen₁, t₁, h₁, ht₁⟩ := ih (hparents p hp) hwp seen ht
          obtain ⟨seen₂, t₂, h₂, ht₂⟩ :=
            ihps seen₁ t₁ (fun q hq => hmem q (List.mem_cons_of_mem _ hq)) ht₁
          exact ⟨seen₂, t₂, (run_bind_of_ok h₁).trans h₂, ht₂⟩
      obtain ⟨seen₁, t₁, h₁, ht₁⟩ := hdesc c.parents (o :: seen) t (fun _ => id) ht
      obtain ⟨t₂, h₂, ht₂⟩ := ht₁.refold hf
      refine ⟨seen₁, t₂, ?_, ht₂⟩
      simp only [hprim, Bool.false_eq_true, if_false]
      refine (if_neg hne).trans ((run_bind_of_ok h₁).trans ((run_bind_of_ok h₂).trans ?_))
      exact congrFun (if_pos ho) t₂

theorem verifyFoldCommit_of_reproduces (hs : s.Sound) {o : Oid} (h : Reproduces s o) :
    ∃ t, verifyFoldCommit o s = (.ok (), t) ∧ Verifying s t := by
  obtain ⟨seen, t, hv, ht⟩ := verifyInner_of_reproduces (s.size + 1) h h.within [] ⟨.refl s, hs⟩
  exact ⟨t, run_bind_of_ok (show StoreM.read (fun s => .ok s.size) s = (.ok s.size, s) from rfl)
    |>.trans (run_bind_of_ok hv), ht⟩

/-! ### What the fold creates reproduces -/

omit [LawfulCrates] in
theorem reproduces_primitive (hs : s.Sound) (hs' : s'.Sound) {p : Oid}
    (hprim : isPrimitiveOid s p = true) (hin : CommitIn s' p) : Reproduces s' p := by
  obtain ⟨c', hc', -⟩ := hin.load
  cases hc : loadCommit s p with
  | error e => simp [isPrimitiveOid, hc] at hprim
  | ok c =>
    rw [isPrimitiveOid, hc] at hprim
    exact .primitive hc' (load_eq_of_sound hs hs' hc hc' ▸ hprim)

section Fold
variable {w : Store Oid} {rest : List Oid} {first o : Oid} {files : FileMap}

theorem commitIn_tips (hs : s.Sound) (hs' : s'.Sound)
    (h : rest.foldlM foldStep first s = (.ok o, t)) (hin : CommitIn s' o) : ∀ p ∈ first :: rest,
    CommitIn s' p := by
  induction rest using List.reverseRecOn generalizing o t with
  | nil =>
    obtain ⟨rfl, -⟩ : first = o ∧ s = t := by simpa using h
    exact List.forall_mem_singleton.mpr hin
  | append_singleton rest tk ih =>
    obtain ⟨a, u, objs, c, hrest, hf, rfl, rfl⟩ := foldlM_concat.mp h
    obtain ⟨-, -, hparents⟩ := held_of_foldObjects (hs.foldlM hrest).1 hs' hf hin
    intro p hp
    rcases List.mem_append.mp (show p ∈ (first :: rest) ++ [tk] from hp) with hp | hp
    · exact ih hrest (hparents a List.mem_cons_self) p hp
    · exact hparents p (List.mem_cons_of_mem _ hp)

/-- The last merge of a fold, made again where the fold before it reads as it did. -/
theorem accumulated_concat {tk a : Oid} {objs : List (GitObject Oid)} {c : CommitObj Oid}
    {files' : FileMap} {root' : Oid} (hs : s.Sound) (hs' : s'.Sound) (hw : w.Sound)
    (hist : ∀ p ∈ first :: (rest ++ [tk]), HistoryIn s p)
    (hap : ∀ p ∈ first :: (rest ++ [tk]), ∀ q ∈ first :: (rest ++ [tk]), ¬ Above s p q)
    (hfirst : filesOf w first = .ok files) (h : rest.foldlM foldStep first s = (.ok a, u))
    (he : u.Extends w) (hf : foldObjects u [a, tk] = .ok (objs, c))
    (hin : CommitIn s' (GitObject.commit c).oid)
    (hacc' : Accumulated s' (first :: rest) a files' root') :
    ∃ objs' c', foldObjects s' [a, tk] = .ok (objs', c') ∧
      (c' = c ↔ ∀ r, (∃ f, Merged w (first :: (rest ++ [tk])) f r) ↔
        ∃ f, Merged s' (first :: (rest ++ [tk])) f r) ∧
      (c' = c → ∃ f, Accumulated s' (first :: (rest ++ [tk])) (GitObject.commit c).oid f c.tree) := by
  obtain ⟨hu, hsu⟩ := hs.foldlM h
  have hpre : first :: rest <+: first :: (rest ++ [tk]) := List.prefix_append (first :: rest) [tk]
  have htk : tk ∈ first :: (rest ++ [tk]) := by simp
  obtain ⟨hload, htree, hparents⟩ := held_of_foldObjects hu hs' hf hin
  have hk' : CommitIn s' tk := hparents tk (List.mem_cons_of_mem _ List.mem_cons_self)
  obtain ⟨_, _, hacc⟩ := accumulated_foldlM hw hs (fun p hp => hist p (hpre.subset hp))
    (fun p hp q hq => hap p (hpre.subset hp) q (hpre.subset hq)) hfirst h he
  obtain ⟨hkw, hapw⟩ := apart_extends (hist tk htk) (hsu.trans he) fun p hp =>
    hap tk htk p (hpre.subset hp)
  obtain ⟨objs', c', hf', hiff⟩ := foldObjects_alike_iff hw hs' hacc hacc' hkw
    (hparents a List.mem_cons_self) hk' hapw (foldObjects_extends he hf)
  refine ⟨objs', c', hf', hiff, ?_⟩
  rintro rfl
  have hap' : ∀ p ∈ first :: rest, ¬ Above s' tk p := fun p hp habove =>
    hapw p hp ((Above.congr fun _ => hkw.sameParents hw hs' hk'.history).mp habove)
  exact hacc'.step hs' hk'.history hap' hf' hload htree

theorem reproduces_foldlM (hs : s.Sound) (hs' : s'.Sound) (hw : w.Sound)
    (hprim : ∀ p ∈ first :: rest, isPrimitiveOid s p = true)
    (hist : ∀ p ∈ first :: rest, HistoryIn s p) (hap : ∀ p ∈ first :: rest, ∀ q ∈ first :: rest,
      ¬ Above s p q) (hfirst : filesOf w first = .ok files)
    (h : rest.foldlM foldStep first s = (.ok o, t)) (he : t.Extends w) (hin : CommitIn s' o)
    (halike : MergesAlike w s' (first :: rest)) :
    Reproduces s' o ∧ ∃ files root, Accumulated s' (first :: rest) o files root := by
  induction rest using List.reverseRecOn generalizing o t with
  | nil =>
    obtain ⟨rfl, -⟩ : first = o ∧ s = t := by simpa using h
    obtain ⟨m, hm⟩ := hin.filesOf
    exact ⟨reproduces_primitive hs hs' (hprim first List.mem_cons_self) hin, m,
      accumulated_tip hin.history hm⟩
  | append_singleton rest tk ih =>
    obtain ⟨a, u, objs, c, hrest, hf, rfl, rfl⟩ := foldlM_concat.mp h
    have hu := (hs.foldlM hrest).1
    have huw : u.Extends w := (u.extends_putAll _).trans he
    have hpre : first :: rest <+: first :: (rest ++ [tk]) := List.prefix_append (first :: rest) [tk]
    have htk : tk ∈ first :: (rest ++ [tk]) := by simp
    obtain ⟨hload, -, hparents⟩ := held_of_foldObjects hu hs' hf hin
    have ha' : CommitIn s' a := hparents a List.mem_cons_self
    have hk' : CommitIn s' tk := hparents tk (List.mem_cons_of_mem _ List.mem_cons_self)
    obtain ⟨hrep, files', root', hacc'⟩ := ih (fun p hp => hprim p (hpre.subset hp))
      (fun p hp => hist p (hpre.subset hp))
      (fun p hp q hq => hap p (hpre.subset hp) q (hpre.subset hq)) hrest huw ha'
      (halike.shorter hpre)
    obtain ⟨objs', c', hf', hiff, hstep⟩ :=
      accumulated_concat hs hs' hw hist hap hfirst hrest huw hf hin hacc'
    obtain rfl : c' = c := hiff.mpr (halike _ (List.prefix_refl _) (by simp))
    obtain ⟨m, n, -, -, hc, -⟩ := foldObjects_pair hf'
    obtain ⟨files'', hstep⟩ := hstep rfl
    refine ⟨.fold hload ?_ rfl (by rwa [hc] at hf' ⊢) ?_, files'', _, hstep⟩
    · rw [hc]
      exact isPrimitive_foldCommit _ _ _
    · rw [hc]
      intro p hp
      rcases List.mem_pair.mp hp with rfl | rfl
      · exact hrep
      · exact reproduces_primitive hs hs' (hprim _ htk) hk'

end Fold

omit [LawfulObjectId Oid] [LawfulCrates] in
theorem verifyInner_ok {n : Nat} {o : Oid} {seen seen' : List Oid}
    (h : verifyInner (n + 1) o seen s = (.ok seen', t)) :
    (o ∈ seen ∧ s = t) ∨ (o ∉ seen ∧ ∃ c, loadCommit s o = .ok c ∧
      ((isPrimitive c = true ∧ s = t) ∨ (isPrimitive c = false ∧
        ((c.parents = [] ∧ (GitObject.commit (genesisCommit : CommitObj Oid)).oid = o ∧ s = t) ∨
          (c.parents ≠ [] ∧ ∃ seen₁ u,
            c.parents.foldlM (fun seen p => verifyInner n p seen) (o :: seen) s = (.ok seen₁, u) ∧
            refold c.parents u = (.ok o, t)))))) := by
  rw [verifyInner_succ] at h
  by_cases hseen : o ∈ seen
  · rw [if_pos hseen, Prod.mk.injEq] at h
    exact .inl ⟨hseen, h.2⟩
  rw [if_neg hseen] at h
  cases hc : loadCommit s o with
  | error e =>
    rw [hc] at h
    cases h
  | ok c =>
    rw [hc] at h
    refine .inr ⟨hseen, c, rfl, ?_⟩
    by_cases hp : isPrimitive c = true
    · simp only [if_pos hp, Prod.mk.injEq] at h
      exact .inl ⟨hp, h.2⟩
    simp only [if_neg hp] at h
    refine .inr ⟨by simpa using hp, ?_⟩
    by_cases hps : c.parents = []
    · rw [if_pos hps] at h
      by_cases ho : (GitObject.commit (genesisCommit : CommitObj Oid)).oid = o
      · rw [if_pos ho, Prod.mk.injEq] at h
        exact .inl ⟨hps, ho, h.2⟩
      · rw [if_neg ho] at h
        cases h
    · rw [if_neg hps] at h
      obtain ⟨seen₁, u, hu, h⟩ := run_bind_ok.mp h
      obtain ⟨o', w, hw, h⟩ := run_bind_ok.mp h
      by_cases ho : o' = o
      · have h' := (congrFun (if_pos ho) w).symm.trans h
        obtain ⟨-, rfl⟩ := Prod.mk.inj h'
        exact .inr ⟨hps, seen₁, u, hu, ho ▸ hw⟩
      · have h' := (congrFun (if_neg ho) w).symm.trans h
        cases h'

theorem verified_grows (hs : s.Sound) {n : Nat} {ps seen seen' : List Oid}
    (h : ps.foldlM (fun seen p => verifyInner n p seen) seen s = (.ok seen', t)) : t.Sound ∧
    s.Extends t := by
  have hrun := run_foldlM_induction (f := fun seen p => verifyInner n p seen)
    (fun s t : Store Oid => s.Sound → t.Sound ∧ s.Extends t) (fun s hs => ⟨hs, .refl s⟩)
    (fun s t u hst htu hs => ⟨(htu (hst hs).1).1, (hst hs).2.trans (htu (hst hs).1).2⟩)
    (fun seen p s => verifyInner_induction (fun s t : Store Oid => s.Sound → t.Sound ∧ s.Extends t)
      (fun s hs => ⟨hs, .refl s⟩)
      (fun s t u hst htu hs => ⟨(htu (hst hs).1).1, (hst hs).2.trans (htu (hst hs).1).2⟩)
      (fun ps s hs => ⟨hs.refold ps, extends_refold ps s⟩) n p seen s) ps seen s hs
  rwa [h] at hrun

/-- A synthetic commit that passes is genesis, or what its parents fold to in the store that
the verification leaves. -/
theorem verifyFoldCommit_ok (hs : s.Sound) {o : Oid} {c : CommitObj Oid}
    (h : verifyFoldCommit o s = (.ok (), t)) (hc : loadCommit s o = .ok c)
    (hp : isPrimitive c = false) :
    t.Sound ∧ ((c.parents = [] ∧ c = genesisCommit) ∨ ∃ objs, foldObjects t c.parents = .ok
      (objs, c)) := by
  obtain ⟨n, s', hn, h⟩ := run_bind_ok.mp h
  obtain ⟨rfl, rfl⟩ : s.size = n ∧ s = s' := by simpa [StoreM.read] using hn
  obtain ⟨seen, t', hv, ht⟩ := run_bind_ok.mp h
  obtain rfl : t' = t := (Prod.mk.inj ht).2
  rcases verifyInner_ok hv with ⟨hseen, -⟩ | ⟨-, c', hc', hcase⟩
  · exact absurd hseen List.not_mem_nil
  obtain rfl : c = c' := Except.ok.inj (hc.symm.trans hc')
  rcases hcase with ⟨hprim, -⟩ | ⟨-, ⟨hps, ho, rfl⟩ | ⟨-, seen₁, u, hu, href⟩⟩
  · rw [hp] at hprim
    cases hprim
  · subst ho
    exact ⟨hs, .inl ⟨hps, eq_of_oid hs encodable_genesisCommit hc⟩⟩
  · obtain ⟨hsu, -⟩ := verified_grows hs hu
    obtain ⟨objs, c', hf, ho, rfl⟩ := refold_ok href
    have henc : (GitObject.commit c').Encodable :=
      (written_foldObjects hsu hf).encodable _ (List.mem_append_right _ List.mem_cons_self)
    subst ho
    obtain rfl := eq_of_oid hs henc hc
    exact ⟨(hsu.load_foldObjects hf).1, .inr ⟨objs, foldObjects_extends (u.extends_putAll _) hf⟩⟩

/-- Where what the tips fold to passes, each merge comes out as it did. -/
theorem merges_of_verified {w v v' : Store Oid} {rest : List Oid} {first o : Oid} {files : FileMap}
    (hs : s.Sound) (hs' : s'.Sound) (hw : w.Sound) (hist : ∀ p ∈ first :: rest, HistoryIn s p)
    (hap : ∀ p ∈ first :: rest, ∀ q ∈ first :: rest, ¬ Above s p q)
    (hfirst : filesOf w first = .ok files) (h : rest.foldlM foldStep first s = (.ok o, t))
    (he : t.Extends w) (hin : CommitIn s' o) {n : Nat} {seen seen' : List Oid} (hv : v.Sound)
    (hext : s'.Extends v) (hseen : ∀ x ∈ seen, Above s' x o)
    (hok : verifyInner n o seen v = (.ok seen', v')) :
    (∃ files root, Accumulated s' (first :: rest) o files root) ∧
    MergesAlike w s' (first :: rest) := by
  induction rest using List.reverseRecOn generalizing o t n seen seen' v v' with
  | nil =>
    obtain ⟨rfl, -⟩ : first = o ∧ s = t := by simpa using h
    obtain ⟨m, hm⟩ := hin.filesOf
    exact ⟨⟨m, accumulated_tip hin.history hm⟩, mergesAlike_of_short (by simp)⟩
  | append_singleton rest tk ih =>
    obtain ⟨a, u, objs, c, hrest, hf, rfl, rfl⟩ := foldlM_concat.mp h
    have hu := (hs.foldlM hrest).1
    have huw : u.Extends w := (u.extends_putAll _).trans he
    have hpre : first :: rest <+: first :: (rest ++ [tk]) := List.prefix_append (first :: rest) [tk]
    obtain ⟨hload, -, hparents⟩ := held_of_foldObjects hu hs' hf hin
    have ha' : CommitIn s' a := hparents a List.mem_cons_self
    obtain ⟨m, k, -, -, hc, -⟩ := foldObjects_pair hf
    have hpar : c.parents = [a, tk] := by rw [hc]; rfl
    -- the verification descends into the accumulated fold, which is new to it
    have habove : Above s' (GitObject.commit c).oid a :=
        .single (by rw [parentsOf_of_load hload, hpar]; simp)
    obtain ⟨n, rfl⟩ : ∃ k, n = k + 1 := Nat.exists_eq_succ_of_ne_zero (by rintro rfl; cases hok)
    rcases verifyInner_ok hok with ⟨hmem, -⟩ | ⟨-, d, hd, hcase⟩
    · exact absurd (hseen _ hmem) hin.history.acyclic
    obtain rfl : d = c := Except.ok.inj (hd.symm.trans (loadCommit_extends hext hload))
    rcases hcase with ⟨hp, -⟩ | ⟨-, ⟨hnil, -⟩ | ⟨-, seen₁, v₁, hdesc, href⟩⟩
    · rw [hc, isPrimitive_foldCommit] at hp
      cases hp
    · rw [hpar] at hnil
      cases hnil
    rw [hpar] at hdesc href
    obtain ⟨hv₁, hext₁⟩ := verified_grows hv hdesc
    rw [List.foldlM_cons] at hdesc
    obtain ⟨seen₂, v₂, hfirst', -⟩ := run_bind_ok.mp hdesc
    obtain ⟨⟨_, _, hacc'⟩, halike⟩ := ih (fun p hp => hist p (hpre.subset hp))
      (fun p hp q hq => hap p (hpre.subset hp) q (hpre.subset hq)) hrest huw ha' hv hext
      (fun x hx => by
        rcases List.mem_cons.mp hx with rfl | hx
        · exact habove
        · exact (hseen x hx).trans habove) hfirst'
    obtain ⟨objs', c', hf', hiff, hstep⟩ :=
      accumulated_concat hs hs' hw hist hap hfirst hrest huw hf hin hacc'
    -- what is refolded in the grown store is what the parents fold to here
    obtain ⟨objs₁, c₁, hf₁, ho, -⟩ := refold_ok href
    obtain ⟨-, rfl⟩ := Prod.mk.inj (Except.ok.inj
        (hf₁.symm.trans (foldObjects_extends (hext.trans hext₁) hf')))
    obtain rfl : c₁ = d := by
      rw [ho] at hload
      exact (eq_of_oid hs' ((written_foldObjects hv₁ hf₁).encodable _
          (List.mem_append_right _ List.mem_cons_self))
        hload).symm
    obtain ⟨files'', hstep⟩ := hstep rfl
    refine ⟨⟨files'', _, hstep⟩, fun pre hp hlen r => ?_⟩
    rcases List.prefix_concat_iff.mp (show pre <+: (first :: rest) ++ [tk] from hp) with rfl | hp
    · exact hiff.mp rfl r
    · exact halike pre hp hlen r

/-! ### One fold for one list of parents -/

omit [LawfulCrates] [LawfulObjectId Oid] [Crates] in
/-- The objects of both stores; where both have one the first decides. -/
def Store.union (s s' : Store Oid) : Store Oid := ⟨s.backend, s'.objs ∪ s.objs⟩

omit [LawfulCrates] [LawfulObjectId Oid] [Crates] in
theorem getElem?_union (s s' : Store Oid) (o : Oid) :
    (s.union s').objs[o]? = (s.objs[o]?).or s'.objs[o]? := Std.ExtTreeMap.getElem?_union

omit [LawfulCrates] [LawfulObjectId Oid] [Crates] in
theorem extends_union (s s' : Store Oid) : s.Extends (s.union s') :=
  ⟨rfl, fun o r h => by rw [getElem?_union, h, Option.some_or]⟩

omit [LawfulCrates] [Crates] in
theorem carries_union (hs : s.Sound) (hs' : s'.Sound) : Carries (fun _ => True) (fun _ => True) s'
    (s.union s') := by
  refine ⟨fun o y _ hy => ?_, fun _ _ _ _ _ _ => trivial⟩
  cases ht : s.objs[o]? with
  | none =>
    refine ⟨y, ?_, .same y⟩
    rw [Store.get_eq_ok, getElem?_union, ht, Option.none_or]
    exact Store.get_eq_ok.mp hy
  | some r =>
    obtain ⟨x, rfl, -, -⟩ := hs o r ht
    have hx : s.get o = .ok x := Store.get_eq_ok.mpr ht
    exact ⟨x, (extends_union s s').get hx, alike_of_canon_eq
      (canon_eq_of_get hs' hs hy hx) fun _ _ _ _ => .inr ⟨trivial, trivial⟩⟩

omit [LawfulCrates] in
theorem foldObjects_unique (hs : s.Sound) (hs' : s'.Sound) {ps : List Oid}
    {objs objs' : List (GitObject Oid)} {c c' : CommitObj Oid}
    (hf : foldObjects s ps = .ok (objs, c)) (hf' : foldObjects s' ps = .ok (objs', c')) :
    (c = c' ↔ ∀ acc tk m m', ps = [acc, tk] → mergedFiles s acc tk = .ok m →
      mergedFiles s' acc tk = .ok m' →
      (writeTreeFromFiles m : List (GitObject Oid) × Oid).2 = (writeTreeFromFiles m').2) ∧
    ∀ acc tk b, ps = [acc, tk] → mergeBase s acc tk = .ok b → mergeBase s' acc tk = .ok b := by
  have hcar := (extends_union s s').carries
  have hcar' := carries_union hs hs'
  obtain ⟨⟨tree, n, hn, rfl⟩, hcase⟩ := foldObjects_commit hf
  obtain ⟨⟨tree', n', hn', rfl⟩, hcase'⟩ := foldObjects_commit hf'
  obtain rfl : n = n' := Except.ok.inj ((hcar.maxCommitterTime (fun _ _ => trivial) hn).symm.trans
    (hcar'.maxCommitterTime (fun _ _ => trivial) hn'))
  have htrees : foldCommit tree ps n foldMsg = foldCommit tree' ps n foldMsg ↔ tree = tree' :=
    ⟨congrArg CommitObj.tree, congrArg fun tree => foldCommit tree ps n foldMsg⟩
  rw [htrees]
  rcases hcase with ⟨tip, rfl, -, htree⟩ | ⟨acc, tk, m, rfl, hm, -, hroot⟩
  · obtain ⟨tip', htip, -, htree'⟩ :=
      hcase'.resolve_right (by rintro ⟨_, _, _, htip, -⟩; cases htip)
    obtain rfl := (List.cons.inj htip).1
    have heq : tree = tree' :=
        Except.ok.inj ((hcar.commitTree trivial htree).1.symm.trans
          (hcar'.commitTree trivial htree').1)
    exact ⟨iff_of_true heq (by rintro _ _ _ _ ⟨⟩), by rintro _ _ _ ⟨⟩⟩
  · obtain ⟨acc', tk', m', hps, hm', -, hroot'⟩ :=
      hcase'.resolve_left (by rintro ⟨_, htip, -⟩; cases htip)
    obtain ⟨rfl, htk⟩ := List.cons.inj hps
    obtain rfl := (List.cons.inj htk).1
    have hroot : tree = (writeTreeFromFiles m).2 := hroot
    have hroot' : tree' = (writeTreeFromFiles m').2 := hroot'
    refine ⟨⟨?_, fun h => ?_⟩, ?_⟩
    · rintro heq _ _ _ _ ⟨⟩ hm₁ hm₂
      rw [← Except.ok.inj (hm.symm.trans hm₁), ← Except.ok.inj (hm'.symm.trans hm₂), ← hroot,
        ← hroot', heq]
    · rw [hroot, hroot', h _ _ _ _ rfl hm hm']
    · rintro _ _ b ⟨⟩ hb
      obtain ⟨b', -, -, -, hb', -⟩ := mergedFiles_ok.mp hm'
      rw [hb', Except.ok.inj ((hcar.mergeBase trivial trivial hb).1.symm.trans
          (hcar'.mergeBase trivial trivial hb').1)]

/-- What a part of the frontier folds to passes where it is held in full exactly if the
merges come out there as they did. -/
theorem verifies_iff (hs : s.Sound) (hs' : s'.Sound) {known f tips : List Oid} {o : Oid}
    (hf : frontier s known = .ok f) (hsub : tips ⊆ f) (h : foldTips tips s = (.ok o, t))
    (hin : CommitIn s' o) :
    ((∃ t', verifyFoldCommit o s' = (.ok (), t')) ↔ MergesAlike t s' tips) ∧
      ((2 ≤ tips.length → ReadsAlike t s' tips) → MergesAlike t s' tips) := by
  have hprim : ∀ p ∈ tips, isPrimitiveOid s p = true := fun p hp =>
      (mem_of_mem_frontier hf (hsub hp)).2
  match tips with
  -- the fold of no tip is genesis, which verification knows by its id
  | [] =>
    rw [foldTips, genesis_run, Prod.mk.injEq, Except.ok.injEq] at h
    obtain ⟨rfl, -⟩ := h
    obtain ⟨c, hc, -⟩ := hin.load
    obtain rfl := eq_of_oid hs' (c := genesisCommit) encodable_genesisCommit hc
    obtain ⟨t', ht', -⟩ := verifyFoldCommit_of_reproduces hs' (.genesis hc rfl)
    exact ⟨iff_of_true ⟨t', ht'⟩ (mergesAlike_of_short (by simp)), fun _ =>
      mergesAlike_of_short (by simp)⟩
  -- the wrapper of a single tip reads no tree: it passes without a condition
  | [tip] =>
    obtain ⟨objs, c, hfold, rfl, -⟩ := refold_ok (show refold [tip] s = _ from h)
    obtain ⟨hload, -, hparents⟩ := held_of_foldObjects hs hs' hfold hin
    have htip : CommitIn s' tip := hparents tip List.mem_cons_self
    have hfold' := foldObjects_tip_alike hs hs' htip.history hfold
    obtain ⟨⟨tree, n, -, hc⟩, -⟩ := foldObjects_commit hfold
    have hrep : Reproduces s' (GitObject.commit c).oid := by
      refine .fold hload ?_ rfl (by rw [hc] at hfold' ⊢; exact hfold') ?_
      · rw [hc]
        exact isPrimitive_foldCommit _ _ _
      · rw [hc]
        exact List.forall_mem_singleton.mpr (reproduces_primitive hs hs'
            (hprim tip List.mem_cons_self) htip)
    obtain ⟨t', ht', -⟩ := verifyFoldCommit_of_reproduces hs' hrep
    exact ⟨iff_of_true ⟨t', ht'⟩ (mergesAlike_of_short (by simp)), fun _ =>
      mergesAlike_of_short (by simp)⟩
  | first :: tk :: rest =>
    have h : (tk :: rest).foldlM foldStep first s = (.ok o, t) := h
    obtain ⟨ht, hext⟩ := hs.foldlM h
    have hin' := commitIn_tips hs hs' h hin
    -- the frontier was computed, so the tips' histories are in the store
    have hist : ∀ p ∈ first :: tk :: rest, HistoryIn s p := fun p hp => by
      obtain ⟨l, hl⟩ := (frontier_tips hf).1 p (hsub hp)
      exact historyIn_of_ancestors hs hs' hl (hin' p hp).history
    have hap := frontier_apart hf hsub hist
    obtain ⟨files, hfirst⟩ : ∃ files, filesOf t first = .ok files := by
      rw [List.foldlM_cons] at h
      obtain ⟨a, u, hstep, -⟩ := run_bind_ok.mp h
      obtain ⟨objs, c, hfold, -⟩ := refold_ok (show refold [first, tk] s = (.ok a, u) from hstep)
      obtain ⟨m, n, hm, -⟩ := foldObjects_pair hfold
      obtain ⟨-, -, files, -, -, -, hfiles, -⟩ := mergedFiles_ok.mp hm
      exact ⟨files, filesOf_extends hfiles hext⟩
    -- down the synthetic commits in one direction, up the fold in the other
    refine ⟨⟨?_, fun halike => ?_⟩, fun hread => ReadsAlike.merges hread ht hs'
      (fun p hp => (hist p hp).extends hext)
      fun p hp => (hin' p hp).history⟩
    · rintro ⟨t', ht'⟩
      obtain ⟨n, u, hn, ht'⟩ := run_bind_ok.mp ht'
      obtain ⟨rfl, rfl⟩ : s'.size = n ∧ s' = u := by simpa [StoreM.read] using hn
      obtain ⟨seen, u, hv, -⟩ := run_bind_ok.mp ht'
      exact (merges_of_verified hs hs' ht hist hap hfirst h (.refl t) hin hs' (.refl s')
        (fun x hx => absurd hx List.not_mem_nil) hv).2
    · obtain ⟨hrep, -⟩ := reproduces_foldlM hs hs' ht hprim hist hap hfirst h (.refl t) hin halike
      obtain ⟨t', ht', -⟩ := verifyFoldCommit_of_reproduces hs' hrep
      exact ⟨t', ht'⟩

/-- Fold verification. What any part of the frontier folds to, the last such commit being
`main`, passes in a store that holds it in full exactly if the merges come out there as they
did; so it is where the tips and bases read as they did, and for a single tip. A synthetic
commit that passes is what its parents fold to, and two with the same parents that pass, in
whatever stores, are one exactly if the merge of the parents comes to one tree. -/
theorem verifyFoldCommit_exact :
    (∀ (s : Store Oid) (known f tips : List Oid) (o : Oid) (t : Store Oid), s.Sound →
      frontier s known = .ok f → tips <+: f → foldTips tips s = (.ok o, t) →
      ∀ s' : Store Oid, s'.Sound → CommitIn s' o →
        ((∃ t', verifyFoldCommit o s' = (.ok (), t')) ↔ MergesAlike t s' tips) ∧
        ((2 ≤ tips.length → ReadsAlike t s' tips) → MergesAlike t s' tips)) ∧
    (∀ (s : Store Oid) (known : List Oid) (main : Oid) (t : Store Oid),
      computeMain known s = (.ok main, t) ↔
        ∃ f, frontier s known = .ok f ∧ foldTips f s = (.ok main, t)) ∧
    (∀ (s : Store Oid) (o : Oid) (c : CommitObj Oid) (t : Store Oid), s.Sound →
      loadCommit s o = .ok c → isPrimitive c = false → verifyFoldCommit o s = (.ok (), t) →
      (c.parents = [] ∧ (GitObject.commit c).framed =
        (GitObject.commit (genesisCommit : CommitObj Oid)).framed) ∨
        ∃ objs c', foldObjects t c.parents = .ok (objs, c') ∧
          (GitObject.commit c).framed = (GitObject.commit c').framed) ∧
    ∀ (s s' : Store Oid) (o o' : Oid) (c c' : CommitObj Oid) (t t' : Store Oid),
    s.Sound → s'.Sound →
      loadCommit s o = .ok c → loadCommit s' o' = .ok c' → isPrimitive c = false →
      isPrimitive c' = false →
      verifyFoldCommit o s = (.ok (), t) → verifyFoldCommit o' s' = (.ok (), t') →
      c.parents = c'.parents →
      (o = o' ↔ ∀ acc tk m m', c.parents = [acc, tk] → mergedFiles t acc tk = .ok m →
        mergedFiles t' acc tk = .ok m' →
        (writeTreeFromFiles m : List (GitObject Oid) × Oid).2 = (writeTreeFromFiles m').2) ∧
      ((∀ acc tk b, c.parents = [acc, tk] → mergeBase t acc tk = .ok b →
        ∀ x ∈ [b, acc, tk], filesOf t' x = filesOf t x) → o = o') := by
  refine ⟨fun s known f tips o t hs hf htips hfold s' hs' hin =>
    verifies_iff hs hs' hf htips.subset hfold hin,
    fun s known main t => computeMain_ok, ?_, ?_⟩
  · intro s o c t hs hc hp hv
    rcases (verifyFoldCommit_ok hs hv hc hp).2 with ⟨hps, rfl⟩ | ⟨objs, hf⟩
    · exact .inl ⟨hps, rfl⟩
    · exact .inr ⟨objs, c, hf, rfl⟩
  · intro s s' o o' c c' t t' hs hs' hc hc' hp hp' hv hv' hps
    obtain ⟨ht, hcase⟩ := verifyFoldCommit_ok hs hv hc hp
    obtain ⟨ht', hcase'⟩ := verifyFoldCommit_ok hs' hv' hc' hp'
    -- ids are compared through the commits, which sound stores hold under them
    have hoid : o = o' ↔ c = c' := by
      constructor
      · rintro rfl
        exact (load_eq_of_sound hs hs' hc hc').symm
      · rintro rfl
        rw [← (hs.get (loadCommit_ok.mp hc)).1, ← (hs'.get (loadCommit_ok.mp hc')).1]
    rw [hoid]
    have hnone : ∀ {u : Store Oid} {objs : List (GitObject Oid)} {d : CommitObj Oid},
        foldObjects u [] ≠ .ok (objs, d) := fun h => by cases h
    rcases hcase with ⟨hnil, rfl⟩ | ⟨objs, hf⟩
    · rcases hcase' with ⟨-, rfl⟩ | ⟨objs', hf'⟩
      · refine ⟨iff_of_true rfl fun acc tk m m' h => ?_, fun _ => rfl⟩
        rw [hnil] at h
        cases h
      · rw [← hps, hnil] at hf'
        exact absurd hf' hnone
    · rcases hcase' with ⟨hnil, rfl⟩ | ⟨objs', hf'⟩
      · rw [hps, hnil] at hf
        exact absurd hf hnone
      · rw [← hps] at hf'
        obtain ⟨hiff, hbase⟩ := foldObjects_unique ht ht' hf hf'
        refine ⟨hiff, fun hread => hiff.mpr fun acc tk m m' hpar hm hm' => ?_⟩
        obtain ⟨b, base, ours, theirs, hb, h₁, h₂, h₃, rfl⟩ := mergedFiles_ok.mp hm
        obtain ⟨b', base', ours', theirs', hb', h₁', h₂', h₃', rfl⟩ := mergedFiles_ok.mp hm'
        obtain rfl : b = b' := Except.ok.inj ((hbase acc tk b hpar hb).symm.trans hb')
        have hsame := hread acc tk b hpar hb
        rw [hsame b (by simp)] at h₁'
        rw [hsame acc (by simp)] at h₂'
        rw [hsame tk (by simp)] at h₃'
        rw [Except.ok.inj (h₁.symm.trans h₁'), Except.ok.inj (h₂.symm.trans h₂'),
          Except.ok.inj (h₃.symm.trans h₃')]

end Reproduce

end Csp

/-! ### Where the order shows -/

namespace Csp.Small

def foldedStore : Store Digest := (computeMain clashKnown (clashStore clash)).2

def foldedObjects : List (GitObject Digest) :=
  foldedStore.objs.toList.filterMap fun p => p.2.toOption

/-- The same objects on top of the store that got the tree in the other order. -/
def reversedStore : Store Digest := (clashStore clash.reverse).putAll foldedObjects

theorem sound_foldedStore : foldedStore.Sound :=
  Store.Sound.computeMain (sound_clashStore (by decide)) clashKnown

theorem sound_reversedStore : reversedStore.Sound := by
  apply (sound_clashStore (by decide)).putAll
  intro x hx
  obtain ⟨⟨o, r⟩, hr, hx⟩ := List.mem_filterMap.mp hx
  have hget := Std.ExtTreeMap.mem_toList_iff_getElem?_eq_some.mp hr
  obtain ⟨y, rfl, -, hy⟩ := sound_foldedStore o r hget
  obtain rfl : y = x := Option.some.inj hx
  exact hy

def clashMain : Digest :=
  match (computeMain clashKnown (clashStore clash)).1 with
  | .ok main => main
  | .error _ => toDigest []

theorem computeMain_clash : computeMain clashKnown (clashStore clash) =
    (.ok clashMain, foldedStore) := by
  have hok := isOk_clashStore
  unfold clashMain foldedStore
  generalize computeMain clashKnown (clashStore clash) = r at hok ⊢
  rcases r with ⟨_ | main, t⟩
  · cases hok
  · rfl

/-- `main` of the clashing store passes in a store that holds something else besides. -/
theorem verifyFoldCommit_exact_clash : ∃ t, verifyFoldCommit clashMain
    (foldedStore.put (.blob [51])) = (.ok (), t) := by
  have hs : (clashStore clash).Sound := sound_clashStore (by decide)
  have hs' : (foldedStore.put (.blob [51])).Sound := sound_foldedStore.put trivial
  have hin : ∀ o ∈ clashKnown, CommitIn (clashStore clash) o := fun o ho =>
    commitIn_of_holdsCommit (holds_clashKnown o ho).1
  have htwins : Twins (fun _ => True) (clashStore clash) (clashStore clash) :=
    ⟨(Store.Extends.refl _).carries.mono fun _ => Tidy.flat, hs, hs⟩
  obtain ⟨-, t, -, -, -, hmain⟩ := htwins.computeMain rfl (fun _ _ => trivial) hin computeMain_clash
  obtain ⟨hexact, hfold, -⟩ := @verifyFoldCommit_exact Digest _ _ _ _
  obtain ⟨f, hf, hfo⟩ := (hfold _ _ _ _).mp computeMain_clash
  have hext : (clashStore clash).Extends foldedStore := extends_computeMain clashKnown
      (clashStore clash)
  have hput : foldedStore.Extends (foldedStore.put (.blob [51])) := Store.extends_put _ _
  obtain ⟨hiff, hread⟩ := hexact _ _ _ f clashMain foldedStore hs hf (List.prefix_refl f) hfo _ hs'
    (hmain.extends hput)
  exact hiff.mpr (hread fun _ => readsAlike_extends hput fun p hp =>
    (hin p (mem_of_mem_frontier hf hp).1).extends hext)

theorem verify_reversedStore : holdsCommit reversedStore 4 clashMain = true ∧
    (verifyFoldCommit clashMain reversedStore).1.isOk = false := by decide +kernel

/-- `main` folded over entries in one order does not pass in a store that holds it in full,
with the entries in the other order. -/
theorem verifyFoldCommit_order_shows :
    computeMain clashKnown (clashStore clash) = (.ok clashMain, foldedStore) ∧ reversedStore.Sound ∧
      CommitIn reversedStore clashMain ∧ (verifyFoldCommit clashMain reversedStore).1.isOk =
      false :=
  ⟨computeMain_clash, sound_reversedStore, commitIn_of_holdsCommit verify_reversedStore.1,
    verify_reversedStore.2⟩

end Csp.Small
