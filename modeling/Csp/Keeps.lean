import Csp.Lineage

/-! Which sentinels a commit keeps: those of directories that hold nothing else. -/

namespace Csp
variable {sc : Scope} {files files' out : FileMap}

def placeKeep (sc : Scope) (out : FileMap) (p : Path) : FileMap :=
  if !isKeep p || !sc.pathInScope p then out
  else if occupied out (keepDir p) then out
  else out.insert p []

def realFiles (files : FileMap) (sc : Scope) : FileMap :=
  files.filter fun p c => !isKeep p && sc.contentInScope p c

theorem canonicalizeKeeps_eq :
    canonicalizeKeeps files sc = files.keys.foldl (placeKeep sc) (realFiles files sc) := rfl

/-! ### Directories -/

/-- The file lies in the directory or below it. -/
def Inside (dir : Str) (r : Path) : Prop := dir = [] ∨ dir ++ ['/'] <+: r

theorem occupied_iff {dir : Str} : occupied out dir = true ↔ ∃ r ∈ out.keys, Inside dir r := by
  unfold occupied Inside
  by_cases hd : dir = []
  · rw [if_pos hd]
    simp only [hd, true_or, and_true, Bool.not_eq_true']
    constructor
    · intro h
      obtain ⟨r, hr⟩ := List.exists_mem_of_ne_nil out.keys fun hnil => by
        rw [← Std.ExtTreeMap.isEmpty_keys, hnil] at h
        cases h
      exact ⟨r, hr⟩
    · rintro ⟨r, hr⟩
      rw [← Std.ExtTreeMap.isEmpty_keys]
      exact List.isEmpty_eq_false_iff.mpr (List.ne_nil_of_mem hr)
  · rw [if_neg hd, List.any_eq_true]
    simp only [hd, false_or, List.isPrefixOf_iff_prefix]

theorem keep_cases {p : Path} (h : isKeep p = true) :
    (p = keep ∧ keepDir p = []) ∨ p = keepDir p ++ '/' :: keep := by
  by_cases hp : p = keep
  · exact .inl ⟨hp, by rw [keepDir, if_pos hp]⟩
  · right
    have hsuf : '/' :: keep <:+ p := by
      simpa [isKeep, hp] using h
    obtain ⟨a, rfl⟩ := hsuf
    rw [keepDir, if_neg hp, List.length_append, Nat.add_sub_cancel, List.take_left]

theorem inside_self {p : Path} (h : isKeep p = true) : Inside (keepDir p) p := by
  rcases keep_cases h with ⟨-, hd⟩ | hp
  · exact .inl hd
  · exact .inr ⟨keep, by conv_rhs => rw [hp]
                         simp⟩

theorem slash_notMem_keep : '/' ∉ keep := by decide

theorem Inside.beside {p r : Path} {dir : Str} (hk : isKeep p = true) (hp : Inside dir p)
    (hr : Inside (keepDir p) r) : Inside dir r := by
  rcases hp with hd | hp
  · exact .inl hd
  rcases keep_cases hk with ⟨rfl, -⟩ | hpd
  · exact absurd (hp.mem (List.mem_append_right _ List.mem_cons_self)) slash_notMem_keep
  set a := keepDir p
  have ha : a ++ ['/'] <+: p := ⟨keep, by rw [hpd]; simp⟩
  have hda : dir ++ ['/'] <+: a ++ ['/'] := by
    rcases List.prefix_or_prefix_of_prefix hp ha with h | ⟨x, hx⟩
    · exact h
    -- otherwise the name of the sentinel would have a slash
    · obtain ⟨y, hy⟩ := hp
      have hkeep : x ++ y = keep := by
        rw [← hx, hpd] at hy
        simpa using hy
      rcases List.eq_nil_or_concat x with rfl | ⟨x', z, rfl⟩
      · exact ⟨[], by simpa using hx.symm⟩
      · have hz : z = '/' := by
          have hlast := congrArg List.getLast? hx
          rw [List.concat_eq_append, ← List.append_assoc, List.getLast?_concat,
            List.getLast?_concat] at hlast
          exact Option.some.inj hlast
        exact absurd (hkeep ▸ by simp [hz]) slash_notMem_keep
  rcases hr with ha0 | hr
  · left
    rw [ha0] at hda
    have hlen := hda.length_le
    simp only [List.length_append, List.length_cons, List.length_nil] at hlen
    exact List.eq_nil_of_length_eq_zero (by omega)
  · exact .inr (hda.trans hr)

/-! ### Placing sentinels -/

theorem mem_placeKeep {p r : Path} : r ∈ (placeKeep sc out p).keys ↔
    r ∈ out.keys ∨ r = p ∧ isKeep p = true ∧ sc.pathInScope p = true ∧
    occupied out (keepDir p) = false := by
  unfold placeKeep
  split_ifs with h₁ h₂
  · rw [Bool.or_eq_true, Bool.not_eq_true', Bool.not_eq_true'] at h₁
    refine ⟨.inl, ?_⟩
    rintro (hr | ⟨-, hk, hs, -⟩)
    · exact hr
    · rw [hk, hs] at h₁
      simp at h₁
  · refine ⟨.inl, ?_⟩
    rintro (hr | ⟨-, -, -, ho⟩)
    · exact hr
    · rw [h₂] at ho
      cases ho
  · simp only [Bool.or_eq_true, Bool.not_eq_true', not_or, Bool.not_eq_false] at h₁
    rw [Std.ExtTreeMap.mem_keys, Std.ExtTreeMap.mem_insert, Std.compare_eq_iff_eq,
      Std.ExtTreeMap.mem_keys]
    constructor
    · rintro (rfl | hr)
      · exact .inr ⟨rfl, h₁.1, h₁.2, by simpa using h₂⟩
      · exact .inl hr
    · rintro (hr | ⟨rfl, -⟩)
      · exact .inr hr
      · exact .inl rfl

theorem mem_foldl_placeKeep_of_mem {ks : List Path} {r : Path} (hr : r ∈ out.keys) :
    r ∈ (ks.foldl (placeKeep sc) out).keys := by
  induction ks generalizing out with
  | nil => exact hr
  | cons k ks ih => exact ih (mem_placeKeep.mpr (.inl hr))

theorem mem_foldl_placeKeep {ks : List Path} {r : Path}
    (h : r ∈ (ks.foldl (placeKeep sc) out).keys) :
    r ∈ out.keys ∨ r ∈ ks ∧ isKeep r = true ∧ sc.pathInScope r = true := by
  induction ks generalizing out with
  | nil => exact .inl h
  | cons k ks ih =>
    rcases ih h with hr | ⟨hr, hk, hs⟩
    · rcases mem_placeKeep.mp hr with hr | ⟨rfl, hk, hs, -⟩
      · exact .inl hr
      · exact .inr ⟨List.mem_cons_self, hk, hs⟩
    · exact .inr ⟨List.mem_cons_of_mem _ hr, hk, hs⟩

theorem exists_inside_foldl {out : FileMap} {ks : List Path} {p : Path} (hp : p ∈ ks)
    (hk : isKeep p = true) (hs : sc.pathInScope p = true) :
    ∃ r ∈ (ks.foldl (placeKeep sc) out).keys, Inside (keepDir p) r := by
  induction ks generalizing out with
  | nil => cases hp
  | cons k ks ih =>
    rw [List.foldl_cons]
    rcases List.mem_cons.mp hp with rfl | hp
    · cases ho : occupied out (keepDir p) with
      | true =>
        obtain ⟨r, hr, hin⟩ := occupied_iff.mp ho
        exact ⟨r, mem_foldl_placeKeep_of_mem (mem_placeKeep.mpr (.inl hr)), hin⟩
      | false =>
        exact ⟨p, mem_foldl_placeKeep_of_mem (mem_placeKeep.mpr (.inr ⟨rfl, hk, hs, ho⟩)),
          inside_self hk⟩
    · exact ih hp

theorem mem_canonicalizeKeeps_keep {q : Path} (hk : isKeep q = true) {pre post : List Path}
    (hkeys : files.keys = pre ++ q :: post) :
    q ∈ (canonicalizeKeeps files sc).keys ↔
      sc.pathInScope q = true ∧ occupied (pre.foldl (placeKeep sc) (realFiles files sc))
      (keepDir q) = false := by
  have hnodup : (pre ++ q :: post).Nodup := by
    rw [← hkeys]
    exact Std.ExtTreeMap.distinct_keys.imp fun h => by simpa using h
  obtain ⟨-, hpost, hdisj⟩ := List.nodup_append.mp hnodup
  have hpre : q ∉ (pre.foldl (placeKeep sc) (realFiles files sc)).keys := by
    intro h
    rcases mem_foldl_placeKeep h with hreal | ⟨hin, -⟩
    · rw [Std.ExtTreeMap.mem_keys, realFiles, Std.ExtTreeMap.mem_filter] at hreal
      simp [hk] at hreal
    · exact hdisj q hin q List.mem_cons_self rfl
  rw [canonicalizeKeeps_eq, hkeys, List.foldl_append, List.foldl_cons]
  constructor
  · intro h
    rcases mem_foldl_placeKeep h with h | ⟨hin, -⟩
    · rcases mem_placeKeep.mp h with h | ⟨-, -, hs, ho⟩
      · exact absurd h hpre
      · exact ⟨hs, ho⟩
    · exact absurd hin (List.nodup_cons.mp hpost).1
  · rintro ⟨hs, ho⟩
    exact mem_foldl_placeKeep_of_mem (mem_placeKeep.mpr (.inr ⟨rfl, hk, hs, ho⟩))

theorem mem_keys_isSome {q : Path} : q ∈ files.keys ↔ ∃ c, files[q]? = some c := by
  rw [Std.ExtTreeMap.mem_keys, Std.ExtTreeMap.mem_iff_isSome_getElem?, Option.isSome_iff_exists]

theorem mem_realFiles {r : Path} : r ∈ (realFiles files sc).keys ↔
    ∃ c, files[r]? = some c ∧ (!isKeep r && sc.contentInScope r c) = true := by
  rw [mem_keys_isSome, realFiles]
  simp only [Std.ExtTreeMap.getElem?_filter', Option.filter_eq_some_iff]

theorem mem_before {q r : Path} {pre post pre' post' : List Path}
    (hsplit : files.keys = pre ++ q :: post) (hsplit' : files'.keys = pre' ++ q :: post')
    (hkeys : ∀ p ∈ files'.keys, p ∈ files.keys) (hr : r ∈ pre') :
    r ∈ pre := by
  have hord := Std.ExtTreeMap.ordered_keys (t := files)
  have hord' := Std.ExtTreeMap.ordered_keys (t := files')
  rw [hsplit] at hord
  rw [hsplit'] at hord'
  have hlt : compare r q = .lt := (List.pairwise_append.mp hord').2.2 r hr q List.mem_cons_self
  have hmem : r ∈ files.keys := hkeys r (hsplit' ▸ List.mem_append_left _ hr)
  rw [hsplit] at hmem
  rcases List.mem_append.mp hmem with h | h
  · exact h
  rcases List.mem_cons.mp h with rfl | h
  · simp at hlt
  · have hgt : compare q r = .lt := (List.pairwise_cons.mp (List.pairwise_append.mp hord).2.1).1 r h
    exact absurd hlt (Std.OrientedCmp.not_lt_of_lt hgt)

/-- With fewer files beside it, a path that was kept is kept. What a sentinel holds does not
matter. -/
theorem kept_of_fewer (hkeys : ∀ p ∈ files'.keys, p ∈ files.keys)
    (hsub : ∀ (p : Path) c, isKeep p = false → files'[p]? = some c → files[p]? = some c) {q : Path}
    (hq : q ∈ files'.keys) (hkept : q ∈ (canonicalizeKeeps files sc).keys) :
    q ∈ (canonicalizeKeeps files' sc).keys := by
  have hreal : ∀ r ∈ (realFiles files' sc).keys, r ∈ (realFiles files sc).keys := by
    intro r hr
    obtain ⟨c, hc, hin⟩ := mem_realFiles.mp hr
    rw [Bool.and_eq_true, Bool.not_eq_true'] at hin
    exact mem_realFiles.mpr ⟨c, hsub r c hin.1 hc, by simp [hin]⟩
  by_cases hk : isKeep q = true
  · obtain ⟨pre, post, hsplit⟩ := List.append_of_mem (hkeys q hq)
    obtain ⟨pre', post', hsplit'⟩ := List.append_of_mem hq
    obtain ⟨hs, ho⟩ := (mem_canonicalizeKeeps_keep hk hsplit).mp hkept
    refine (mem_canonicalizeKeeps_keep hk hsplit').mpr ⟨hs, ?_⟩
    rw [Bool.eq_false_iff]
    intro hocc
    obtain ⟨r, hr, hin⟩ := occupied_iff.mp hocc
    -- what lies in the directory in the smaller set has a counterpart in the larger one
    obtain ⟨r', hr', hin'⟩ : ∃ r' ∈ (pre.foldl (placeKeep sc) (realFiles files sc)).keys,
      Inside (keepDir q) r' := by
      rcases mem_foldl_placeKeep hr with hr | ⟨hr, hkr, hsr⟩
      · exact ⟨r, mem_foldl_placeKeep_of_mem (hreal r hr), hin⟩
      · have hpre : r ∈ pre := mem_before hsplit hsplit' hkeys hr
        obtain ⟨r', hr', hbeside⟩ := exists_inside_foldl hpre hkr hsr
        exact ⟨r', hr', hin.beside hkr hbeside⟩
    rw [occupied_iff.mpr ⟨r', hr', hin'⟩] at ho
    cases ho
  · rcases mem_foldl_placeKeep hkept with h | ⟨-, hk', -⟩
    · obtain ⟨c, hc, hin⟩ := mem_realFiles.mp h
      obtain ⟨c', hc'⟩ := mem_keys_isSome.mp hq
      obtain rfl : c' = c := Option.some.inj ((hsub q c' (by simpa using hk) hc').symm.trans hc)
      exact mem_foldl_placeKeep_of_mem (mem_realFiles.mpr ⟨c', hc', hin⟩)
    · exact absurd hk' hk

theorem canonicalizeKeeps_antitone (hsub : ∀ (p : Path) c, files'[p]? = some c →
      files[p]? = some c) {q : Path}
    (hq : q ∈ files'.keys) (hkept : q ∈ (canonicalizeKeeps files sc).keys) :
    q ∈ (canonicalizeKeeps files' sc).keys := by
  refine kept_of_fewer (fun p hp => ?_) (fun p c _ => hsub p c) hq hkept
  obtain ⟨c, hc⟩ := mem_keys_isSome.mp hp
  exact mem_keys_isSome.mpr ⟨c, hsub p c hc⟩

/-! ### What is kept -/

theorem realFiles_keep {p : Path} (hk : isKeep p = true) : (realFiles files sc)[p]? = none := by
  rw [Option.eq_none_iff_forall_ne_some]
  intro c hc
  obtain ⟨c', -, hin⟩ := mem_realFiles.mp (mem_keys_isSome.mpr ⟨c, hc⟩)
  simp [hk] at hin

theorem getElem?_foldl_placeKeep {ks : List Path} (hempty : ∀ p, isKeep p = true → out[p]? = none ∨
      out[p]? = some [])
    (p : Path) :
    (isKeep p = true → (ks.foldl (placeKeep sc) out)[p]? = none ∨
      (ks.foldl (placeKeep sc) out)[p]? = some []) ∧
      (isKeep p = false → (ks.foldl (placeKeep sc) out)[p]? = out[p]?) := by
  induction ks generalizing out with
  | nil => exact ⟨hempty p, fun _ => rfl⟩
  | cons k ks ih =>
    have hplace : placeKeep sc out k = out ∨ isKeep k = true ∧
        placeKeep sc out k = out.insert k [] := by
      unfold placeKeep
      split_ifs with h₁ h₂
      · exact .inl rfl
      · exact .inl rfl
      · simp only [Bool.or_eq_true, Bool.not_eq_true', not_or, Bool.not_eq_false] at h₁
        exact .inr ⟨h₁.1, rfl⟩
    rw [List.foldl_cons]
    rcases hplace with hp | ⟨hk, hp⟩
    · rw [hp]
      exact ih hempty
    · rw [hp]
      have hins : ∀ q, (out.insert k [])[q]? = if k = q then some [] else out[q]? := by
        intro q
        rw [Std.ExtTreeMap.getElem?_insert]
        simp only [Std.compare_eq_iff_eq]
      have hkeeps : ∀ q, isKeep q = true → (out.insert k [])[q]? = none ∨
          (out.insert k [])[q]? = some [] := by
        intro q hq
        rw [hins q]
        split_ifs
        · exact .inr rfl
        · exact hempty q hq
      obtain ⟨h₁, h₂⟩ := ih hkeeps
      refine ⟨h₁, fun hn => (h₂ hn).trans ?_⟩
      rw [hins p, if_neg]
      rintro rfl
      exact absurd hk (by simp [hn])

theorem getElem?_canonicalizeKeeps (p : Path) :
    (canonicalizeKeeps files sc)[p]? =
      if isKeep p = true then (if p ∈ (canonicalizeKeeps files sc).keys then some [] else none)
      else (realFiles files sc)[p]? := by
  have hreal : ∀ q, isKeep q = true → (realFiles files sc)[q]? = none ∨
      (realFiles files sc)[q]? = some [] :=
    fun q hq => .inl (realFiles_keep hq)
  obtain ⟨h₁, h₂⟩ := @getElem?_foldl_placeKeep sc _ files.keys hreal p
  rw [← canonicalizeKeeps_eq] at h₁ h₂
  split_ifs with hk hmem
  · rcases h₁ hk with h | h
    · rw [mem_keys_isSome, h] at hmem
      obtain ⟨c, hc⟩ := hmem
      cases hc
    · exact h
  · rw [Option.eq_none_iff_forall_ne_some]
    exact fun c hc => hmem (mem_keys_isSome.mpr ⟨c, hc⟩)
  · exact h₂ (by simpa using hk)

theorem canonicalizeKeeps_idem :
    canonicalizeKeeps (canonicalizeKeeps files sc) sc = canonicalizeKeeps files sc := by
  have hreal : ∀ p, isKeep p = false → (canonicalizeKeeps files sc)[p]? =
      (realFiles files sc)[p]? := by
    intro p hp
    rw [getElem?_canonicalizeKeeps, if_neg (by simp [hp])]
  have hkeys : ∀ p ∈ (canonicalizeKeeps files sc).keys, p ∈ files.keys := by
    intro p hp
    rcases mem_foldl_placeKeep hp with h | ⟨h, -⟩
    · obtain ⟨c, hc, -⟩ := mem_realFiles.mp h
      exact mem_keys_isSome.mpr ⟨c, hc⟩
    · exact h
  apply Std.ExtTreeMap.ext_getElem?
  intro p
  rw [@getElem?_canonicalizeKeeps sc (canonicalizeKeeps files sc),
    @getElem?_canonicalizeKeeps sc files]
  split_ifs with hk h h' h'
  · rfl
  · rcases mem_foldl_placeKeep h with h | ⟨h, -⟩
    · obtain ⟨c, -, hin⟩ := mem_realFiles.mp h
      simp [hk] at hin
    · exact absurd h h'
  · refine absurd (kept_of_fewer hkeys (fun q c hq hc => ?_) h' h') h
    rw [hreal q hq, realFiles, Std.ExtTreeMap.getElem?_filter', Option.filter_eq_some_iff] at hc
    exact hc.1
  · rfl
  · have hp : isKeep p = false := by simpa using hk
    rw [realFiles, Std.ExtTreeMap.getElem?_filter', hreal p hp, realFiles,
      Std.ExtTreeMap.getElem?_filter']
    cases files[p]? with
    | none => rfl
    | some c => by_cases hc : sc.contentInScope p c <;> simp [Option.filter, hp, hc]

/-- A supplied sentinel in scope whose directory contains no real file. -/
def Wanted (files : FileMap) (sc : Scope) (p : Path) : Prop :=
  p ∈ files.keys ∧ isKeep p = true ∧ sc.pathInScope p = true ∧ ∀ r ∈ (realFiles files sc).keys,
    ¬ Inside (keepDir p) r

instance (dir : Str) (r : Path) : Decidable (Inside dir r) := inferInstanceAs (Decidable (_ ∨ _))

instance (files : FileMap) (sc : Scope) (p : Path) : Decidable (Wanted files sc p) :=
  inferInstanceAs (Decidable (_ ∧ _))

/-- The output is the real files with an empty sentinel for each that is wanted, and
canonicalizing again changes nothing. -/
def KeepsRule (files : FileMap) (sc : Scope) : Prop :=
  (∀ p, (canonicalizeKeeps files sc)[p]? = if Wanted files sc p then some [] else
      (realFiles files sc)[p]?) ∧
    canonicalizeKeeps (canonicalizeKeeps files sc) sc = canonicalizeKeeps files sc

/-- Each wanted sentinel sorts before the wanted ones nested in its directory. -/
def OuterFirst (files : FileMap) (sc : Scope) : Prop :=
  ∀ p r, Wanted files sc p → Wanted files sc r → p ≠ r → Inside (keepDir p) r → compare p r = .lt

theorem mem_before_iff {p r : Path} {pre post : List Path} (hsplit : files.keys = pre ++ p :: post)
    (hr : r ∈ files.keys) (hne : r ≠ p) : r ∈ pre ↔ compare p r ≠ .lt := by
  have hord := Std.ExtTreeMap.ordered_keys (t := files)
  rw [hsplit] at hord hr
  constructor
  · intro h hlt
    exact Std.OrientedCmp.not_lt_of_lt hlt ((List.pairwise_append.mp hord).2.2 r h p
        List.mem_cons_self)
  · intro hnlt
    rcases List.mem_append.mp hr with h | h
    · exact h
    rcases List.mem_cons.mp h with h | h
    · exact absurd h hne
    · exact absurd ((List.pairwise_cons.mp (List.pairwise_append.mp hord).2.1).1 r h) hnlt

theorem Wanted.nested {p r : Path} (hp : Wanted files sc p) (hr : r ∈ files.keys)
    (hk : isKeep r = true) (hs : sc.pathInScope r = true) (hin : Inside (keepDir p) r) :
    Wanted files sc r :=
  ⟨hr, hk, hs, fun x hx hbeside => hp.2.2.2 x hx (hin.beside hk hbeside)⟩

/-- The rule holds exactly if no nested sentinel is visited before the outer one: the outer
one then finds its directory occupied. -/
theorem keepsRule_iff_outerFirst (files : FileMap) (sc : Scope) : KeepsRule files sc ↔
    OuterFirst files sc := by
  have hmem : ∀ p, isKeep p = true → ((canonicalizeKeeps files sc)[p]? = some [] ↔
      p ∈ (canonicalizeKeeps files sc).keys) := by
    intro p hk
    rw [getElem?_canonicalizeKeeps, if_pos hk]
    simp
  constructor
  · rintro ⟨hrule, -⟩ p r hp hr hne hin
    by_contra hlt
    obtain ⟨pre, post, hsplit⟩ := List.append_of_mem hp.1
    have hkept : p ∈ (canonicalizeKeeps files sc).keys :=
        (hmem p hp.2.1).mp (by rw [hrule, if_pos hp])
    obtain ⟨-, hfree⟩ := (mem_canonicalizeKeeps_keep hp.2.1 hsplit).mp hkept
    -- the nested sentinel has had its turn
    obtain ⟨x, hx, hbeside⟩ := @exists_inside_foldl sc (realFiles files sc) _ _
      ((mem_before_iff hsplit hr.1 hne.symm).mpr hlt) hr.2.1 hr.2.2.1
    rw [occupied_iff.mpr ⟨x, hx, hin.beside hr.2.1 hbeside⟩] at hfree
    cases hfree
  · intro hfirst
    refine ⟨fun p => ?_, canonicalizeKeeps_idem⟩
    have hkeep : isKeep p = true → (p ∈ (canonicalizeKeeps files sc).keys ↔ Wanted files sc p) := by
      intro hk
      constructor
      · intro hin
        rcases mem_foldl_placeKeep hin with h | ⟨hp, -, hs⟩
        · obtain ⟨c, -, h⟩ := mem_realFiles.mp h
          simp [hk] at h
        · refine ⟨hp, hk, hs, fun r hr hinside => ?_⟩
          obtain ⟨pre, post, hsplit⟩ := List.append_of_mem hp
          have hfree := ((mem_canonicalizeKeeps_keep hk hsplit).mp hin).2
          rw [occupied_iff.mpr ⟨r, mem_foldl_placeKeep_of_mem hr, hinside⟩] at hfree
          cases hfree
      · intro hw
        obtain ⟨pre, post, hsplit⟩ := List.append_of_mem hw.1
        refine (mem_canonicalizeKeeps_keep hk hsplit).mpr ⟨hw.2.2.1, ?_⟩
        rw [Bool.eq_false_iff]
        intro hocc
        obtain ⟨r, hr, hinside⟩ := occupied_iff.mp hocc
        rcases mem_foldl_placeKeep hr with h | ⟨hpre, hkr, hsr⟩
        · exact hw.2.2.2 r h hinside
        · have hr : r ∈ files.keys := hsplit ▸ List.mem_append_left _ hpre
          have hne : r ≠ p := by
            rintro rfl
            have hord := Std.ExtTreeMap.ordered_keys (t := files)
            rw [hsplit] at hord
            have hself := (List.pairwise_append.mp hord).2.2 r hpre r List.mem_cons_self
            simp at hself
          exact (mem_before_iff hsplit hr hne).mp hpre
            (hfirst p r hw (hw.nested hr hkr hsr hinside) hne.symm hinside)
    by_cases hk : isKeep p = true
    · rw [getElem?_canonicalizeKeeps, if_pos hk]
      simp only [hkeep hk, realFiles_keep hk]
    · rw [getElem?_canonicalizeKeeps, if_neg hk, if_neg fun hw : Wanted files sc p => hk hw.2.1]

def nestedKeeps : FileMap :=
  ((∅ : FileMap).insert "d/.keep".toList []).insert "d/!x/.keep".toList []

def everything : Scope := { includes := ["**".toList], ignore := [], allowBinary := false }

/-- The outer sentinel is dropped although its directory has no real file. -/
theorem keepsRule_nested :
    Wanted nestedKeeps everything "d/.keep".toList ∧
      (canonicalizeKeeps nestedKeeps everything)["d/.keep".toList]? = none ∧
      ¬ KeepsRule nestedKeeps everything := by
  have hrun : Wanted nestedKeeps everything "d/.keep".toList ∧
      (canonicalizeKeeps nestedKeeps everything)["d/.keep".toList]? = none := by
    decide +kernel
  refine ⟨hrun.1, hrun.2, fun h => ?_⟩
  have hd := h.1 "d/.keep".toList
  rw [if_pos hrun.1, hrun.2] at hd
  cases hd

end Csp
