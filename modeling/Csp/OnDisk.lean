import Csp.Bystanders
import Csp.Materialize

/-! What materializing does to a vault's files, path by path: it carries out the plan that the
in-memory engine hands to its host. An attempt that is cut short is made up for by a later one. -/

namespace Csp
open Result

/-! ### Ordinary paths -/

/-- A path that a scan can name, outside the vault's own directory and not the name of a temporary
file. -/
def Ordinary (p : Path) : Prop :=
  (∀ seg ∈ Split.splitOn '/' p, seg ≠ [] ∧ seg ≠ ['.'] ∧ seg ≠ ['.', '.']) ∧
    ¬ ".ctx-tmp".toList <:+ p ∧
    underContext p = false

instance : DecidablePred Ordinary := fun _ => inferInstanceAs (Decidable (_ ∧ _))

section Paths
variable {root : Key} {p q : Path}

theorem walk_path (d : Disk) (k : Key) : d.walk k.path = some k := by
  have key : ∀ (k start : Key), k.path.foldlM d.walkStep start = some (start ++ k) := by
    intro k
    induction k with
    | nil => exact fun start => congrArg some (List.append_nil start).symm
    | cons name k ih =>
      intro start
      rw [Key.path, List.map_cons, List.foldlM_cons, Disk.walkStep, Option.bind_eq_bind,
        Option.bind_some]
      rw [← Key.path, ih, List.append_assoc, List.singleton_append]
  exact key k []

theorem place_path (k : Key) : place k.path = k :=
  Disk.place_of_walk (walk_path { files := ∅, dirs := ∅, refuses := fun _ => false } k)

theorem components_of_ordinary (root : Key) (hp : Ordinary p) :
    components root p = (root ++ Split.splitOn '/' p).path := by
  have habs : p.head? ≠ some '/' := by
    intro hhead
    obtain ⟨l, rfl⟩ := List.head?_eq_some_iff.mp hhead
    have hempty : [] ∈ Split.splitOn '/' ('/' :: l) := by
      rw [Split.splitOn_cons_self]
      exact List.mem_cons_self
    exact (hp.1 [] hempty).1 rfl
  have hsegs : (Split.splitOn '/' p).filter (fun seg => seg ≠ [] && seg ≠ ['.']) =
      Split.splitOn '/' p := by
    apply List.filter_eq_self.mpr
    intro seg hseg
    simp [(hp.1 seg hseg).1, (hp.1 seg hseg).2.1]
  have hnames : (Split.splitOn '/' p).map component = Key.path (Split.splitOn '/' p) :=
    List.map_congr_left fun seg hseg => if_neg (hp.1 seg hseg).2.2
  rw [components, if_neg habs, hsegs, hnames, Key.path, Key.path, Key.path, List.map_append]

theorem namesEntry_of_ordinary (hp : Ordinary p) : namesEntry p = true := by
  have hne := Split.splitOn_ne_nil '/' p
  obtain ⟨hempty, hdot, hdots⟩ := hp.1 _ (List.getLast_mem hne)
  rw [namesEntry, List.getLast?_eq_some_getLast hne]
  simp [hempty, hdot, hdots]

theorem fileKey_of_ordinary (d : Disk) (root : Key) (hp : Ordinary p) :
    d.fileKey root p = some (root ++ Split.splitOn '/' p) := by
  rw [Disk.fileKey, if_pos (namesEntry_of_ordinary hp), components_of_ordinary root hp, walk_path]

theorem placeOf_of_ordinary (root : Key) (hp : Ordinary p) :
    placeOf root p = some (root ++ Split.splitOn '/' p) := by
  rw [placeOf, if_pos (namesEntry_of_ordinary hp), components_of_ordinary root hp, place_path]

theorem placeOf_injective (hp : Ordinary p) (hq : Ordinary q)
    (h : placeOf root p = placeOf root q) :
    p = q := by
  rw [placeOf_of_ordinary root hp, placeOf_of_ordinary root hq, Option.some.injEq,
    List.append_cancel_left_eq] at h
  exact Split.splitOn_injective '/' h

theorem tempPath_of_ordinary (root : Key) (hp : Ordinary p) : ∃ name, DiskM.tempPath root p =
    Key.path (root ++ ((Split.splitOn '/' p).dropLast ++ [name ++ ".ctx-tmp".toList])) := by
  have hne := Split.splitOn_ne_nil '/' p
  refine ⟨fileStem ((Split.splitOn '/' p).getLast hne), ?_⟩
  have hlast : (components root p).getLast? = some
      (.normal ((Split.splitOn '/' p).getLast hne)) := by
    rw [components_of_ordinary root hp, Key.path, List.getLast?_map,
      List.getLast?_append_of_ne_nil _ hne,
      List.getLast?_eq_some_getLast hne]
    rfl
  rw [DiskM.tempPath, withExtension, hlast]
  simp only
  rw [components_of_ordinary root hp, Key.path, Key.path, ← List.map_dropLast,
    List.dropLast_append_of_ne_nil hne, ← List.append_assoc, List.map_append]
  rw [List.map_append, List.map_append]
  rfl

theorem placeOf_ne_temp (hp : Ordinary p) (hq : Ordinary q) :
    placeOf root q ≠ some (place (DiskM.tempPath root p)) := by
  obtain ⟨name, htemp⟩ := tempPath_of_ordinary root hp
  intro h
  rw [placeOf_of_ordinary root hq, htemp, place_path, Option.some.injEq,
    List.append_cancel_left_eq] at h
  have hsuffix := Split.suffix_join '/' (Split.splitOn '/' p).dropLast (name ++ ".ctx-tmp".toList)
  rw [← h, Split.join_splitOn] at hsuffix
  exact hq.2.1 ((List.suffix_append name _).trans hsuffix)

end Paths

/-! ### The writer at its own place -/

namespace DiskM

theorem refuses_writeAtomic (root : Key) (p : Path) (content : Bytes) (d : Disk) :
    (writeAtomic root p content d).2.refuses = d.refuses := by
  have htrans : ∀ d e f : Disk, e.refuses = d.refuses → f.refuses = e.refuses →
      f.refuses = d.refuses :=
    fun _ _ _ h h' => h'.trans h
  have hwrite : ∀ target c (d : Disk), (write target c d).2.refuses = d.refuses := by
    intro target c d
    rw [write_run]
    split
    · rfl
    · rfl
  rw [writeAtomic_eq, writeTemp]
  apply run_bind_induction (fun d e : Disk => e.refuses = d.refuses) htrans
  · apply run_bind_induction (fun d e : Disk => e.refuses = d.refuses) htrans
      (createDirAll_frame _ d).2
    intro _ d' _
    rw [run_bind_of_ok (run_get d')]
    exact hwrite _ _ d'
  · intro _ d' _
    rw [run_bind_of_ok (run_get d')]
    exact refuses_rename _ _ d'

theorem files_writeAtomic_target {root k : Key} {p : Path} (hk : placeOf root p = some k)
    (htemp : place (tempPath root p) ≠ k) (content : Bytes) (d : Disk) :
    (writeAtomic root p content d).2.files[k]? =
      if (writeAtomic root p content d).1 = .ok () then some content else d.files[k]? := by
  have hrun := writeTemp_run root p content d
  have hsame : (writeTemp root p content d).2.files[k]? = d.files[k]? := by
    cases hopen : tempOf root p d with
    | none =>
      rw [hopen] at hrun
      rw [hrun.2]
    | some t =>
      rw [hopen] at hrun
      have hne : t ≠ k := fun h => htemp ((place_of_tempOf hopen).trans h)
      rw [hrun.1, Std.ExtTreeMap.getElem?_insert, if_neg (by simpa using hne)]
  rw [writeAtomic_eq, run_bind]
  rcases hwrite : writeTemp root p content d with ⟨e | _, d'⟩
  · rw [hwrite] at hsame
    rw [if_neg (by simp)]
    exact hsame
  rw [hwrite] at hrun hsame
  simp only [run_bind_of_ok (run_get d')]
  rcases rename_cases (d'.walk (tempPath root p)) (d'.fileKey root p) d' with
    h | ⟨a, b, c, hsource, htarget, hc, -, h⟩
  · simp only [h]
    rw [if_neg (by simp)]
    exact hsame
  · obtain rfl : b = k := Option.some.inj ((Disk.placeOf_of_fileKey htarget).symm.trans hk)
    have hcontent : c = content := by
      cases hopen : tempOf root p d with
      | none =>
        rw [hopen] at hrun
        exact absurd rfl hrun.1
      | some t =>
        rw [hopen] at hrun
        obtain ⟨hwalk, hwritten⟩ := hrun.2 rfl
        obtain rfl : a = t := Option.some.inj (hsource.symm.trans hwalk)
        rw [show d'.files = _ from hrun.1, hwritten, Std.ExtTreeMap.getElem?_insert_self] at hc
        exact (Option.some.inj hc).symm
    simp only [h]
    rw [if_pos True.intro, hcontent]
    exact Std.ExtTreeMap.getElem?_insert_self

end DiskM

variable {Oid : Type} [ObjectId Oid]

theorem EngineState.materialized_addKnown (st : EngineState Oid) (o : Oid) :
    (st.addKnown o).materialized = st.materialized := by
  rw [EngineState.addKnown]
  split_ifs <;> rfl

namespace Vault
variable {v w : Vault Oid} {p q : Path}

def file (v : Vault Oid) (p : Path) : Option Bytes :=
  (placeOf v.root p).bind fun k => v.disk.files[k]?

def cell (v : Vault Oid) (p : Path) : Option Bytes × Option Oid :=
  (v.file p, v.state.materialized[p]?)

def unread (v : Vault Oid) (p : Path) : Bool :=
  (placeOf v.root p).any fun k => v.disk.refuses (.readFile k)

def unremoved (v : Vault Oid) (p : Path) : Bool :=
  (placeOf v.root p).any fun k => v.disk.refuses (.removeFile k)

theorem readPath_eq (v : Vault Oid) (hp : Ordinary p) :
    v.disk.readPath v.root p = if v.unread p then none else v.file p := by
  rw [Disk.readPath, unread, file, fileKey_of_ordinary v.disk v.root hp,
    placeOf_of_ordinary v.root hp]
  simp [Disk.read]

/-- The same place on a disk that refuses the same. -/
structure Stands (v w : Vault Oid) : Prop where
  root : w.root = v.root
  refuses : w.disk.refuses = v.disk.refuses

theorem Stands.refl (v : Vault Oid) : v.Stands v := ⟨rfl, rfl⟩

theorem Stands.trans {u : Vault Oid} (h : u.Stands v) (h' : v.Stands w) : u.Stands w :=
  ⟨h'.root.trans h.root, h'.refuses.trans h.refuses⟩

theorem Stands.unread_eq (h : v.Stands w) (p : Path) :
    w.unread p = v.unread p := by rw [unread, unread, h.root, h.refuses]

theorem Stands.unremoved_eq (h : v.Stands w) (p : Path) : w.unremoved p = v.unremoved p := by
  rw [unremoved, unremoved, h.root, h.refuses]

end Vault

/-! ### One path -/

/-- What an operation makes of the file at its path; a removal may be refused. -/
def carryOut (unremoved : Bool) (f : Option Bytes) : MaterializeOp → Option Bytes
  | .remove p => if unremoved then f else MaterializeOp.apply f (.remove p)
  | op => op.apply f

def followed (p : Path) (wanted : Option Bytes) (unread unremoved : Bool)
    (c : Option Bytes × Option Oid) :
    Option Bytes × Option Oid :=
  ((MemEngine.planAt p wanted (if unread then none else c.1) c.2).1.foldl (carryOut unremoved) c.1,
    (MemEngine.planAt p wanted (if unread then none else c.1) c.2).2)

variable {p q : Path} {wanted : Option Bytes} {unread unremoved : Bool}

theorem followed_unrecorded (f : Option Bytes) : followed p none unread unremoved
    (f, (none : Option Oid)) = (f, none) := by
  simp [followed, MemEngine.planAt, MemEngine.removalAt]

theorem followed_none (f : Option Bytes) (r : Option Oid) :
    followed p none unread unremoved (f, r) = (if r ≠ none ∧
      (if unread then none else f.map blobHash) = r ∧
    unremoved = false then none else f, none) := by
  unfold followed MemEngine.planAt MemEngine.removalAt
  cases unread with
  | true =>
    have hnone : ¬ (r ≠ none ∧ (none : Option Bytes).map (@blobHash Oid _) = r) := fun h =>
        h.1 h.2.symm
    have hnone' : ¬ (r ≠ none ∧ (none : Option Oid) = r ∧ unremoved = false) := fun h =>
        h.1 h.2.1.symm
    simp only [if_true]
    rw [if_neg hnone, if_neg hnone', List.foldl_nil]
  | false =>
    simp only [Bool.false_eq_true, if_false]
    cases unremoved <;> split_ifs <;> simp_all [carryOut, MaterializeOp.apply]

theorem followed_some (c : Bytes) (f : Option Bytes) (r : Option Oid) :
    followed p (some c) unread unremoved (f, r) = if unread = false ∧ f ≠ none ∧ f ≠ some c ∧
    f.map blobHash ≠ r then (f, r) else (some c, some (blobHash c)) := by
  unfold followed MemEngine.planAt MemEngine.writeAt
  cases unread <;> simp only [] <;> split_ifs <;> simp_all [carryOut, MaterializeOp.apply]

theorem followed_again (c : Option Bytes × Option Oid) (r : Option Oid)
    (hr : r = c.2 ∨ r = (followed p wanted unread unremoved c).2) :
    followed p wanted unread unremoved ((followed p wanted unread unremoved c).1, r) =
    followed p wanted unread unremoved c := by
  obtain ⟨f, r₀⟩ := c
  cases wanted with
  | none =>
    simp only [followed_none] at hr ⊢
    rcases hr with rfl | rfl <;> split_ifs <;> simp_all
  | some c =>
    simp only [followed_some] at hr ⊢
    rcases hr with rfl | rfl <;> split_ifs <;> simp_all

theorem followed_settled (f : Option Bytes) :
    followed p wanted false false (f, f.map (@blobHash Oid _)) = (wanted, wanted.map blobHash) := by
  cases wanted with
  | none =>
    rw [followed_none]
    cases f <;> simp
  | some c =>
    rw [followed_some, if_neg (by simp)]
    rfl

theorem followed_same (r : Option Oid) : followed p wanted false false (wanted, r) =
    (wanted, wanted.map blobHash) := by
  cases wanted with
  | none => simp [followed_none]
  | some c => simp [followed_some]

/-! ### One turn -/

namespace Vault
variable {v w : Vault Oid} {want : FileMap}

theorem stands_materializeRemoval (want : FileMap) (v : Vault Oid) (p : Path) :
    v.Stands (materializeRemoval want v p) := by
  have hprune : ∀ (root : PathBuf) n cur (d : Disk),
      (Disk.pruneEmptyDirs root n cur d).refuses = d.refuses := by
    intro root n
    induction n with
    | zero => exact fun _ _ => rfl
    | succ n ih =>
      intro cur d
      rw [Disk.pruneEmptyDirs]
      split_ifs
      · rfl
      · split
        · split_ifs
          · exact ih _ _
          · rfl
        · rfl
  have hremove : ∀ root p (d : Disk), (d.removePath root p).refuses = d.refuses := by
    intro root p d
    rw [Disk.removePath]
    split
    · rw [Disk.removeFile]
      split_ifs
      · rfl
      · rfl
    · rfl
  refine ⟨(filed_materializeRemoval want v p).root, ?_⟩
  unfold materializeRemoval
  split_ifs
  · rfl
  · simp only
    split
    · split_ifs
      · rw [hprune, hremove]
      · rfl
    · rfl

theorem stands_materializeWrite (f : Path × Bytes) (v : Vault Oid) :
    v.Stands (materializeWrite f v).2 := by
  refine ⟨(filed_materializeWrite f v).root, ?_⟩
  cases hdue : v.due f with
  | false => rw [disk_materializeWrite hdue]
  | true =>
    have hrefuses := DiskM.refuses_writeAtomic v.root f.1 f.2 v.disk
    rw [materializeWrite_of_due hdue]
    rcases hrun : DiskM.writeAtomic v.root f.1 f.2 v.disk with ⟨_ | _, disk⟩
    · rw [hrun] at hrefuses
      exact hrefuses
    · rw [hrun] at hrefuses
      exact hrefuses

theorem file_materializeRemoval {v : Vault Oid} (hw : want.contains p = false) (hp : Ordinary p) :
    (materializeRemoval want v p).file p =
      if v.state.materialized[p]? ≠ none ∧
        (if v.unread p then none else (v.file p).map blobHash) = v.state.materialized[p]? ∧
        v.unremoved p = false
      then none else v.file p := by
  have hplace := placeOf_of_ordinary v.root hp
  have hread := readPath_eq v hp
  have hroot := (filed_materializeRemoval want v p).root
  have hfile : v.file p = v.disk.files[v.root ++ Split.splitOn '/' p]? := by
    rw [file, hplace]
    rfl
  have hremoved : v.unremoved p = v.disk.refuses (.removeFile (v.root ++ Split.splitOn '/' p)) := by
    rw [unremoved, hplace]
    rfl
  have hafter : (materializeRemoval want v p).file p =
      (materializeRemoval want v p).disk.files[v.root ++ Split.splitOn '/' p]? := by
    rw [file, hroot, hplace]
    rfl
  rw [hafter, materializeRemoval, if_neg (by simp [hw])]
  simp only
  cases hd : v.disk.readPath v.root p with
  | none =>
    rw [hd] at hread
    rw [if_neg, hfile]
    rintro ⟨hsome, heq, -⟩
    split_ifs at hread heq
    · exact hsome heq.symm
    · rw [← hread] at heq
      exact hsome heq.symm
  | some d =>
    rw [hd] at hread
    split_ifs at hread with hunread
    rw [if_neg hunread, ← hread]
    simp only [Option.map_some]
    by_cases hhash : some (blobHash d) = v.state.materialized[p]?
    · rw [if_pos hhash, Disk.files_pruneEmptyDirs, Disk.removePath,
        fileKey_of_ordinary v.disk v.root hp]
      simp only
      rw [Disk.removeFile, ← hremoved]
      by_cases hkept : v.unremoved p = true
      · rw [if_pos hkept, if_neg (by simp [hkept]), ← hfile, hread]
      · rw [if_neg hkept, if_pos ⟨by simp [← hhash], hhash, by simpa using hkept⟩]
        exact Std.ExtTreeMap.getElem?_erase_self
    · rw [if_neg hhash, if_neg fun h => hhash h.2.1, ← hfile, hread]

theorem cell_materializeRemoval (want : FileMap) (v : Vault Oid) (hp : Ordinary p)
    (hq : Ordinary q) :
    (materializeRemoval want v p).cell q =
      if p = q then
        if want.contains p then v.cell p
        else followed p none (v.unread p) (v.unremoved p) (v.cell p)
      else v.cell q := by
  by_cases hw : want.contains p = true
  · rw [materializeRemoval, if_pos hw, if_pos hw]
    split_ifs with hpq
    · rw [hpq]
    · rfl
  rw [if_neg hw]
  by_cases hpq : p = q
  · subst hpq
    rw [if_pos rfl, cell, followed_none]
    refine Prod.ext ?_ ?_
    · exact file_materializeRemoval (Bool.eq_false_iff.mpr hw) hp
    · rw [materializeRemoval, if_neg hw]
      exact Std.ExtTreeMap.getElem?_erase_self
  · rw [if_neg hpq]
    have hfile : (materializeRemoval want v p).file q = v.file q := by
      unfold file
      rw [(filed_materializeRemoval want v p).root]
      cases hk : placeOf v.root q with
      | none => rfl
      | some k =>
        exact files_materializeRemoval want fun h =>
          hpq (placeOf_injective hp hq (h.trans hk.symm))
    have hrecord : (materializeRemoval want v p).state.materialized[q]? = v.state.materialized[q]? := by
      rw [materializeRemoval, if_neg hw]
      exact (Std.ExtTreeMap.getElem?_erase ..).trans (if_neg (by simpa using hpq))
    rw [cell, cell, hfile, hrecord]

theorem cell_record (content : Bytes) (v : Vault Oid) :
    (record p content v).cell q = if p = q then (v.file q, some (blobHash content)) else
    v.cell q := by
  have hrecord : (record p content v).cell q =
      (v.file q, (v.state.materialized.insert p (blobHash content))[q]?) := rfl
  rw [hrecord, Std.ExtTreeMap.getElem?_insert]
  by_cases hpq : p = q
  · subst hpq
    simp
  · rw [if_neg (by simpa using hpq), if_neg hpq]
    rfl

theorem file_writeAtomic (v : Vault Oid) (content : Bytes) (hp : Ordinary p) (hq : Ordinary q) :
    ({ v with disk := (DiskM.writeAtomic v.root p content v.disk).2 } : Vault Oid).file q =
      if (DiskM.writeAtomic v.root p content v.disk).1 = .ok () ∧
      p = q then some content else v.file q := by
  have hplace := placeOf_of_ordinary v.root hq
  have hne : place (DiskM.tempPath v.root p) ≠ v.root ++ Split.splitOn '/' q := fun h =>
    placeOf_ne_temp hp hq (hplace.trans (congrArg some h.symm))
  unfold file
  simp only
  rw [hplace, Option.bind_some, Option.bind_some]
  by_cases hpq : p = q
  · subst hpq
    rw [DiskM.files_writeAtomic_target hplace hne]
    simp
  · have hother : placeOf v.root p ≠ some (v.root ++ Split.splitOn '/' q) := fun h =>
      hpq (placeOf_injective hp hq (h.trans hplace.symm))
    rw [DiskM.files_writeAtomic hother, if_neg fun h => hne (DiskM.place_of_tempOf h),
      if_neg fun h => hpq h.2]

theorem cell_materializeWrite (v : Vault Oid) (content : Bytes) (hp : Ordinary p) (hq : Ordinary q)
    (hok : (materializeWrite (p, content) v).1 = .ok ()) :
    (materializeWrite (p, content) v).2.cell q =
      if p = q then followed p (some content) (v.unread p) (v.unremoved p)
      (v.cell p) else v.cell q := by
  have hwritten : v.due (p, content) = true → (materializeWrite (p, content) v).2.cell q =
      if p = q then (some content, some (blobHash content)) else v.cell q := by
    intro hdue
    have hfile := file_writeAtomic v content hp hq
    rw [materializeWrite_of_due hdue] at hok ⊢
    rcases hrun : DiskM.writeAtomic v.root p content v.disk with ⟨_ | _, disk⟩
    · rw [hrun] at hok
      cases hok
    · rw [hrun] at hfile
      simp only [true_and] at hfile
      simp only
      rw [cell_record, hfile]
      split_ifs with hpq
      · rfl
      · rw [cell, hfile, if_neg hpq]
        rfl
  have hread := readPath_eq v hp
  have hturn : followed p (some content) (v.unread p) (v.unremoved p) (v.cell p) = _ :=
      followed_some content (v.file p) _
  cases hd : v.disk.readPath v.root p with
  | none =>
    rw [hd] at hread
    rw [if_neg] at hturn
    · rw [hturn]
      exact hwritten (by rw [due, hd])
    · rintro ⟨hunread, hfile, -⟩
      rw [hunread] at hread
      exact hfile hread.symm
  | some d =>
    rw [hd] at hread
    split_ifs at hread with hunread
    rw [← hread] at hturn
    by_cases heq : d = content
    · -- the file is there already
      have hrun : materializeWrite (p, content) v = (.ok (), record p content v) := by
        rw [materializeWrite_run]
        simp only [hd]
        rw [if_neg fun h => h.2 heq, if_pos heq]
      rw [if_neg fun h => h.2.2.1 (congrArg some heq)] at hturn
      rw [hrun, hturn, cell_record]
      split_ifs with hpq
      · rw [← hpq, ← hread, heq]
      · rfl
    · by_cases hhash : some (blobHash d) = v.state.materialized[p]?
      · rw [if_neg fun h => h.2.2.2 hhash] at hturn
        rw [hturn]
        exact hwritten (by simp [due, hd, heq, hhash])
      · -- an edit that `main` does not have stays
        have hrun : materializeWrite (p, content) v = (.ok (), v) := by
          rw [materializeWrite_run]
          simp only [hd]
          rw [if_pos ⟨hhash, heq⟩]
        rw [if_pos ⟨by simpa using hunread, by simp, by simpa using heq, hhash⟩] at hturn
        rw [hrun, hturn]
        split_ifs with hpq
        · rw [← hpq, hread]
          rfl
        · rfl

theorem cell_materializeWrite_failed (v : Vault Oid) (content : Bytes) (hp : Ordinary p)
    (hq : Ordinary q) (hfail : (materializeWrite (p, content) v).1 ≠ .ok ()) :
    (materializeWrite (p, content) v).2.cell q = v.cell q := by
  cases hdue : v.due (p, content) with
  | false =>
    refine absurd ?_ hfail
    rw [materializeWrite_run]
    simp only
    rw [due] at hdue
    split
    · rename_i d hd
      rw [hd] at hdue
      split_ifs with hheld heq
      · rfl
      · rfl
      · simp only [ne_eq, Bool.and_eq_false_iff, decide_eq_false_iff_not, not_not] at hdue
        exact absurd ⟨fun h => hdue.elim (absurd · heq) (absurd h), heq⟩ hheld
    · rename_i hd
      rw [hd] at hdue
      cases hdue
  | true =>
    have hfile := file_writeAtomic v content hp hq
    rw [materializeWrite_of_due hdue] at hfail ⊢
    rcases hrun : DiskM.writeAtomic v.root p content v.disk with ⟨e | _, disk⟩
    · rw [hrun, if_neg (by simp)] at hfile
      exact Prod.ext hfile rfl
    · rw [hrun] at hfail
      exact absurd rfl hfail

/-! ### The whole of it -/

def Wants (v : Vault Oid) (want : FileMap) : Prop :=
  ∃ m tree, v.mainRef = some m ∧ mainTree v.store m = .ok tree ∧ treeFiles v.store tree = .ok want

/-- `main` and the record name ordinary paths. -/
def Plain (v : Vault Oid) (want : FileMap) : Prop :=
  (∀ p ∈ want.keys, Ordinary p) ∧ ∀ p ∈ v.state.materialized.keys, Ordinary p

theorem cell_removals (h : v.Plain want) (hq : Ordinary q) :
    (v.state.materialized.keys.foldl (materializeRemoval want) v).cell q =
      if want.contains q then v.cell q else followed q none (v.unread q) (v.unremoved q)
      (v.cell q) := by
  rw [Cells.look_foldl_of cell v.Stands id
    (fun c p => if want.contains p then c else followed p none (v.unread p) (v.unremoved p) c)
    (fun w p _ hw => hw.trans (stands_materializeRemoval want w p)) ?_ (.refl v)]
  · simp only [id]
    rw [MemEngine.filter_keys]
    by_cases hrec : v.state.materialized.contains q = true
    · rw [if_pos hrec, List.foldl_cons, List.foldl_nil]
    · have hnone : v.state.materialized[q]? = none := by simpa using hrec
      rw [if_neg hrec, List.foldl_nil, cell, hnone, followed_unrecorded, ite_self]
  · intro w p hp hw
    rw [cell_materializeRemoval want w (h.2 p hp) hq, hw.unread_eq, hw.unremoved_eq]
    by_cases hpq : p = q
    · subst hpq
      rfl
    · rw [if_neg hpq, if_neg (by simpa using hpq)]

theorem plain_removals (h : v.Plain want) (ps : List Path) :
    v.Stands (ps.foldl (materializeRemoval want) v) ∧
    (ps.foldl (materializeRemoval want) v).Plain want := by
  induction ps generalizing v with
  | nil => exact ⟨.refl v, h⟩
  | cons p ps ih =>
    have hstep : (materializeRemoval want v p).Plain want := by
      refine ⟨h.1, fun q hq => ?_⟩
      unfold materializeRemoval at hq
      split_ifs at hq
      · exact h.2 q hq
      · exact h.2 q (Std.ExtTreeMap.mem_keys.mpr
            (Std.ExtTreeMap.mem_of_mem_erase (Std.ExtTreeMap.mem_keys.mp hq)))
    exact ⟨(stands_materializeRemoval want v p).trans (ih hstep).1, (ih hstep).2⟩

theorem plain_materializeWrite (h : v.Plain want) {f : Path × Bytes} (hf : Ordinary f.1) :
    (materializeWrite f v).2.Plain want := by
  have hrecord : ∀ disk, ((record f.1 f.2 { v with disk }) : Vault Oid).Plain want := by
    intro disk
    refine ⟨h.1, fun q hq => ?_⟩
    rcases Std.ExtTreeMap.mem_insert.mp (Std.ExtTreeMap.mem_keys.mp hq) with hq | hq
    · rwa [← Std.LawfulEqCmp.eq_of_compare hq]
    · exact h.2 q (Std.ExtTreeMap.mem_keys.mpr hq)
  rw [show f = (f.1, f.2) from rfl, materializeWrite_run]
  simp only
  split
  · split_ifs
    · exact h
    · exact hrecord v.disk
    · split
      · exact hrecord _
      · exact ⟨h.1, h.2⟩
  · split
    · exact hrecord _
    · exact ⟨h.1, h.2⟩

/-- The files of `main` up to one that cannot be written get their turn. -/
theorem cell_writes (h : v.Plain want) :
    ∃ done rest, want.toList = done ++ rest ∧ ((want.toList.forM materializeWrite v).1 = .ok () ↔
      rest = []) ∧
      (v.Stands (want.toList.forM materializeWrite v).2 ∧
        (want.toList.forM materializeWrite v).2.Plain want) ∧
      ∀ q, Ordinary q → (want.toList.forM materializeWrite v).2.cell q =
        (done.filter fun f => f.1 = q).foldl (fun c f => followed f.1 (some f.2) (v.unread f.1)
          (v.unremoved f.1) c)
          (v.cell q) := by
  have hord : ∀ f ∈ want.toList, Ordinary f.1 := fun f hf => h.1 f.1 (mem_keys_of_mem_toList hf)
  apply Cells.look_forM cell (fun w => v.Stands w ∧ w.Plain want) Prod.fst
  · exact fun w f hf hw => ⟨hw.1.trans (stands_materializeWrite f w), plain_materializeWrite hw.2
      (hord f hf)⟩
  · intro w f hf hw hok q hq
    rw [show f = (f.1, f.2) from rfl] at hok ⊢
    rw [cell_materializeWrite w f.2 (hord f hf) hq hok, hw.1.unread_eq, hw.1.unremoved_eq]
    split_ifs with hfq
    · rw [hfq]
    · rfl
  · intro w f hf _ hfail q hq
    exact cell_materializeWrite_failed w f.2 (hord f hf) hq hfail
  · exact ⟨.refl v, h⟩

theorem save_frame (v : Vault Oid) : (save v).2.disk = v.disk ∧ (save v).2.state = v.state := by
  rw [save]
  split_ifs
  · exact ⟨rfl, rfl⟩
  · exact ⟨rfl, rfl⟩

/-- Materializing carries out the plan at every ordinary path, up to a file that cannot be
written. -/
theorem cell_materialize (hw : v.Wants want) (h : v.Plain want) :
    ∃ rest : List (Path × Bytes), ((materialize v).1 = .ok () → rest = []) ∧
      (v.Stands (materialize v).2 ∧ (materialize v).2.Plain want) ∧
      ∀ q, Ordinary q → (materialize v).2.cell q =
        if q ∈ rest.map Prod.fst then v.cell q
        else followed q want[q]? (v.unread q) (v.unremoved q) (v.cell q) := by
  obtain ⟨m, tree, hm, htree, hfiles⟩ := hw
  obtain ⟨hstands, hplain⟩ := plain_removals h v.state.materialized.keys
  obtain ⟨done, rest, hsplit, hok, ⟨hstands', hplain'⟩, hcells⟩ := cell_writes hplain
  have hcell : ∀ q, Ordinary q →
      (want.toList.forM materializeWrite (v.state.materialized.keys.foldl
        (materializeRemoval want) v)).2.cell q =
        if q ∈ rest.map Prod.fst then v.cell q
        else followed q want[q]? (v.unread q) (v.unremoved q) (v.cell q) := by
    intro q hq
    -- a path is wanted at most once, so it is among the writes done or among the rest
    have hone := MemEngine.filter_toList want q
    rw [hsplit, List.filter_append] at hone
    rw [hcells q hq, cell_removals h hq]
    have hrest : q ∈ rest.map Prod.fst ↔ (rest.filter fun f => f.1 = q) ≠ [] := by
      rw [List.mem_map, ne_eq, List.filter_eq_nil_iff]
      simp
    have hcontains : want.contains q = want[q]?.isSome := Std.ExtTreeMap.contains_eq_isSome_getElem?
    cases hwant : want[q]? with
    | none =>
      rw [hwant] at hone hcontains
      obtain ⟨hdone, hrest'⟩ := List.append_eq_nil_iff.mp hone
      rw [hdone, if_neg (by simp [hcontains]), if_neg (by simp [hrest, hrest'])]
      rfl
    | some c =>
      rw [hwant] at hone hcontains
      rw [if_pos (by simp [hcontains])]
      rcases List.append_eq_singleton_iff.mp hone with ⟨hdone, hrest'⟩ | ⟨hdone, hrest'⟩
      · rw [hdone, if_pos (hrest.mpr (by simp [hrest']))]
        rfl
      · rw [hdone, if_neg (by simp [hrest, hrest']), List.foldl_cons, List.foldl_nil,
          hstands.unread_eq,
          hstands.unremoved_eq]
  rcases hloop : want.toList.forM materializeWrite
    (v.state.materialized.keys.foldl (materializeRemoval want) v) with
    ⟨e | _, w⟩
  -- a failed write leaves the rest as it was, and no save is made
  · have hrun : materialize v = (.error e, w) := by
      rw [materialize_run, hm]
      simp only [htree, hfiles, hloop]
    rw [hloop] at hok hstands' hplain' hcell
    rw [hrun]
    exact ⟨rest, hok.mp, ⟨hstands.trans hstands', hplain'⟩, hcell⟩
  · have hrun : materialize v = save w := by
      rw [materialize_run, hm]
      simp only [htree, hfiles, hloop]
    rw [hloop] at hok hstands' hplain' hcell
    obtain ⟨hsame, hrecord⟩ := save_frame w
    have hstill : w.Stands (save w).2 := ⟨(filed_save w).root, congrArg Disk.refuses hsame⟩
    rw [hrun]
    refine ⟨rest, fun _ => hok.mp rfl, ⟨(hstands.trans hstands').trans hstill, hplain'.1, ?_⟩,
      fun q hq => ?_⟩
    · rw [hrecord]
      exact hplain'.2
    · rw [cell, file, hrecord, hsame, (filed_save w).root]
      exact hcell q hq

theorem materialized_savedState (v : Vault Oid) :
    v.savedState.materialized = v.state.materialized := by
  rw [savedState]
  split_ifs
  · rfl
  · rfl

theorem saved_materialize (hw : v.Wants want) : (materialize v).2.saved.materialized =
    if (materialize v).1 = .ok () then (materialize v).2.state.materialized else
    v.saved.materialized := by
  have hremovals : ∀ (ps : List Path) (u : Vault Oid),
      (ps.foldl (materializeRemoval want) u).saved = u.saved := by
    intro ps
    induction ps with
    | nil => exact fun u => rfl
    | cons p ps ih =>
      intro u
      rw [List.foldl_cons, ih, materializeRemoval]
      split_ifs <;> rfl
  have hwrite : ∀ (f : Path × Bytes) (u : Vault Oid), (materializeWrite f u).2.saved = u.saved := by
    intro f u
    rw [show f = (f.1, f.2) from rfl, materializeWrite_run]
    simp only
    split
    · split_ifs
      · rfl
      · rfl
      · split <;> rfl
    · split <;> rfl
  have hwrites := run_forM_induction (fun u w : Vault Oid => w.saved = u.saved) (fun _ => rfl)
    (fun _ _ _ h h' => h'.trans h) hwrite want.toList
    (v.state.materialized.keys.foldl (materializeRemoval want) v)
  rw [hremovals] at hwrites
  obtain ⟨m, tree, hm, htree, hfiles⟩ := hw
  rw [materialize_run, hm]
  simp only [htree, hfiles]
  rcases hloop : want.toList.forM materializeWrite
    (v.state.materialized.keys.foldl (materializeRemoval want) v) with
    ⟨e | _, w⟩
  · rw [hloop] at hwrites
    rw [if_neg (by simp)]
    exact congrArg EngineState.materialized hwrites
  · rw [hloop] at hwrites
    simp only [save]
    by_cases hrefused : w.disk.refuses .saveState = true
    · simp only [if_pos hrefused]
      rw [if_neg (by simp)]
      exact congrArg EngineState.materialized hwrites
    · simp only [if_neg hrefused]
      rw [if_pos True.intro]
      exact materialized_savedState w

/-! ### Attempts that are cut short -/

def under (v : Vault Oid) (refuses : Call → Bool) : Vault Oid :=
  { v with disk := { v.disk with refuses } }

/-- The disk lets the same files be read and removed. -/
def Grants (v : Vault Oid) (refuses : Call → Bool) : Prop :=
  ∀ k, refuses (.readFile k) = v.disk.refuses (.readFile k) ∧
    refuses (.removeFile k) = v.disk.refuses (.removeFile k)

/-- Attempts to materialize. What the disk does not let be created, written or moved may change
from one to the next, and the process may end and open the vault again. -/
inductive Attempts [Crates] (v : Vault Oid) : Vault Oid → Prop
  | start : Attempts v v
  | again {u : Vault Oid} (h : Attempts v u) {refuses : Call → Bool} (hr : v.Grants refuses) :
      Attempts v (materialize (u.under refuses)).2
  | reopen {u : Vault Oid} (h : Attempts v u) (id : Identity) : Attempts v (u.reopen id)

/-- Each path is as at first or as it is to be; the record, in memory and on file, may lag. -/
structure Halfway (v : Vault Oid) (want : FileMap) (u : Vault Oid) : Prop where
  root : u.root = v.root
  grants : v.Grants u.disk.refuses
  mainRef : u.mainRef = v.mainRef
  store : u.store = v.store
  plain : u.Plain want ∧ ∀ p ∈ u.saved.materialized.keys, Ordinary p
  cells : ∀ q, Ordinary q → u.cell q = v.cell q ∨
    u.file q = (followed q want[q]? (v.unread q) (v.unremoved q) (v.cell q)).1 ∧
      (u.state.materialized[q]? = v.state.materialized[q]? ∨
        u.state.materialized[q]? = (followed q want[q]? (v.unread q) (v.unremoved q) (v.cell q)).2)
  saved : ∀ q, Ordinary q → u.saved.materialized[q]? = v.state.materialized[q]? ∨
    u.file q = (followed q want[q]? (v.unread q) (v.unremoved q) (v.cell q)).1 ∧
      u.saved.materialized[q]? = (followed q want[q]? (v.unread q) (v.unremoved q) (v.cell q)).2

variable {u : Vault Oid}

theorem Halfway.unread_eq (h : v.Halfway want u) (p : Path) : u.unread p = v.unread p := by
  rw [unread, unread, h.root]
  exact congrArg (fun f => Option.any f _) (funext fun k => (h.grants k).1)

theorem Halfway.under (h : v.Halfway want u) {refuses : Call → Bool} (hr : v.Grants refuses) :
    v.Halfway want (u.under refuses) :=
  ⟨h.root, hr, h.mainRef, h.store, h.plain, h.cells, h.saved⟩

theorem Halfway.wants (h : v.Halfway want u) (hw : v.Wants want) : u.Wants want := by
  obtain ⟨m, tree, hm, htree, hfiles⟩ := hw
  exact ⟨m, tree, h.mainRef.trans hm, h.store ▸ htree, h.store ▸ hfiles⟩

theorem Halfway.followed_eq (h : v.Halfway want u) {q : Path} (hq : Ordinary q) :
    followed q want[q]? (u.unread q) (u.unremoved q) (u.cell q) =
      followed q want[q]? (v.unread q) (v.unremoved q) (v.cell q) := by
  have hremoved : u.unremoved q = v.unremoved q := by
    rw [unremoved, unremoved, h.root]
    exact congrArg (fun f => Option.any f _) (funext fun k => (h.grants k).2)
  rw [h.unread_eq, hremoved]
  rcases h.cells q hq with hcell | ⟨hfile, hrecord⟩
  · rw [hcell]
  · rw [cell, hfile]
    exact followed_again (v.cell q) _ hrecord

theorem Halfway.materialize (h : v.Halfway want u) (hw : v.Wants want) :
    v.Halfway want (materialize u).2 := by
  obtain ⟨rest, hok, ⟨hstands, hplain⟩, hcells⟩ := cell_materialize (h.wants hw) h.plain.1
  have hfiled := filed_materialize u
  have hsaved := saved_materialize (h.wants hw)
  have hcell : ∀ q, Ordinary q → (Vault.materialize u).2.cell q = u.cell q ∨
      (Vault.materialize u).2.cell q = followed q want[q]? (v.unread q) (v.unremoved q)
      (v.cell q) := by
    intro q hq
    rw [hcells q hq, h.followed_eq hq]
    split_ifs
    · exact .inl rfl
    · exact .inr rfl
  refine ⟨hstands.root.trans h.root, hstands.refuses ▸ h.grants, hfiled.mainRef.trans h.mainRef,
    hfiled.store.trans h.store, ⟨hplain, ?_⟩, ?_, ?_⟩
  · rw [hsaved]
    split_ifs
    · exact hplain.2
    · exact h.plain.2
  · intro q hq
    rcases hcell q hq with hsame | hturn
    · rcases h.cells q hq with hstart | ⟨hfile, hrecord⟩
      · exact .inl (hsame.trans hstart)
      · refine .inr ⟨(congrArg Prod.fst hsame).trans hfile, ?_⟩
        rwa [show (Vault.materialize u).2.state.materialized[q]? =
          u.state.materialized[q]? from congrArg Prod.snd hsame]
    · exact .inr ⟨congrArg Prod.fst hturn, .inr (congrArg Prod.snd hturn)⟩
  · intro q hq
    rw [hsaved]
    split_ifs with hend
    · -- all is done, so it is as it is to be
      have hturn := hcells q hq
      rw [hok hend, h.followed_eq hq, if_neg (by simp)] at hturn
      exact .inr ⟨congrArg Prod.fst hturn, congrArg Prod.snd hturn⟩
    · rcases h.saved q hq with hstart | ⟨hfile, hrecord⟩
      · exact .inl hstart
      · refine .inr ⟨?_, hrecord⟩
        rcases hcell q hq with hsame | hturn
        · exact (congrArg Prod.fst hsame).trans hfile
        · exact congrArg Prod.fst hturn

theorem materialized_reopen [Crates] (u : Vault Oid) (id : Identity) :
    (u.reopen id).state.materialized = u.saved.materialized := by
  have hrescan : ∀ (os : List Oid) (st : EngineState Oid),
      (os.foldl (rescan u.store) st).materialized = st.materialized := by
    intro os
    induction os with
    | nil => exact fun st => rfl
    | cons o os ih =>
      intro st
      rw [List.foldl_cons, ih, rescan]
      split
      · split
        · exact st.materialized_addKnown o
        · exact st.materialized_addKnown o
      · exact st.materialized_addKnown o
  exact hrescan _ u.saved

theorem Halfway.reopen [Crates] (h : v.Halfway want u) (id : Identity) :
    v.Halfway want (u.reopen id) := by
  have hrecord := materialized_reopen u id
  have hsaved : (u.reopen id).saved.materialized = u.saved.materialized := hrecord
  refine ⟨h.root, h.grants, h.mainRef, h.store,
    ⟨⟨h.plain.1.1, hrecord ▸ h.plain.2⟩, hsaved ▸ h.plain.2⟩, ?_, ?_⟩
  · intro q hq
    rw [hrecord, cell, hrecord]
    have hfile : (u.reopen id).file q = u.file q := rfl
    rw [hfile]
    rcases h.saved q hq with hstart | ⟨hnew, hrecorded⟩
    · rcases h.cells q hq with hsame | ⟨hnew, -⟩
      · exact .inl (Prod.ext (show u.file q = v.file q from congrArg Prod.fst hsame) hstart)
      · exact .inr ⟨hnew, .inl hstart⟩
    · exact .inr ⟨hnew, .inr hrecorded⟩
  · intro q hq
    rw [hsaved]
    exact h.saved q hq

theorem halfway_attempts [Crates] (hw : v.Wants want) (h : v.Plain want)
    (hsaved : v.saved.materialized = v.state.materialized) (ha : Attempts v u) :
    v.Halfway want u := by
  induction ha with
  | start =>
    exact ⟨rfl, fun _ => ⟨rfl, rfl⟩, rfl, rfl, ⟨h, hsaved ▸ h.2⟩, fun _ _ => .inl rfl, fun _ _ =>
      .inl (hsaved ▸ rfl)⟩
  | again _ hr ih => exact (ih.under hr).materialize hw
  | reopen _ id ih => exact ih.reopen id

/-- From halfway, an attempt that succeeds ends where the plan leads from the start. -/
theorem Halfway.ends (h : v.Halfway want u) (hw : v.Wants want)
    (hok : (Vault.materialize u).1 = .ok ()) :
    (Vault.materialize u).2.Plain want ∧ ∀ q, Ordinary q →
      (Vault.materialize u).2.cell q = followed q want[q]? (v.unread q) (v.unremoved q)
      (v.cell q) := by
  obtain ⟨rest, hend, ⟨-, hplain⟩, hcells⟩ := cell_materialize (h.wants hw) h.plain.1
  refine ⟨hplain, fun q hq => ?_⟩
  rw [hcells q hq, hend hok, if_neg (by simp), h.followed_eq hq]

/-- However often materializing is cut short, no file is torn: it is as at first or as it is to be.
An attempt that succeeds leaves the files and the record of one that was never cut short. -/
theorem materialize_resumes [Crates] (hw : v.Wants want) (h : v.Plain want)
    (hsaved : v.saved.materialized = v.state.materialized) (ha : Attempts v u)
    {refuses refuses' : Call → Bool} (hr : v.Grants refuses) (hr' : v.Grants refuses')
    (hagain : (materialize (u.under refuses)).1 = .ok ())
    (honce : (materialize (v.under refuses')).1 = .ok ()) :
    (∀ q, Ordinary q → u.file q = v.file q ∨ u.file q = (materialize (v.under refuses')).2.file q) ∧
      (materialize (u.under refuses)).2.state.materialized =
      (materialize (v.under refuses')).2.state.materialized ∧
      ∀ q, Ordinary q → (materialize (u.under refuses)).2.file q =
      (materialize (v.under refuses')).2.file q := by
  have hhalf := halfway_attempts hw h hsaved ha
  obtain ⟨hplain, hcell⟩ := (hhalf.under hr).ends hw hagain
  obtain ⟨hplain', hcell'⟩ := ((halfway_attempts hw h hsaved .start).under hr').ends hw honce
  refine ⟨?_, ?_, ?_⟩
  · intro q hq
    rw [show (materialize (v.under refuses')).2.file q = _ from congrArg Prod.fst (hcell' q hq)]
    rcases hhalf.cells q hq with hstart | ⟨hnew, -⟩
    · exact .inl (congrArg Prod.fst hstart)
    · exact .inr hnew
  · apply Std.ExtTreeMap.ext_getElem?
    intro q
    by_cases hq : Ordinary q
    · exact congrArg Prod.snd ((hcell q hq).trans (hcell' q hq).symm)
    · have hnone : ∀ w : Vault Oid, w.Plain want → w.state.materialized[q]? = none := by
        intro w hw
        exact Std.ExtTreeMap.getElem?_eq_none fun hmem =>
          hq (hw.2 q (Std.ExtTreeMap.mem_keys.mpr hmem))
      rw [hnone _ hplain, hnone _ hplain']
  · intro q hq
    exact congrArg Prod.fst ((hcell q hq).trans (hcell' q hq).symm)

end Vault

end Csp

namespace Csp.Small
open Vault

def pinned : Call → Bool
  | .rename _ _ => true
  | _ => false

/-- The only file is written after the process ended and began again. -/
theorem materialize_resumes_crowded : (materialize (crowded.under pinned)).1 ≠ .ok () ∧
    (materialize (((materialize (crowded.under pinned)).2.reopen ⟨[1]⟩).under fun _ =>
      false)).2.file "a.txt".toList =
      (materialize (crowded.under fun _ => false)).2.file "a.txt".toList := by
  have hmain : crowded.mainFiles.isOk = true ∧ (crowded.mainFiles.toOption.all fun want =>
      decide (∀ p ∈ want.keys, Ordinary p)) = true := by decide +kernel
  have hruns : (materialize (crowded.under pinned)).1 ≠ .ok () ∧
      (materialize (((materialize (crowded.under pinned)).2.reopen ⟨[1]⟩).under fun _ =>
        false)).1 = .ok () ∧
      (materialize (crowded.under fun _ => false)).1 = .ok () := by decide +kernel
  obtain ⟨hok, hord⟩ := hmain
  obtain ⟨hcut, hagain, honce⟩ := hruns
  cases hwant : crowded.mainFiles with
  | error e =>
    rw [hwant] at hok
    cases hok
  | ok want =>
    rw [hwant] at hord
    have hwants : crowded.Wants want := by
      rw [Vault.mainFiles, show crowded.mainRef = some _ from rfl] at hwant
      obtain ⟨tree, htree, hfiles⟩ := Result.bind_ok.mp hwant
      exact ⟨_, tree, rfl, htree, hfiles⟩
    have hplain : crowded.Plain want := ⟨of_decide_eq_true hord, by decide⟩
    have hgrants : ∀ f : Call → Bool, (∀ k, f (.readFile k) = false ∧ f (.removeFile k) = false) →
        crowded.Grants f :=
      fun f hf k => hf k
    have hattempts : crowded.Attempts ((materialize (crowded.under pinned)).2.reopen ⟨[1]⟩) :=
      .reopen (.again .start (hgrants pinned fun _ => ⟨rfl, rfl⟩)) _
    have hresumes := materialize_resumes hwants hplain rfl hattempts (hgrants _ fun _ => ⟨rfl, rfl⟩)
      (hgrants _ fun _ => ⟨rfl, rfl⟩) hagain honce
    exact ⟨hcut, hresumes.2.2 _ (by decide)⟩

end Csp.Small
