import Csp.Small
import Csp.VaultFacts

/-! What materializing does to the files that are none of its business. Removing what is stale
and pruning what is emptied leave them alone; the writer's temporary file may have the name of
one of them. -/

namespace Csp
open Result

/-! ### Walks -/

namespace Disk

theorem place_of_walk {d : Disk} {path : PathBuf} {k : Key} (h : d.walk path = some k) :
    place path = k := by
  have key : ∀ (path : PathBuf) (start : Key), path.foldlM d.walkStep start = some k →
      path.foldl placeStep start = k := by
    intro path
    induction path with
    | nil => exact fun start h => Option.some.inj h
    | cons c path ih =>
      intro start h
      obtain ⟨next, hnext, h⟩ := Option.bind_eq_some_iff.mp h
      rw [List.foldl_cons, ← ih next h]
      congr 1
      cases c with
      | normal name => exact Option.some.inj hnext
      | parentDir =>
        simp only [walkStep, Option.ite_none_right_eq_some] at hnext
        exact Option.some.inj hnext.2
  exact key path [] h

theorem placeOf_of_fileKey {d : Disk} {root k : Key} {p : Path} (h : d.fileKey root p = some k) :
    placeOf root p = some k := by
  unfold fileKey at h
  split_ifs at h with hname
  rw [placeOf, if_pos hname, place_of_walk h]

theorem walk_congr {d e : Disk} (h : e.dirs = d.dirs) : e.walk = d.walk := by
  have hstep : e.walkStep = d.walkStep := by
    funext k c
    cases c with
    | normal name => rfl
    | parentDir => rw [walkStep, walkStep, isDir, isDir, h]
  funext path
  rw [walk, walk, hstep]

end Disk

/-! ### The writer -/

namespace Disk

def opened (d : Disk) (target : Option Key) : Option Key :=
  target.filter fun k => !(d.isDir k || !d.isDir k.dropLast || d.refuses (.createFile k))

def stopped (d : Disk) (k : Key) (c : Bytes) : Option Nat :=
  (List.range c.length).find? fun n => d.refuses (.writeAt k n)

def written (d : Disk) (k : Key) (c : Bytes) : Bytes :=
  match d.stopped k c with
  | some n => c.take n
  | none => c

end Disk

namespace DiskM

def tempPath (root : Key) (p : Path) : PathBuf := withExtension "ctx-tmp".toList (components root p)

def writeTemp (root : Key) (p : Path) (content : Bytes) : DiskM Unit := do
  createDirAll (components root p).dropLast
  let d ← get
  write (d.walk (tempPath root p)) content

theorem writeAtomic_eq (root : Key) (p : Path) (content : Bytes) :
    writeAtomic root p content = (do
      writeTemp root p content
      let d ← get
      rename (d.walk (tempPath root p)) (d.fileKey root p)) := by
  rw [writeTemp, bind_assoc]
  rfl

theorem write_run (target : Option Key) (c : Bytes) (d : Disk) :
    write target c d = match d.opened target with
      | none => (.error ioError, d)
      | some k => (if d.stopped k c = none then .ok () else .error ioError,
          { d with files := d.files.insert k (d.written k c) }) := by
  cases target with
  | none => rfl
  | some k =>
    simp only [write, Disk.opened]
    split_ifs with hbad
    · rw [Option.filter_some, if_neg (by simp [hbad])]
    · rw [Option.filter_some, if_pos (by simp [hbad])]
      simp only [Disk.written]
      rw [← Disk.stopped]
      cases d.stopped k c with
      | none => rfl
      | some n => rfl

theorem createDir_frame (path : PathBuf) (d : Disk) :
    (createDir path d).2.files = d.files ∧ (createDir path d).2.refuses = d.refuses := by
  rw [createDir]
  split
  · exact ⟨rfl, rfl⟩
  · split_ifs
    · exact ⟨rfl, rfl⟩
    · exact ⟨rfl, rfl⟩
    · exact ⟨rfl, rfl⟩

theorem createDirAll_frame (path : PathBuf) (d : Disk) :
    (createDirAll path d).2.files = d.files ∧ (createDirAll path d).2.refuses = d.refuses :=
  run_forM_induction (fun d e : Disk => e.files = d.files ∧ e.refuses = d.refuses)
    (fun _ => ⟨rfl, rfl⟩)
    (fun _ _ _ h h' => ⟨h'.1.trans h.1, h'.2.trans h.2⟩) createDir_frame path.inits d

/-- The temporary file that the writer opens, if it gets to that. -/
def tempOf (root : Key) (p : Path) (d : Disk) : Option Key :=
  match createDirAll (components root p).dropLast d with
  | (.ok _, d) => d.opened (d.walk (tempPath root p))
  | (.error _, _) => none

theorem place_of_tempOf {root k : Key} {p : Path} {d : Disk} (h : tempOf root p d = some k) :
    place (tempPath root p) = k := by
  unfold tempOf at h
  split at h
  · exact Disk.place_of_walk (Option.eq_some_of_filter_eq_some h)
  · cases h

theorem writeTemp_run (root : Key) (p : Path) (content : Bytes) (d : Disk) :
    match tempOf root p d with
    | none => (writeTemp root p content d).1 ≠ .ok () ∧
    (writeTemp root p content d).2.files = d.files
    | some k => (writeTemp root p content d).2.files = d.files.insert k (d.written k content) ∧
        ((writeTemp root p content d).1 = .ok () →
          (writeTemp root p content d).2.walk (tempPath root p) = some k ∧
          d.written k content = content) := by
  obtain ⟨hfiles, hrefuses⟩ := createDirAll_frame (components root p).dropLast d
  rw [writeTemp, run_bind, tempOf]
  rcases hrun : createDirAll (components root p).dropLast d with ⟨e | _, d'⟩
  · rw [hrun] at hfiles
    exact ⟨by simp, hfiles⟩
  rw [hrun] at hfiles hrefuses
  simp only
  rw [run_bind_of_ok (run_get d')]
  have hstopped : ∀ k, d'.stopped k content = d.stopped k content := fun k => by
    rw [Disk.stopped, Disk.stopped, show d'.refuses = _ from hrefuses]
  have hwritten : ∀ k, d'.written k content = d.written k content := fun k => by
    rw [Disk.written, Disk.written, hstopped]
  simp only [write_run]
  cases hopen : d'.opened (d'.walk (tempPath root p)) with
  | none => exact ⟨by simp, hfiles⟩
  | some k =>
    simp only [hwritten, hstopped]
    refine ⟨by rw [show d'.files = _ from hfiles], fun hok => ⟨?_, ?_⟩⟩
    · exact (congrFun (Disk.walk_congr (d := d') rfl) _).trans
        (Option.eq_some_of_filter_eq_some hopen)
    · split_ifs at hok with hnone
      rw [Disk.written, hnone]

theorem rename_cases (source target : Option Key) (d : Disk) :
    rename source target d = (.error ioError, d) ∨ ∃ a b c, source = some a ∧ target = some b ∧
      d.files[a]? = some c ∧ d.isDir b = false ∧
      rename source target d = (.ok (), { d with files := (d.files.erase a).insert b c }) := by
  unfold rename
  split
  · rename_i a b
    split
    · exact .inl rfl
    · rename_i c hc
      split_ifs with hbad
      · exact .inl rfl
      · simp only [Bool.or_eq_true, not_or, Bool.not_eq_true] at hbad
        exact .inr ⟨a, b, c, rfl, rfl, hc, hbad.1.1, rfl⟩
  · exact .inl rfl

theorem refuses_rename (source target : Option Key) (d : Disk) :
    (rename source target d).2.refuses = d.refuses := by
  rcases rename_cases source target d with h | ⟨a, b, c, -, -, -, -, h⟩
  · rw [h]
  · rw [h]

theorem refuses_moveFile (root : Key) (source target : Path) (d : Disk) :
    (moveFile root source target d).2.refuses = d.refuses := by
  apply run_bind_induction (fun d e : Disk => e.refuses = d.refuses) (fun _ _ _ h h' => h'.trans h)
    (createDirAll_frame _ d).2
  intro _ d' _
  rw [run_bind_of_ok (run_get d')]
  exact refuses_rename _ _ d'

theorem files_rename {source target : Option Key} {k : Key} (hk : target ≠ some k) (d : Disk) :
    (rename source target d).2.files[k]? =
      if (rename source target d).1 = .ok () ∧ source = some k then none else d.files[k]? := by
  rcases rename_cases source target d with h | ⟨a, b, c, rfl, rfl, -, -, h⟩
  · simp [h]
  · have hne : b ≠ k := fun h => hk (congrArg some h)
    simp only [h, true_and]
    rw [Std.ExtTreeMap.getElem?_insert, if_neg (by simpa using hne), Std.ExtTreeMap.getElem?_erase]
    by_cases hsource : a = k
    · simp [hsource]
    · simp [hsource]

theorem files_writeAtomic {root k : Key} {p : Path} (hk : placeOf root p ≠ some k) (content : Bytes)
    (d : Disk) :
    (writeAtomic root p content d).2.files[k]? =
      if tempOf root p d = some k then
        if (writeAtomic root p content d).1 = .ok () then none else some (d.written k content)
      else d.files[k]? := by
  have htemp := writeTemp_run root p content d
  rw [writeAtomic_eq, run_bind]
  rcases hrun : writeTemp root p content d with ⟨e | _, d'⟩
  · rw [hrun] at htemp
    simp only
    cases hopen : tempOf root p d with
    | none =>
      rw [hopen] at htemp
      rw [if_neg (by simp)]
      exact congrArg (·[k]?) htemp.2
    | some t =>
      rw [hopen] at htemp
      rw [show d'.files = _ from htemp.1, Std.ExtTreeMap.getElem?_insert]
      by_cases hkey : t = k
      · simp [hkey]
      · simp [hkey]
  · rw [hrun] at htemp
    simp only
    simp only [run_bind_of_ok (run_get d')]
    rw [files_rename (fun h => hk (Disk.placeOf_of_fileKey h))]
    cases hopen : tempOf root p d with
    | none =>
      rw [hopen] at htemp
      exact absurd rfl htemp.1
    | some t =>
      rw [hopen] at htemp
      obtain ⟨hfiles, hok⟩ := htemp
      obtain ⟨hwalk, -⟩ := hok rfl
      rw [hwalk, show d'.files = _ from hfiles, Std.ExtTreeMap.getElem?_insert]
      by_cases hkey : t = k
      · simp [hkey]
      · simp [hkey]

end DiskM

/-! ### The removals -/

theorem Disk.files_pruneEmptyDirs (root : PathBuf) (n : Nat) (cur : PathBuf) (d : Disk) :
    (pruneEmptyDirs root n cur d).files = d.files := by
  induction n generalizing cur d with
  | zero => rfl
  | succ n ih =>
    rw [pruneEmptyDirs]
    split_ifs
    · rfl
    · split
      · split_ifs
        · exact ih _ _
        · rfl
      · rfl

theorem Disk.files_removePath {root k : Key} {p : Path} (h : placeOf root p ≠ some k) (d : Disk) :
    (d.removePath root p).files[k]? = d.files[k]? := by
  rw [removePath]
  split
  · rename_i key hkey
    have hne : key ≠ k := fun hk => h (hk ▸ placeOf_of_fileKey hkey)
    rw [removeFile]
    split_ifs
    · rfl
    · rw [Std.ExtTreeMap.getElem?_erase]
      simp [hne]
  · rfl

variable {Oid : Type} [ObjectId Oid]

namespace Vault

theorem files_materializeRemoval (want : FileMap) {v : Vault Oid} {p : Path} {k : Key}
    (hk : placeOf v.root p ≠ some k) : (materializeRemoval want v p).disk.files[k]? =
    v.disk.files[k]? := by
  unfold materializeRemoval
  split_ifs with hw
  · rfl
  · simp only
    cases v.disk.readPath v.root p with
    | none => rfl
    | some d =>
      simp only
      split_ifs
      · rw [Disk.files_pruneEmptyDirs, Disk.files_removePath hk]
      · rfl

theorem files_removals (want : FileMap) {ps : List Path} {v : Vault Oid} {k : Key}
    (hk : ∀ p ∈ ps, placeOf v.root p ≠ some k) :
    (ps.foldl (materializeRemoval want) v).disk.files[k]? = v.disk.files[k]? := by
  induction ps generalizing v with
  | nil => rfl
  | cons p ps ih =>
    obtain ⟨hp, hps⟩ := List.forall_mem_cons.mp hk
    have hroot : (materializeRemoval want v p).root = v.root :=
        (filed_materializeRemoval want v p).root
    rw [List.foldl_cons, ih (by rwa [hroot]), files_materializeRemoval want hp]

/-! ### The write loop -/

def due (v : Vault Oid) (f : Path × Bytes) : Bool :=
  match v.disk.readPath v.root f.1 with
  | some d => d ≠ f.2 && some (blobHash d) = v.state.materialized[f.1]?
  | none => true

def Through (k : Key) (v : Vault Oid) (f : Path × Bytes) : Prop :=
  v.due f = true ∧ DiskM.tempOf v.root f.1 v.disk = some k

theorem materializeWrite_of_due {v : Vault Oid} {f : Path × Bytes} (h : v.due f = true) :
    materializeWrite f v = match DiskM.writeAtomic v.root f.1 f.2 v.disk with
      | (.ok (), disk) => (.ok (), record f.1 f.2 { v with disk })
      | (.error e, disk) => (.error e, { v with disk }) := by
  rw [show f = (f.1, f.2) from rfl, materializeWrite_run]
  simp only
  rw [due] at h
  split
  · rename_i d hread
    rw [hread] at h
    simp only [ne_eq, Bool.and_eq_true, decide_eq_true_eq] at h
    rw [if_neg fun hc => hc.1 h.2]
    exact if_neg h.1
  · rfl

theorem disk_materializeWrite {v : Vault Oid} {f : Path × Bytes} (h : v.due f = false) :
    (materializeWrite f v).2.disk = v.disk := by
  rw [show f = (f.1, f.2) from rfl, materializeWrite_run]
  simp only
  rw [due] at h
  split
  · rename_i d hread
    rw [hread] at h
    split_ifs with hcontended heq
    · rfl
    · rfl
    · have hhash : some (blobHash d) = v.state.materialized[f.1]? := by
        by_contra hne
        exact hcontended ⟨hne, heq⟩
      simp [heq, hhash] at h
  · rename_i hread
    rw [hread] at h
    cases h

/-- A file of another name changes with a turn if it is in the place of the temporary file: it is
gone after the move, and holds what was written if that or the move failed. -/
theorem files_materializeWrite {v : Vault Oid} {f : Path × Bytes} {k : Key}
    (hk : placeOf v.root f.1 ≠ some k) :
    (¬ Through k v f → (materializeWrite f v).2.disk.files[k]? = v.disk.files[k]?) ∧
    (Through k v f → (materializeWrite f v).2.disk.files[k]? =
      if (materializeWrite f v).1 = .ok () then none else some (v.disk.written k f.2)) := by
  have hfiles := DiskM.files_writeAtomic hk f.2 v.disk
  have hdisk : v.due f = true → (materializeWrite f v).2.disk =
      (DiskM.writeAtomic v.root f.1 f.2 v.disk).2 ∧
      ((materializeWrite f v).1 = .ok () ↔ (DiskM.writeAtomic v.root f.1 f.2 v.disk).1 =
        .ok ()) := by
    intro hdue
    rw [materializeWrite_of_due hdue]
    rcases DiskM.writeAtomic v.root f.1 f.2 v.disk with ⟨e | _, disk⟩
    · exact ⟨rfl, by simp⟩
    · exact ⟨rfl, by simp⟩
  constructor
  · intro hthrough
    by_cases hdue : v.due f = true
    · rw [(hdisk hdue).1, hfiles, if_neg fun h => hthrough ⟨hdue, h⟩]
    · rw [disk_materializeWrite (Bool.eq_false_iff.mpr hdue)]
  · rintro ⟨hdue, hthrough⟩
    rw [(hdisk hdue).1, hfiles, if_pos hthrough, if_congr (hdisk hdue).2.symm rfl rfl]

/-- The turn of a file comes, in a state that the turns before it led to. -/
inductive Turn : List (Path × Bytes) → Vault Oid → Path × Bytes → Vault Oid → Prop
  | first {f : Path × Bytes} {fs : List (Path × Bytes)} {v : Vault Oid} : Turn (f :: fs) v f v
  | next {f g : Path × Bytes} {fs : List (Path × Bytes)} {v w u : Vault Oid}
      (run : materializeWrite f v = (.ok (), w)) (rest : Turn fs w g u) : Turn (f :: fs) v g u

theorem Turn.spec {fs : List (Path × Bytes)} {v w : Vault Oid} {f : Path × Bytes}
    (h : Turn fs v f w) :
    f ∈ fs ∧ w.root = v.root := by
  induction h with
  | first => exact ⟨List.mem_cons_self, rfl⟩
  | @next f g fs v w u run rest ih =>
    have hroot := (filed_materializeWrite f v).root
    rw [run] at hroot
    exact ⟨List.mem_cons_of_mem f ih.1, ih.2.trans hroot⟩

theorem files_writes {k : Key} {c : Bytes} (fs : List (Path × Bytes)) {v : Vault Oid}
    (hk : ∀ f ∈ fs, placeOf v.root f.1 ≠ some k) :
    (fs.forM materializeWrite v).2.disk.files[k]? = some c ↔
      (v.disk.files[k]? = some c ∧ ∀ f w, Turn fs v f w → ¬ Through k w f) ∨
        ∃ f w, Turn fs v f w ∧ Through k w f ∧ w.disk.written k f.2 = c ∧ (materializeWrite f w).1 ≠
        .ok () := by
  induction fs generalizing v with
  | nil =>
    have hnone : ∀ f w, ¬ Turn [] v f w := fun f w h => by cases h
    simp [hnone, run_forM_nil]
  | cons f fs ih =>
    obtain ⟨hf, hfs⟩ := List.forall_mem_cons.mp hk
    obtain ⟨hother, hthrough⟩ := files_materializeWrite hf
    have hroot : (materializeWrite f v).2.root = v.root := (filed_materializeWrite f v).root
    rw [run_forM_cons]
    rcases hrun : materializeWrite f v with ⟨e | _, w⟩
    · -- the loop ends with this turn
      have honly : ∀ g u, Turn (f :: fs) v g u ↔ g = f ∧ u = v := by
        intro g u
        constructor
        · intro h
          cases h with
          | first => exact ⟨rfl, rfl⟩
          | next run _ => cases hrun.symm.trans run
        · rintro ⟨rfl, rfl⟩
          exact .first
      have hfails : (materializeWrite f v).1 ≠ .ok () := by
        rw [hrun]
        simp
      rw [hrun] at hother hthrough
      simp only [honly]
      by_cases h : Through k v f
      · simp [h, hthrough h, hfails]
      · simp [h, hother h]
    -- the turn succeeded, and the rest of the loop starts from what it left
    · rw [hrun] at hother hthrough hroot
      have hsplit : ∀ P : Path × Bytes → Vault Oid → Prop,
          (∃ g u, Turn (f :: fs) v g u ∧ P g u) ↔ P f v ∨ ∃ g u, Turn fs w g u ∧ P g u := by
        intro P
        constructor
        · rintro ⟨g, u, h, hP⟩
          cases h with
          | first => exact .inl hP
          | next run rest =>
            obtain rfl : w = _ := (Prod.mk.inj (hrun.symm.trans run)).2
            exact .inr ⟨g, u, rest, hP⟩
        · rintro (hP | ⟨g, u, h, hP⟩)
          · exact ⟨f, v, .first, hP⟩
          · exact ⟨g, u, .next hrun h, hP⟩
      have hnever : (∀ g u, Turn (f :: fs) v g u → ¬ Through k u g) ↔
          ¬ Through k v f ∧ ∀ g u, Turn fs w g u → ¬ Through k u g := by
        have h := not_congr (hsplit fun g u => Through k u g)
        push Not at h
        exact h
      simp only
      rw [ih (by rwa [hroot]), hnever, hsplit]
      by_cases h : Through k v f
      · simp [h, hthrough h, hrun]
      · simp [h, hother h]

/-! ### Materializing -/

def mainFiles (v : Vault Oid) : CspResult FileMap :=
  match v.mainRef with
  | none => .ok ∅
  | some main => do
    let tree ← mainTree v.store main
    treeFiles v.store tree

/-- A place that neither `main` nor the record names. -/
def Bystander (v : Vault Oid) (k : Key) : Prop :=
  (∀ want, v.mainFiles = .ok want → ∀ p ∈ want.keys, placeOf v.root p ≠ some k) ∧
    ∀ p ∈ v.state.materialized.keys, placeOf v.root p ≠ some k

/-- Whatever is in the way of nothing is still there afterwards. -/
def BystandersKept (v : Vault Oid) : Prop :=
  ∀ k c, v.Bystander k → v.disk.files[k]? = some c → (materialize v).2.disk.files[k]? = some c

/-- No file of `main` is written through a temporary file in this place; or the last that is leaves
the same bytes there, because it cannot be written or moved. -/
def Spared (v : Vault Oid) (k : Key) (c : Bytes) : Prop :=
  ∀ want, v.mainFiles = .ok want →
    (∀ f w, Turn want.toList (v.state.materialized.keys.foldl (materializeRemoval want) v) f w →
      ¬ Through k w f) ∨
      ∃ f w, Turn want.toList (v.state.materialized.keys.foldl (materializeRemoval want) v) f w ∧
      Through k w f ∧
        w.disk.written k f.2 = c ∧ (materializeWrite f w).1 ≠ .ok ()

theorem mem_keys_of_mem_toList {want : FileMap} {f : Path × Bytes} (h : f ∈ want.toList) :
    f.1 ∈ want.keys := by
  rw [← Std.ExtTreeMap.map_fst_toList_eq_keys]
  exact List.mem_map_of_mem h

theorem files_materialize {v : Vault Oid} {k : Key} {c : Bytes} (hk : v.Bystander k)
    (hc : v.disk.files[k]? = some c) :
    (materialize v).2.disk.files[k]? = some c ↔ v.Spared k c := by
  have hempty : ∀ (w : Vault Oid) f u, ¬ Turn (∅ : FileMap).toList w f u := by
    intro w f u h
    rw [Std.ExtTreeMap.toList_eq_nil_iff.mpr rfl] at h
    cases h
  rw [materialize_run, Spared]
  cases hmain : v.mainRef with
  | none =>
    have hwant : v.mainFiles = .ok ∅ := by rw [mainFiles, hmain]
    simp [hwant, hempty, hc]
  | some main =>
    simp only
    cases htree : mainTree v.store main with
    | error e =>
      have hwant : v.mainFiles = .error e := by
        rw [mainFiles, hmain]
        simp [htree]
      simp [hwant, hc]
    | ok tree =>
      have hwant : v.mainFiles = treeFiles v.store tree := by
        rw [mainFiles, hmain]
        simp [htree]
      simp only
      cases hfiles : treeFiles v.store tree with
      | error e => simp [hwant, hfiles, hc]
      | ok want =>
        have hroot := (filed_removals want v.state.materialized.keys v).root
        have hrest := files_writes (k := k) (c := c) want.toList
          (v := v.state.materialized.keys.foldl (materializeRemoval want) v)
          fun f hf => hroot ▸ hk.1 want (hwant.trans hfiles) f.1 (mem_keys_of_mem_toList hf)
        rw [files_removals want hk.2] at hrest
        simp only [hwant, hfiles, Except.ok.injEq, forall_eq']
        simp only [hc, true_and] at hrest
        rw [← hrest]
        rcases want.toList.forM materializeWrite
          (v.state.materialized.keys.foldl (materializeRemoval want) v) with
          ⟨_ | _, w⟩
        · rfl
        · simp only [save_disk]

/-- No harm is done where no temporary file is in the place of such a file. -/
theorem bystandersKept_of_free {v : Vault Oid} (h : ∀ want, v.mainFiles = .ok want →
      ∀ p ∈ want.keys,
    v.Bystander (place (DiskM.tempPath v.root p)) →
    v.disk.files[place (DiskM.tempPath v.root p)]? = none) :
    v.BystandersKept := by
  intro k c hk hc
  refine (files_materialize hk hc).mpr fun want hwant => .inl fun f w hturn hthrough => ?_
  obtain ⟨hmem, hroot⟩ := hturn.spec
  obtain rfl : place (DiskM.tempPath v.root f.1) = k := by
    rw [← (filed_removals want v.state.materialized.keys v).root, ← hroot]
    exact DiskM.place_of_tempOf hthrough.2
  have hnone := h want hwant f.1 (mem_keys_of_mem_toList hmem) hk
  cases hnone.symm.trans hc

end Vault

end Csp

namespace Csp.Small
open Vault

/-- `main` has a file, and a file beside its place has the name of the temporary one. -/
def listed : FileMap := (∅ : FileMap).insert "a.txt".toList [49]

def listedCommit : CommitObj Digest :=
  { (genesisCommit : CommitObj Digest) with tree := (writeTreeFromFiles listed).2 }

def bystander : Key := ["a.ctx-tmp".toList]

def crowded : Vault Digest where
  root := []
  disk := {
    files := (∅ : Std.ExtTreeMap Key Bytes compare).insert bystander [50]
    dirs := ∅
    refuses := fun _ => false }
  store := (Store.empty .disk).putAll ((writeTreeFromFiles listed).1 ++ [.commit listedCommit])
  mainRef := some (GitObject.commit listedCommit).oid
  nodeTips := ∅
  state := { vaultId := [] }
  saved := { vaultId := [] }
  scope := { includes := [], ignore := [], allowBinary := false }
  identity := ⟨[1]⟩
  config := { vaultId := [], name := [] }

end Csp.Small
