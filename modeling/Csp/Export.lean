import Csp.Genuine
import Csp.Session

/-! Exporting a closure. What is exported is every object below the tips, and a store that takes
it in carries the exporting store there. -/

namespace Csp
open Result
variable {Oid : Type} [ObjectId Oid] {s s' : Store Oid}

/-! ### Reachability -/

noncomputable def groundedIds (s : Store Oid) : List Oid :=
  open Classical in s.objs.keys.filter fun o => Grounded s o

theorem mem_groundedIds {o : Oid} : o ∈ groundedIds s ↔ Grounded s o := by
  classical
  rw [groundedIds, List.mem_filter, decide_eq_true_eq, and_iff_right_iff_imp]
  intro h
  obtain ⟨x, hx⟩ := h.get
  exact s.mem_keys_of_get hx

theorem nodup_groundedIds : (groundedIds s).Nodup := by
  classical exact s.nodup_keys.filter _

theorem visitRefs_ok {u : Unit} {o : Oid} {r : Unit × List Oid} :
    visitRefs s u o = .ok r ↔ ∃ x, s.get o = .ok x ∧ r = ((), x.refs) := by
  rw [visitRefs, bind_ok]
  exact exists_congr fun x => and_congr_right fun _ => pure_ok.trans eq_comm

theorem mem_reachable {roots live : List Oid} (h : reachable s roots = .ok live) {o : Oid} :
    o ∈ live ↔ Below s roots o := by
  obtain ⟨⟨seen, u⟩, hr, hlive⟩ := bind_ok.mp h
  obtain rfl := pure_ok.mp hlive
  have hnext : ∀ (acc : Unit) x acc' next, visitRefs s acc x = .ok (acc', next) →
      next = s.refsOf x := by
    intro acc x acc' next hv
    obtain ⟨y, hy, heq⟩ := visitRefs_ok.mp hv
    rw [s.refsOf_of_get hy]
    exact congrArg Prod.snd heq
  obtain ⟨-, hstack, hclosed⟩ := Worklist.explore_closed s.refsOf hnext hr
  rw [List.mem_insertionSort]
  constructor
  · intro ho
    obtain ⟨-, r, hroot, hpath⟩ := hclosed o ho List.not_mem_nil
    exact ⟨r, List.mem_reverse.mp hroot, hpath⟩
  · rintro ⟨r, hroot, hpath⟩
    induction hpath with
    | refl => exact hstack r (List.mem_reverse.mpr hroot)
    | tail _ hb ih => exact (hclosed _ ih List.not_mem_nil).1 _ hb

theorem reachable_total {roots : List Oid} (h : ∀ o ∈ roots, Grounded s o) :
    ∃ set, reachable s roots = .ok set ∧ ∀ o, o ∈ set ↔ Below s roots o := by
  obtain ⟨⟨seen, u⟩, hr⟩ : ∃ r, Worklist.explore (visitRefs s) .abort (roots.length + s.linkCount)
      [] () roots.reverse = .ok r :=
    Worklist.explore_complete (groundedIds s) (fun o => (s.refsOf o).length)
      (fun acc x hx => by
        have hg := mem_groundedIds.mp hx
        obtain ⟨y, hy⟩ := hg.get
        refine ⟨(), y.refs, visitRefs_ok.mpr ⟨y, hy, rfl⟩, ?_, fun z hz => mem_groundedIds.mpr
          (hg.ref hy hz)⟩
        rw [s.refsOf_of_get hy])
      (fun x hx => mem_groundedIds.mpr (h x (List.mem_reverse.mp hx))) nodup_groundedIds
      (by
        have := s.sum_refsOf_le nodup_groundedIds fun o ho => by
          obtain ⟨x, hx⟩ := (mem_groundedIds.mp ho).get
          exact s.mem_keys_of_get hx
        simpa using this)
  have hrun : reachable s roots = .ok (seen.insertionSort (· ≤ ·)) := bind_ok.mpr ⟨_, hr, rfl⟩
  exact ⟨_, hrun, fun o => mem_reachable hrun⟩

theorem Below.grounded {roots : List Oid} (h : ∀ o ∈ roots, Grounded s o) {o : Oid}
    (ho : Below s roots o) :
    Grounded s o := by
  obtain ⟨r, hr, hpath⟩ := ho
  induction hpath with
  | refl => exact h r hr
  | tail _ hb ih =>
    obtain ⟨x, hx⟩ := ih.get
    rw [s.refsOf_of_get hx] at hb
    exact ih.ref hx hb

/-! ### The exported closure -/

variable [Crates]

/-- The raw objects of a closure: one for each object below the tips. -/
def closureOf (s : Store Oid) (tips : List Oid) : CspResult (List Bytes) := do
  let set ← reachable s tips
  set.mapM s.getRaw

theorem getRaw_ok {o : Oid} {r : Bytes} : s.getRaw o = .ok r ↔ ∃ x, s.get o = .ok x ∧
    r = x.compress := by
  rw [Store.getRaw, bind_ok]
  exact exists_congr fun x => and_congr_right fun _ => pure_ok.trans eq_comm

theorem closureOf_total {tips : List Oid} (h : ∀ o ∈ tips, Grounded s o) :
    ∃ raws, closureOf s tips = .ok raws ∧
      ∀ r, r ∈ raws ↔ ∃ o x, Below s tips o ∧ s.get o = .ok x ∧ r = x.compress := by
  obtain ⟨set, hset, hmem⟩ := reachable_total h
  obtain ⟨raws, hraws⟩ := mapM_ok_of_forall (f := s.getRaw) (l := set) fun o ho => by
    obtain ⟨x, hx⟩ := (((hmem o).mp ho).grounded h).get
    exact ⟨x.compress, getRaw_ok.mpr ⟨x, hx, rfl⟩⟩
  refine ⟨raws, bind_ok.mpr ⟨set, hset, hraws⟩, fun r => ⟨fun hr => ?_, ?_⟩⟩
  · obtain ⟨o, ho, hget⟩ := mapM_ok_mem_right hraws hr
    obtain ⟨x, hx, rfl⟩ := getRaw_ok.mp hget
    exact ⟨o, x, (hmem o).mp ho, hx, rfl⟩
  · rintro ⟨o, x, ho, hx, rfl⟩
    obtain ⟨r, hr, hget⟩ := mapM_ok_mem hraws ((hmem o).mpr ho)
    obtain ⟨y, hy, rfl⟩ := getRaw_ok.mp hget
    obtain rfl : x = y := Except.ok.inj (hx.symm.trans hy)
    exact hr

/-! ### Batches of closures -/

/-- Every raw object of the batch comes with the rest of a closure that some tidy store exports
of genuine tips. The closures may be in any order, overlap, and repeat. -/
def Gathered (Oid : Type) [ObjectId Oid] (raws : List Bytes) : Prop :=
  ∀ r ∈ raws, ∃ (s : Store Oid) (tips : List Oid) (exported : List Bytes), s.Tidy ∧
    (∀ o ∈ tips, Genuine s o) ∧
    closureOf s tips = .ok exported ∧ r ∈ exported ∧ ∀ r' ∈ exported, r' ∈ raws

variable [LawfulObjectId Oid] [LawfulCrates]

theorem Gathered.decodes {raws : List Bytes} (h : Gathered Oid raws) {r : Bytes} (hr : r ∈ raws) :
    ∃ (s : Store Oid) (tips : List Oid) (exported : List Bytes) (o : Oid) (x :
      GitObject Oid), s.Tidy ∧
      (∀ o ∈ tips, Genuine s o) ∧ closureOf s tips = .ok exported ∧ (∀ r' ∈ exported, r' ∈ raws) ∧
      Below s tips o ∧ s.get o = .ok x ∧ decompressAndParse r = .ok x.canon := by
  obtain ⟨s, tips, exported, hs, hgen, hexp, hmem, hsub⟩ := h r hr
  obtain ⟨raws', hraws', hspec⟩ := closureOf_total fun o ho => (hgen o ho).commitIn.grounded
  obtain rfl : raws' = exported := Except.ok.inj (hraws'.symm.trans hexp)
  obtain ⟨o, x, ho, hx, rfl⟩ := (hspec r).mp hmem
  exact ⟨s, tips, raws', o, x, hs, hgen, hexp, hsub, ho, hx, decompressAndParse_compress
    (hs.sound.get hx).2⟩

omit [LawfulObjectId Oid] [LawfulCrates] in
theorem decoded_snd_eq_none {raws : List Bytes}
    (h : ∀ r ∈ raws, ∃ x : GitObject Oid, decompressAndParse r = .ok x) :
    (decoded raws : List (GitObject Oid) × Option CspError).2 = none := by
  induction raws with
  | nil => rfl
  | cons r raws ih =>
    obtain ⟨x, hx⟩ := h r List.mem_cons_self
    rw [decoded, hx]
    exact ih fun r' hr' => h r' (List.mem_cons_of_mem _ hr')

/-- A batch that leaves a store as honest as it was. -/
structure HonestBatch (s : Store Oid) (raws : List Bytes) : Prop where
  decodes : (decoded raws : List (GitObject Oid) × Option CspError).2 = none
  tidy : (s.putAll (decoded raws).1).Tidy
  genuine : ∀ c, .commit c ∈ (decoded raws : List (GitObject Oid) × Option CspError).1 →
    Genuine (s.putAll (decoded raws).1) (GitObject.commit c).oid
  parents : ∀ c, .commit c ∈ (decoded raws : List (GitObject Oid) × Option CspError).1 →
    ∀ p ∈ c.parents,
    ∃ d, .commit d ∈ (decoded raws : List (GitObject Oid) × Option CspError).1 ∧
    (GitObject.commit d).oid = p

omit [ObjectId Oid] [Crates] [LawfulObjectId Oid] [LawfulCrates] in
theorem tidy_of_canon {x : GitObject Oid} {es : List (TreeEntry Oid)}
    (h : GitObject.tree es = x.canon) (hx : ∀ es', x = .tree es' → Csp.Tidy es') : Csp.Tidy es := by
  cases x with
  | tree es' =>
    obtain rfl := GitObject.tree.inj h
    exact tidy_sortEntries (hx es' rfl).flat
  | _ => cases h

theorem carries_gathered (hs : s.Tidy) {raws : List Bytes} (hput : (s.putAll (decoded raws).1).Tidy)
    (hdec : (decoded raws : List (GitObject Oid) × Option CspError).2 = none) {s' : Store Oid}
    (hs' : s'.Tidy) {tips : List Oid} (hgen : ∀ o ∈ tips, Genuine s' o) {exported : List Bytes}
    (hexp : closureOf s' tips = .ok exported) (hsub : ∀ r ∈ exported, r ∈ raws) :
    Carries Csp.Tidy (Below s' tips) s' (s.putAll (decoded raws).1) := by
  obtain ⟨raws', hraws', hspec⟩ := closureOf_total fun o ho => (hgen o ho).commitIn.grounded
  obtain rfl : raws' = exported := Except.ok.inj (hraws'.symm.trans hexp)
  constructor
  · intro o x ho hx
    have henc := hs'.sound.get hx
    obtain ⟨y, hy, hparse⟩ := decoded_of_all hdec _ (hsub _ ((hspec _).mpr ⟨o, x, ho, hx, rfl⟩))
    obtain rfl : x.canon = y :=
      Except.ok.inj ((decompressAndParse_compress henc.2).symm.trans hparse)
    obtain ⟨z, hz, -⟩ := hs.sound.get_putAll (fun x hx => encodable_of_mem_decoded hx) hy
    rw [GitObject.oid_canon, henc.1] at hz
    exact ⟨z, hz, hs'.alike hput hx hz⟩
  · rintro o x ⟨k, hk, hpath⟩ hx r hr
    exact ⟨k, hk, hpath.tail (by rwa [s'.refsOf_of_get hx])⟩

theorem Gathered.honestBatch {raws : List Bytes} (h : Gathered Oid raws) (hs : s.Tidy) :
    HonestBatch s raws := by
  have hdec : (decoded raws : List (GitObject Oid) × Option CspError).2 = none := by
    refine decoded_snd_eq_none fun r hr => ?_
    obtain ⟨-, -, -, -, x, -, -, -, -, -, -, hparse⟩ := h.decodes hr
    exact ⟨x.canon, hparse⟩
  have hput : (s.putAll (decoded raws).1).Tidy := by
    refine hs.putAll (fun x hx => encodable_of_mem_decoded hx) fun es hes => ?_
    obtain ⟨r, hr, hparse⟩ := mem_decoded hes
    obtain ⟨s', -, -, o, x, hs', -, -, -, -, hx, hparse'⟩ := h.decodes hr
    refine tidy_of_canon (Except.ok.inj (hparse.symm.trans hparse')) fun es' he => ?_
    rw [he] at hx
    exact hs'.tidy o es' hx
  -- a commit of the batch is one of a store that exported all that lies below it
  have source : ∀ c, .commit c ∈ (decoded raws : List (GitObject Oid) × Option CspError).1 →
      ∃ (s' : Store Oid) (tips : List Oid), Carries Csp.Tidy (Below s' tips) s'
      (s.putAll (decoded raws).1) ∧
        Below s' tips (GitObject.commit c).oid ∧ loadCommit s' (GitObject.commit c).oid = .ok c ∧
        Genuine s' (GitObject.commit c).oid ∧
        ∀ o x, Below s' tips o → s'.get o = .ok x →
        x.canon ∈ (decoded raws : List (GitObject Oid) × Option CspError).1 := by
    intro c hc
    obtain ⟨r, hr, hparse⟩ := mem_decoded hc
    obtain ⟨s', tips, exported, o, x, hs', hgen, hexp, hsub, ho, hx, hparse'⟩ := h.decodes hr
    have hcx : GitObject.commit c = x.canon := Except.ok.inj (hparse.symm.trans hparse')
    obtain rfl : x = .commit c := by
      cases x with
      | commit d => exact congrArg GitObject.commit (GitObject.commit.inj hcx).symm
      | _ => cases hcx
    obtain rfl := (hs'.sound.get hx).1
    refine ⟨s', tips, carries_gathered hs hput hdec hs' hgen hexp hsub, ho,
      loadCommit_ok.mpr hx, ?_, ?_⟩
    · rcases genuine_below hgen ho with ⟨hg, -⟩ | ⟨hes, -, -⟩ | ⟨b, hb⟩
      · exact hg
      · cases hx.symm.trans hes
      · cases hx.symm.trans hb
    · intro o y ho' hy
      obtain ⟨raws', hraws', hspec⟩ := closureOf_total fun o ho => (hgen o ho).commitIn.grounded
      obtain rfl : raws' = exported := Except.ok.inj (hraws'.symm.trans hexp)
      obtain ⟨z, hz, hparse₂⟩ := decoded_of_all hdec _ (hsub _ ((hspec _).mpr ⟨o, y, ho', hy, rfl⟩))
      obtain rfl : y.canon = z :=
        Except.ok.inj ((decompressAndParse_compress (hs'.sound.get hy).2).symm.trans hparse₂)
      exact hz
  refine ⟨hdec, hput, fun c hc => ?_, fun c hc p hp => ?_⟩
  · obtain ⟨s', tips, hcar, hbelow, -, hgen, -⟩ := source c hc
    exact hgen.carries hcar hbelow
  · obtain ⟨s', tips, hcar, ⟨k, hk, hpath⟩, hload, hgen, hall⟩ := source c hc
    obtain ⟨d, hd, -⟩ := (hgen.parent hload hp).commitIn.load
    have hbelow : Below s' tips p := by
      refine ⟨k, hk, hpath.tail ?_⟩
      rw [s'.refsOf_of_get (loadCommit_ok.mp hload)]
      exact List.mem_cons_of_mem _ hp
    exact ⟨d, hall p _ hbelow (loadCommit_ok.mp hd),
      ((hcar.loadCommit hbelow hd).1 |> loadCommit_ok.mp |> hput.sound.get).1⟩

/-- What a tidy store exports of genuine tips: a batch that makes known every primitive at the
tips or below them. -/
theorem closureOf_genuine (hs : s.Tidy) {tips : List Oid} (h : ∀ o ∈ tips, Genuine s o) :
    ∃ raws, closureOf s tips = .ok raws ∧ Gathered Oid raws ∧
      ∀ o, o ∈ accepted raws ↔ isPrimitiveOid s o = true ∧ ∃ k ∈ tips, Descends s k o := by
  obtain ⟨raws, hraws, hspec⟩ := closureOf_total fun o ho => (h o ho).commitIn.grounded
  refine ⟨raws, hraws, fun r hr => ⟨s, tips, raws, hs, h, hraws, hr, fun _ => id⟩, fun o => ?_⟩
  rw [mem_accepted]
  constructor
  · rintro ⟨r, hr, c, hparse, hprim, -, rfl⟩
    obtain ⟨o, x, ho, hx, rfl⟩ := (hspec r).mp hr
    have henc := hs.sound.get hx
    have hcx : x.canon = .commit c :=
        Except.ok.inj ((decompressAndParse_compress henc.2).symm.trans hparse)
    obtain rfl : x = .commit c := by
      cases x with
      | commit d => exact congrArg GitObject.commit (GitObject.commit.inj hcx)
      | _ => cases hcx
    obtain rfl := henc.1
    refine ⟨?_, ?_⟩
    · rw [isPrimitiveOid, loadCommit_ok.mpr hx]
      exact hprim
    · rcases genuine_below h ho with ⟨-, hdesc⟩ | ⟨hes, -, -⟩ | ⟨b, hb⟩
      · exact hdesc
      · cases hx.symm.trans hes
      · cases hx.symm.trans hb
  · rintro ⟨hprim, k, hk, hdesc⟩
    have hbelow := below_of_descends hk hdesc
    obtain ⟨c, hc, -⟩ := ((h k hk).commitIn.ancestor hdesc).load
    rw [isPrimitiveOid, hc] at hprim
    have hgen : Genuine s o := (h k hk).descend hdesc
    obtain ⟨node, hnode⟩ := hgen.verifies hc hprim
    have henc := hs.sound.get (loadCommit_ok.mp hc)
    refine ⟨(GitObject.commit c).compress, (hspec _).mpr ⟨o, _, hbelow, loadCommit_ok.mp hc, rfl⟩,
      c, ?_, hprim,
      ⟨node, hnode⟩, henc.1.symm⟩
    exact decompressAndParse_compress henc.2

end Csp
