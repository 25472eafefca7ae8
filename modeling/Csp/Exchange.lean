import Csp.Handshake
import Csp.HonestVault

/-! One end of a connection in the course of a catch-up. An end is told of tips, asks for what it
misses, and is answered in chunks, while it answers the other end in the same way and takes in
what is pushed live. -/

namespace Csp
open Result
variable {Oid : Type} [ObjectId Oid] [Crates]

namespace Session

/-! ### Where a catch-up stands -/

def mine : Msg → Bool
  | .frontierDigest _ => true
  | .objectsBatch _ _ => true
  | _ => false

def isWant : Msg → Bool
  | .wantTips _ => true
  | _ => false

/-- The catch-up of one end on the tips it is told of: what comes to it, what it has asked for,
and what is sure to be known at the end. -/
inductive Flow (tips : List Oid) (bound : Oid → Prop) (known : List Oid) (pending : List Bytes) :
    List Msg → List Msg → Prop
  | advertised (nothing : pending = []) : Flow tips bound known pending
    [.frontierDigest (tips.map toHex)] []
  | asked {want : List Oid} (nothing : pending = []) (sub : ∀ o ∈ want, o ∈ tips)
      (due : ∀ o ∈ tips, o ∈ known ∨ o ∈ want) : Flow tips bound known pending []
      [.wantTips (want.map toHex)]
  | answering {chunks : List (List Bytes)} (gathered : Gathered Oid (pending ++ chunks.flatten))
      (bounded : ∀ o ∈ accepted (pending ++ chunks.flatten), bound o)
      (due : ∀ o ∈ tips, o ∈ known ∨ o ∈ accepted (pending ++ chunks.flatten)) :
      Flow tips bound known pending (batchFrames chunks) []
  | done (nothing : pending = []) (due : ∀ o ∈ tips, o ∈ known) :
    Flow tips bound known pending [] []

omit [Crates] in
theorem batchFrames_cases (chunks : List (List Bytes)) :
    (batchFrames chunks = [.objectsBatch chunks.flatten true]) ∨
      ∃ chunk rest, chunks = chunk :: rest ∧ rest ≠ [] ∧
      batchFrames chunks = .objectsBatch chunk false :: batchFrames rest := by
  match chunks with
  | [] => exact .inl rfl
  | [chunk] => exact .inl (by simp [batchFrames])
  | chunk :: c :: cs => exact .inr ⟨chunk, c :: cs, rfl, List.cons_ne_nil _ _, rfl⟩

omit [Crates] in
theorem mem_batchFrames {chunks : List (List Bytes)} {m : Msg} (hm : m ∈ batchFrames chunks) :
    ∃ raws isLast, m = .objectsBatch raws isLast := by
  induction chunks with
  | nil => exact ⟨_, _, List.mem_singleton.mp hm⟩
  | cons chunk chunks ih =>
    rcases batchFrames_cases (chunk :: chunks) with heq | ⟨c, rest, hc, -, heq⟩
    · rw [heq] at hm
      exact ⟨_, _, List.mem_singleton.mp hm⟩
    · obtain ⟨rfl, rfl⟩ := List.cons.inj hc
      rw [heq] at hm
      rcases List.mem_cons.mp hm with rfl | hm
      · exact ⟨_, _, rfl⟩
      · exact ih hm

/-! ### Chunks -/

omit [Crates] in
theorem chunkObject_flatten (limit : Nat) (raws : List Bytes)
    (acc : List (List Bytes) × List Bytes × Nat) :
    (raws.foldl (chunkObject limit) acc).1.flatten ++ (raws.foldl (chunkObject limit) acc).2.1 =
      acc.1.flatten ++ acc.2.1 ++ raws := by
  induction raws generalizing acc with
  | nil => simp
  | cons r raws ih =>
    rw [List.foldl_cons, ih]
    obtain ⟨out, current, size⟩ := acc
    simp only [chunkObject]
    split_ifs
    · simp
    · simp

omit [Crates] in
theorem flatten_chunkObjects (raws : List Bytes) (limit : Nat) :
    (chunkObjects raws limit).flatten = raws := by
  have h := chunkObject_flatten limit raws ([], [], 0)
  rw [chunkObjects]
  generalize raws.foldl (chunkObject limit) ([], [], 0) = acc at h ⊢
  obtain ⟨out, current, size⟩ := acc
  simp only [List.flatten_nil, List.nil_append] at h ⊢
  split_ifs with hc
  · rw [← h, hc, List.append_nil]
  · rw [List.flatten_append, List.flatten_singleton, h]

/-! ### Hex ids -/

section Spec
variable [LawfulObjectId Oid] [LawfulCrates]

omit [Crates] [LawfulCrates] in
theorem filterMap_fromHex (os : List Oid) :
    (os.map toHex).filterMap (fun hex => (fromHex hex : CspResult Oid).toOption) = os := by
  rw [List.filterMap_map]
  refine (List.filterMap_congr fun o _ => ?_).trans List.filterMap_some
  rw [Function.comp_apply, fromHex_toHex]
  rfl

variable {V : Type} [SessionVault V Oid] [Replica V Oid]

omit [Crates] [LawfulCrates] [Replica V Oid] in
theorem wanted_toHex (v : V) (tips : List Oid) :
    wanted v (tips.map toHex) =
      (tips.filter fun o => !SessionVault.has v o || decide
        (o ∉ SessionVault.known v)).map toHex := by
  rw [wanted, List.filter_map]
  refine congrArg (List.map toHex) (List.filter_congr fun o _ => ?_)
  rw [Function.comp_apply, fromHex_toHex]

/-! ### One message -/

omit [LawfulObjectId Oid] [LawfulCrates] in
theorem Flow.mono {tips known known' : List Oid} {bound : Oid → Prop} {pending : List Bytes}
    {toMe asked : List Msg}
    (h : Flow tips bound known pending toMe asked) (hk : ∀ o ∈ known, o ∈ known') :
    Flow tips bound known' pending toMe asked := by
  cases h with
  | advertised nothing => exact .advertised nothing
  | asked nothing sub due => exact .asked nothing sub fun o ho => (due o ho).imp (hk o) id
  | answering gathered bounded due => exact .answering gathered bounded fun o ho => (due o ho).imp (hk o) id
  | done nothing due => exact .done nothing fun o ho => hk o (due o ho)

omit [LawfulObjectId Oid] [LawfulCrates] in
theorem Flow.idle {tips known : List Oid} {bound : Oid → Prop} {pending : List Bytes}
    {asked : List Msg} (h : Flow tips bound known pending [] asked) : pending = [] := by
  generalize htoMe : ([] : List Msg) = toMe at h
  cases h with
  | advertised nothing => exact nothing
  | asked nothing => exact nothing
  | @answering chunks =>
    rcases batchFrames_cases chunks with heq | ⟨_, _, -, -, heq⟩
    · rw [heq] at htoMe
      cases htoMe
    · rw [heq] at htoMe
      cases htoMe
  | done nothing => exact nothing

omit [LawfulObjectId Oid] [LawfulCrates] in
theorem Flow.drained {tips known : List Oid} {bound : Oid → Prop} {pending : List Bytes}
    (h : Flow tips bound known pending (([] : List Msg).filter mine)
      (([] : List Msg).filter isWant)) :
    ∀ o ∈ tips, o ∈ known := by
  generalize htoMe : ([] : List Msg).filter mine = toMe at h
  generalize hasked : ([] : List Msg).filter isWant = asked at h
  cases h with
  | advertised => cases htoMe
  | asked => cases hasked
  | @answering chunks =>
    rcases batchFrames_cases chunks with heq | ⟨_, _, -, -, heq⟩
    · rw [heq] at htoMe
      cases htoMe
    · rw [heq] at htoMe
      cases htoMe
  | done _ due => exact due

def answers : Msg → Msg → Bool
  | .frontierDigest _, .wantTips _ => true
  | .wantTips _, .objectsBatch _ _ => true
  | .ping, .pong => true
  | _, _ => false

def pushed : Msg → Option (List Bytes)
  | .live raws => some raws
  | .objects raws => some raws
  | _ => none

omit [ObjectId Oid] [Crates] [LawfulObjectId Oid] [LawfulCrates] in
theorem pushed_of_answers {m x : Msg} (h : answers m x = true) : pushed x = none := by
  cases x with
  | live => cases m <;> cases h
  | objects => cases m <;> cases h
  | _ => rfl

omit [Crates] [LawfulObjectId Oid] [LawfulCrates] in
theorem want_of_answers {m x : Msg} (hm : mine m = false) (h : answers m x = true) :
    isWant x = false := by
  cases x with
  | wantTips =>
    cases m with
    | frontierDigest => cases hm
    | _ => cases h
  | _ => rfl

variable [HonestVault V]

/-- What an established end of an honest engine does with a message: its own catch-up goes on
with what is behind the message, that of the other end with what is answered, and what is
learned is what is to be relayed. -/
structure Exchanged (tips : List Oid) (bound : Oid → Prop) (tips' known' : List Oid)
    (bound' : Oid → Prop) (pending' : List Bytes) (m : Msg) (rest toOther : List Msg) (v : V)
    (st : Step) (s' : Session) (v' : V) :
    Prop where
  phase : s'.phase = .established
  honest : HonestVault.honest v'
  ext : (Replica.store v).Extends (Replica.store v')
  answers : ∀ x ∈ st.out, answers m x = true
  own : Flow tips bound (SessionVault.known v') s'.pendingBatch (rest.filter mine)
    ((toOther ++ st.out).filter isWant)
  other : Flow tips' bound' known' pending' ((toOther ++ st.out).filter mine) (rest.filter isWant)
  learned : SessionVault.known v' = SessionVault.known v ∧ st.relay = [] ∨
    Gathered Oid st.relay ∧ SessionVault.known v' = (accepted st.relay).foldl addNew
    (SessionVault.known v)
  bounded : ∀ o ∈ SessionVault.known v', o ∈ SessionVault.known v ∨ bound o ∨ ∃ raws,
    pushed m = some raws ∧ o ∈ accepted raws
  took : ∀ raws, pushed m = some raws → ∀ o ∈ accepted raws, o ∈ SessionVault.known v'

omit [LawfulObjectId Oid] [LawfulCrates] [Replica V Oid] [HonestVault V] in
theorem known_mono_of_learned {v v' : V} {st : Step}
    (h : SessionVault.known v' = SessionVault.known v ∧ st.relay = [] ∨
      Gathered Oid st.relay ∧ SessionVault.known v' = (accepted st.relay).foldl addNew
      (SessionVault.known v)) :
    ∀ o ∈ SessionVault.known v, o ∈ SessionVault.known v' := by
  intro o ho
  rcases h with ⟨hknown, -⟩ | ⟨-, hknown⟩
  · rwa [hknown]
  · rw [hknown]
    exact mem_foldl_addNew.mpr (.inl ho)

section Message
variable {tips tips' known' : List Oid} {bound bound' : Oid → Prop}
    {pending' : List Bytes} {m : Msg}
  {rest toOther : List Msg} {s s' : Session} {v v' : V} {st : Step}

omit [LawfulObjectId Oid] [LawfulCrates] in
theorem exchanged_quiet {asks : List Msg} (hv : HonestVault.honest v) (hs : s.phase = .established)
    (hans : ∀ x ∈ asks, answers m x = true) (hpush : pushed m = none)
    (own : Flow tips bound (SessionVault.known v) s.pendingBatch (rest.filter mine)
      ((toOther ++ asks).filter isWant))
    (other : Flow tips' bound' known' pending' ((toOther ++ asks).filter mine)
      (rest.filter isWant)) :
    Exchanged tips bound tips' known' bound' pending' m rest toOther v { out := asks } s v where
  phase := hs
  honest := hv
  ext := .refl _
  answers := hans
  own := own
  other := other
  learned := .inl ⟨rfl, rfl⟩
  bounded _ ho := .inl ho
  took raws h := by
    rw [hpush] at h
    cases h

omit [LawfulCrates] in
theorem exchanged_digest {hexes : List Str} (hv : HonestVault.honest v)
    (hs : s.phase = .established) (own : Flow tips bound (SessionVault.known v) s.pendingBatch
      ((Msg.frontierDigest hexes :: rest).filter mine)
      (toOther.filter isWant))
    (other : Flow tips' bound' known' pending' (toOther.filter mine)
      ((Msg.frontierDigest hexes :: rest).filter isWant)) :
    Exchanged tips bound tips' known' bound' pending' (.frontierDigest hexes) rest toOther v
      { out := if wanted v hexes = [] then [] else [.wantTips (wanted v hexes)] } s v := by
  rw [List.filter_cons_of_neg (by simp [isWant])] at other
  refine exchanged_quiet hv hs ?_ rfl ?_ ?_
  · intro x hx
    split_ifs at hx
    · cases hx
    · obtain rfl := List.mem_singleton.mp hx
      rfl
  · rw [List.filter_cons_of_pos rfl] at own
    generalize htoMe : Msg.frontierDigest hexes :: rest.filter mine = toMe at own
    generalize hasked : toOther.filter isWant = asked at own
    cases own with
    | advertised nothing =>
      obtain ⟨hhexes, hrest⟩ := List.cons.inj htoMe
      obtain rfl := Msg.frontierDigest.inj hhexes
      rw [hrest, List.filter_append, hasked, List.nil_append, wanted_toHex]
      set want := tips.filter fun o => !SessionVault.has v o || decide
        (o ∉ SessionVault.known v) with hwant
      have hmissing : ∀ o ∈ tips, o ∈ SessionVault.known v ∨ o ∈ want := by
        intro o ho
        by_cases hk : o ∈ SessionVault.known v
        · exact .inl hk
        · exact .inr (List.mem_filter.mpr ⟨ho, by simp [hk]⟩)
      by_cases hnone : want = []
      · rw [hnone, List.map_nil, if_pos rfl]
        refine .done nothing fun o ho => ?_
        simpa only [hnone, List.not_mem_nil, or_false] using hmissing o ho
      · rw [if_neg fun h => hnone (List.map_eq_nil_iff.mp h), List.filter_cons_of_pos rfl,
          List.filter_nil]
        exact .asked nothing (fun o ho => (List.mem_filter.mp ho).1) hmissing
    | asked => cases htoMe
    | answering =>
      obtain ⟨_, _, hm⟩ := mem_batchFrames (htoMe ▸ List.mem_cons_self)
      cases hm
    | done => cases htoMe
  · have hnone : (if wanted v hexes = [] then [] else [Msg.wantTips (wanted v hexes)]).filter
        mine = [] := by
      split_ifs
      · rfl
      · rfl
    rwa [List.filter_append, hnone, List.append_nil]

theorem exchanged_want {hexes : List Str} (hv : HonestVault.honest v) (hs : s.phase = .established)
    (own : Flow tips bound (SessionVault.known v) s.pendingBatch
      ((Msg.wantTips hexes :: rest).filter mine)
      (toOther.filter isWant))
    (other : Flow tips' bound' known' pending' (toOther.filter mine)
      ((Msg.wantTips hexes :: rest).filter isWant))
    (hin : ∀ o ∈ tips', o ∈ SessionVault.known v) (hbound : ∀ o ∈ SessionVault.known v, bound' o) :
    ∃ raws, SessionVault.exportClosure v (hexes.filterMap fun hex =>
      (fromHex hex : CspResult Oid).toOption) = .ok raws ∧
      Exchanged tips bound tips' known' bound' pending' (.wantTips hexes) rest toOther v
        { out := batchFrames (chunkObjects raws catchupChunkBytes) } s v := by
  rw [List.filter_cons_of_neg (by simp [mine])] at own
  rw [List.filter_cons_of_pos rfl] at other
  generalize hasked : Msg.wantTips hexes :: rest.filter isWant = asked at other
  generalize htoMe : toOther.filter mine = toMe at other
  cases other with
  | advertised => cases hasked
  | answering => cases hasked
  | done => cases hasked
  | @asked want nothing sub due =>
    obtain ⟨hhexes, hrest⟩ := List.cons.inj hasked
    obtain rfl := Msg.wantTips.inj hhexes
    have hhist := HonestVault.history hv
    have hknown : ∀ o ∈ want, o ∈ SessionVault.known v := fun o ho => hin o (sub o ho)
    obtain ⟨raws, hraws, hgathered, hacc⟩ := closureOf_genuine hhist.store fun o ho =>
      hhist.genuine o (hknown o ho)
    have hbatch : ∀ x ∈ batchFrames (chunkObjects raws catchupChunkBytes),
        mine x = true ∧ isWant x = false ∧ answers (.wantTips (want.map toHex)) x = true := by
      intro x hx
      obtain ⟨_, _, rfl⟩ := mem_batchFrames hx
      exact ⟨rfl, rfl, rfl⟩
    have hnone : (batchFrames (chunkObjects raws catchupChunkBytes)).filter isWant = [] :=
      List.filter_eq_nil_iff.mpr fun x hx => by simp [(hbatch x hx).2.1]
    have hall : (batchFrames (chunkObjects raws catchupChunkBytes)).filter mine =
        batchFrames (chunkObjects raws catchupChunkBytes) := List.filter_eq_self.mpr fun x hx =>
        (hbatch x hx).1
    have hflat : pending' ++ (chunkObjects raws catchupChunkBytes).flatten = raws := by
      rw [nothing, flatten_chunkObjects, List.nil_append]
    refine ⟨raws, ?_, exchanged_quiet hv hs (fun x hx => (hbatch x hx).2.2) rfl ?_ ?_⟩
    · rw [filterMap_fromHex, HonestVault.exportClosure_eq, hraws]
    · rwa [List.filter_append, hnone, List.append_nil]
    · rw [List.filter_append, htoMe, List.nil_append, hall, hrest]
      refine .answering (by rwa [hflat]) ?_ ?_
      · rw [hflat]
        intro o ho
        obtain ⟨hprim, k, hk, hdesc⟩ := (hacc o).mp ho
        exact hbound o (hhist.covered k (hknown k hk) o hdesc hprim)
      · rw [hflat]
        intro o ho
        exact (due o ho).imp id fun hw => (hacc o).mpr ⟨hhist.primitive o (hknown o hw),
          o, hw, .refl⟩

variable [LawfulSessionVault V]

omit [LawfulObjectId Oid] [LawfulCrates] in
theorem learned_of_integrate {batch : List Bytes} {n : Nat} (hv : HonestVault.honest v)
    (hr : Gathered Oid batch) (hi : SessionVault.integrate batch v = (.ok n, v')) :
    SessionVault.known v' = SessionVault.known v ∧ (batchStep batch n).relay = [] ∨
      Gathered Oid (batchStep batch n).relay ∧
        SessionVault.known v' = (accepted (batchStep batch n).relay).foldl addNew
        (SessionVault.known v) := by
  obtain ⟨-, -, hknown⟩ := HonestVault.integrate_honest hv hr hi
  have hcount := (LawfulSessionVault.integrate_ok hi).count
  by_cases hn : n > 0
  · rw [batchStep, if_pos hn]
    exact .inr ⟨hr, hknown⟩
  · refine .inl ⟨?_, if_neg hn⟩
    rw [hknown]
    refine ((prefix_foldl_addNew (accepted batch) (SessionVault.known v)).eq_of_length ?_).symm
    rw [← hknown]
    omega

omit [LawfulObjectId Oid] [LawfulCrates] in
theorem finishBatch_honest {batch : List Bytes} (hv : HonestVault.honest v)
    (hr : Gathered Oid batch) (hf : finishBatch batch (s, v) = (.ok st, (s', v'))) :
    s' = s ∧ st.out = [] ∧ HonestVault.honest v' ∧ (Replica.store v).Extends (Replica.store v') ∧
      SessionVault.known v' = (accepted batch).foldl addNew (SessionVault.known v) ∧
      (SessionVault.known v' = SessionVault.known v ∧ st.relay = [] ∨
        Gathered Oid st.relay ∧ SessionVault.known v' = (accepted st.relay).foldl addNew
        (SessionVault.known v)) := by
  rw [finishBatch_run] at hf
  rcases hi : SessionVault.integrate batch v with ⟨_ | n, w⟩
  · rw [hi] at hf
    cases hf
  · obtain ⟨w', hw', hstill, -⟩ := LawfulSessionVault.markBootstrapComplete_run w
    rw [hi] at hf
    simp only [hw', Prod.mk.injEq, Except.ok.injEq] at hf
    obtain ⟨rfl, rfl, rfl⟩ := hf
    obtain ⟨hw, hext, hknown⟩ := HonestVault.integrate_honest hv hr hi
    have hdone := HonestVault.markBootstrapComplete_honest hw
    have hlearned := learned_of_integrate hv hr hi
    rw [hw'] at hdone
    rw [← hstill.known] at hknown hlearned
    rw [← hstill.store] at hext
    exact ⟨rfl, rfl, hdone, hext, hknown, hlearned⟩

omit [LawfulObjectId Oid] [LawfulCrates] [LawfulSessionVault V] in
theorem exchanged_pushed {raws : List Bytes} (hs : s.phase = .established)
    (hpush : pushed m = some raws) (hout : st.out = []) (hhon : HonestVault.honest v')
    (hext : (Replica.store v).Extends (Replica.store v'))
    (hknown : SessionVault.known v' = (accepted raws).foldl addNew (SessionVault.known v))
    (hlearned : SessionVault.known v' = SessionVault.known v ∧ st.relay = [] ∨
      Gathered Oid st.relay ∧ SessionVault.known v' = (accepted st.relay).foldl addNew
      (SessionVault.known v))
    (own : Flow tips bound (SessionVault.known v) s.pendingBatch ((m :: rest).filter mine)
      (toOther.filter isWant))
    (other : Flow tips' bound' known' pending' (toOther.filter mine) ((m :: rest).filter isWant)) :
    Exchanged tips bound tips' known' bound' pending' m rest toOther v st s v' := by
  have hkind : mine m = false ∧ isWant m = false := by
    cases m with
    | live => exact ⟨rfl, rfl⟩
    | objects => exact ⟨rfl, rfl⟩
    | _ => cases hpush
  rw [List.filter_cons_of_neg (by rw [hkind.1]; decide)] at own
  rw [List.filter_cons_of_neg (by rw [hkind.2]; decide)] at other
  have hmem : ∀ o, o ∈ SessionVault.known v' ↔ o ∈ SessionVault.known v ∨ o ∈ accepted raws := by
    intro o
    rw [hknown]
    exact mem_foldl_addNew
  refine ⟨hs, hhon, hext, ?_, ?_, ?_, hlearned, ?_, ?_⟩
  · rw [hout]
    rintro x ⟨⟩
  · rw [hout, List.append_nil]
    exact own.mono fun o ho => (hmem o).mpr (.inl ho)
  · rwa [hout, List.append_nil]
  · exact fun o ho => ((hmem o).mp ho).imp id fun h => .inr ⟨raws, hpush, h⟩
  · intro raws' hraws' o ho
    obtain rfl := Option.some.inj (hpush.symm.trans hraws')
    exact (hmem o).mpr (.inr ho)

omit [LawfulObjectId Oid] [LawfulCrates] in
theorem exchanged_batch {raws : List Bytes} {isLast : Bool} (hv : HonestVault.honest v)
    (hs : s.phase = .established) (own : Flow tips bound (SessionVault.known v) s.pendingBatch
      ((Msg.objectsBatch raws isLast :: rest).filter mine)
      (toOther.filter isWant))
    (other : Flow tips' bound' known' pending' (toOther.filter mine)
      ((Msg.objectsBatch raws isLast :: rest).filter isWant))
    (run : onEstablished (.objectsBatch raws isLast) (s, v) = (.ok st, (s', v'))) :
    Exchanged tips bound tips' known' bound' pending' (.objectsBatch raws isLast) rest toOther v
    st s' v' := by
  rw [List.filter_cons_of_neg (by simp [isWant])] at other
  rw [List.filter_cons_of_pos rfl] at own
  rw [onEstablished_objectsBatch] at run
  generalize htoMe : Msg.objectsBatch raws isLast :: rest.filter mine = toMe at own
  generalize hasked : toOther.filter isWant = asked at own
  cases own with
  | advertised => cases htoMe
  | asked => cases htoMe
  | done => cases htoMe
  | @answering chunks gathered bounded due =>
    rcases batchFrames_cases chunks with heq | ⟨chunk, chunks, rfl, -, heq⟩
    · -- the last chunk
      rw [heq] at htoMe
      obtain ⟨hmsg, hrest⟩ := List.cons.inj htoMe
      obtain ⟨rfl, rfl⟩ := Msg.objectsBatch.inj hmsg
      rw [if_pos rfl] at run
      obtain ⟨rfl, hout, hhon, hext, hknown, hlearned⟩ := finishBatch_honest hv gathered run
      have hmem : ∀ o, o ∈ SessionVault.known v' ↔
          o ∈ SessionVault.known v ∨ o ∈ accepted (s.pendingBatch ++ chunks.flatten) := by
        intro o
        rw [hknown]
        exact mem_foldl_addNew
      refine ⟨hs, hhon, hext, ?_, ?_, ?_, hlearned, ?_, ?_⟩
      · rw [hout]
        rintro x ⟨⟩
      · rw [hout, List.append_nil, hrest, hasked]
        exact .done rfl fun o ho => (hmem o).mpr (due o ho)
      · rwa [hout, List.append_nil]
      · exact fun o ho => ((hmem o).mp ho).imp id fun h => .inl (bounded o h)
      · rintro _ ⟨⟩
    · -- one of several chunks
      rw [heq] at htoMe
      obtain ⟨hmsg, hrest⟩ := List.cons.inj htoMe
      obtain ⟨rfl, rfl⟩ := Msg.objectsBatch.inj hmsg
      simp only [Bool.false_eq_true, if_false, Prod.mk.injEq, Except.ok.injEq] at run
      obtain ⟨rfl, rfl, rfl⟩ := run
      have hsplit : s.pendingBatch ++ raws ++ chunks.flatten = s.pendingBatch ++
          (raws :: chunks).flatten := by
        rw [List.flatten_cons, List.append_assoc]
      refine ⟨hs, hv, .refl _, (by rintro x ⟨⟩), ?_, ?_, .inl ⟨rfl, rfl⟩, fun o ho => .inl ho,
        (by rintro _ ⟨⟩)⟩
      · rw [List.append_nil, hrest, hasked]
        exact .answering (hsplit ▸ gathered) (hsplit ▸ bounded) (hsplit ▸ due)
      · rwa [List.append_nil]

theorem onEstablished_exchanged (hv : HonestVault.honest v) (hs : s.phase = .established)
    (run : onEstablished m (s, v) = (.ok st, (s', v')))
    (hpush : ∀ raws, pushed m = some raws → Gathered Oid raws)
    (own : Flow tips bound (SessionVault.known v) s.pendingBatch ((m :: rest).filter mine)
      (toOther.filter isWant))
    (other : Flow tips' bound' known' pending' (toOther.filter mine) ((m :: rest).filter isWant))
    (hin : ∀ o ∈ tips', o ∈ SessionVault.known v) (hbound : ∀ o ∈ SessionVault.known v, bound' o) :
    Exchanged tips bound tips' known' bound' pending' m rest toOther v st s' v' := by
  cases m with
  | frontierDigest hexes =>
    rw [onEstablished_frontierDigest] at run
    simp only [Prod.mk.injEq, Except.ok.injEq] at run
    obtain ⟨rfl, rfl, rfl⟩ := run
    exact exchanged_digest hv hs own other
  | wantTips hexes =>
    obtain ⟨raws, hraws, hex⟩ := exchanged_want hv hs own other hin hbound
    rw [onEstablished_wantTips, hraws] at run
    simp only [Prod.mk.injEq, Except.ok.injEq] at run
    obtain ⟨rfl, rfl, rfl⟩ := run
    exact hex
  | live raws =>
    rw [onEstablished_live] at run
    split at run
    · rename_i n w hi
      simp only [Prod.mk.injEq, Except.ok.injEq] at run
      obtain ⟨rfl, rfl, rfl⟩ := run
      obtain ⟨hhon, hext, hknown⟩ := HonestVault.integrate_honest hv (hpush raws rfl) hi
      exact exchanged_pushed hs rfl rfl hhon hext hknown
        (learned_of_integrate hv (hpush raws rfl) hi) own other
    · cases run
  | objects raws =>
    obtain ⟨rfl, hout, hhon, hext, hknown, hlearned⟩ := finishBatch_honest hv (hpush raws rfl) run
    exact exchanged_pushed hs rfl hout hhon hext hknown hlearned own other
  | objectsBatch raws isLast => exact exchanged_batch hv hs own other run
  | ping =>
    obtain ⟨rfl, rfl, rfl⟩ : ({ out := [.pong] } : Step) = st ∧ s = s' ∧
      v = v' := by simpa [onEstablished] using run
    rw [List.filter_cons_of_neg (by simp [mine])] at own
    rw [List.filter_cons_of_neg (by simp [isWant])] at other
    refine exchanged_quiet hv hs ?_ rfl ?_ ?_
    · intro x hx
      rw [List.mem_singleton.mp hx]
      rfl
    · rwa [List.filter_append, show [Msg.pong].filter isWant = [] from rfl, List.append_nil]
    · rwa [List.filter_append, show [Msg.pong].filter mine = [] from rfl, List.append_nil]
  | pong =>
    obtain ⟨rfl, rfl, rfl⟩ : ({} : Step) = st ∧ s = s' ∧
      v = v' := by simpa [onEstablished] using run
    rw [List.filter_cons_of_neg (by simp [mine])] at own
    rw [List.filter_cons_of_neg (by simp [isWant])] at other
    refine exchanged_quiet hv hs (by rintro x ⟨⟩) rfl ?_ ?_
    · rwa [List.append_nil]
    · rwa [List.append_nil]
  | hello _ _ _ _ _ _ => cases run
  | authProof _ => cases run

/-! ### With the handshake -/

/-- How far an end's catch-up is: it begins when the other end, whose phase is given, is
established and advertises tips. -/
def Told (P : List Oid → Prop) (teller : Phase) (known : List Oid) (pending : List Bytes)
    (toMe asked : List Msg) :
    Prop :=
  if teller = .established then
    ∃ tips, P tips ∧ Flow tips (fun _ => True) known pending (toMe.filter mine)
    (asked.filter isWant)
  else pending = [] ∧ toMe.filter mine = [] ∧ asked.filter isWant = []

omit [LawfulObjectId Oid] [LawfulCrates] [LawfulSessionVault V] in
theorem Told.mono {P P' : List Oid → Prop} {teller : Phase} {known known' : List Oid}
    {pending : List Bytes} {toMe asked : List Msg} (h : Told P teller known pending toMe asked)
    (hP : ∀ tips, P tips → P' tips) (hk : ∀ o ∈ known, o ∈ known') :
    Told P' teller known' pending toMe asked := by
  unfold Told at h ⊢
  split_ifs at h ⊢ with ht
  · obtain ⟨tips, htips, hf⟩ := h
    exact ⟨tips, hP tips htips, hf.mono hk⟩
  · exact h

omit [LawfulObjectId Oid] [LawfulCrates] [LawfulSessionVault V] in
theorem Told.congr {P : List Oid → Prop} {teller : Phase} {known : List Oid} {pending : List Bytes}
    {toMe toMe' asked asked' : List Msg} (h : Told P teller known pending toMe asked)
    (hmine : toMe'.filter mine = toMe.filter mine)
    (hwant : asked'.filter isWant = asked.filter isWant) :
    Told P teller known pending toMe' asked' := by
  unfold Told
  rwa [hmine, hwant]

/-- What an end does with a message, in the handshake or after it: its own catch-up and that of
the other end go on, and what is learned is what is to be relayed. -/
structure Replied (P P' : List Oid → Prop) (teller : Phase) (known' : List Oid)
    (pending' : List Bytes) (m : Msg) (rest toOther : List Msg) (s : Session) (v : V) (st : Step)
    (s' : Session) (v' : V) : Prop where
  phase : s.phase = .established → s'.phase = .established
  honest : HonestVault.honest v'
  ext : (Replica.store v).Extends (Replica.store v')
  own : Told P teller (SessionVault.known v') s'.pendingBatch rest (toOther ++ st.out)
  other : Told P' s'.phase known' pending' (toOther ++ st.out) rest
  learned : SessionVault.known v' = SessionVault.known v ∧ st.relay = [] ∨
    Gathered Oid st.relay ∧ SessionVault.known v' = (accepted st.relay).foldl addNew
    (SessionVault.known v)
  took : ∀ raws, pushed m = some raws → ∀ o ∈ accepted raws, o ∈ SessionVault.known v'
  quiet : ∀ x ∈ st.out, pushed x = none

omit [LawfulObjectId Oid] [LawfulCrates] [LawfulSessionVault V] in
theorem Replied.known_mono {P P' : List Oid → Prop} {teller : Phase}
    (h : Replied P P' teller known' pending' m rest toOther s v st s' v') :
    ∀ o ∈ SessionVault.known v, o ∈ SessionVault.known v' := known_mono_of_learned h.learned

omit [LawfulObjectId Oid] [LawfulCrates] [LawfulSessionVault V] in
theorem Told.handshake {P : List Oid → Prop} {teller : Phase} {known : List Oid}
    {pending : List Bytes} {x : Msg} (h : Told P teller known pending (m :: rest) toOther)
    (hm : mine m = false) (hx : isWant x = false) :
    Told P teller known pending rest (toOther ++ [x]) := by
  refine h.congr ?_ ?_
  · rw [List.filter_cons_of_neg (by rw [hm]; decide)]
  · rw [List.filter_append, List.filter_cons_of_neg (by rw [hx]; decide), List.filter_nil,
      List.append_nil]

/-- What an end does with any message that it takes without an error. -/
theorem onMsg_replied (P'' : List Oid → Prop) {now : Nat} {teller : Phase} {P P' : List Oid → Prop}
    (hv : HonestVault.honest v)
    (run : onMsg now m (s, v) = (.ok st, (s', v'))) (hpush : ∀ raws, pushed m = some raws →
      Gathered Oid raws)
    (own : Told P teller (SessionVault.known v) s.pendingBatch (m :: rest) toOther)
    (other : Told P' s.phase known' pending' toOther (m :: rest))
    (hin : ∀ tips, P' tips → ∀ o ∈ tips, o ∈ SessionVault.known v)
    (hgoes : s.phase = .established → ∀ tips, P' tips → P'' tips)
    (hstart : s.phase ≠ .established → SessionVault.known v' = SessionVault.known v →
      Replica.store v' = Replica.store v → ∀ tips, SessionVault.frontierTips v' =
      .ok tips → P'' tips) :
    Replied P P'' teller known' pending' m rest toOther s v st s' v' := by
  by_cases hs : s.phase = .established
  -- this end has advertised: what it hears is an exchange, or a push beside one
  · rw [onMsg_of_established hs] at run
    rw [Told, if_pos hs] at other
    obtain ⟨tips', htips', other⟩ := other
    have hbound : ∀ o ∈ SessionVault.known v, True := fun _ _ => trivial
    by_cases ht : teller = .established
    · rw [Told, if_pos ht] at own
      obtain ⟨tips, htips, own⟩ := own
      have hex := onEstablished_exchanged hv hs run hpush own other (hin tips' htips') hbound
      refine ⟨fun _ => hex.phase, hex.honest, hex.ext, ?_, ?_, hex.learned, hex.took, ?_⟩
      · rw [Told, if_pos ht]
        exact ⟨tips, htips, hex.own⟩
      · rw [Told, if_pos hex.phase]
        exact ⟨tips', hgoes hs tips' htips', hex.other⟩
      · exact fun x hx => pushed_of_answers (hex.answers x hx)
    -- the teller has not: nothing of its exchange is under way, and no message is part of it
    · rw [Told, if_neg ht] at own
      obtain ⟨hpending, hmine, hwant⟩ := own
      have hm : mine m = false := by
        by_contra hm
        rw [List.filter_cons_of_pos (by simpa using hm)] at hmine
        cases hmine
      have hflow : Flow [] (fun _ => True) (SessionVault.known v) s.pendingBatch
          ((m :: rest).filter mine)
          (toOther.filter isWant) := by
        rw [hmine, hwant]
        exact .done hpending fun o ho => by cases ho
      have hex := onEstablished_exchanged hv hs run hpush hflow other (hin tips' htips') hbound
      have hrest : rest.filter mine = [] := by
        rwa [List.filter_cons_of_neg (by rw [hm]; decide)] at hmine
      refine ⟨fun _ => hex.phase, hex.honest, hex.ext, ?_, ?_, hex.learned, hex.took, ?_⟩
      · rw [Told, if_neg ht]
        have hown := hex.own
        rw [hrest] at hown
        refine ⟨hown.idle, hrest, ?_⟩
        rw [List.filter_append, hwant, List.nil_append]
        exact List.filter_eq_nil_iff.mpr fun x hx => by rw [want_of_answers hm (hex.answers x hx)]; decide
      · rw [Told, if_pos hex.phase]
        exact ⟨tips', hgoes hs tips' htips', hex.other⟩
      · exact fun x hx => pushed_of_answers (hex.answers x hx)
  -- in the handshake, only the proof that is taken opens the exchange, with the tips
  · rw [Told, if_neg hs] at other
    obtain ⟨hpending, hmine, hwant⟩ := other
    cases onMsg_took run with
    | hello phase msg agreed =>
      subst msg
      refine ⟨fun h => absurd h hs, hv, .refl _, own.handshake rfl rfl, ?_, .inl ⟨rfl, rfl⟩,
        (by rintro _ ⟨⟩), ?_⟩
      · rw [Told, if_neg Phase.noConfusion]
        refine ⟨hpending, ?_, ?_⟩
        · rw [List.filter_append, hmine]
          rfl
        · rwa [List.filter_cons_of_neg (by simp [isWant])] at hwant
      · intro x hx
        rw [List.mem_singleton.mp hx]
        rfl
    | @auth script sig ssh peer tips _ phase msg key verified still admitted kept advertises =>
      subst msg
      have hhon : HonestVault.honest v' := by
        cases hrole : s.role with
        | connector =>
          rw [kept hrole]
          exact hv
        | listener =>
          have hadm : HonestVault.honest (SessionVault.admitPeer ssh
                s.enrollmentAuthorized now v).2 :=
            HonestVault.admitPeer_honest hv
          rwa [admitted hrole] at hadm
      refine ⟨fun _ => rfl, hhon, ?_, ?_, ?_, .inl ⟨still.known, rfl⟩, (by rintro _ ⟨⟩), ?_⟩
      · rw [still.store]
        exact .refl _
      · have hown := own.handshake (x := .frontierDigest (tips.map toHex)) rfl rfl
        rwa [← still.known] at hown
      · rw [Told, if_pos rfl]
        refine ⟨tips, hstart hs still.known still.store tips advertises, ?_⟩
        rw [List.filter_cons_of_neg (by simp [isWant])] at hwant
        rw [List.filter_append, hmine, hwant]
        exact .advertised hpending
      · intro x hx
        rw [List.mem_singleton.mp hx]
        rfl
    | running phase _ => exact absurd phase hs

end Message

end Spec

end Session

end Csp
