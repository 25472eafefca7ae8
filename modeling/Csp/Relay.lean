import Csp.Exchange
import Csp.Node

/-! What a running node spreads. Every primitive that the node knows is below the frontier that
a session advertised, or on its way to the peer: on the bus, pushed, or about to be put on the
bus. This is lost where a batch is put on the bus between the end of a session's handshake and
its subscription, and where a session falls behind the bus. -/

namespace Csp
open Result Session
variable {Oid : Type} [ObjectId Oid] [Crates]

namespace Node
variable {ι W : Type}

/-- Some session is past its handshake and not on the bus yet, and the batch has what the
frontier it advertised does not cover. -/
def Missed (w : Node ι W Oid) (raws : List Bytes) : Prop :=
  ∃ i c, w.conns i = some c ∧ c.InGap ∧ ∃ o ∈ accepted raws, o ∉ c.advertised

variable [SessionVault W Oid] [Replica W Oid] [HonestVault W]

/-- The steps on which nothing is lost. -/
def Clean (w : Node ι W Oid) : Event ι W → Node ι W Oid → Prop
  | .connected _ p, _ => HonestVault.honest p
  | .published r, w' => r.isOk = true ∧ ∀ raws ∈ w'.bus.drop w.bus.length, ¬ w.Missed raws
  | .taken _ _ r, w' => r.isOk = true ∨ w'.vault = w.vault
  | .relayed _, w' => ∀ raws ∈ w'.bus.drop w.bus.length, ¬ w.Missed raws
  | .lagged _, _ => False
  | .peerChanged _ p p', _ => HonestVault.honest p' ∧ (Replica.store p).Extends (Replica.store p') ∧
      ∀ o ∈ SessionVault.known p, o ∈ SessionVault.known p'
  | .peerSent _ m, _ => mine m = false ∧ isWant m = false ∧ ∀ raws, pushed m = some raws →
    Gathered Oid raws
  | _, _ => True

end Node

/-! ### The invariant -/

namespace Conn
variable {W : Type} [SessionVault W Oid] [Replica W Oid] [HonestVault W]

def Coming (c : Conn W Oid) (bus : List (List Bytes)) (o : Oid) : Prop :=
  o ∈ SessionVault.known c.peer ∨ (∃ raws, Msg.live raws ∈ c.outbox ∧ o ∈ accepted raws) ∨
    ∃ k, c.cursor = some k ∧ ∃ raws ∈ bus.drop k, o ∈ accepted raws

/-- Tips of the node that cover what it knew when it advertised them. -/
structure Heads (c : Conn W Oid) (s : Store Oid) (known tips : List Oid) : Prop where
  known : ∀ o ∈ tips, o ∈ known
  above : ∀ o ∈ c.advertised, Effective s o → ∃ t ∈ tips, Descends s t o

/-- What holds of a session that is up, at a node with the given store and known list. -/
structure Inv (c : Conn W Oid) (s : Store Oid) (known : List Oid) (bus : List (List Bytes))
    (queued : Oid → Prop) :
    Prop where
  peer : HonestVault.honest c.peer
  pushes : ∀ m ∈ c.inbox ++ c.outbox, ∀ raws, pushed m = some raws → Gathered Oid raws
  advertised : ∀ o ∈ c.advertised, o ∈ known
  place : ∀ k, c.cursor = some k → k ≤ bus.length
  ours : Told (c.Heads s known) c.session.phase
    (SessionVault.known c.peer) c.peerSession.pendingBatch c.outbox c.inbox
  theirs : Told (fun tips => ∀ o ∈ tips, o ∈ SessionVault.known c.peer) c.peerSession.phase known
    c.session.pendingBatch c.inbox c.outbox
  covered : c.session.phase = .established → ∀ o ∈ known, o ∈ c.advertised ∨
    c.Coming bus o ∨ queued o

section World
variable {c : Conn W Oid} {s s' : Store Oid} {known known' : List Oid}
    {bus more : List (List Bytes)}
  {queued queued' : Oid → Prop}

omit [Replica W Oid] [HonestVault W] in
theorem Coming.append {o : Oid} (h : c.Coming bus o)
    (hplace : ∀ k, c.cursor = some k → k ≤ bus.length) :
    c.Coming (bus ++ more) o := by
  refine h.imp id (Or.imp id ?_)
  rintro ⟨k, hk, raws, hraws, ho⟩
  refine ⟨k, hk, raws, ?_, ho⟩
  rw [List.drop_append_of_le_length (hplace k hk)]
  exact List.mem_append_left _ hraws

omit [SessionVault W Oid] [Replica W Oid] [HonestVault W] in
theorem Heads.world {tips : List Oid} (h : c.Heads s known tips) (hhist : History s known)
    (hext : s.Extends s') (hadv : ∀ o ∈ c.advertised, o ∈ known)
    (hknown : ∀ o ∈ known, o ∈ known') : c.Heads s' known' tips where
  known o ho := hknown o (h.known o ho)
  above o ho heff := by
    have hin := hhist.commitIn (hadv o ho)
    obtain ⟨t, ht, hdesc⟩ := h.above o ho ((effective_of_extends hext hin).mp heff)
    exact ⟨t, ht, hdesc.extends hext⟩

theorem Inv.world (h : c.Inv s known bus queued) (hhist : History s known) (hext : s.Extends s')
    (hknown : ∀ o ∈ known, o ∈ known')
    (hnew : c.session.phase = .established → ∀ o, o ∈ known' ∧ o ∉ known ∨ queued o →
      o ∈ c.advertised ∨ c.Coming (bus ++ more) o ∨ queued' o) :
    c.Inv s' known' (bus ++ more) queued' where
  peer := h.peer
  pushes := h.pushes
  advertised o ho := hknown o (h.advertised o ho)
  place k hk := by
    rw [List.length_append]
    exact (h.place k hk).trans (Nat.le_add_right _ _)
  ours := h.ours.mono (fun _ ht => ht.world hhist hext h.advertised hknown) fun _ => id
  theirs := h.theirs.mono (fun _ => id) hknown
  covered hs o ho := by
    by_cases hold : o ∈ known
    · rcases h.covered hs o hold with hadv | hcoming | hq
      · exact .inl hadv
      · exact .inr (.inl (hcoming.append h.place))
      · exact hnew hs o (.inr hq)
    · exact hnew hs o (.inl ⟨ho, hold⟩)

theorem Inv.heard (h : c.Inv s known bus queued) (hup : c.connected = true)
    (hs : c.session.phase = .established) {raws : List Bytes} (hraws : raws ∈ more) {o : Oid}
    (ho : o ∈ accepted raws) (hgap : c.InGap → o ∈ c.advertised) :
    o ∈ c.advertised ∨ c.Coming (bus ++ more) o := by
  cases hk : c.cursor with
  | none => exact .inl (hgap ⟨hup, hs, hk⟩)
  | some k =>
    refine .inr (.inr (.inr ⟨k, hk, raws, ?_, ho⟩))
    rw [List.drop_append_of_le_length (h.place k hk)]
    exact List.mem_append_right _ hraws

end World

end Conn

namespace Node
variable {ι W : Type} [SessionVault W Oid] [Replica W Oid] [HonestVault W]

def Queued (w : Node ι W Oid) (o : Oid) : Prop := ∃ i c, w.conns i = some c ∧ o ∈ accepted c.relay

structure Inv (w : Node ι W Oid) : Prop where
  honest : w.vault.vault.Honest
  bus : ∀ raws ∈ w.bus, Gathered Oid raws
  relays : ∀ i c, w.conns i = some c → Gathered Oid c.relay
  conns : ∀ i c, w.conns i = some c → c.connected = true →
    c.Inv w.vault.vault.store w.vault.vault.state.known w.bus w.Queued

theorem gathered_nil : Gathered Oid [] := by
  rintro r ⟨⟩

section Update
variable [DecidableEq ι] {w w' : Node ι W Oid}

omit [DecidableEq ι] in
/-- What a step has to show: of each session that it leaves, that what is new comes to the peer
too, and the invariant of each session that it changes. -/
theorem Inv.next (more : List (List Bytes)) (h : w.Inv) (hv : w'.vault.vault.Honest)
    (hext : w.vault.vault.store.Extends w'.vault.vault.store)
    (hknown : ∀ o ∈ w.vault.vault.state.known, o ∈ w'.vault.vault.state.known)
    (hbus : w'.bus = w.bus ++ more) (hmore : ∀ raws ∈ more, Gathered Oid raws)
    (hconns : ∀ j c, w'.conns j = some c →
      w.conns j = some c ∧ (c.connected = true → c.session.phase = .established → ∀ o,
        o ∈ w'.vault.vault.state.known ∧ o ∉ w.vault.vault.state.known ∨ w.Queued o →
          o ∈ c.advertised ∨ c.Coming (w.bus ++ more) o ∨ w'.Queued o) ∨
      Gathered Oid c.relay ∧ (c.connected = true →
        c.Inv w'.vault.vault.store w'.vault.vault.state.known (w.bus ++ more) w'.Queued)) :
        w'.Inv where
  honest := hv
  bus raws hraws := by
    rw [hbus] at hraws
    exact (List.mem_append.mp hraws).elim (h.bus raws) (hmore raws)
  relays j c hc := (hconns j c hc).elim (fun hold => h.relays j c hold.1) fun hnew => hnew.1
  conns j c hc hup := by
    rw [hbus]
    rcases hconns j c hc with ⟨hold, hnew⟩ | ⟨-, hinv⟩
    · exact (h.conns j c hold hup).world h.honest.history hext hknown (hnew hup)
    · exact hinv hup

omit [Crates] [SessionVault W Oid] [Replica W Oid] [HonestVault W] in
theorem conns_setConn {i j : ι} {c c' : Conn W Oid} (h : (w.setConn i c').conns j = some c) :
    j = i ∧ c = c' ∨ j ≠ i ∧ w.conns j = some c := by
  by_cases hj : j = i
  · subst j
    replace h : Function.update w.conns i (some c') i = some c := h
    rw [Function.update_self] at h
    exact .inl ⟨rfl, (Option.some.inj h).symm⟩
  · replace h : Function.update w.conns i (some c') j = some c := h
    rw [Function.update_of_ne hj] at h
    exact .inr ⟨hj, h⟩

omit [Crates] [SessionVault W Oid] [Replica W Oid] [HonestVault W] in
theorem setConn_self (w : Node ι W Oid) (i : ι) (c : Conn W Oid) :
    (w.setConn i c).conns i = some c :=
  Function.update_self ..

omit [SessionVault W Oid] [Replica W Oid] [HonestVault W] in
theorem Queued.setConn {i : ι} {c' : Conn W Oid} {o : Oid} (h : w.Queued o)
    (hc : ∀ c, w.conns i = some c → o ∈ accepted c.relay → o ∈ accepted c'.relay) :
    (w.setConn i c').Queued o := by
  obtain ⟨j, c, hj, ho⟩ := h
  by_cases hji : j = i
  · subst j
    exact ⟨i, c', setConn_self w i c', hc c hj ho⟩
  · refine ⟨j, c, ?_, ho⟩
    show Function.update w.conns i (some c') j = some c
    rwa [Function.update_of_ne hji]

theorem Inv.setConn {i : ι} {c' : Conn W Oid} (h : w.Inv)
    (hqueued : ∀ (c : Conn W Oid) (o : Oid), w.conns i = some c → o ∈ accepted c.relay →
      o ∈ accepted c'.relay)
    (hrelay : Gathered Oid c'.relay)
    (hinv : c'.connected = true →
      c'.Inv w.vault.vault.store w.vault.vault.state.known w.bus (w.setConn i c').Queued) :
      (w.setConn i c').Inv := by
  refine h.next [] h.honest (.refl _) (fun _ => id) (List.append_nil _).symm (by rintro _ ⟨⟩) ?_
  intro j c hc
  rcases conns_setConn hc with ⟨rfl, rfl⟩ | ⟨-, hold⟩
  · rw [List.append_nil]
    exact .inr ⟨hrelay, hinv⟩
  · refine .inl ⟨hold, fun _ _ o ho => ?_⟩
    rcases ho with ⟨hin, hout⟩ | hq
    · exact absurd hin hout
    · exact .inr (.inr (hq.setConn fun c hc => hqueued c o hc))

/-! ### The steps -/

theorem Inv.replace {i : ι} {c c' : Conn W Oid} (h : w.Inv) (conn : w.conns i = some c)
    (hrelay : c'.relay = c.relay) (hinv : (∀ o, w.Queued o → (w.setConn i c').Queued o) →
      c'.connected = true →
      c'.Inv w.vault.vault.store w.vault.vault.state.known w.bus (w.setConn i c').Queued) :
      (w.setConn i c').Inv := by
  have hqueued : ∀ (d : Conn W Oid) (o : Oid), w.conns i = some d → o ∈ accepted d.relay →
      o ∈ accepted c'.relay := by
    intro d o hd ho
    obtain rfl := Option.some.inj (hd.symm.trans conn)
    rwa [hrelay]
  refine h.setConn hqueued (hrelay ▸ h.relays i c conn) (hinv fun o ho => ho.setConn fun d hd =>
      hqueued d o hd)

theorem Inv.connected {i : ι} {s t : Session} {p : W} (h : w.Inv) (free : w.conns i = none)
    (fresh : s.phase = .awaitHello) (fresh' : t.phase = .awaitHello) (empty : s.pendingBatch = [])
    (empty' : t.pendingBatch = []) (hp : HonestVault.honest p) :
    (w.setConn i { session := s, peer := p, peerSession := t, inbox := [t.start p],
                   outbox := [s.start w.vault] }).Inv := by
  refine h.setConn (fun c o hc => ?_) gathered_nil fun _ => ?_
  · rw [free] at hc
    cases hc
  · refine ⟨hp, ?_, (by rintro o ⟨⟩), (by rintro k ⟨⟩), ?_, ?_, ?_⟩
    · intro m hm raws hraws
      simp only [List.cons_append, List.nil_append, List.mem_cons, List.not_mem_nil, or_false] at hm
      rcases hm with rfl | rfl
      · cases hraws
      · cases hraws
    · rw [Told, if_neg (by rw [fresh]; exact Phase.noConfusion)]
      exact ⟨empty', rfl, rfl⟩
    · rw [Told, if_neg (by rw [fresh']; exact Phase.noConfusion)]
      exact ⟨empty, rfl, rfl⟩
    · intro hs
      rw [fresh] at hs
      cases hs

omit [DecidableEq ι] in
theorem Inv.edited (h : w.Inv) (disk : Disk) :
    Inv { w with vault := { w.vault with vault := { w.vault.vault with disk } } } := by
  refine h.next [] ⟨h.honest.history, h.honest.main⟩ (.refl _) (fun _ => id)
    (List.append_nil _).symm
    (by rintro _ ⟨⟩) fun j c hc => .inl ⟨hc, fun _ _ o ho => ?_⟩
  rcases ho with ⟨hin, hout⟩ | hq
  · exact absurd hin hout
  · exact .inr (.inr hq)

omit [DecidableEq ι] in
theorem Inv.spread (h : w.Inv) {raws : List Bytes} (hmissed : ¬ w.Missed raws) {j : ι}
    {c : Conn W Oid} (hc : w.conns j = some c) (hup : c.connected = true)
    (hs : c.session.phase = .established) {o : Oid} (ho : o ∈ accepted raws) : o ∈ c.advertised ∨
    c.Coming (w.bus ++ [raws]) o := by
  refine (h.conns j c hc hup).heard hup hs (List.mem_singleton_self _) ho fun hgap => ?_
  by_contra hout
  exact hmissed ⟨j, c, hc, hgap, o, ho, hout⟩

theorem Inv.subscribed {i : ι} {c : Conn W Oid} (h : w.Inv) (conn : w.conns i = some c)
    (gap : c.InGap) :
    (w.setConn i { c with cursor := some w.bus.length }).Inv := by
  have hc := h.conns i c conn gap.1
  refine h.replace conn rfl fun hq _ => ⟨hc.peer, hc.pushes, hc.advertised, ?_, ?_, hc.theirs, ?_⟩
  · intro k hk
    exact (Option.some.inj hk).ge
  · exact hc.ours.mono (fun _ ht => ⟨ht.known, ht.above⟩) fun _ => id
  · intro hs o ho
    rcases hc.covered hs o ho with hadv | hcoming | ho
    · exact .inl hadv
    · refine .inr (.inl (hcoming.imp id (Or.imp id ?_)))
      rintro ⟨k, hk, -⟩
      rw [gap.2.2] at hk
      cases hk
    · exact .inr (.inr (hq o ho))

theorem Inv.forwarded {i : ι} {c : Conn W Oid} {k : Nat} {raws : List Bytes} (h : w.Inv)
    (conn : w.conns i = some c) (up : c.connected = true) (place : c.cursor = some k) (next : w.bus[k]? = some raws) :
    (w.setConn i { c with cursor := some (k + 1), outbox := c.outbox ++ Session.onRelay raws }).Inv := by
  have hc := h.conns i c conn up
  have hlt : k < w.bus.length := (List.getElem?_eq_some_iff.mp next).1
  have hget : w.bus[k] = raws := (List.getElem?_eq_some_iff.mp next).2
  refine h.replace conn rfl fun hq _ => ⟨hc.peer, ?_, hc.advertised, ?_, ?_, ?_, ?_⟩
  · intro m hm raws' hraws'
    rcases List.mem_append.mp hm with hm | hm
    · exact hc.pushes m (List.mem_append_left _ hm) raws' hraws'
    · rcases List.mem_append.mp hm with hm | hm
      · exact hc.pushes m (List.mem_append_right _ hm) raws' hraws'
      · rw [List.mem_singleton.mp hm] at hraws'
        rw [← Option.some.inj hraws', ← hget]
        exact h.bus _ (List.getElem_mem hlt)
  · intro k' hk'
    obtain rfl := Option.some.inj hk'
    exact hlt
  · refine (hc.ours.mono (fun _ ht => ⟨ht.known, ht.above⟩) fun _ => id).congr ?_ rfl
    rw [List.filter_append]
    exact List.append_nil _
  · refine hc.theirs.congr rfl ?_
    rw [List.filter_append]
    exact List.append_nil _
  · intro hs o ho
    rcases hc.covered hs o ho with hadv | hcoming | ho
    · exact .inl hadv
    · refine .inr (.inl ?_)
      rcases hcoming with hp | ⟨raws', hmem, ho⟩ | ⟨k', hk', raws', hmem, ho⟩
      · exact .inl hp
      · exact .inr (.inl ⟨raws', List.mem_append_left _ hmem, ho⟩)
      · obtain rfl := Option.some.inj (place.symm.trans hk')
        rw [List.drop_eq_getElem_cons hlt, hget] at hmem
        rcases List.mem_cons.mp hmem with rfl | hmem
        · exact .inr (.inl ⟨raws', List.mem_append_right _ (List.mem_singleton_self _), ho⟩)
        · exact .inr (.inr ⟨k + 1, rfl, raws', hmem, ho⟩)
    · exact .inr (.inr (hq o ho))

theorem Inv.peerChanged {i : ι} {c : Conn W Oid} {p : W} (h : w.Inv) (conn : w.conns i = some c)
    (hp : HonestVault.honest p) (hknown : ∀ o ∈ SessionVault.known c.peer,
      o ∈ SessionVault.known p) :
    (w.setConn i { c with peer := p }).Inv := by
  refine h.replace conn rfl fun hq up => ?_
  have hc := h.conns i c conn up
  refine ⟨hp, hc.pushes, hc.advertised, hc.place, ?_, ?_, ?_⟩
  · exact hc.ours.mono (fun _ ht => ⟨ht.known, ht.above⟩) hknown
  · exact hc.theirs.mono (fun _ ht o ho => hknown o (ht o ho)) fun _ => id
  · intro hs o ho
    exact (hc.covered hs o ho).imp id (Or.imp (Or.imp (hknown o) id) (hq o))

theorem Inv.peerSent {i : ι} {c : Conn W Oid} {m : Msg} (h : w.Inv) (conn : w.conns i = some c)
    (up : c.connected = true) (hmine : mine m = false) (hwant : isWant m = false)
    (hpush : ∀ raws, pushed m = some raws → Gathered Oid raws) :
    (w.setConn i { c with inbox := c.inbox ++ [m] }).Inv := by
  have hc := h.conns i c conn up
  refine h.replace conn rfl fun hq _ => ⟨hc.peer, ?_, hc.advertised, hc.place, ?_, ?_, ?_⟩
  · intro x hx raws hraws
    rcases List.mem_append.mp hx with hx | hx
    · rcases List.mem_append.mp hx with hx | hx
      · exact hc.pushes x (List.mem_append_left _ hx) raws hraws
      · rw [List.mem_singleton.mp hx] at hraws
        exact hpush raws hraws
    · exact hc.pushes x (List.mem_append_right _ hx) raws hraws
  · refine (hc.ours.mono (fun _ ht => ⟨ht.known, ht.above⟩) fun _ => id).congr rfl ?_
    rw [List.filter_append, List.filter_cons_of_neg (by rw [hwant]; decide)]
    exact List.append_nil _
  · refine hc.theirs.congr ?_ rfl
    rw [List.filter_append, List.filter_cons_of_neg (by rw [hmine]; decide)]
    exact List.append_nil _
  · exact fun hs o ho => (hc.covered hs o ho).imp id (Or.imp id (hq o))

theorem Inv.closed {i : ι} {c : Conn W Oid} (h : w.Inv) (conn : w.conns i = some c) :
    (w.setConn i { c with connected := false }).Inv :=
  h.replace conn rfl fun _ up => by cases up

theorem Inv.relayed {i : ι} {c : Conn W Oid} (h : w.Inv) (conn : w.conns i = some c)
    (hmissed : ¬ w.Missed c.relay) : ((w.send c.relay).setConn i { c with relay := [] }).Inv := by
  have hq : ∀ o, w.Queued o → o ∈ accepted c.relay ∨
      ((w.send c.relay).setConn i { c with relay := [] }).Queued o := by
    rintro o ⟨j, d, hd, ho⟩
    by_cases hji : j = i
    · subst j
      obtain rfl := Option.some.inj (hd.symm.trans conn)
      exact .inl ho
    · refine .inr ⟨j, d, ?_, ho⟩
      show Function.update w.conns i _ j = some d
      rwa [Function.update_of_ne hji]
  have hspread : ∀ j d, w.conns j = some d → d.connected = true →
      d.session.phase = .established → ∀ o,
      o ∈ w.vault.vault.state.known ∧ o ∉ w.vault.vault.state.known ∨ w.Queued o →
      o ∈ d.advertised ∨ d.Coming (w.bus ++ [c.relay]) o ∨
        ((w.send c.relay).setConn i { c with relay := [] }).Queued o := by
    intro j d hd hup hs o ho
    rcases ho with ⟨hin, hout⟩ | ho
    · exact absurd hin hout
    · rcases hq o ho with ho | ho
      · exact (h.spread hmissed hd hup hs ho).imp id .inl
      · exact .inr (.inr ho)
  refine h.next [c.relay] h.honest (.refl _) (fun _ => id) rfl
    (fun r hr => List.mem_singleton.mp hr ▸ h.relays i c conn) fun j d hd => ?_
  rcases conns_setConn hd with ⟨rfl, rfl⟩ | ⟨-, hold⟩
  · refine .inr ⟨gathered_nil, fun hup => ?_⟩
    have hc := (h.conns j c conn hup).world h.honest.history (.refl _) (fun _ => id)
      (hspread j c conn hup)
    exact ⟨hc.peer, hc.pushes, hc.advertised, hc.place,
      hc.ours.mono (fun _ ht => ⟨ht.known, ht.above⟩) fun _ => id, hc.theirs, hc.covered⟩
  · exact .inl ⟨hold, hspread j d hold⟩

variable [LawfulObjectId Oid] [LawfulCrates]

omit [SessionVault W Oid] [Replica W Oid] [HonestVault W] [DecidableEq ι] in
theorem commitAndPublish_honest (h : w.vault.vault.Honest) (names : w.vault.vault.disk.NulFree)
    {bucketTime now : Nat} (clock : now < 2 ^ 64) {r : Option Str}
    (run : commitAndPublish bucketTime now w = (.ok r, w')) :
    w'.vault.vault.Honest ∧ w.vault.vault.store.Extends w'.vault.vault.store ∧ w'.conns = w.conns ∧
      (w'.bus = w.bus ∧ w'.vault.vault.state.known = w.vault.vault.state.known ∨
        ∃ o raws, w'.bus = w.bus ++ [raws] ∧ Gathered Oid raws ∧ o ∈ accepted raws ∧
          w'.vault.vault.state.known = addNew w.vault.vault.state.known o) := by
  rcases hc : Vault.commitLocalChanges bucketTime now w.vault.vault with ⟨r₀, v⟩
  have hrun : withVault (Vault.commitLocalChanges bucketTime now) w =
      (r₀, { w with vault := { w.vault with vault := v } }) := by
    rw [withVault, KeyedVault.withVault, hc]
  rw [commitAndPublish, run_bind, hrun] at run
  cases r₀ with
  | error e => cases run
  | ok r₀ =>
    obtain ⟨hv, hext, hknown⟩ := h.commitLocalChanges names clock hc
    cases r₀ with
    | none =>
      obtain ⟨-, rfl⟩ := Prod.mk.inj run
      exact ⟨hv, hext, rfl, .inl ⟨rfl, hknown⟩⟩
    | some prim =>
      have hin : prim ∈ v.state.known := by
        rw [hknown]
        exact mem_addNew.mpr (.inr rfl)
      obtain ⟨raws, hraws, hgathered, hacc⟩ := closureOf_genuine hv.history.store
        fun o (ho : o ∈ [prim]) => List.mem_singleton.mp ho ▸ hv.history.genuine prim hin
      have hexport : withVault (fun v => (v.exportClosure [prim], v))
          { w with vault := { w.vault with vault := v } } =
          (.ok raws, { w with vault := { w.vault with vault := v } }) :=
        congrArg (fun r => (r, { w with vault := { w.vault with vault := v } })) hraws
      simp only at run
      rw [run_bind_of_ok hexport] at run
      obtain ⟨-, rfl⟩ := Prod.mk.inj run
      exact ⟨hv, hext, rfl, .inr ⟨prim, raws, rfl, hgathered,
        (hacc prim).mpr ⟨hv.history.primitive prim hin, prim, List.mem_singleton_self _,
        .refl⟩, hknown⟩⟩

omit [DecidableEq ι] in
theorem Inv.published (h : w.Inv) (names : w.vault.vault.disk.NulFree) {bucketTime now : Nat}
    (clock : now < 2 ^ 64) {r : Option Str} (run : commitAndPublish bucketTime now w = (.ok r, w'))
    (hclean : ∀ raws ∈ w'.bus.drop w.bus.length, ¬ w.Missed raws) : w'.Inv := by
  obtain ⟨hv, hext, hconns, hcase⟩ := commitAndPublish_honest h.honest names clock run
  have hq : ∀ o, w.Queued o → w'.Queued o := fun o ⟨i, c, hc, ho⟩ => ⟨i, c, hconns ▸ hc, ho⟩
  rcases hcase with ⟨hbus, hknown⟩ | ⟨o₀, raws, hbus, hgathered, hacc, hknown⟩
  · refine h.next [] hv hext (fun o ho => by rwa [hknown]) (by rw [hbus, List.append_nil])
      (by rintro _ ⟨⟩) fun j c hc => .inl ⟨hconns ▸ hc, fun _ _ o ho => ?_⟩
    rcases ho with ⟨hin, hout⟩ | ho
    · rw [hknown] at hin
      exact absurd hin hout
    · exact .inr (.inr (hq o ho))
  · have hmissed : ¬ w.Missed raws :=
        hclean raws (by rw [hbus, List.drop_left]; exact List.mem_singleton_self _)
    have hmem : ∀ o, o ∈ w'.vault.vault.state.known ↔ o ∈ w.vault.vault.state.known ∨ o = o₀ := by
      intro o
      rw [hknown]
      exact mem_addNew
    refine h.next [raws] hv hext (fun o ho => (hmem o).mpr (.inl ho)) hbus
      (fun r hr => List.mem_singleton.mp hr ▸ hgathered) fun j c hc =>
      .inl ⟨hconns ▸ hc, fun hup hs o ho => ?_⟩
    rcases ho with ⟨hin, hout⟩ | ho
    · obtain rfl := ((hmem o).mp hin).resolve_left hout
      exact (h.spread hmissed (hconns ▸ hc) hup hs hacc).imp id .inl
    · exact .inr (.inr (hq o ho))

omit [SessionVault W Oid] [Replica W Oid] [HonestVault W] [LawfulObjectId Oid] [LawfulCrates] in
/-- The frontier that a session advertises covers what the node knows. -/
theorem heads_of_frontier {c : Conn W Oid} {s : Store Oid} {known tips : List Oid}
    (h : History s known) (ht : frontier s known = .ok tips) (hadv : c.advertised = known) :
    c.Heads s known tips where
  known o ho := (mem_of_mem_frontier ht ho).1
  above o ho heff := by
    rw [hadv] at ho
    exact exists_mem_frontier (fun _ => h.commitIn) h.primitive ht ho heff

theorem Inv.taken {i : ι} {c : Conn W Oid} {now : Nat} {m : Msg} {rest : List Msg} {st : Csp.Step}
    {s : Session} {v : KeyedVault Oid} (h : w.Inv) (conn : w.conns i = some c)
    (up : c.connected = true) (idle : c.relay = []) (head : c.inbox = m :: rest)
    (run : onMsg now m (c.session, w.vault) = (.ok st, (s, v))) :
    Inv ({ w with vault := v }.setConn i (c.took rest (.ok st) s v.vault.state.known)) := by
  have hc := h.conns i c conn up
  have htheirs := hc.theirs
  have hours := hc.ours
  rw [head] at htheirs hours
  have hrep := onMsg_replied (fun tips => c.session.phase = .established ∧
      c.Heads w.vault.vault.store w.vault.vault.state.known tips ∨
    c.session.phase ≠ .established ∧ frontier v.vault.store v.vault.state.known = .ok tips)
    h.honest run
    (fun raws hraws => hc.pushes m (by rw [head]; exact List.mem_cons_self) raws hraws)
    htheirs hours
    (fun _ ht => ht.known) (fun hs _ ht => .inl ⟨hs, ht⟩) fun hs _ _ _ ht => .inr ⟨hs, ht⟩
  have hmono : ∀ o ∈ w.vault.vault.state.known, o ∈ v.vault.state.known := hrep.known_mono
  have hgathered : Gathered Oid st.relay :=
      hrep.learned.elim (fun hq => hq.2 ▸ gathered_nil) And.left
  -- everything new is queued
  have hq : ∀ o, o ∈ v.vault.state.known ∧ o ∉ w.vault.vault.state.known ∨ w.Queued o →
      ({ w with vault := v }.setConn i (c.took rest (.ok st) s v.vault.state.known)).Queued o := by
    rintro o (⟨hin, hout⟩ | ho)
    · refine ⟨i, _, setConn_self _ i _, ?_⟩
      rcases hrep.learned with ⟨hsame, -⟩ | ⟨-, hknown⟩
      · exact absurd (hsame.subst (motive := (o ∈ ·)) hin) hout
      · exact (mem_foldl_addNew.mp (hknown.subst (motive := (o ∈ ·)) hin)).resolve_left hout
    · refine Queued.setConn (w := { w with vault := v }) ho fun d hd ho => ?_
      obtain rfl := Option.some.inj (hd.symm.trans conn)
      rw [idle] at ho
      cases ho
  refine h.next [] hrep.honest hrep.ext hmono (List.append_nil _).symm
    (by rintro _ ⟨⟩) fun j d hd => ?_
  rcases conns_setConn hd with ⟨rfl, rfl⟩ | ⟨-, hold⟩
  · refine .inr ⟨hgathered, fun _ => ?_⟩
    rw [List.append_nil]
    refine ⟨hc.peer, ?_, ?_, hc.place, ?_, hrep.own, ?_⟩
    · intro x hx raws hraws
      rcases List.mem_append.mp hx with hx | hx
      · exact hc.pushes x (by rw [head]; exact List.mem_append_left _ (List.mem_cons_of_mem _ hx))
          raws hraws
      · rcases List.mem_append.mp hx with hx | hx
        · exact hc.pushes x (List.mem_append_right _ hx) raws hraws
        · rw [hrep.quiet x hx] at hraws
          cases hraws
    · intro o ho
      by_cases hs : c.session.phase = .established
      · rw [Conn.took, if_pos hs] at ho
        exact hmono o (hc.advertised o ho)
      · rwa [Conn.took, if_neg hs] at ho
    · refine hrep.other.mono (fun tips ht => ?_) fun _ => id
      rcases ht with ⟨hs, ht⟩ | ⟨hs, ht⟩
      · have hnew := ht.world h.honest.history hrep.ext hc.advertised hmono
        have hadv : (c.took rest (.ok st) s v.vault.state.known).advertised =
            c.advertised := if_pos hs
        exact ⟨hnew.known, by rw [hadv]; exact hnew.above⟩
      · exact heads_of_frontier hrep.honest.history ht (if_neg hs)
    · intro _ o ho
      by_cases hs : c.session.phase = .established
      · have hadv : (c.took rest (.ok st) s v.vault.state.known).advertised =
            c.advertised := if_pos hs
        rw [hadv]
        by_cases hold : o ∈ w.vault.vault.state.known
        · refine (hc.covered hs o hold).imp id (Or.imp (Or.imp id (Or.imp ?_ id)) fun ho =>
              hq o (.inr ho))
          rintro ⟨raws, hmem, ho⟩
          exact ⟨raws, List.mem_append_left _ hmem, ho⟩
        · exact .inr (.inr (hq o (.inl ⟨ho, hold⟩)))
      · left
        rwa [Conn.took, if_neg hs]
  · exact .inl ⟨hold, fun _ _ o ho => .inr (.inr (hq o ho))⟩

variable [LawfulSessionVault W]

theorem Inv.peerTook {i : ι} {c : Conn W Oid} {now : Nat} {m : Msg} {rest : List Msg}
    {st : Csp.Step} {s : Session} {p : W} (h : w.Inv) (conn : w.conns i = some c)
    (up : c.connected = true) (head : c.outbox = m :: rest)
    (run : onMsg now m (c.peerSession, c.peer) = (.ok st, (s, p))) :
    (w.setConn i (c.peerTook rest (.ok st) s p)).Inv := by
  have hc := h.conns i c conn up
  have htheirs := hc.theirs
  have hours := hc.ours
  rw [head] at htheirs hours
  have hrep := onMsg_replied (fun tips => ∀ o ∈ tips, o ∈ SessionVault.known p ∨
      o ∈ SessionVault.known c.peer)
    hc.peer run (fun raws hraws => hc.pushes m
      (by rw [head]; exact List.mem_append_right _ List.mem_cons_self) raws hraws)
    hours htheirs (fun _ ht => ht) (fun _ _ ht o ho => .inr (ht o ho)) fun _ _ _ tips ht o ho => by
      rw [LawfulSessionVault.frontierTips_eq] at ht
      exact .inl (mem_of_mem_frontier ht ho).1
  have hmono := hrep.known_mono
  refine h.replace conn rfl fun hq _ => ⟨hrep.honest, ?_, hc.advertised, hc.place, ?_, ?_, ?_⟩
  · intro x hx raws hraws
    rcases List.mem_append.mp hx with hx | hx
    · rcases List.mem_append.mp hx with hx | hx
      · exact hc.pushes x (List.mem_append_left _ hx) raws hraws
      · rw [hrep.quiet x hx] at hraws
        cases hraws
    · exact hc.pushes x (by rw [head]; exact List.mem_append_right _ (List.mem_cons_of_mem _ hx))
        raws hraws
  · exact hrep.own.mono (fun _ ht => ⟨ht.known, ht.above⟩) fun _ => id
  · exact hrep.other.mono (fun _ ht o ho => (ht o ho).elim id (hmono o)) fun _ => id
  · intro hs o ho
    refine (hc.covered hs o ho).imp id (Or.imp ?_ (hq o))
    rintro (hp | ⟨raws, hmem, ho⟩ | hbus)
    · exact .inl (hmono o hp)
    · rw [head] at hmem
      rcases List.mem_cons.mp hmem with rfl | hmem
      · exact .inl (hrep.took raws rfl o ho)
      · exact .inr (.inl ⟨raws, hmem, ho⟩)
    · exact .inr (.inr hbus)

/-- Step lemma. -/
theorem Inv.step {e : Event ι W} (h : w.Inv) (hs : w.Step e w') (hclean : w.Clean e w') :
    w'.Inv := by
  cases hs with
  | connected free fresh fresh' empty empty' => exact h.connected free fresh fresh' empty empty' hclean
  | edited disk => exact h.edited disk
  | @published _ _ r _ names clock run =>
    obtain ⟨hok, hmissed⟩ := hclean
    cases r with
    | ok r => exact h.published names clock run hmissed
    | error _ => cases hok
  | @taken i c _ m rest r s v conn up _ idle head run =>
    cases r with
    | ok st => exact h.taken conn up idle head run
    | error err =>
      obtain hok | hsame := hclean
      · cases hok
      · obtain rfl : v = w.vault := hsame
        refine h.setConn (fun d o hd ho => ?_) gathered_nil fun hup => by cases hup
        obtain rfl := Option.some.inj (hd.symm.trans conn)
        rw [idle] at ho
        cases ho
  | subscribed conn gap => exact h.subscribed conn gap
  | @relayed i c conn _ =>
    refine h.relayed conn (hclean c.relay ?_)
    show c.relay ∈ (w.bus ++ [c.relay]).drop w.bus.length
    rw [List.drop_left]
    exact List.mem_singleton_self _
  | forwarded conn up _ place next _ => exact h.forwarded conn up place next
  | lagged => cases hclean
  | @peerTook i c _ m rest r s p conn up head run =>
    cases r with
    | ok st => exact h.peerTook conn up head run
    | error err => exact h.replace conn rfl fun _ hup => by cases hup
  | peerChanged p conn => exact h.peerChanged conn hclean.1 hclean.2.2
  | peerSent m conn up => exact h.peerSent conn up hclean.1 hclean.2.1 hclean.2.2
  | closed conn => exact h.closed conn

/-- Run lemma. -/
theorem Inv.runs (h : w.Inv) (hr : Relation.ReflTransGen
      (fun w w' => ∃ e, w.Step e w' ∧ w.Clean e w') w w') :
    w'.Inv := by
  induction hr with
  | refl => exact h
  | tail _ hstep ih =>
    obtain ⟨e, hs, hclean⟩ := hstep
    exact ih.step hs hclean

end Update

/-! ### Once everything is drained -/

variable [DecidableEq ι] [LawfulSessionVault W] [LawfulObjectId Oid] [LawfulCrates]

omit [DecidableEq ι] [LawfulSessionVault W] [LawfulCrates] in
/-- At a drained node, what is known and effective has reached every peer whose session is up. -/
theorem Inv.reached {w : Node ι W Oid} (h : w.Inv) (hd : w.Drained) {i : ι} {c : Conn W Oid}
    (conn : w.conns i = some c) (up : c.connected = true)
    (hs : c.session.phase = .established) {o : Oid} (ho : o ∈ w.vault.vault.state.known)
    (heff : Effective w.vault.vault.store o) :
    o ∈ SessionVault.known c.peer := by
  have hc := h.conns i c conn up
  obtain ⟨-, hdrained⟩ := hd i c conn
  obtain ⟨hin, hout, hplace⟩ := hdrained up
  rcases hc.covered hs o ho with hadv | hcoming | ⟨j, d, hj, hacc⟩
  · have hours := hc.ours
    rw [Told, if_pos hs, hin, hout] at hours
    obtain ⟨tips, hheads, hf⟩ := hours
    obtain ⟨t, ht, hdesc⟩ := hheads.above o hadv heff
    have htip : t ∈ SessionVault.known c.peer := hf.drained t ht
    have hpeer := HonestVault.history hc.peer
    have hnode := h.honest.history
    have hdesc' := descends_tidy hnode.store hpeer.store (hnode.commitIn (hheads.known t ht))
      (hpeer.commitIn htip) hdesc
    refine hpeer.covered t htip o hdesc' ?_
    rw [isPrimitiveOid_sound hnode.store.sound hpeer.store.sound (hnode.commitIn ho)
      ((hpeer.commitIn htip).ancestor hdesc')]
    exact hnode.primitive o ho
  · rcases hcoming with hp | ⟨raws, hmem, -⟩ | ⟨k, hk, raws, hmem, -⟩
    · exact hp
    · rw [hout] at hmem
      cases hmem
    · rw [hplace k hk, List.drop_length] at hmem
      cases hmem
  · rw [(hd j d hj).1] at hacc
    cases hacc

/-- In every run from an honest vault whose steps are all clean, a drained node has spread every
effective primitive that it knows to every peer whose session is up. -/
theorem no_update_lost {v : KeyedVault Oid} (hv : v.vault.Honest) {w : Node ι W Oid}
    (hr : Relation.ReflTransGen (fun w w' => ∃ e, w.Step e w' ∧ w.Clean e w')
      ({ vault := v } : Node ι W Oid) w) :
    w.Drained → ∀ i c, w.conns i = some c → c.connected = true → c.session.phase = .established →
      ∀ o ∈ w.vault.vault.state.known, Effective w.vault.vault.store o →
      o ∈ SessionVault.known c.peer := by
  intro hd i c conn up hs o ho heff
  have hstart : Inv ({ vault := v } : Node ι W Oid) :=
    ⟨hv, (by rintro _ ⟨⟩), (by rintro _ _ ⟨⟩), (by rintro _ _ ⟨⟩)⟩
  exact (hstart.runs hr).reached hd conn up hs ho heff


end Node

end Csp

/-! ### A node with one session -/

namespace Csp.Small
open Session

abbrev Home : Type := Node Unit (MemEngine Shadow) Shadow

def homeDisk : Disk where
  files := (∅ : Std.ExtTreeMap Key Bytes compare).insert [['n']] [97]
  dirs := ∅
  refuses _ := false

def homeVault : KeyedVault Shadow where
  vault := match Vault.create [] homeDisk owner [] with
    | .ok v => v
    | .error _ => { root := [], disk := homeDisk, store := Store.empty .disk, mainRef := none,
                    nodeTips := ∅, state := { vaultId := [] }, saved := { vaultId := [] },
                    scope := { includes := [], ignore := [], allowBinary := false },
                    identity := owner,
                    config := { vaultId := [], name := [] } }
  authorized := []

def home : Home := { vault := homeVault }

def caller : Session := { role := .connector, channelBinding := [], myNonce := List.replicate 32 8 }

def callee : Session :=
  { role := .listener, channelBinding := [], myNonce := List.replicate 32 7,
    enrollmentAuthorized := true }

def visitor : MemEngine Shadow := MemEngine.create ⟨[2]⟩ [] []

def connects (w : Home) : Home :=
  w.setConn () { session := caller, peer := visitor, peerSession := callee, inbox := [callee.start visitor],
                 outbox := [caller.start w.vault] }

def takes (w : Home) : Home :=
  match w.conns () with
  | some c =>
    match c.inbox with
    | m :: rest =>
      let (r, s, v) := onMsg 0 m (c.session, w.vault)
      { w with vault := v }.setConn () (c.took rest r s v.vault.state.known)
    | [] => w
  | none => w

def peerTakes (w : Home) : Home :=
  match w.conns () with
  | some c =>
    match c.outbox with
    | m :: rest =>
      let (r, s, p) := onMsg 0 m (c.peerSession, c.peer)
      w.setConn () (c.peerTook rest r s p)
    | [] => w
  | none => w

def publishes (w : Home) : Home := (Node.commitAndPublish 0 0 w).2

def subscribes (w : Home) : Home :=
  match w.conns () with
  | some c => w.setConn () { c with cursor := some w.bus.length }
  | none => w

def forwards (w : Home) : Home :=
  match w.conns () with
  | some c =>
    match c.cursor with
    | some k =>
      w.setConn () { c with
        cursor := some (k + 1), outbox := c.outbox ++ onRelay ((w.bus[k]?).getD []) }
    | none => w
  | none => w

def canTake (w : Home) : Bool := (w.conns ()).any fun c =>
  c.connected && (c.session.phase ≠ .established || c.cursor ≠ none) && c.relay = [] &&
    c.inbox.head?.any fun m => (onMsg 0 m (c.session, w.vault)).1.isOk

def canPeerTake (w : Home) : Bool := (w.conns ()).any fun c => c.connected && c.outbox ≠ []

def canPublish (w : Home) : Bool :=
  decide w.vault.vault.disk.NulFree && (Node.commitAndPublish 0 0 w).1.isOk

def inGap (w : Home) : Bool := (w.conns ()).any fun c =>
  c.connected && c.session.phase = .established && c.cursor = none

def canForward (w : Home) : Bool := (w.conns ()).any fun c =>
  c.connected && c.relay = [] && c.cursor.any fun k => k < w.bus.length && w.bus.length ≤
    k + busCapacity

theorem step_takes {w : Home} (h : canTake w = true) : ∃ e, w.Step e (takes w) ∧
    w.Clean e (takes w) := by
  rw [canTake, Option.any_eq_true] at h
  obtain ⟨c, hc, h⟩ := h
  simp only [Bool.and_eq_true, Bool.or_eq_true, decide_eq_true_eq, Option.any_eq_true] at h
  obtain ⟨⟨⟨up, hsub⟩, idle⟩, m, hm, hok⟩ := h
  obtain ⟨rest, head⟩ := List.head?_eq_some_iff.mp hm
  rcases hrun : onMsg 0 m (c.session, w.vault) with ⟨r, s, v⟩
  rw [hrun] at hok
  have heq : takes w = { w with vault := v }.setConn () (c.took rest r s v.vault.state.known) := by
    rw [takes, hc]
    simp only [head, hrun]
  rw [heq]
  exact ⟨.taken () m r, .taken hc up (fun hs => hsub.resolve_left (not_not.mpr hs)) idle head
    hrun, .inl hok⟩

theorem step_peerTakes {w : Home} (h : canPeerTake w = true) : ∃ e, w.Step e (peerTakes w) ∧
    w.Clean e (peerTakes w) := by
  rw [canPeerTake, Option.any_eq_true] at h
  obtain ⟨c, hc, h⟩ := h
  simp only [Bool.and_eq_true, decide_eq_true_eq] at h
  obtain ⟨up, hout⟩ := h
  obtain ⟨m, rest, head⟩ := List.exists_cons_of_ne_nil hout
  rcases hrun : onMsg 0 m (c.peerSession, c.peer) with ⟨r, s, p⟩
  have heq : peerTakes w = w.setConn () (c.peerTook rest r s p) := by
    rw [peerTakes, hc]
    simp only [head, hrun]
  rw [heq]
  exact ⟨.peerTook (), .peerTook hc up head hrun, trivial⟩

theorem step_publishes {w : Home} (h : canPublish w = true) :
    ∃ e, w.Step e (publishes w) ∧ (inGap w = false → w.Clean e (publishes w)) := by
  simp only [canPublish, Bool.and_eq_true, decide_eq_true_eq] at h
  obtain ⟨names, hok⟩ := h
  rcases hrun : Node.commitAndPublish 0 0 w with ⟨r, w'⟩
  have heq : publishes w = w' := congrArg Prod.snd hrun
  rw [hrun] at hok
  rw [heq]
  refine ⟨.published r, .published names (by decide) hrun, fun hgap => ⟨hok, ?_⟩⟩
  rintro raws - ⟨i, c, hc, ⟨up, hs, hk⟩, -⟩
  have hin : inGap w = true := by
    rw [inGap, Option.any_eq_true]
    exact ⟨c, hc, by simp [up, hs, hk]⟩
  rw [hgap] at hin
  cases hin

theorem step_subscribes {w : Home} (h : inGap w = true) :
    ∃ e, w.Step e (subscribes w) ∧ w.Clean e (subscribes w) := by
  rw [inGap, Option.any_eq_true] at h
  obtain ⟨c, hc, h⟩ := h
  simp only [Bool.and_eq_true, decide_eq_true_eq] at h
  have heq : subscribes w = w.setConn () { c with cursor := some w.bus.length } := by rw [subscribes, hc]
  rw [heq]
  exact ⟨.subscribed (), .subscribed hc ⟨h.1.1, h.1.2, h.2⟩, trivial⟩

theorem step_forwards {w : Home} (h : canForward w = true) :
    ∃ e, w.Step e (forwards w) ∧ w.Clean e (forwards w) := by
  rw [canForward, Option.any_eq_true] at h
  obtain ⟨c, hc, h⟩ := h
  simp only [Bool.and_eq_true, decide_eq_true_eq, Option.any_eq_true] at h
  obtain ⟨⟨up, idle⟩, k, place, hlt, retained⟩ := h
  have next : w.bus[k]? = some w.bus[k] := List.getElem?_eq_getElem hlt
  have heq : forwards w = w.setConn ()
      { c with cursor := some (k + 1), outbox := c.outbox ++ onRelay w.bus[k] } := by
    rw [forwards, hc]
    simp only [place, next, Option.getD_some]
  rw [heq]
  exact ⟨.forwarded (), .forwarded hc up idle place next retained, trivial⟩

theorem created_homeVault : homeVault.vault.Honest := by
  have hok : (Vault.create [] homeDisk owner [] : CspResult (Vault Shadow)).isOk =
      true := by decide +kernel
  cases hc : (Vault.create [] homeDisk owner [] : CspResult (Vault Shadow)) with
  | error e =>
    rw [hc] at hok
    cases hok
  | ok v =>
    have heq : homeVault.vault = v := by
      unfold homeVault
      simp only [hc]
    rw [heq]
    exact Vault.honest_create hc

def drained (w : Home) : Bool := (w.conns ()).all fun c =>
  c.relay = [] && c.inbox = [] && c.outbox = [] && c.cursor.all (· = w.bus.length)

theorem drained_spec {w : Home} (h : drained w = true) : w.Drained := by
  intro i c hc
  rw [drained, Option.all_eq_true] at h
  have := h c hc
  simp only [Bool.and_eq_true, decide_eq_true_eq, Option.all_eq_true] at this
  exact ⟨this.1.1.1, fun _ => ⟨this.1.1.2, this.1.2, this.2⟩⟩

def introduced : Home := takes (peerTakes (takes (connects home)))

/-- The file is published once the session has subscribed, and is forwarded. -/
def posted : Home := forwards (publishes (subscribes introduced))

def heard : Home := takes (peerTakes (peerTakes (peerTakes posted)))

/-- The file is published before the session subscribes, and everything is handled. -/
def unheard : Home := takes (peerTakes (peerTakes (subscribes (publishes introduced))))

def due (w : Home) : Prop :=
  ∃ c ∈ (w.conns ()).toList, c.connected = true ∧ c.session.phase = .established ∧
  ∃ o ∈ w.vault.vault.state.known, isGhostAddClosureOnly w.vault.vault.store o = .ok false

instance (w : Home) : Decidable (due w) := inferInstanceAs (Decidable (∃ _ ∈ _, _))

theorem runs_spec :
    (canTake (connects home) = true ∧ canPeerTake (takes (connects home)) = true ∧
      canTake (peerTakes (takes (connects home))) = true ∧ inGap introduced = true) ∧
    (canPublish (subscribes introduced) = true ∧ inGap (subscribes introduced) = false ∧
      canForward (publishes (subscribes introduced)) = true ∧ canPeerTake posted = true ∧
      canPeerTake (peerTakes posted) = true ∧ canPeerTake (peerTakes (peerTakes posted)) = true ∧
      canTake (peerTakes (peerTakes (peerTakes posted))) = true ∧ drained heard = true ∧
      due heard) ∧
    canPublish introduced = true ∧ inGap (publishes introduced) = true ∧
      canPeerTake (subscribes (publishes introduced)) = true ∧
      canPeerTake (peerTakes (subscribes (publishes introduced))) = true ∧
      canTake (peerTakes (peerTakes (subscribes (publishes introduced)))) = true ∧
      drained unheard = true ∧
      ∃ c ∈ (unheard.conns ()).toList, c.connected = true ∧ c.session.phase = .established ∧
        c.peerSession.phase = .established ∧ ∃ o ∈ unheard.vault.vault.state.known,
          isGhostAddClosureOnly unheard.vault.vault.store o = .ok false ∧ o ∉ c.peer.state.known := by
  refine ⟨?_, ?_, ?_⟩
  · decide +kernel
  · decide +kernel
  · decide +kernel

abbrev CleanRun : Home → Home → Prop :=
  Relation.ReflTransGen fun w w' => ∃ e, w.Step e w' ∧ w.Clean e w'

theorem introduced_run : CleanRun home introduced := by
  obtain ⟨h₁, h₂, h₃, -⟩ := runs_spec.1
  have hconnect : ∃ e, home.Step e (connects home) ∧ home.Clean e (connects home) :=
    ⟨.connected () visitor, .connected rfl rfl rfl rfl rfl, honest_create _ _ _⟩
  exact (((Relation.ReflTransGen.single hconnect).tail (step_takes h₁)).tail
      (step_peerTakes h₂)).tail (step_takes h₃)

theorem heard_run : CleanRun home heard := by
  obtain ⟨-, -, -, hgap⟩ := runs_spec.1
  obtain ⟨h₁, h₂, h₃, h₄, h₅, h₆, h₇, -⟩ := runs_spec.2.1
  obtain ⟨e, hs, hclean⟩ := step_publishes h₁
  have hpub := (introduced_run.tail (step_subscribes hgap)).tail ⟨e, hs, hclean h₂⟩
  exact ((((hpub.tail (step_forwards h₃)).tail (step_peerTakes h₄)).tail (step_peerTakes h₅)).tail
    (step_peerTakes h₆)).tail (step_takes h₇)

/-- The peer knows what the node published. -/
theorem no_update_lost_heard : ∃ c o, heard.conns () = some c ∧ o ∈ heard.vault.vault.state.known ∧
    o ∈ c.peer.state.known := by
  have spread : ∀ w : Home, CleanRun home w → w.Drained → ∀ c, w.conns () = some c →
      c.connected = true →
      c.session.phase = .established → ∀ o ∈ w.vault.vault.state.known,
      Effective w.vault.vault.store o →
      o ∈ c.peer.state.known := fun w hr hd => Node.no_update_lost created_homeVault hr hd ()
  obtain ⟨-, -, -, -, -, -, -, hdrained, c, hc, up, hs, o, ho, heff⟩ := runs_spec.2.1
  have hc := Option.mem_toList.mp hc
  exact ⟨c, o, hc, ho, spread heard heard_run (drained_spec hdrained) c hc up hs o ho heff⟩

/-- The peer never gets what was published before its session subscribed. -/
theorem update_lost_unheard :
    homeVault.vault.Honest ∧ Relation.ReflTransGen
    (fun w w' : Home => ∃ e, w.Step e w') home unheard ∧
      unheard.Drained ∧ ∃ c o, unheard.conns () = some c ∧ c.connected = true ∧
      c.session.phase = .established ∧
        c.peerSession.phase = .established ∧ o ∈ unheard.vault.vault.state.known ∧
        Effective unheard.vault.vault.store o ∧ o ∉ c.peer.state.known := by
  have hmono : ∀ {w w' : Home}, (∃ e, w.Step e w' ∧ w.Clean e w') → ∃ e, w.Step e w' :=
      fun ⟨e, hs, _⟩ => ⟨e, hs⟩
  have hintro := Relation.ReflTransGen.mono (fun _ _ => hmono) _ _ introduced_run
  obtain ⟨h₁, h₂, h₃, h₄, h₅, hdrained, c, hc, up, hs, hps, o, ho, heff, hout⟩ := runs_spec.2.2
  obtain ⟨e, he, -⟩ := step_publishes h₁
  have hrun := ((((hintro.tail ⟨e, he⟩).tail (hmono (step_subscribes h₂))).tail
      (hmono (step_peerTakes h₃))).tail
    (hmono (step_peerTakes h₄))).tail (hmono (step_takes h₅))
  exact ⟨created_homeVault, hrun, drained_spec hdrained, c, o, Option.mem_toList.mp hc, up, hs, hps,
    ho, heff, hout⟩

end Csp.Small
