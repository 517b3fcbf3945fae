import Uzmq.Rendezvous

/-!
# Every connection meets one binder

`connect_inproc_sockets` hands one connection to one binder, on either side. The loop of
`connect_pending` does so for the connections under one address, which leave the list of those
that wait one by one. The count of `inc_seqnum` calls follows the connections: one is for the
connecter while its connection waits, one for the binder from the moment it is found.
-/

namespace Uzmq.Rendezvous

open Option Function List

variable {Addr Socket Conn : Type} [DecidableEq Socket]
variable {s t : Ctx Addr Socket Conn} {b x : Socket} {addr : Addr} {conn : Conn}
variable {p : PendingConnection Socket Conn}
variable {waiting later : List (Addr × PendingConnection Socket Conn)} {pair : Pipes Socket}
  {binder : Endpoint Socket} {now : List (Addr × PendingConnection Socket Conn)} {options : Options}
  {command : Command Conn} {mailboxes : List (Socket × Command Conn)} {call : Call Addr Socket}

section Joining

/-- One call for one command. -/
def one (x b : Socket) : Nat := if x = b then 1 else 0

theorem update_succ_apply (f : Socket → Nat) (b x : Socket) :
    update f b (f b + 1) x = f x + one x b := by
  unfold one
  rcases eq_or_ne x b with rfl | hx
  · simp
  · simp [hx]

theorem countP_snoc (packets : List (Socket × Command Conn)) (b x : Socket)
    (command : Command Conn) :
    (packets ++ [(b, command)]).countP (fun packet => packet.1 = x) =
      packets.countP (fun packet => packet.1 = x) + one x b := by
  unfold one
  by_cases hx : x = b
  · simp [hx]
  · simp [hx, Ne.symm hx]

/-- One connection has been handed to a binder, and only its pipes have changed. -/
structure Hands (s : Ctx Addr Socket Conn) (conn : Conn) (b : Socket)
    (t : Ctx Addr Socket Conn) : Prop where
  handed : t.handed.Perm ((conn, b) :: s.handed)
  made : t.pipes conn ≠ none
  others : ∀ c, c ≠ conn → t.pipes c = s.pipes c

/-- The same by `connect_inproc_sockets`, which counts for the binder. -/
structure Joined (s : Ctx Addr Socket Conn) (b : Socket) (p : PendingConnection Socket Conn)
    (t : Ctx Addr Socket Conn) : Prop where
  endpoints : t.endpoints = s.endpoints
  pendingConnections : t.pendingConnections = s.pendingConnections
  calls : t.calls = s.calls
  sentSeqnum : ∀ x, t.sentSeqnum x = s.sentSeqnum x + one x b
  hands : Hands s p.pipes b t

section
variable (s : Ctx Addr Socket Conn)

omit [DecidableEq Socket] in
theorem handed_snoc_attached (conn : Conn) (b x : Socket) : (Ctx.handed { s with
      attached := s.attached ++ [(conn, b)]
      mailboxes := s.mailboxes ++ [(x, .inprocConnected)] }).Perm ((conn, b) :: s.handed) := by
  unfold Ctx.handed
  simp only [filterMap_append, append_assoc]
  exact perm_middle.trans (.cons _ (.append_left _ (by simp [filterMap_cons, bindOf])))

omit [DecidableEq Socket] in
theorem handed_snoc_bind (conn : Conn) (b : Socket) :
    (s.sendBind b conn).handed.Perm ((conn, b) :: s.handed) := by
  unfold Ctx.handed Ctx.sendBind
  simp only [filterMap_append, ← append_assoc]
  exact perm_append_singleton _ _

theorem hand_joined (b : Socket) (p : PendingConnection Socket Conn) (side : Side) :
    ((s.hand b p side).handed).Perm ((p.pipes, b) :: s.handed) := by
  cases side with
  | bindSide => exact handed_snoc_attached s p.pipes b p.endpoint.socket
  | connectSide => exact handed_snoc_bind s p.pipes b

/-- The binder gets one command, and on its own side the connecter gets one too. -/
theorem hand_addressed (b x : Socket) (p : PendingConnection Socket Conn) :
    (s.hand b p .bindSide).addressed x = s.addressed x + one x b + one x p.endpoint.socket ∧
    (s.hand b p .connectSide).addressed x = s.addressed x + one x b := by
  have hprocessed := update_succ_apply s.processedSeqnum b x
  have hconnected := countP_snoc s.mailboxes p.endpoint.socket x .inprocConnected
  have hbind := countP_snoc s.mailboxes b x (.bind p.pipes)
  unfold Ctx.addressed
  constructor
  · change update s.processedSeqnum b (s.processedSeqnum b + 1) x +
      (s.mailboxes ++ [(p.endpoint.socket, Command.inprocConnected)]).countP
        (fun packet : Socket × Command Conn => packet.1 = x) = _
    omega
  · change s.processedSeqnum x + (s.mailboxes ++ [(b, Command.bind p.pipes)]).countP
        (fun packet : Socket × Command Conn => packet.1 = x) = _
    omega

end

omit [DecidableEq Socket] in
theorem dropRoutingId_isSome (h : pair.toBind ≠ []) (b : Socket) (options : Options) :
    ∃ pair', pair.dropRoutingId b options = some pair' := by
  unfold Pipes.dropRoutingId
  cases options.recvRoutingId with
  | true => exact ⟨_, rfl⟩
  | false =>
    cases hto : pair.toBind with
    | nil => exact absurd hto h
    | cons first later => exact ⟨_, rfl⟩

/-- Only the pipes of the connection change, apart from what is handed over. -/
theorem connectInprocSockets_eq [DecidableEq Conn] (hpair : s.pipes p.pipes = some pair)
    (hread : pair.toBind ≠ []) (b : Socket) (options : Options) (side : Side) :
    ∃ pair', s.connectInprocSockets b options p side =
      some { (s.incSeqnum b).hand b p side with
        pipes := update s.pipes p.pipes (some pair') } := by
  obtain ⟨dropped, hdropped⟩ := dropRoutingId_isSome hread b options
  have hpipes : ((s.incSeqnum b).hand b p side).pipes = s.pipes := by cases side <;> rfl
  unfold Ctx.connectInprocSockets
  simp only [hpair, hdropped, bind_eq_bind, bind_some, hpipes]
  split <;> exact ⟨_, rfl⟩

theorem connectInprocSockets_joined [DecidableEq Conn] (hpair : s.pipes p.pipes = some pair)
    (hread : pair.toBind ≠ []) (b : Socket) (options : Options) (side : Side) :
    ∃ t, s.connectInprocSockets b options p side = some t ∧ Joined s b p t ∧
      t.attached = ((s.incSeqnum b).hand b p side).attached ∧
      ∀ x, t.addressed x = ((s.incSeqnum b).hand b p side).addressed x := by
  obtain ⟨pair', ht⟩ := connectInprocSockets_eq hpair hread b options side
  refine ⟨_, ht, ?_, rfl, fun _ => rfl⟩
  constructor
  · cases side <;> rfl
  · cases side <;> rfl
  · cases side <;> rfl
  · intro x
    have hsent := update_succ_apply s.sentSeqnum b x
    cases side <;> exact hsent
  · constructor
    · exact hand_joined (s.incSeqnum b) b p side
    · simp
    · intro c hc
      simp [hc]

end Joining

section Invariants

/-- Each connection is handed to a binder or waits, and what waits has its routing id still in
the pipe. -/
structure Placed (s : Ctx Addr Socket Conn)
    (waiting : List (Addr × PendingConnection Socket Conn)) : Prop where
  distinct : (s.handed.map Prod.fst ++ waiting.map fun p => p.2.pipes).Nodup
  made : ∀ c ∈ s.handed.map Prod.fst, s.pipes c ≠ none
  ready : ∀ p ∈ waiting, ∃ pair, s.pipes p.2.pipes = some pair ∧ pair.toBind ≠ []

/-- Each call of `inc_seqnum` is for one command. -/
def Balanced (s : Ctx Addr Socket Conn)
    (waiting : List (Addr × PendingConnection Socket Conn)) : Prop :=
  ∀ x, s.sentSeqnum x =
    s.addressed x + waiting.countP (fun p => p.2.endpoint.socket = x) + s.promised x

/-- Who binds is registered, and a connection waits under a bound address only for the end of
`bind`. -/
structure Doors (s : Ctx Addr Socket Conn) : Prop where
  binding : ∀ x addr, (x, Call.binding addr) ∈ s.calls →
    ∃ binder, s.endpoints addr = some binder ∧ binder.socket = x
  unmet : ∀ p ∈ s.pendingConnections, ∀ binder, s.endpoints p.1 = some binder →
    (binder.socket, Call.binding p.1) ∈ s.calls

structure Inv (s : Ctx Addr Socket Conn) : Prop where
  placed : Placed s s.pendingConnections
  balanced : Balanced s s.pendingConnections
  doors : Doors s

section
omit [DecidableEq Socket]

theorem Placed.hand (h : Placed s later) (hhanded : conn ∉ s.handed.map Prod.fst)
    (hwaits : conn ∉ later.map fun p => p.2.pipes) (hhands : Hands s conn b t) :
    Placed t later := by
  have hperm := hhands.handed.map Prod.fst
  constructor
  · refine (hperm.append_right _).nodup_iff.mpr (nodup_cons.mpr ⟨?_, h.distinct⟩)
    intro hmem
    rcases mem_append.mp hmem with hmem | hmem
    · exact hhanded hmem
    · exact hwaits hmem
  · intro c hc
    by_cases heq : c = conn
    · exact heq ▸ hhands.made
    · rw [hhands.others c heq]
      rcases mem_cons.mp (hperm.subset hc) with hc | hc
      · exact absurd hc heq
      · exact h.made c hc
  · intro q hq
    have hne : q.2.pipes ≠ conn := by
      rintro rfl
      exact hwaits (mem_map_of_mem hq)
    rw [hhands.others _ hne]
    exact h.ready q hq

theorem Placed.joined (h : Placed s ((addr, p) :: later)) (hhands : Hands s p.pipes b t) :
    Placed t later := by
  have hdistinct := nodup_cons.mp (perm_middle.nodup_iff.mp h.distinct)
  have hlater : Placed s later :=
    ⟨hdistinct.2, h.made, fun q hq => h.ready q (mem_cons_of_mem _ hq)⟩
  refine hlater.hand ?_ ?_ hhands
  · exact fun hmem => hdistinct.1 (mem_append_left _ hmem)
  · exact fun hmem => hdistinct.1 (mem_append_right _ hmem)

theorem Placed.fresh (h : Placed s waiting) (hconn : s.pipes conn = none) :
    conn ∉ s.handed.map Prod.fst ∧ conn ∉ waiting.map fun p => p.2.pipes := by
  constructor
  · exact fun hmem => h.made conn hmem hconn
  · intro hmem
    obtain ⟨p, hp, rfl⟩ := mem_map.mp hmem
    obtain ⟨pair, hpair, -⟩ := h.ready p hp
    cases hconn.symm.trans hpair

theorem Placed.of_perm (h : Placed s waiting) (hperm : waiting.Perm later) : Placed s later :=
  ⟨((hperm.map _).append_left _).nodup_iff.mp h.distinct, h.made,
    fun p hp => h.ready p (hperm.mem_iff.mpr hp)⟩

end

theorem Balanced.of_perm (h : Balanced s waiting) (hperm : waiting.Perm later) :
    Balanced s later := by
  intro x
  rw [h x, hperm.countP_eq]

theorem countP_waiting (addr : Addr) (p : PendingConnection Socket Conn)
    (later : List (Addr × PendingConnection Socket Conn)) (x : Socket) :
    ((addr, p) :: later).countP (fun p => p.2.endpoint.socket = x) =
      later.countP (fun p => p.2.endpoint.socket = x) + one x p.endpoint.socket := by
  unfold one
  by_cases hx : x = p.endpoint.socket
  · simp [hx]
  · simp [hx, Ne.symm hx]

/-- On the binder's side both sockets get the command that they have been promised. -/
theorem Balanced.joined (h : Balanced s ((addr, p) :: later)) (hjoin : Joined s b p t)
    (haddressed : ∀ x, t.addressed x = s.addressed x + one x b + one x p.endpoint.socket) :
    Balanced t later := by
  intro x
  have hbefore := h x
  rw [countP_waiting] at hbefore
  have hpromised : t.promised x = s.promised x := by
    unfold Ctx.promised
    rw [hjoin.calls]
  rw [hjoin.sentSeqnum, haddressed, hpromised]
  omega

end Invariants

section Pending

theorem connectAll_spec [DecidableEq Conn] (hbinder : s.endpoints addr = some binder)
    (hplaced : Placed s (now ++ later)) (hbalanced : Balanced s (now ++ later)) :
    ∃ t, Ctx.connectAll addr b now s = some t ∧ Placed t later ∧ Balanced t later ∧
      t.endpoints = s.endpoints ∧ t.calls = s.calls ∧
      t.pendingConnections = s.pendingConnections ∧ s.attached ⊆ t.attached ∧
      ∀ p ∈ now, (p.2.pipes, b) ∈ t.attached := by
  induction now generalizing s with
  | nil => exact ⟨s, rfl, hplaced, hbalanced, rfl, rfl, rfl, fun _ h => h, nofun⟩
  | cons q now ih =>
    obtain ⟨pair, hpair, hread⟩ := hplaced.ready q mem_cons_self
    obtain ⟨u, hu, hjoin, hattached, haddressed⟩ :=
      connectInprocSockets_joined hpair hread b binder.options .bindSide
    have hsub : (q.2.pipes, b) :: s.attached ⊆ u.attached := by
      rw [hattached]
      intro c hc
      rcases mem_cons.mp hc with rfl | hc
      · exact mem_append_right _ (mem_singleton_self _)
      · exact mem_append_left _ hc
    have hcount : ∀ x, u.addressed x = s.addressed x + one x b + one x q.2.endpoint.socket :=
      fun x => (haddressed x).trans (hand_addressed (s.incSeqnum b) b x q.2).1
    obtain ⟨t, ht, hplaced', hbalanced', hendpoints, hcalls, hpending, hkept, hall⟩ :=
      ih (hjoin.endpoints ▸ hbinder) (Placed.joined hplaced hjoin.hands)
        (Balanced.joined hbalanced hjoin hcount)
    refine ⟨t, ?_, hplaced', hbalanced', hendpoints.trans hjoin.endpoints,
      hcalls.trans hjoin.calls, hpending.trans hjoin.pendingConnections, ?_, ?_⟩
    · simp [Ctx.connectAll, hbinder, hu, ht]
    · exact fun c hc => hkept (hsub (mem_cons_of_mem _ hc))
    · intro p hp
      rcases mem_cons.mp hp with rfl | hp
      · exact hkept (hsub mem_cons_self)
      · exact hall p hp

end Pending

section Calls
variable {call : Call Addr Socket} {calls : List (Socket × Call Addr Socket)}

theorem current_perm {c : Socket × Call Addr Socket} (h : s.current x = some (c, calls)) :
    c.1 = x ∧ s.calls.Perm (c :: calls) :=
  ⟨of_decide_eq_true (Lanes.takeFirst_split h).1, Lanes.takeFirst_perm h⟩

/-- A call that is over has kept its promise, if it had made one. -/
theorem promised_current (h : s.current x = some ((x, call), calls)) (y : Socket) :
    s.promised y = Ctx.promised { s with calls } y + if call.finds y then 1 else 0 := by
  have hcount := (current_perm h).2.countP_eq fun c => c.2.finds y
  rw [countP_cons] at hcount
  exact hcount

/-- The doors stay when a call is over that was not `bind`. -/
theorem Doors.current (hs : Doors s) (h : s.current x = some ((x, call), calls))
    (hcall : ∀ a, call ≠ .binding a) : Doors { s with calls } := by
  have hperm := (current_perm h).2
  constructor
  · intro y a hmem
    exact hs.binding y a (hperm.mem_iff.mpr (mem_cons_of_mem _ hmem))
  · intro p hp binder hbinder
    rcases mem_cons.mp (hperm.mem_iff.mp (hs.unmet p hp binder hbinder)) with heq | hmem
    · exact absurd (congrArg Prod.snd heq).symm (hcall p.1)
    · exact hmem

/-- The second half of `bind` attaches everything that waits under the address. -/
theorem Inv.bindPending [DecidableEq Addr] [DecidableEq Conn] (hs : Inv s) (h : s.current x = some
    ((x, .binding addr), calls)) :
    ∃ t, step s (.bindPending x) = some t ∧ Inv t ∧ (∀ p ∈ t.pendingConnections, p.1 ≠ addr) ∧
      ∀ p ∈ s.pendingConnections, p.1 = addr → (p.2.pipes, x) ∈ t.attached := by
  have hperm := (current_perm h).2
  have hmem : (x, Call.binding addr) ∈ s.calls := hperm.mem_iff.mpr mem_cons_self
  obtain ⟨binder, hbinder, -⟩ := hs.doors.binding x addr hmem
  let now := s.pendingConnections.filter fun p => p.1 = addr
  let later := s.pendingConnections.filter fun p => p.1 ≠ addr
  have hsplit : s.pendingConnections.Perm (now ++ later) := by
    have hfilter := filter_append_perm (fun p => decide (p.1 = addr)) s.pendingConnections
    simpa [now, later] using hfilter.symm
  have hplaced : Placed { s with calls } (now ++ later) :=
    Placed.of_perm { hs.placed with } hsplit
  have hbalanced : Balanced { s with calls } (now ++ later) := by
    refine Balanced.of_perm ?_ hsplit
    intro y
    have hpromised := promised_current h y
    have hbefore := hs.balanced y
    rw [hpromised] at hbefore
    exact hbefore
  obtain ⟨t, ht, hplaced', hbalanced', hendpoints, hcalls, hpending, -, hall⟩ :=
    connectAll_spec (s := { s with calls }) (b := x) hbinder hplaced hbalanced
  replace hcalls : t.calls = calls := hcalls
  have hleft : t.pendingConnections.filter (fun p => p.1 ≠ addr) = later := by rw [hpending]
  refine ⟨{ t with pendingConnections := later }, ?_, ?_, ?_, ?_⟩
  · have hconnect : Ctx.connectPending { s with calls } addr x =
        some { t with pendingConnections := later } := by
      unfold Ctx.connectPending
      rw [show Ctx.connectAll addr x _ { s with calls } = some t from ht, ← hleft]
      rfl
    simp [step, h, Ctx.bindPending, hconnect]
  · refine ⟨{ hplaced' with }, hbalanced', ?_⟩
    constructor
    · intro y a hbinding
      have hold : (y, Call.binding a) ∈ calls := hcalls ▸ hbinding
      obtain ⟨e, he⟩ := hs.doors.binding y a (hperm.mem_iff.mpr (mem_cons_of_mem _ hold))
      exact ⟨e, (congrFun hendpoints a).trans he.1, he.2⟩
    · intro p hp e he
      obtain ⟨hp, hne⟩ := mem_filter.mp hp
      have hold := hs.doors.unmet p hp e ((congrFun hendpoints p.1).symm.trans he)
      rw [hcalls]
      rcases mem_cons.mp (hperm.mem_iff.mp hold) with heq | hold
      · exact absurd (Call.binding.inj (congrArg Prod.snd heq)) (of_decide_eq_true hne)
      · exact hold
  · intro p hp
    exact of_decide_eq_true (mem_filter.mp hp).2
  · intro p hp haddr
    exact hall p (mem_filter.mpr ⟨hp, decide_eq_true haddr⟩)

theorem Inv.found [DecidableEq Conn] {peer : Endpoint Socket} (hs : Inv s)
    (h : s.current x = some ((x, .found peer options), calls)) (hconn : s.pipes conn = none) :
    Inv (Ctx.sendBind { s with
      calls
      pipes := update s.pipes conn (some (Ctx.newPipes x options (some peer))) }
        peer.socket conn) := by
  obtain ⟨hhanded, hwaits⟩ := hs.placed.fresh hconn
  refine ⟨hs.placed.hand (b := peer.socket) hhanded hwaits ?_, ?_,
    { hs.doors.current h nofun with }⟩
  · constructor
    · exact handed_snoc_bind _ conn peer.socket
    · simp [Ctx.sendBind]
    · intro c hc
      simp [Ctx.sendBind, hc]
  · intro y
    have hbefore := hs.balanced y
    have hpromised := promised_current h y
    have hsent := countP_snoc s.mailboxes peer.socket y (.bind conn)
    have hone : (if (Call.found peer options : Call Addr Socket).finds y then 1 else 0) =
        one y peer.socket := by
      simp [Call.finds, one, eq_comm]
    unfold Ctx.addressed at hbefore ⊢
    change s.sentSeqnum y = s.processedSeqnum y + _ + _ + Ctx.promised { s with calls } y
    simp only [Ctx.sendBind]
    omega

section
variable (hs : Inv s) (h : s.current x = some ((x, .missed addr options), calls))
  (hconn : s.pipes conn = none)
include hs h hconn

theorem Inv.pended [DecidableEq Conn] (hnone : s.endpoints addr = none) :
    Inv (Ctx.incSeqnum { s with
      calls
      pipes := update s.pipes conn (some (Ctx.newPipes x options none))
      pendingConnections := s.pendingConnections ++ [(addr, ⟨⟨x, options⟩, conn⟩)] } x) := by
  obtain ⟨hhanded, hwaits⟩ := hs.placed.fresh hconn
  have hdoors := hs.doors.current h nofun
  have hlast := perm_append_singleton
    (addr, (⟨⟨x, options⟩, conn⟩ : PendingConnection Socket Conn)) s.pendingConnections
  refine ⟨Placed.of_perm ?_ hlast.symm, Balanced.of_perm ?_ hlast.symm, ?_⟩
  · constructor
    · refine perm_middle.nodup_iff.mpr (nodup_cons.mpr ⟨?_, hs.placed.distinct⟩)
      intro hmem
      rcases mem_append.mp hmem with hmem | hmem
      · exact hhanded hmem
      · exact hwaits hmem
    · intro c hc
      have hne : c ≠ conn := fun heq => hhanded (heq ▸ hc)
      simp only [Ctx.incSeqnum, update_of_ne hne]
      exact hs.placed.made c hc
    · intro p hp
      rcases mem_cons.mp hp with rfl | hp
      · exact ⟨Ctx.newPipes x options none, by simp [Ctx.incSeqnum], by simp [Ctx.newPipes]⟩
      · have hne : p.2.pipes ≠ conn := fun heq => hwaits (heq ▸ mem_map_of_mem hp)
        simp only [Ctx.incSeqnum, update_of_ne hne]
        exact hs.placed.ready p hp
  · intro y
    have hbefore := hs.balanced y
    have hpromised := promised_current h y
    have hsent := update_succ_apply s.sentSeqnum x y
    simp only [Call.finds, Bool.false_eq_true, if_false, Nat.add_zero] at hpromised
    rw [countP_waiting]
    change update s.sentSeqnum x (s.sentSeqnum x + 1) y =
      s.addressed y + (_ + one y x) + Ctx.promised { s with calls } y
    omega
  · constructor
    · exact hdoors.binding
    intro p hp binder hbinder
    rcases mem_append.mp hp with hp | hp
    · exact hdoors.unmet p hp binder hbinder
    · cases mem_singleton.mp hp
      cases hnone.symm.trans hbinder

theorem Inv.met [DecidableEq Addr] [DecidableEq Conn] (hbinder : s.endpoints addr = some binder) :
    ∃ t, step s (.connectPipes x conn) = some t ∧ Inv t ∧ (conn, binder.socket) ∈ t.handed := by
  obtain ⟨hhanded, hwaits⟩ := hs.placed.fresh hconn
  have hdoors := hs.doors.current h nofun
  let made : Ctx Addr Socket Conn := { s with
    calls
    pipes := update s.pipes conn (some (Ctx.newPipes x options none)) }
  have hpair : made.pipes conn = some (Ctx.newPipes x options none) := update_self ..
  obtain ⟨t, ht, hjoin, -, haddressed⟩ := connectInprocSockets_joined (s := made)
    (p := ⟨⟨x, options⟩, conn⟩) hpair (by simp [Ctx.newPipes]) binder.socket binder.options
    .connectSide
  have hhands : Hands s conn binder.socket t := by
    refine { hjoin.hands with others := ?_ }
    intro c hc
    rw [hjoin.hands.others c hc]
    exact update_of_ne hc ..
  have hpending : t.pendingConnections = s.pendingConnections := hjoin.pendingConnections
  refine ⟨t, ?_, ⟨?_, ?_, ?_⟩, hhands.handed.mem_iff.mpr mem_cons_self⟩
  · have hpend : Ctx.pendConnection made addr ⟨x, options⟩ conn = some t := by
      unfold Ctx.pendConnection
      rw [show made.endpoints addr = some binder from hbinder]
      exact ht
    simp only [step, hconn, if_true, h, bind_eq_bind, bind_some, Ctx.connectPipes]
    exact hpend
  · rw [hpending]
    exact hs.placed.hand hhanded hwaits hhands
  · rw [hpending]
    intro y
    have hbefore := hs.balanced y
    have hpromised := promised_current h y
    have hcount := (haddressed y).trans (hand_addressed (made.incSeqnum binder.socket) _ y _).2
    have hcalls : t.promised y = Ctx.promised { s with calls } y := by
      unfold Ctx.promised
      rw [hjoin.calls]
    have hsent := hjoin.sentSeqnum y
    simp only [Call.finds, Bool.false_eq_true, if_false, Nat.add_zero] at hpromised
    rw [hsent, hcount, hcalls]
    change s.sentSeqnum y + _ = s.addressed y + _ + _ + _
    omega
  · constructor
    · intro y a hbinding
      rw [hjoin.endpoints]
      rw [hjoin.calls] at hbinding
      exact hdoors.binding y a hbinding
    · intro p hp e he
      rw [hpending] at hp
      rw [hjoin.endpoints] at he
      rw [hjoin.calls]
      exact hdoors.unmet p hp e he

end

end Calls

section Operations

/-- A first half of a call only adds the call and a promise. -/
theorem Inv.bind [DecidableEq Addr] (hs : Inv s) (x : Socket) (addr : Addr) (options : Options) :
    Inv (s.bind x addr options) := by
  unfold Ctx.bind Ctx.registerEndpoint
  cases hendpoint : s.endpoints addr with
  | some binder => exact hs
  | none =>
    refine ⟨{ hs.placed with }, hs.balanced, ?_⟩
    constructor
    · intro y a hbinding
      rcases mem_cons.mp hbinding with heq | hbinding
      · cases heq
        exact ⟨⟨x, options⟩, update_self .., rfl⟩
      obtain ⟨binder, hbinder, hsocket⟩ := hs.doors.binding y a hbinding
      have hne : a ≠ addr := by
        rintro rfl
        cases hendpoint.symm.trans hbinder
      exact ⟨binder, (update_of_ne hne ..).trans hbinder, hsocket⟩
    · intro p hp binder hbinder
      by_cases heq : p.1 = addr
      · have hself : update s.endpoints addr (some ⟨x, options⟩) p.1 = some binder := hbinder
        rw [heq, update_self] at hself
        cases hself
        exact heq ▸ mem_cons_self
      · have hold := (update_of_ne heq ..).symm.trans hbinder
        exact mem_cons_of_mem _ (hs.doors.unmet p hp binder hold)

theorem Inv.connect (hs : Inv s) (x : Socket) (addr : Addr) (options : Options) :
    Inv (s.connect x addr options) := by
  have hdoors : ∀ call : Call Addr Socket, (∀ a, call ≠ .binding a) →
      Doors { s with calls := (x, call) :: s.calls } := by
    intro call hcall
    constructor
    · intro y a hbinding
      rcases mem_cons.mp hbinding with heq | hbinding
      · exact absurd (congrArg Prod.snd heq).symm (hcall a)
      · exact hs.doors.binding y a hbinding
    · intro p hp binder hbinder
      exact mem_cons_of_mem _ (hs.doors.unmet p hp binder hbinder)
  unfold Ctx.connect Ctx.findEndpoint
  cases hendpoint : s.endpoints addr with
  | none =>
    exact ⟨{ hs.placed with }, hs.balanced, hdoors _ nofun⟩
  | some peer =>
    refine ⟨{ hs.placed with }, ?_, { hdoors (.found peer options) nofun with }⟩
    intro y
    have hpromised : Ctx.promised { s with calls := (x, .found peer options) :: s.calls } y =
        s.promised y + one y peer.socket := by
      simp [Ctx.promised, Call.finds, one, countP_cons, eq_comm]
    have hbefore : s.sentSeqnum y = s.addressed y + s.pended y + s.promised y := hs.balanced y
    have hsent := update_succ_apply s.sentSeqnum peer.socket y
    change update s.sentSeqnum peer.socket (s.sentSeqnum peer.socket + 1) y =
      s.addressed y + s.pended y +
        Ctx.promised { s with calls := (x, .found peer options) :: s.calls } y
    omega

omit [DecidableEq Socket] in
theorem Doors.shrink {endpoints : Addr → Option (Endpoint Socket)} (hs : Doors s)
    (hidle : s.Idle x) (hold : ∀ a e, endpoints a = some e → s.endpoints a = some e)
    (hkept : ∀ a e, s.endpoints a = some e → e.socket ≠ x → endpoints a = some e) :
    Doors { s with endpoints } := by
  constructor
  · intro y a hbinding
    obtain ⟨binder, hbinder, rfl⟩ := hs.binding y a hbinding
    exact ⟨binder, hkept a binder hbinder (hidle _ hbinding), rfl⟩
  · intro p hp binder hbinder
    exact hs.unmet p hp binder (hold p.1 binder hbinder)

theorem Inv.unregisterEndpoint [DecidableEq Addr] (hs : Inv s) (hidle : s.Idle x) (addr : Addr) :
    Inv ((s.unregisterEndpoint addr x).getD s) := by
  unfold Ctx.unregisterEndpoint
  cases hendpoint : s.endpoints addr with
  | none => exact hs
  | some binder =>
    by_cases hsocket : binder.socket = x
    · simp only [hsocket, if_true, getD_some]
      refine ⟨{ hs.placed with }, hs.balanced, hs.doors.shrink hidle ?_ ?_⟩
      · intro a e he
        rcases eq_or_ne a addr with rfl | heq
        · simp at he
        · simpa [heq] using he
      · intro a e he hne
        have heq : a ≠ addr := by
          rintro rfl
          cases hendpoint.symm.trans he
          exact hne hsocket
        simpa [heq] using he
    · simp only [hsocket, if_false, getD_none]
      exact hs

theorem Inv.unregisterEndpoints (hs : Inv s) (hidle : s.Idle x) :
    Inv (s.unregisterEndpoints x) := by
  refine ⟨{ hs.placed with }, hs.balanced, hs.doors.shrink hidle ?_ ?_⟩
  · intro a e he
    exact (filter_eq_some_iff.mp he).1
  · intro a e he hne
    exact filter_eq_some_iff.mpr ⟨he, decide_eq_true hne⟩

theorem processCommand_handed (hperm : s.mailboxes.Perm ((x, command) :: mailboxes)) :
    (Ctx.processCommand { s with mailboxes } x command).handed.Perm s.handed := by
  have hmail := (hperm.filterMap bindOf).append_left s.attached
  cases command with
  | bind c =>
    have hhanded : (Ctx.processCommand { s with mailboxes } x (.bind c)).handed =
        s.attached ++ (c, x) :: mailboxes.filterMap bindOf := by
      simp [Ctx.handed, Ctx.processCommand, Ctx.processSeqnum]
    rw [hhanded]
    exact hmail.symm
  | inprocConnected => exact hmail.symm

theorem processCommand_addressed (hperm : s.mailboxes.Perm ((x, command) :: mailboxes))
    (y : Socket) :
    (Ctx.processCommand { s with mailboxes } x command).addressed y = s.addressed y := by
  have hcount : s.mailboxes.countP (fun packet => packet.1 = y) =
      mailboxes.countP (fun packet => packet.1 = y) + one y x := by
    rw [hperm.countP_eq, countP_cons]
    simp [one, eq_comm]
  have hprocessed := update_succ_apply s.processedSeqnum x y
  have haddressed : (Ctx.processCommand { s with mailboxes } x command).addressed y =
      update s.processedSeqnum x (s.processedSeqnum x + 1) y +
        mailboxes.countP (fun packet => packet.1 = y) := by
    cases command <;> rfl
  rw [haddressed, hprocessed]
  unfold Ctx.addressed
  omega

theorem Inv.processCommand {packet : Socket × Command Conn} (hs : Inv s)
    (h : Lanes.takeFirst (fun packet => packet.1 = x) s.mailboxes = some (packet, mailboxes)) :
    Inv (Ctx.processCommand { s with mailboxes } x packet.2) := by
  obtain ⟨y, command⟩ := packet
  obtain rfl : y = x := of_decide_eq_true (Lanes.takeFirst_split h).1
  have hperm := Lanes.takeFirst_perm h
  have hhanded := (processCommand_handed hperm).map Prod.fst
  have hpipes : (Ctx.processCommand { s with mailboxes } y command).pipes = s.pipes := by
    cases command <;> rfl
  have hpending : (Ctx.processCommand { s with mailboxes } y command).pendingConnections =
      s.pendingConnections := by
    cases command <;> rfl
  refine ⟨⟨?_, ?_, ?_⟩, ?_, ?_⟩
  · rw [hpending]
    exact (hhanded.append_right _).nodup_iff.mpr hs.placed.distinct
  · intro c hc
    rw [hpipes]
    exact hs.placed.made c (hhanded.mem_iff.mp hc)
  · rw [hpending, hpipes]
    exact hs.placed.ready
  · intro z
    rw [processCommand_addressed hperm z, hpending]
    cases command <;> exact hs.balanced z
  · cases command <;> exact { hs.doors with }

theorem Inv.step [DecidableEq Addr] [DecidableEq Conn] {i : Input Addr Socket Conn} (hs : Inv s)
    (h : step s i = some t) : Inv t := by
  cases i with
  | bind x addr options =>
    obtain ⟨-, ⟨⟩⟩ := ite_none_right_eq_some.mp h
    exact hs.bind x addr options
  | connect x addr options =>
    obtain ⟨-, ⟨⟩⟩ := ite_none_right_eq_some.mp h
    exact hs.connect x addr options
  | connectPipes x conn =>
    obtain ⟨hconn, h⟩ := ite_none_right_eq_some.mp h
    obtain ⟨⟨⟨y, call⟩, calls⟩, hcurrent, h⟩ := bind_eq_some_iff.mp h
    obtain rfl : y = x := (current_perm hcurrent).1
    cases call with
    | binding addr => cases h
    | found peer options =>
      cases h
      exact hs.found hcurrent hconn
    | missed addr options =>
      cases hendpoint : s.endpoints addr with
      | none =>
        simp only [Ctx.connectPipes, Ctx.pendConnection, hendpoint] at h
        cases h
        exact hs.pended hcurrent hconn hendpoint
      | some binder =>
        obtain ⟨t', ht', hinv, -⟩ := hs.met hcurrent hconn hendpoint
        have hstep : Rendezvous.step s (.connectPipes y conn) = some t := by
          simp only [Rendezvous.step, hconn, if_true, hcurrent]
          exact h
        cases hstep.symm.trans ht'
        exact hinv
  | bindPending x =>
    obtain ⟨⟨⟨y, call⟩, calls⟩, hcurrent, hnext⟩ := bind_eq_some_iff.mp h
    obtain rfl : y = x := (current_perm hcurrent).1
    cases call with
    | binding addr =>
      obtain ⟨t', ht', hinv, -⟩ := hs.bindPending hcurrent
      cases h.symm.trans ht'
      exact hinv
    | found | missed => cases hnext
  | unregisterEndpoint x addr =>
    obtain ⟨hidle, ⟨⟩⟩ := ite_none_right_eq_some.mp h
    exact hs.unregisterEndpoint hidle addr
  | unregisterEndpoints x =>
    obtain ⟨hidle, ⟨⟩⟩ := ite_none_right_eq_some.mp h
    exact hs.unregisterEndpoints hidle
  | processCommand x =>
    obtain ⟨⟨packet, mailboxes⟩, htaken, h⟩ := bind_eq_some_iff.mp h
    cases h
    exact hs.processCommand htaken
  | close x =>
    obtain ⟨-, ⟨⟩⟩ := ite_none_right_eq_some.mp h
    exact ⟨{ hs.placed with }, hs.balanced, { hs.doors with }⟩

end Operations

section Frames

/-- An operation pends only connections of the socket that does it, and only `close` makes a
socket unusable. -/
structure Frame (s : Ctx Addr Socket Conn) (x : Socket) (t : Ctx Addr Socket Conn) : Prop where
  pending : ∀ p ∈ t.pendingConnections, p ∈ s.pendingConnections ∨ p.2.endpoint.socket = x
  checkTag : t.checkTag = s.checkTag

omit [DecidableEq Socket] in
theorem Frame.of_eq (hpending : t.pendingConnections = s.pendingConnections)
    (htag : t.checkTag = s.checkTag) : Frame s x t :=
  ⟨fun _ hp => .inl (hpending ▸ hp), htag⟩

theorem connectInprocSockets_frame [DecidableEq Conn] {side : Side}
    (h : s.connectInprocSockets b options p side = some t) :
    t.pendingConnections = s.pendingConnections ∧ t.checkTag = s.checkTag := by
  obtain ⟨pair, -, h⟩ := bind_eq_some_iff.mp h
  obtain ⟨dropped, -, h⟩ := bind_eq_some_iff.mp h
  dsimp only at h
  split at h <;> cases h <;> cases side <;> exact ⟨rfl, rfl⟩

theorem connectAll_frame [DecidableEq Conn] (h : Ctx.connectAll addr b now s = some t) :
    t.pendingConnections = s.pendingConnections ∧ t.checkTag = s.checkTag := by
  induction now generalizing s with
  | nil =>
    cases h
    exact ⟨rfl, rfl⟩
  | cons q now ih =>
    obtain ⟨binder, -, h⟩ := bind_eq_some_iff.mp h
    obtain ⟨u, hu, h⟩ := bind_eq_some_iff.mp h
    obtain ⟨hpending, htag⟩ := connectInprocSockets_frame hu
    obtain ⟨hpending', htag'⟩ := ih h
    exact ⟨hpending'.trans hpending, htag'.trans htag⟩

omit [DecidableEq Socket] in
theorem bind_frame [DecidableEq Addr] (s : Ctx Addr Socket Conn) (x : Socket) (addr : Addr)
    (options : Options) : Frame s x (s.bind x addr options) := by
  unfold Ctx.bind Ctx.registerEndpoint
  cases s.endpoints addr with
  | none | some => exact .of_eq rfl rfl

theorem connect_frame (s : Ctx Addr Socket Conn) (x : Socket) (addr : Addr) (options : Options) :
    Frame s x (s.connect x addr options) := by
  unfold Ctx.connect Ctx.findEndpoint
  cases s.endpoints addr with
  | none | some => exact .of_eq rfl rfl

theorem connectPipes_frame [DecidableEq Conn] (h : s.connectPipes x conn call = some t) :
    Frame s x t := by
  cases call with
  | binding addr => cases h
  | found peer options =>
    cases h
    exact .of_eq rfl rfl
  | missed addr options =>
    unfold Ctx.connectPipes Ctx.pendConnection at h
    cases hendpoint : s.endpoints addr with
    | none =>
      simp only [hendpoint] at h
      cases h
      constructor
      · intro p hp
        rcases mem_append.mp hp with hp | hp
        · exact .inl hp
        · cases mem_singleton.mp hp
          exact .inr rfl
      · rfl
    | some binder =>
      simp only [hendpoint] at h
      obtain ⟨hpending, htag⟩ := connectInprocSockets_frame h
      exact .of_eq hpending htag

theorem bindPending_frame [DecidableEq Addr] [DecidableEq Conn]
    (h : s.bindPending x call = some t) : Frame s x t := by
  cases call with
  | binding addr =>
    obtain ⟨u, hu, h⟩ := bind_eq_some_iff.mp h
    cases h
    obtain ⟨hpending, htag⟩ := connectAll_frame hu
    constructor
    · intro p hp
      exact .inl (hpending ▸ (mem_filter.mp hp).1)
    · exact htag
  | found | missed => cases h

end Frames

section Results

theorem Inv.of_initial (h : Initial s) : Inv s := by
  have hhanded : s.handed = [] := by simp [Ctx.handed, h.attached, h.mailboxes]
  refine ⟨⟨?_, ?_, ?_⟩, ?_, ⟨?_, ?_⟩⟩
  · simp [hhanded, h.pendingConnections]
  · simp [hhanded]
  · simp [h.pendingConnections]
  · intro y
    simp [Ctx.addressed, Ctx.promised, h.sentSeqnum, h.processedSeqnum, h.mailboxes, h.calls,
      h.pendingConnections]
  · simp [h.calls]
  · simp [h.pendingConnections]

variable [DecidableEq Addr] [DecidableEq Conn]

/-- A context with addresses, sockets and connections named by numbers. -/
def start : Ctx Nat Nat Nat where
  endpoints _ := none
  pendingConnections := []
  pipes _ := none
  checkTag _ := true
  calls := []
  mailboxes := []
  attached := []
  sentSeqnum _ := 0
  processedSeqnum _ := 0

theorem start_initial : Initial start :=
  ⟨fun _ => rfl, rfl, fun _ => rfl, rfl, rfl, rfl, fun _ => rfl, fun _ => rfl⟩

end Results

end Uzmq.Rendezvous
