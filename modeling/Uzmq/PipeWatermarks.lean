import Uzmq.Credit
import Uzmq.Pipes

/-!
# High-water marks of a pipe

Each direction of a pair of pipes is a line of flow control: the writing end has the
high-water mark, the reading end the low-water mark, and `activate_write` announces how
much has been read. The marks are reconfigured on one end, and then on the other one by
the command `pipe_hwm`; until it arrives they need not fit each other.

Nothing wakes up a writer when the marks change. Whether it gets stuck depends on what
has been counted when the last `pipe_hwm` arrives.
-/

namespace Uzmq.PipeWatermarks

open UPipe List
open Message Handshake Pipes Credit Runs

section Model

inductive Input where
  | call (i : Side) (c : Call)
  | deliver (i : Side)
  | updatePipeOptions (i : Side) (rcvhwm sndhwm : Int)

/-- What `socket_base_t::update_pipe_options` does to a pipe. -/
def updatePipeOptions (l : Local) (rcvhwm sndhwm : Int) : Local :=
  (l.setHwms rcvhwm sndhwm).sendHwmsToPeer sndhwm rcvhwm

def step (s : System) : Input → Option System
  | .call i c => Pipes.step s (.call i c)
  | .deliver i => Pipes.step s (.deliver i)
  | .updatePipeOptions i rcvhwm sndhwm =>
    if s.failed then none
    else some (s.commit i (updatePipeOptions (s.view i) rcvhwm sndhwm))

structure Options where
  sndhwm : Int
  rcvhwm : Int

/-- The first end is the one that connects. -/
def connectInprocSockets (s : System) (bind connect : Options) (conflate : Bool) : System :=
  { s with pipe := fun i =>
      match i with
      | .first =>
        if conflate then (s.pipe .first).setHwms (-1) (-1)
        else ((s.pipe .first).setHwmsBoost bind.sndhwm bind.rcvhwm).setHwms
          connect.rcvhwm connect.sndhwm
      | .second =>
        if conflate then (s.pipe .second).setHwms (-1) (-1)
        else ((s.pipe .second).setHwmsBoost connect.sndhwm connect.rcvhwm).setHwms
          bind.rcvhwm bind.sndhwm }

/-- The boosts that `socket_base_t::connect` sets if the peer is bound already. -/
def boosted (s : System) (bind connect : Options) : System :=
  { s with pipe := fun i =>
      match i with
      | .first => (s.pipe .first).setHwmsBoost bind.sndhwm bind.rcvhwm
      | .second => (s.pipe .second).setHwmsBoost connect.sndhwm connect.rcvhwm }

/-- How pairs of pipes come into being. -/
inductive Start : System → Prop where
  | pipepair (hwms : Side → Int) (conflate : Side → Bool) : Start (pipepair hwms conflate)
  | boosted (hwms : Side → Int) (conflate : Side → Bool) (bind connect : Options) :
      Start (boosted (Pipes.pipepair hwms conflate) bind connect)
  | connectInprocSockets (hwms : Side → Int) (conflate : Side → Bool) (bind connect : Options)
      (conflating : Bool) :
      Start (connectInprocSockets (Pipes.pipepair hwms conflate) bind connect conflating)

end Model

section Lines
variable (s : System)

/-- What the reading end does with a part: it passes over credentials, and it counts the
last parts of messages other than routing ids. -/
def kind (m : Msg) : Kind :=
  if m.flags.credential then .hidden
  else if !m.flags.more && !m.flags.routingId then .counted
  else .uncounted

def pending : Option UPipe → List Kind
  | none => []
  | some q => q.complete.map kind

def report : Command → Option Nat
  | .activateWrite msgsRead => some msgsRead
  | _ => none

def reports (l : List Command) : List Nat := l.filterMap report

/-- The direction from end `i` to its peer. -/
def line (i : Side) : Line where
  hwm := (s.pipe i).hwm
  lwm := (s.pipe i.peer).lwm
  written := (s.pipe i).msgsWritten
  read := (s.pipe i.peer).msgsRead
  known := (s.pipe i).peersMsgsRead
  announced := reports (s.mailbox i)
  pending := pending (s.queue i.peer 0)
  blocked := !(s.pipe i).outActive

def isPipeHwm : Command → Bool
  | .pipeHwm _ _ => true
  | _ => false

def noPipeHwm (l : List Command) : Bool := l.all fun c => !isPipeHwm c

/-- No change of the marks is under way. -/
def Steady : Prop :=
  noPipeHwm (s.mailbox .first) = true ∧ noPipeHwm (s.mailbox .second) = true
  deriving Decidable

/-- The marks of a new pair: a limit for the writer needs a positive low-water mark of
the reader that is not above it. -/
def Fits : Prop :=
  ∀ i, 0 < (s.pipe i).hwm → 0 < (s.pipe i.peer).lwm ∧ (s.pipe i.peer).lwm ≤ (s.pipe i).hwm

def Initial : Prop := Start s ∧ Fits s

/-- A write that end `i` is allowed to make and that only the writer counts: of a
credential, or over an item that has not been read. -/
def Skews (i : Side) (m : Msg) : Prop :=
  (s.pipe i).outActive = true ∧ (s.pipe i).checkHwm = true ∧
    ((m.flags.credential && !m.flags.more && !m.flags.routingId) = true ∨
      ((s.queue i.peer 0).map UPipe.overwrites).getD false = true)
  deriving Decidable

/-- The line after end `i` has written `m`. -/
def wrote (i : Side) (m : Msg) : Line :=
  { line s i with
    written :=
      if !m.flags.more && !m.flags.routingId then ((s.pipe i).msgsWritten + 1) % 2 ^ 64
      else (s.pipe i).msgsWritten
    pending := pending ((s.queue i.peer 0).map fun q => q.write m m.flags.more fun h => h) }

/-- The marks that end `i` gets fit what has been counted in both directions. -/
def Remarks (i : Side) (inhwm outhwm : Int) : Prop :=
  Line.Covered { line s i with hwm := ((s.pipe i).setHwms inhwm outhwm).hwm } ∧
    Line.Covered { line s i.peer with lwm := ((s.pipe i).setHwms inhwm outhwm).lwm }
  deriving Decidable

/-- Both ends stay active, since only messages are written. While no other change of the
marks is under way, a write that only one side counts and the arrival of new marks leave
the lines covered. -/
def Guard : Input → Prop
  | .call _ .checkRead => True
  | .call _ .read => True
  | .call _ .checkWrite => True
  | .call _ .rollback => True
  | .call _ .flush => True
  | .call i (.write m) =>
    m.isDelimiter = false ∧ (Steady s → Skews s i m → (wrote s i m).Covered)
  | .call _ _ => False
  | .updatePipeOptions _ _ _ => True
  | .deliver i =>
    match s.mailbox i with
    | .pipeHwm inhwm outhwm :: rest =>
      noPipeHwm rest = true → noPipeHwm (s.mailbox i.peer) = true → Remarks s i inhwm outhwm
    | _ => True

instance (s : System) (input : Input) : Decidable (Guard s input) := by
  unfold Guard
  split <;> try infer_instance
  split <;> infer_instance

end Lines

variable {q : UPipe} {m : Msg} {l : Local} {rest : List Command} {inhwm outhwm : Int}
  {hwms : Side → Int}

section Ends

def ordinary : Command → Prop
  | .activateRead => True
  | .activateWrite msgsRead => msgsRead < 2 ^ 64
  | .pipeHwm _ _ => True
  | _ => False

def Messages (q : Option UPipe) : Prop := ∃ p, q = some p ∧ ∀ m ∈ p.parts, m.isDelimiter = false

/-- An end that is active, while it executes a method. -/
structure Ready (l : Local) : Prop where
  failed : l.failed = false
  state : l.pipe.state = .active
  deleted : l.pipe.deleted = false
  inpipe : l.pipe.inpipe = 0
  outpipe : l.pipe.outpipe = some 0
  inbound : Messages (l.inbound 0)
  outbound : Messages (l.outbound 0)
  sent : ∀ c ∈ l.sent, ordinary c
  read : l.pipe.msgsRead < 2 ^ 64
  known : l.pipe.peersMsgsRead < 2 ^ 64
  written : l.pipe.msgsWritten < 2 ^ 64

/-- The line on which the end writes. -/
def outLine (l : Local) (x : Line) : Line :=
  { x with
    hwm := l.pipe.hwm
    written := l.pipe.msgsWritten
    known := l.pipe.peersMsgsRead
    blocked := !l.pipe.outActive
    pending := pending (l.outbound 0) }

/-- The line from which the end reads. -/
def inLine (l : Local) (x : Line) : Line :=
  { x with
    lwm := l.pipe.lwm
    read := l.pipe.msgsRead
    announced := x.announced ++ reports l.sent
    pending := pending (l.inbound 0) }

structure Turn (l l' : Local) : Prop where
  ready : Ready l'
  outLine : ∀ x, Line.Moves (outLine l x) (outLine l' x)
  inLine : ∀ x, Line.Moves (inLine l x) (inLine l' x)

variable {l l' : Local}

theorem turn_of_eq (hready : Ready l') (hout : ∀ x, outLine l' x = outLine l x)
    (hin : ∀ x, inLine l' x = inLine l x) : Turn l l' := by
  refine ⟨hready, ?_, ?_⟩
  · intro x
    rw [hout]
  · intro x
    rw [hin]

section
variable (hl : Ready l)
include hl

theorem Turn.refl : Turn l l := turn_of_eq hl (fun _ => rfl) fun _ => rfl

theorem ready_asleep : Ready (l.modify fun p => { p with inActive := false }) :=
  { hl with }

theorem ready_setIn (hq : ∀ m ∈ q.parts, m.isDelimiter = false) : Ready (l.setIn (some q)) := by
  refine { hl with inbound := ⟨q, ?_, hq⟩ }
  simp [Local.setIn, hl.inpipe]

theorem ready_setOut (hq : ∀ m ∈ q.parts, m.isDelimiter = false) : Ready (l.setOut 0 (some q)) := by
  refine { hl with outbound := ⟨q, ?_, hq⟩ }
  simp [Local.setOut]

theorem turn_checkRead : Turn l l.checkRead.1 := by
  obtain ⟨q, hq, hparts⟩ := hl.inbound
  rw [← hl.inpipe] at hq
  have hchecked := checkRead_checked l
  generalize l.checkRead = r at hchecked ⊢
  cases hchecked with
  | refused => exact Turn.refl hl
  | lost hlost => cases hq.symm.trans hlost
  | empty => exact turn_of_eq (ready_asleep hl) (fun _ => rfl) fun _ => rfl
  | ready => exact Turn.refl hl
  | @delimiter _ _ m _ hfound hgone hends =>
    cases hq.symm.trans hfound
    have hm : m.isDelimiter = false := hparts m (by simp [hgone.parts])
    cases hm.symm.trans hends

omit hl in
theorem inLine_reportRead (x : Line) :
    inLine l.reportRead x = { inLine l x with
      announced :=
        if Due l.pipe.lwm l.pipe.msgsRead then (inLine l x).announced ++ [l.pipe.msgsRead]
        else (inLine l x).announced } := by
  by_cases hdue : Due l.pipe.lwm l.pipe.msgsRead
  · have hreport : l.reportRead = l.send (.activateWrite l.pipe.msgsRead) := if_pos hdue
    simp [hreport, if_pos hdue, inLine, Local.send, reports, report]
  · have hreport : l.reportRead = l := if_neg hdue
    rw [hreport, if_neg hdue]

omit hl in
theorem inLine_read (x : Line) {rest : UPipe} (hin : l.inbound 0 = some rest)
    (hm : m.flags.credential = false) (items : List Kind) :
    inLine (l.countRead m).reportRead x =
      Line.get { inLine l x with pending := items } (kind m) (rest.complete.map kind) := by
  rw [inLine_reportRead]
  cases hcount : !m.flags.more && !m.flags.routingId with
  | true =>
    have hkind : kind m = .counted := by simp [kind, hm, hcount]
    simp [Local.countRead, hcount, hkind, Line.get, Line.nextRead, inLine, Local.modify, hin,
      pending]
  | false =>
    have hkind : kind m = .uncounted := by simp [kind, hm, hcount]
    simp [Local.countRead, hcount, hkind, Line.get, Line.nextRead, inLine, hin, pending]

theorem ready_reportRead : Ready l.reportRead := by
  unfold Local.reportRead
  split
  · refine { hl with sent := ?_ }
    exact forall_mem_append.mpr ⟨hl.sent, forall_mem_singleton.mpr hl.read⟩
  · exact hl

theorem ready_countRead (m : Msg) : Ready (l.countRead m) := by
  unfold Local.countRead
  split
  · exact { hl with read := Nat.mod_lt _ (by decide) }
  · exact hl

end

theorem outLine_reportRead (x : Line) : outLine l.reportRead x = outLine l x := by
  unfold Local.reportRead
  split <;> rfl

theorem outLine_countRead (m : Msg) (x : Line) : outLine (l.countRead m) x = outLine l x := by
  unfold Local.countRead
  split <;> rfl

theorem kinds_hidden {before : List Msg} (h : ∀ m ∈ before, m.flags.credential = true) :
    ∀ k ∈ before.map kind, k = Kind.hidden := by
  intro k hk
  obtain ⟨m, hm, rfl⟩ := mem_map.mp hk
  simp [kind, h m hm]

section
variable (hl : Ready l)
include hl

theorem inLine_setIn (rest : UPipe) (x : Line) :
    inLine (l.setIn (some rest)) x = { inLine l x with pending := rest.complete.map kind } := by
  simp only [inLine, Local.setIn, hl.inpipe, Function.update_self, pending]

theorem turn_read : Turn l l.read.1 := by
  obtain ⟨q, hq, hparts⟩ := hl.inbound
  have hq' : l.inbound l.pipe.inpipe = some q := by rw [hl.inpipe, hq]
  have hfetched := read_fetched l
  generalize l.read = r at hfetched ⊢
  cases hfetched with
  | refused => exact Turn.refl hl
  | lost hlost => cases hq'.symm.trans hlost
  | @empty _ rest hfound hgone hall =>
    cases hq'.symm.trans hfound
    have hrest : ∀ m ∈ rest.parts, m.isDelimiter = false :=
      fun m hm => hparts m (by simp [hgone.parts, hm])
    refine ⟨ready_asleep (ready_setIn hl hrest), fun x => .refl, ?_⟩
    intro x
    apply Relation.ReflTransGen.single
    have hpending : (inLine l x).pending = q.readable.map kind ++ rest.complete.map kind := by
      simp [inLine, hq, pending, hgone.complete]
    have hstep := Line.Step.pass (kinds_hidden hall) hpending
    rw [← inLine_setIn hl] at hstep
    exact hstep
  | @delimiter _ _ _ m _ hfound hgone hends =>
    cases hq'.symm.trans hfound
    have hm : m.isDelimiter = false := hparts m (by simp [hgone.parts])
    cases hm.symm.trans hends
  | @part _ rest before m _ hfound hgone hall hm =>
    cases hq'.symm.trans hfound
    have hin : (l.setIn (some rest)).inbound 0 = some rest := by simp [Local.setIn, hl.inpipe]
    have hready := ready_setIn (q := rest) hl fun m hm => hparts m (by simp [hgone.parts, hm])
    refine ⟨ready_reportRead (ready_countRead hready m), ?_, ?_⟩
    · intro x
      rw [outLine_reportRead, outLine_countRead]
      exact .refl
    intro x
    -- The credentials before the part are passed over, and then it is read.
    have hpending : (inLine l x).pending = before.map kind ++ kind m :: rest.complete.map kind := by
      simp [inLine, hq, pending, hgone.complete]
    have hpass := Line.Step.pass (kinds_hidden hall) hpending
    have hkind : kind m ≠ .hidden := by
      cases hcount : !m.flags.more && !m.flags.routingId <;> simp [kind, hm, hcount]
    have hget := Line.Step.get hkind
      (show Line.pending { inLine l x with pending := kind m :: rest.complete.map kind } = _
        from rfl)
    rw [inLine_read x hin hm (kind m :: rest.complete.map kind)]
    exact (Relation.ReflTransGen.single hpass).tail hget

theorem full_iff (x : Line) : (outLine l x).Full ↔ l.pipe.checkHwm = false := by
  have hknown := hl.known
  simp only [Line.Full, outLine, Pipe.checkHwm, Bool.not_eq_false', Bool.and_eq_true,
    decide_eq_true_eq]
  apply and_congr_right
  omega

theorem turn_blocked (hfull : l.pipe.checkHwm = false) :
    Turn l (l.modify fun p => { p with outActive := false }) := by
  refine ⟨{ hl with }, ?_, fun x => .refl⟩
  intro x
  exact .single (.block ((full_iff hl x).mpr hfull))

theorem turn_checkWrite : Turn l l.checkWrite.1 := by
  unfold Local.checkWrite
  split
  · exact Turn.refl hl
  · split
    · rename_i hfull
      exact turn_blocked hl (by simpa using hfull)
    · exact Turn.refl hl

theorem turn_setOut {q' : UPipe} (hq : l.outbound 0 = some q) (hcomplete : q'.complete = q.complete)
    (hparts : ∀ m ∈ q'.parts, m ∈ q.parts) : Turn l (l.setOut 0 (some q')) := by
  obtain ⟨p, hp, hmessages⟩ := hl.outbound
  obtain rfl : q = p := Option.some.inj (hq.symm.trans hp)
  refine turn_of_eq (ready_setOut hl fun m hm => hmessages m (hparts m hm)) ?_ fun x => rfl
  intro x
  simp only [outLine, Local.setOut, Function.update_self, hq, pending, hcomplete]

theorem turn_rollback : Turn l l.rollback := by
  obtain ⟨q, hq, -⟩ := hl.outbound
  obtain ⟨hreadable, hunflushed, hunfinished⟩ := unwriteAll_frame (q.unfinished.length + 1) q
  have hcomplete : (Local.unwriteAll (q.unfinished.length + 1) q).1.complete = q.complete := by
    rw [complete, complete, hreadable, hunflushed]
  unfold Local.rollback
  simp only [hl.outpipe, hq, unwriteAll_ok, if_true]
  apply turn_setOut hl hq hcomplete
  intro m hm
  rw [parts, hcomplete] at hm
  rcases mem_append.mp hm with hm | hm
  · exact mem_append_left _ hm
  · exact mem_append_right _ (hunfinished m hm)

theorem turn_send {c : Command} (hc : ordinary c) (hreport : report c = none) :
    Turn l (l.send c) := by
  refine turn_of_eq ?_ (fun _ => rfl) ?_
  · refine { hl with sent := ?_ }
    exact forall_mem_append.mpr ⟨hl.sent, forall_mem_singleton.mpr hc⟩
  · intro x
    simp [inLine, Local.send, reports, hreport]

end

theorem Turn.trans {l'' : Local} (h : Turn l l') (h' : Turn l' l'') : Turn l l'' :=
  ⟨h'.ready, fun x => (h.outLine x).trans (h'.outLine x), fun x => (h.inLine x).trans (h'.inLine x)⟩

theorem turn_flush (hl : Ready l) : Turn l l.flush := by
  obtain ⟨q, hq, -⟩ := hl.outbound
  have hactive : ¬ l.pipe.state = .termAckSent := by
    rw [hl.state]
    decide
  unfold Local.flush
  simp only [if_neg hactive, hl.outpipe, hq]
  obtain ⟨hcomplete, hunfinished⟩ := q.complete_flush
  have hset := turn_setOut hl hq hcomplete (by
    intro m hm
    rw [parts, hcomplete, hunfinished] at hm
    exact hm)
  exact hset.trans (turn_send hset.ready trivial rfl)

theorem turn_processActivateRead (hl : Ready l) : Turn l l.processActivateRead := by
  unfold Local.processActivateRead
  split
  · refine turn_of_eq ?_ (fun _ => rfl) fun _ => rfl
    exact { hl with }
  · exact Turn.refl hl

/-- The line on which the end writes after it has written `m`. -/
def wroteLine (l : Local) (m : Msg) (x : Line) : Line :=
  { outLine l x with
    written :=
      if !m.flags.more && !m.flags.routingId then (l.pipe.msgsWritten + 1) % 2 ^ 64
      else l.pipe.msgsWritten
    pending := pending ((l.outbound 0).map fun q => q.write m m.flags.more fun h => h) }

theorem kind_of_more (h : m.flags.more = true) : kind m ≠ .counted := by
  cases hcredential : m.flags.credential <;> simp [kind, h, hcredential]

theorem count_unfinished (q : UPipe) : (q.unfinished.map kind).count Kind.counted = 0 := by
  apply count_eq_zero.mpr
  intro hmem
  obtain ⟨m, hm, hkind⟩ := mem_map.mp hmem
  exact kind_of_more (unfinished_more hm) hkind

/-- A write that both sides count alike is a step of the line. -/
theorem moves_wrote (hl : Ready l) (hq : l.outbound 0 = some q) (hkeep : q.overwrites = false)
    (halike : (m.flags.credential && !m.flags.more && !m.flags.routingId) = false) (x : Line) :
    Line.Moves (outLine l x) (wroteLine l m x) := by
  have hwritten := hl.written
  have hput : ∀ items : List Kind,
      (wroteLine l m x).pending = (outLine l x).pending ++ items →
      (wroteLine l m x).written = (l.pipe.msgsWritten + items.count .counted) % 2 ^ 64 →
      Line.Moves (outLine l x) (wroteLine l m x) := by
    intro items hpending hcount
    have hstep := Line.Step.put (outLine l x) items
    have heq : wroteLine l m x = (outLine l x).put items := by
      rw [Line.put, ← hpending]
      change _ = { outLine l x with
        pending := (wroteLine l m x).pending
        written := (l.pipe.msgsWritten + items.count Kind.counted) % 2 ^ 64 }
      rw [← hcount]
      rfl
    rw [heq]
    exact .single hstep
  cases hmore : m.flags.more with
  | true =>
    have hzero : List.count Kind.counted [kind m] = 0 := by
      apply count_eq_zero.mpr
      simpa using (kind_of_more hmore).symm
    rcases complete_write_more hkeep fun _ => hmore with hcomplete | hcomplete
    · apply hput []
      · simp [wroteLine, outLine, hq, pending, hmore, hcomplete]
      · simp only [wroteLine, hmore]
        simp
        omega
    · apply hput [kind m]
      · simp [wroteLine, outLine, hq, pending, hmore, hcomplete]
      · simp only [wroteLine, hmore]
        simp
        omega
  | false =>
    have hcomplete : (q.write m false (by simp)).complete = q.complete ++ (q.unfinished ++ [m]) :=
      complete_write_last hkeep _
    apply hput ((q.unfinished ++ [m]).map kind)
    · simp [wroteLine, outLine, hq, pending, hmore, hcomplete]
    rw [map_append, count_append, count_unfinished]
    cases hrouting : m.flags.routingId with
    | true =>
      have hkind : kind m ≠ .counted := by
        cases hcredential : m.flags.credential <;> simp [kind, hrouting, hcredential]
      have hzero : List.count Kind.counted ([m].map kind) = 0 := by
        apply count_eq_zero.mpr
        simpa using hkind.symm
      rw [hzero]
      simp only [wroteLine, hmore, hrouting]
      simp
      omega
    | false =>
      have hcredential : m.flags.credential = false := by
        simpa [hmore, hrouting] using halike
      have hkind : kind m = .counted := by simp [kind, hcredential, hmore, hrouting]
      simp [wroteLine, hmore, hrouting, hkind]

/-- A write is refused, or the part goes into the queue and is counted. -/
theorem write_cases (hl : Ready l) (hm : m.isDelimiter = false) :
    Turn l (l.write m).1 ∨
      l.pipe.outActive = true ∧ l.pipe.checkHwm = true ∧ Ready (l.write m).1 ∧
        (∀ x, outLine (l.write m).1 x = wroteLine l m x) ∧
        ∀ x, inLine (l.write m).1 x = inLine l x := by
  have hwrote := write_wrote l m
  generalize l.write m = r at hwrote ⊢
  obtain ⟨q, hq, hparts⟩ := hl.outbound
  cases hwrote with
  | refused => exact .inl (Turn.refl hl)
  | full hfull => exact .inl (turn_blocked hl hfull)
  | lost hlost => cases hq.symm.trans (hlost 0 hl.outpipe)
  | put _ hroom hactive hp hfound =>
    cases hl.outpipe.symm.trans hp
    cases hq.symm.trans hfound
    refine .inr ⟨hactive, hroom, ?_⟩
    have hset := ready_setOut (q := q.write m m.flags.more fun h => h) hl (by
      intro p hp
      rcases mem_parts_write hp with rfl | hp
      · exact hm
      · exact hparts p hp)
    cases hcount : !m.flags.more && !m.flags.routingId with
    | true =>
      have heq : ∀ l : Local, l.countWritten m =
          l.modify fun p => { p with msgsWritten := (p.msgsWritten + 1) % 2 ^ 64 } := by
        intro l
        simp [Local.countWritten, hcount]
      rw [heq]
      refine ⟨?_, ?_, fun x => rfl⟩
      · exact { hset with written := Nat.mod_lt _ (by decide) }
      · intro x
        simp [outLine, wroteLine, Local.modify, Local.setOut, hq, hcount]
    | false =>
      have heq : ∀ l : Local, l.countWritten m = l := by
        intro l
        simp [Local.countWritten, hcount]
      rw [heq]
      refine ⟨hset, ?_, fun x => rfl⟩
      intro x
      simp [outLine, wroteLine, Local.setOut, hq, hcount]

end Ends

section Systems
variable {s t : System} {i : Side}

/-- Both ends are active. -/
structure Plain (s : System) : Prop where
  failed : s.failed = false
  ready : ∀ i, Ready (s.view i)
  mailbox : ∀ i, ∀ c ∈ s.mailbox i, ordinary c

section
variable (h : Committed s i rest l t)
include h

theorem line_writer : line t i = outLine l { line s i with announced := reports rest } := by
  simp only [line, outLine, h.pipe, h.peer, h.outbound, h.taken]

theorem line_reader : line t i.peer = inLine l (line s i.peer) := by
  simp only [line, inLine, h.pipe, h.peer, h.inbound, h.sent, Side.peer_peer, reports,
    filterMap_append]

omit h in
theorem inLine_view (s : System) (i : Side) :
    inLine (s.view i) (line s i.peer) = line s i.peer := by
  simp [inLine, line, System.view, reports]

omit h in
theorem plain_committed (hs : Plain s) (h : Committed s i rest l t) (hl : Ready l)
    (hrest : ∀ c ∈ rest, ordinary c) : Plain t := by
  constructor
  · rw [h.failed, hs.failed, hl.failed]
    rfl
  · refine h.forall_view { hl with failed := rfl, sent := nofun } ?_
    exact { hs.ready i.peer with inbound := hl.outbound, outbound := hl.inbound }
  · exact h.forall_mailbox (hs.mailbox i.peer) hrest hl.sent

def AllCovered (s : System) : Prop := ∀ i, (line s i).Covered

theorem covered_committed (hout : (outLine l { line s i with announced := reports rest }).Covered)
    (hin : (inLine l (line s i.peer)).Covered) : AllCovered t := by
  intro j
  rcases Side.eq_or_eq_peer i j with rfl | rfl
  · rwa [line_writer h]
  · rwa [line_reader h]

/-- A turn of an end, with or without a command that is no announcement. -/
theorem covered_turn (hturn : Turn (s.view i) l)
    (hrest : reports rest = reports (s.mailbox i)) (hcovered : AllCovered s) : AllCovered t := by
  apply covered_committed h
  · rw [hrest]
    exact Line.Moves.covered (hturn.outLine (line s i)) (hcovered i)
  · have hmoves := hturn.inLine (line s i.peer)
    rw [inLine_view] at hmoves
    exact Line.Moves.covered hmoves (hcovered i.peer)

omit h in
theorem steady_iff : Steady s ↔ ∀ i, noPipeHwm (s.mailbox i) = true :=
  (Side.forall_iff (P := fun i => noPipeHwm (s.mailbox i) = true)).symm

/-- Only a `pipe_hwm` that arrives makes the marks steady. -/
theorem steady_before {c : Option Command} (hmail : s.mailbox i = c.toList ++ rest)
    (hc : ∀ d ∈ c, isPipeHwm d = false) (ht : Steady t) : Steady s := by
  rw [steady_iff] at ht ⊢
  intro j
  rcases Side.eq_or_eq_peer i j with rfl | rfl
  · have := ht j
    rw [h.taken] at this
    rw [hmail]
    cases c with
    | none => exact this
    | some d => simpa [noPipeHwm, hc d rfl] using this
  · have := ht i.peer
    rw [h.sent] at this
    simp only [noPipeHwm, all_append, Bool.and_eq_true] at this ⊢
    exact this.1

end

end Systems

section Steps
variable {s t : System} {i : Side}

/-- The invariant: while no change of the marks is under way, both lines are covered. -/
structure Inv (s : System) : Prop where
  plain : Plain s
  covered : Steady s → AllCovered s

section
variable (hs : Inv s)
include hs

theorem mailbox_tail {c : Command} (hmail : s.mailbox i = c :: rest) :
    ordinary c ∧ ∀ d ∈ rest, ordinary d := by
  have hmailbox := hs.plain.mailbox i
  rwa [hmail, forall_mem_cons] at hmailbox

/-- An end is left ready after it has taken a command that does not change the marks, or none. -/
theorem inv_committed {c : Option Command} (h : Committed s i rest l t) (hl : Ready l)
    (hmail : s.mailbox i = c.toList ++ rest) (hc : ∀ d ∈ c, isPipeHwm d = false)
    (hcovered : Steady s → AllCovered s → AllCovered t) : Inv t := by
  refine ⟨plain_committed hs.plain h hl ?_, ?_⟩
  · intro d hd
    apply hs.plain.mailbox i
    rw [hmail]
    exact mem_append_right _ hd
  · intro ht
    have hsteady := steady_before h hmail hc ht
    exact hcovered hsteady (hs.covered hsteady)

theorem inv_turn (h : Committed s i (s.mailbox i) l t) (hturn : Turn (s.view i) l) : Inv t :=
  inv_committed (c := none) hs h hturn.ready rfl nofun fun _ => covered_turn h hturn rfl

theorem inv_write (h : Committed s i (s.mailbox i) ((s.view i).write m).1 t)
    (hm : m.isDelimiter = false) (hskews : Steady s → Skews s i m → (wrote s i m).Covered) :
    Inv t := by
  have hview := hs.plain.ready i
  rcases write_cases hview hm with hturn | ⟨hactive, hroom, hready, hout, hin⟩
  · exact inv_turn hs h hturn
  apply inv_committed (c := none) hs h hready rfl nofun
  intro hsteady hcovered
  apply covered_committed h
  · rw [hout]
    by_cases hskew : Skews s i m
    · exact hskews hsteady hskew
    obtain ⟨q, hq, -⟩ := hview.outbound
    have hq' : s.queue i.peer 0 = some q := hq
    have hnot : ¬ ((m.flags.credential && !m.flags.more && !m.flags.routingId) = true ∨
        ((s.queue i.peer 0).map overwrites).getD false = true) :=
      fun hor => hskew ⟨hactive, hroom, hor⟩
    rw [hq', not_or, Bool.not_eq_true, Bool.not_eq_true] at hnot
    exact Line.Moves.covered (moves_wrote hview hq hnot.2 hnot.1 (line s i)) (hcovered i)
  · rw [hin, inLine_view]
    exact hcovered i.peer

theorem inv_call {c : Call} (hguard : Guard s (.call i c))
    (h : Committed s i (s.mailbox i) (perform (s.view i) c) t) : Inv t := by
  have hview := hs.plain.ready i
  cases c with
  | checkRead => exact inv_turn hs h (turn_checkRead hview)
  | read => exact inv_turn hs h (turn_read hview)
  | checkWrite => exact inv_turn hs h (turn_checkWrite hview)
  | rollback => exact inv_turn hs h (turn_rollback hview)
  | flush => exact inv_turn hs h (turn_flush hview)
  | write m => exact inv_write hs h hguard.1 hguard.2
  | terminate | hiccup | setNodelay | setHwms | sendHwmsToPeer => exact hguard.elim

omit hs in
theorem processActivateWrite_eq (hl : Ready l) (msgsRead : Nat) :
    l.processActivateWrite msgsRead =
      l.modify fun p => { p with peersMsgsRead := msgsRead, outActive := true } := by
  cases hactive : l.pipe.outActive with
  | true => simp [Local.processActivateWrite, Local.modify, hactive]
  | false => simp [Local.processActivateWrite, Local.modify, hactive, hl.state]

theorem inv_activateWrite {msgsRead : Nat} (hmail : s.mailbox i = .activateWrite msgsRead :: rest)
    (h : Committed s i rest ((s.view i).processActivateWrite msgsRead) t) : Inv t := by
  have hview := hs.plain.ready i
  rw [processActivateWrite_eq hview] at h
  have hready : Ready ((s.view i).modify fun p =>
      { p with peersMsgsRead := msgsRead, outActive := true }) :=
    { hview with known := (mailbox_tail hs hmail).1 }
  apply inv_committed (c := some (.activateWrite msgsRead)) hs h hready hmail (by rintro d ⟨⟩; rfl)
  intro _ hcovered
  apply covered_committed h
  · change ((line s i).hear msgsRead (reports rest)).Covered
    apply (hcovered i).hear
    simp [line, hmail, reports, report]
  · change (inLine (s.view i) (line s i.peer)).Covered
    rw [inLine_view]
    exact hcovered i.peer

omit hs in
theorem ready_setHwms (hl : Ready l) (inhwm outhwm : Int) : Ready (l.setHwms inhwm outhwm) :=
  { hl with }

theorem inv_pipeHwm (hmail : s.mailbox i = .pipeHwm inhwm outhwm :: rest)
    (hguard : Guard s (.deliver i)) (h : Committed s i rest ((s.view i).setHwms inhwm outhwm) t) :
    Inv t := by
  have hready := ready_setHwms (hs.plain.ready i) inhwm outhwm
  simp only [Guard, hmail] at hguard
  refine ⟨plain_committed hs.plain h hready (mailbox_tail hs hmail).2, ?_⟩
  intro ht
  rw [steady_iff] at ht
  have hrest := ht i
  rw [h.taken] at hrest
  have hpeer := ht i.peer
  rw [h.sent] at hpeer
  have hsent : ((s.view i).setHwms inhwm outhwm).sent = [] := rfl
  rw [hsent, append_nil] at hpeer
  obtain ⟨hout, hin⟩ := hguard hrest hpeer
  apply covered_committed h
  · have hreports : reports rest = (line s i).announced := by
      rw [line, hmail]
      rfl
    rw [hreports]
    exact hout
  · change Line.Covered { inLine (s.view i) (line s i.peer) with
      lwm := ((s.pipe i).setHwms inhwm outhwm).lwm }
    rw [inLine_view]
    exact hin

theorem inv_step {input : Input} (hguard : Guard s input) (hstep : step s input = some t) :
    Inv t := by
  cases input with
  | call i c =>
    have hcall : Pipes.step s (.call i c) = some t := hstep
    obtain ⟨-, hacts⟩ := step_acts hcall
    cases hacts with
    | call _ h => exact inv_call hs hguard h
  | deliver i =>
    have hdeliver : Pipes.step s (.deliver i) = some t := hstep
    obtain ⟨-, hacts⟩ := step_acts hdeliver
    cases hacts with
    | @deliver _ c rest _ hmail h =>
      have hc := (mailbox_tail hs hmail).1
      cases c with
      | activateRead =>
        have hturn := turn_processActivateRead (hs.plain.ready i)
        apply inv_committed (c := some .activateRead) hs h hturn.ready hmail (by rintro d ⟨⟩; rfl)
        intro _
        apply covered_turn h hturn
        rw [hmail]
        rfl
      | activateWrite msgsRead => exact inv_activateWrite hs hmail h
      | pipeHwm inhwm outhwm => exact inv_pipeHwm hs hmail hguard h
      | hiccup | pipeTerm | pipeTermAck => exact hc.elim
    | late hgone _ =>
      have halive : (s.pipe i).deleted = false := (hs.plain.ready i).deleted
      rw [halive] at hgone
      cases hgone
  | updatePipeOptions i rcvhwm sndhwm =>
    simp only [step, hs.plain.failed, Bool.false_eq_true, if_false, Option.some.injEq] at hstep
    have hready := ready_setHwms (hs.plain.ready i) rcvhwm sndhwm
    have hturn := turn_send (c := .pipeHwm sndhwm rcvhwm) hready trivial rfl
    have h := committed_call s i (updatePipeOptions (s.view i) rcvhwm sndhwm)
    rw [hstep] at h
    refine ⟨plain_committed hs.plain h hturn.ready (hs.plain.mailbox i), ?_⟩
    intro ht
    -- The command to the peer is under way.
    have hpeer := steady_iff.mp ht i.peer
    rw [h.sent] at hpeer
    simp [noPipeHwm, updatePipeOptions, Local.sendHwmsToPeer, Local.send, isPipeHwm] at hpeer

end

end Steps

section Runs
variable {s : System}

theorem start_plain (hs : Start s) : Plain s := by
  have hnew : ∀ (hwms : Side → Int) (conflate : Side → Bool) (i : Side),
      Messages ((pipepair hwms conflate).queue i 0) := by
    intro hwms conflate i
    refine ⟨new (conflate i), by simp [pipepair], ?_⟩
    cases hconflate : conflate i <;>
      simp [new, parts, complete, readable, unflushed, unfinished]
  have hzero : (0 : Nat) < 2 ^ 64 := by decide
  have hpair (hwms : Side → Int) (conflate : Side → Bool) (i : Side) :
      Ready ((pipepair hwms conflate).view i) :=
    ⟨rfl, rfl, rfl, rfl, rfl, hnew hwms conflate _, hnew hwms conflate _, by rintro _ ⟨⟩,
      hzero, hzero, hzero⟩
  -- The marks are the only fields that the ways to connect set in different ways.
  cases hs with
  | pipepair hwms conflate => exact ⟨rfl, hpair hwms conflate, by rintro _ _ ⟨⟩⟩
  | boosted hwms conflate bind connect =>
    refine ⟨rfl, fun i => ?_, by rintro _ _ ⟨⟩⟩
    cases i <;> exact { hpair hwms conflate _ with }
  | connectInprocSockets hwms conflate bind connect conflating =>
    refine ⟨rfl, fun i => ?_, by rintro _ _ ⟨⟩⟩
    cases i <;> cases conflating <;> exact { hpair hwms conflate _ with }

theorem start_line (hs : Start s) (i : Side) :
    line s i = ⟨(s.pipe i).hwm, (s.pipe i.peer).lwm, 0, 0, 0, [], [], false⟩ := by
  have hnew : ∀ (hwms : Side → Int) (conflate : Side → Bool) (i : Side),
      pending ((pipepair hwms conflate).queue i 0) = [] := by
    intro hwms conflate i
    cases hconflate : conflate i <;>
      simp [pipepair, hconflate, pending, new, complete, readable, unflushed]
  cases hs with
  | pipepair hwms conflate =>
    cases i <;> simp_all [line, pipepair, Pipe.new, reports]
  | boosted hwms conflate bind connect =>
    cases i <;>
      simp_all [line, boosted, pipepair, Pipe.new, Pipe.setHwmsBoost, reports, Side.peer]
  | connectInprocSockets hwms conflate bind connect conflating =>
    cases i <;> cases conflating <;>
      simp_all [line, connectInprocSockets, pipepair, Pipe.new, Pipe.setHwmsBoost, Pipe.setHwms,
        reports, Side.peer]

theorem initial_inv (hs : Initial s) : Inv s := by
  obtain ⟨hstart, hfits⟩ := hs
  refine ⟨start_plain hstart, ?_⟩
  intro _ i
  rw [start_line hstart i]
  have hskew : Line.skew ⟨(s.pipe i).hwm, (s.pipe i.peer).lwm, 0, 0, 0, [], [], false⟩ = 0 := rfl
  constructor
  · intro hlimit
    rw [hskew]
    have := hfits i hlimit
    exact ⟨this.1, by simpa using this.2⟩
  · intro hlimit
    obtain ⟨hlwm, hle⟩ := hfits i hlimit
    obtain ⟨k, hk, hklwm, hdue⟩ := exists_due hlwm 0
    right
    refine ⟨k, ?_, hk, ?_, hdue⟩
    · change k ≤ (s.pipe i).hwm.toNat
      omega
    · change 0 + (k : Int) ≤ (s.pipe i).hwm
      omega
  · rintro ⟨⟩

theorem inv_of_reach (h : Reach Initial Guard step s) : Inv s := by
  apply h.invariant (fun s => initial_inv)
  intro s input t hs hguard hstep
  exact inv_step hs hguard hstep

/-- The writer at end `i` is not blocked once no command is under way and everything it
has written and completed has been read. -/
theorem writer_resumes (h : Reach Initial Guard step s) (hmail : ∀ j, s.mailbox j = []) (i : Side)
    (hread : ∀ q, s.queue i.peer 0 = some q → q.complete = []) :
    (s.pipe i).outActive = true ∧ (s.pipe i).checkHwm = true := by
  have hinv := inv_of_reach h
  have hsteady : Steady s := by
    rw [steady_iff]
    intro j
    rw [hmail j]
    rfl
  have hheard : (line s i).announced = [] := by
    simp [line, hmail i, reports]
  have hpending : (line s i).pending = [] := by
    obtain ⟨q, hq, -⟩ := (hinv.plain.ready i).outbound
    have hq' : s.queue i.peer 0 = some q := hq
    simp [line, hq', pending, hread q hq']
  obtain ⟨hblocked, hfull⟩ := (hinv.covered hsteady i).settled hpending hheard
  constructor
  · simpa [line] using hblocked
  have hready := hinv.plain.ready i
  have hiff := full_iff hready (line s i)
  have hne : ¬ (s.pipe i).checkHwm = false := fun hfalse => hfull (hiff.mpr hfalse)
  simpa using hne

/-- The marks are raised while the writer has room, and it is woken up when it has used
what the new mark allows. -/
def raisingRun : List Input :=
  [.call .first (.write {}), .call .first .flush, .updatePipeOptions .first 4 4,
    .deliver .second, .deliver .second, .call .first (.write {}), .call .first (.write {}),
    .call .first (.write {}), .call .first .checkWrite, .call .first .flush, .deliver .second,
    .call .second .read, .call .second .read, .call .second .read, .call .second .read,
    .deliver .first, .deliver .first]

theorem raisingRun_resumes :
    ∃ s, Reach Initial Guard step s ∧ (∀ j, s.mailbox j = []) ∧
      (∀ q, s.queue .second 0 = some q → q.complete = []) ∧ (s.pipe .first).msgsWritten = 4 ∧
      (s.pipe .first).outActive = true ∧ (s.pipe .first).checkHwm = true := by
  have hrun : ∃ s, Reach Initial Guard step s ∧ (∀ j, s.mailbox j = []) ∧
      (s.queue .second 0).map complete = some [] ∧ (s.pipe .first).msgsWritten = 4 := by
    refine Reach.of_exec (s := pipepair (fun _ => 2) fun _ => false) Guard step raisingRun ?_
      ⟨.pipepair _ _, ?_⟩
    · decide +kernel
    · exact Side.forall_iff.mpr (by decide)
  obtain ⟨s, hreach, hmail, hcomplete, hwritten⟩ := hrun
  have hread : ∀ q, s.queue .second 0 = some q → q.complete = [] := by
    intro q hq
    simpa [hq] using hcomplete
  exact ⟨s, hreach, hmail, hread, hwritten, writer_resumes hreach hmail .first hread⟩

/-- The marks are raised while the writer is blocked: the reader reads on without an
announcement, and the writer is not woken up. -/
theorem raised_while_blocked :
    ∃ s, Reach Initial Always step s ∧ s.mailbox .first = [] ∧ s.mailbox .second = [] ∧
      (s.queue .second 0).map (fun q => (q.complete, q.unfinished)) = some ([], []) ∧
      (s.pipe .first).state = .active ∧ (s.pipe .second).state = .active ∧
      (s.pipe .first).outActive = false := by
  refine Reach.of_exec (s := pipepair (fun _ => 1) fun _ => false) Always step
    [.call .first (.write {}), .call .first .flush, .call .first .checkWrite,
      .updatePipeOptions .first 10 10, .deliver .second, .deliver .second, .call .second .read]
    ?_ ⟨.pipepair _ _, ?_⟩
  · decide +kernel
  · exact Side.forall_iff.mpr (by decide)

theorem int32_eq {x : Int} (hpos : 0 ≤ x) (hlt : x < 2 ^ 31) : int32 x = x := by
  rw [int32, Int.bmod_def]
  omega

/-- The low-water mark of a limit is compatible with it, unless `hwm + 1` overflows. -/
theorem computeLwm_bounds {hwm : Int} (hpos : 0 < hwm) (hlt : hwm < 2 ^ 31 - 1) :
    0 < computeLwm hwm ∧ computeLwm hwm ≤ hwm := by
  rw [computeLwm, int32_eq (by omega) (by omega), Int.tdiv_eq_ediv_of_nonneg (by omega)]
  omega

/-- Each end takes the mark of its peer as the boost of its own. -/
theorem boosted_fits {p q : Pipe} {outhwm' : Int} (hboost : 0 ≤ p.outhwmboost)
    (hlt : outhwm + p.outhwmboost < 2 ^ 31 - 1) (hpeer : q.inhwmboost = outhwm)
    (hlimit : 0 < (p.setHwms inhwm outhwm).hwm) :
    0 < (q.setHwms p.outhwmboost outhwm').lwm ∧
      (q.setHwms p.outhwmboost outhwm').lwm ≤ (p.setHwms inhwm outhwm).hwm := by
  by_cases hnone : outhwm ≤ 0 ∨ p.outhwmboost = 0
  · simp [Pipe.setHwms, if_pos hnone] at hlimit
  have hpos : 0 < outhwm ∧ 0 < p.outhwmboost := by omega
  have hnone' : ¬ (p.outhwmboost ≤ 0 ∨ outhwm = 0) := by omega
  have hhwm : (p.setHwms inhwm outhwm).hwm = outhwm + p.outhwmboost := by
    simp only [Pipe.setHwms, if_neg hnone, if_pos hpos.2]
    exact int32_eq (by omega) (by omega)
  have hlwm : (q.setHwms p.outhwmboost outhwm').lwm = computeLwm (outhwm + p.outhwmboost) := by
    have hsum : int32 (p.outhwmboost + outhwm) = outhwm + p.outhwmboost := by
      rw [int32_eq (by omega) (by omega)]
      omega
    simp only [Pipe.setHwms, hpeer, if_neg hnone', if_pos hpos.1, hsum]
  rw [hhwm, hlwm]
  exact computeLwm_bounds (by omega) (by omega)

/-- Marks that come from options, which are not negative, fit each other after their sums
have been taken. -/
theorem fits_connectInprocSockets {conflate : Side → Bool} {bind connect : Options}
    (hbind : 0 ≤ bind.rcvhwm) (hconnect : 0 ≤ connect.rcvhwm)
    (hsnd : connect.sndhwm + bind.rcvhwm < 2 ^ 31 - 1)
    (hrcv : connect.rcvhwm + bind.sndhwm < 2 ^ 31 - 1) (conflating : Bool) :
    Fits (connectInprocSockets (pipepair hwms conflate) bind connect conflating) := by
  intro i hlimit
  cases conflating with
  | true => cases i <;> simp [connectInprocSockets, Pipe.setHwms] at hlimit
  | false =>
    cases i with
    | first =>
      exact boosted_fits (p := ((pipepair hwms conflate).pipe .first).setHwmsBoost _ _)
        hbind hsnd rfl hlimit
    | second =>
      rw [Int.add_comm] at hrcv
      exact boosted_fits (p := ((pipepair hwms conflate).pipe .second).setHwmsBoost _ _)
        hconnect hrcv rfl hlimit

end Runs

theorem connected_marks_fit :
    Fits (connectInprocSockets (pipepair (fun _ => 1) fun _ => false) ⟨1, 2⟩ ⟨3, 4⟩ false) :=
  fits_connectInprocSockets (by decide) (by decide) (by decide) (by decide) false

end Uzmq.PipeWatermarks
