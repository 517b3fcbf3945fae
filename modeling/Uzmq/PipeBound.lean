import Uzmq.PipeWatermarks
import Uzmq.Window

/-!
# The bound of a high-water mark

An end with a fixed positive mark writes to its peer, without hiccups and reconnects.
The messages that it has completed and its peer has not read are the content of a
window, whose limit is the mark. The writer counts more than the reader, since
credentials and overwritten messages are not read, which only makes the window smaller.

The recordings say that an end has written a part to be continued and has neither written
the last one nor rolled back, and how many messages have been written by each end and
read from it.
-/

namespace Uzmq.PipeBound

open UPipe Option List
open Message Handshake Pipes PipeWatermarks Runs

section Model

structure Watched where
  system : System
  inMessage : Side → Bool := fun _ => false
  written : Side → Nat := fun _ => 0
  read : Side → Nat := fun _ => 0

/-- The last part of a message without the routing-id flag. -/
def counted (m : Msg) : Bool := !m.flags.more && !m.flags.routingId

/-- Which ends are within a message after a step. -/
def within (s : Watched) (input : Pipes.Input) (j : Side) : Bool :=
  match input with
  | .call i (.write m) =>
    if j = i ∧ ((s.system.view i).write m).2 = true then m.flags.more else s.inMessage j
  | .call i .rollback => if j = i then false else s.inMessage j
  | _ => s.inMessage j

/-- The number of messages that end with a part. -/
def tick : Option Msg → Nat
  | none => 0
  | some m => if counted m then 1 else 0

/-- How many messages a step writes at end `j`. -/
def puts (s : Watched) (input : Pipes.Input) (j : Side) : Nat :=
  match input with
  | .call i (.write m) =>
    if j = i ∧ ((s.system.view i).write m).2 = true then tick (some m) else 0
  | _ => 0

/-- How many messages from end `j` are read in a step. -/
def takes (s : Watched) (input : Pipes.Input) (j : Side) : Nat :=
  match input with
  | .call i .read => if j = i.peer then tick (s.system.view i).read.2 else 0
  | _ => 0

/-- The system `u` with what has been recorded after the input. -/
def record (s : Watched) (input : Pipes.Input) (u : System) : Watched where
  system := u
  inMessage := within s input
  written := fun j => s.written j + puts s input j
  read := fun j => s.read j + takes s input j

def step (s : Watched) (input : Pipes.Input) : Option Watched :=
  (Pipes.step s.system input).map (record s input)

/-- The pair is used and neither closed nor reconfigured. -/
def Guard (_ : Watched) : Pipes.Input → Prop
  | .call _ (.terminate _) => False
  | .call _ .hiccup => False
  | .call _ (.setHwms _ _) => False
  | .call _ (.sendHwmsToPeer _ _) => False
  | _ => True

instance (s : Watched) (input : Pipes.Input) : Decidable (Guard s input) := by
  unfold Guard
  split <;> infer_instance

/-- End `i` has the mark `h`, which is a positive `int`. -/
def Initial (i : Side) (h : Int) (s : Watched) : Prop :=
  Start s.system ∧ (s.system.pipe i).hwm = h ∧ 0 < h ∧ h < 2 ^ 31 ∧
    s.inMessage i = false ∧ s.written i = 0 ∧ s.read i = 0

/-- How many messages are complete and have not been read. -/
def unread : Option UPipe → Nat
  | none => 0
  | some q => q.complete.countP counted

/-- The direction from end `i` to its peer. -/
def window (s : System) (i : Side) : Window where
  limit := (s.pipe i).hwm.toNat
  written := (s.pipe i).msgsWritten
  read := (s.pipe i.peer).msgsRead
  known := (s.pipe i).peersMsgsRead
  announced := reports (s.mailbox i)
  unread := unread (s.queue i.peer 0)

end Model

variable {m : Msg}

section Ends

def plainCommand : Command → Prop
  | .activateRead => True
  | .activateWrite _ => True
  | _ => False

/-- An end that is not closing, while it executes a method. -/
structure Open (l : Local) : Prop where
  failed : l.failed = false
  deleted : l.pipe.deleted = false
  state : l.pipe.state = .active ∨ l.pipe.state = .delimiterReceived
  inpipe : l.pipe.inpipe = 0
  outpipe : l.pipe.outpipe = some 0
  inbound : (l.inbound 0).isSome
  outbound : (l.outbound 0).isSome
  sent : ∀ c ∈ l.sent, plainCommand c

def outWindow (l : Local) (x : Window) : Window :=
  { x with
    limit := l.pipe.hwm.toNat
    written := l.pipe.msgsWritten
    known := l.pipe.peersMsgsRead
    unread := unread (l.outbound 0) }

def inWindow (l : Local) (x : Window) : Window :=
  { x with
    read := l.pipe.msgsRead
    announced := x.announced ++ reports l.sent
    unread := unread (l.inbound 0) }

def Going (l : Local) : Prop := l.pipe.outActive = true ∧ l.pipe.checkHwm = true

/-- `p` messages are written and `n` are read. -/
structure Flow (p n : Nat) (l l' : Local) : Prop where
  isOpen : Open l'
  hwm : l'.pipe.hwm = l.pipe.hwm
  state : l'.pipe.state = .active → l.pipe.state = .active
  outWindow : 0 < l.pipe.hwm → ∀ x, Window.Moves p 0 (outWindow l x) (outWindow l' x)
  inWindow : ∀ x, Window.Moves 0 n (inWindow l x) (inWindow l' x)

/-- Everything but the write of the last part of a message leaves the writer going. -/
structure Turn (n : Nat) (l l' : Local) : Prop extends Flow 0 n l l' where
  going : Going l → Going l'

variable {l l' l'' : Local}

theorem Turn.refl (hl : Open l) : Turn 0 l l :=
  ⟨⟨hl, rfl, id, fun _ _ => .refl _, fun _ => .refl _⟩, id⟩

theorem Turn.trans {n m : Nat} (h : Turn n l l') (h' : Turn m l' l'') : Turn (n + m) l l'' :=
  ⟨⟨h'.isOpen, h'.hwm.trans h.hwm, fun hs => h.state (h'.state hs),
    fun hpos x => (h.outWindow hpos x).trans (h'.outWindow (h.hwm ▸ hpos) x),
    fun x => (h.inWindow x).trans (h'.inWindow x)⟩, fun hg => h'.going (h.going hg)⟩

theorem turn_inActive (hl : Open l) (b : Bool) :
    Turn 0 l (l.modify fun p => { p with inActive := b }) := by
  refine ⟨⟨?_, rfl, id, fun _ _ => .refl _, fun _ => .refl _⟩, id⟩
  exact { hl with }

variable {q r rest : UPipe}

section
variable (hl : Open l)
include hl

theorem turn_setIn (hq : l.inbound 0 = some q)
    (hle : r.complete.countP counted ≤ q.complete.countP counted) :
    Turn 0 l (l.setIn (some r)) := by
  have hin : (l.setIn (some r)).inbound 0 = some r := by simp [Local.setIn, hl.inpipe]
  refine ⟨⟨?_, rfl, id, fun _ _ => .refl _, ?_⟩, id⟩
  · exact { hl with inbound := by simp [hin] }
  intro x
  have hlose : r.complete.countP counted ≤ (inWindow l x).unread := by
    simpa [inWindow, hq, unread] using hle
  have heq : inWindow (l.setIn (some r)) x =
      { inWindow l x with unread := r.complete.countP counted } := by
    simp only [inWindow, hin, unread]
    rfl
  rw [heq]
  exact Window.moves_lose hlose

theorem turn_setOut (hq : l.outbound 0 = some q)
    (hle : r.complete.countP counted ≤ q.complete.countP counted) :
    Turn 0 l (l.setOut 0 (some r)) := by
  have hout : (l.setOut 0 (some r)).outbound 0 = some r := by simp [Local.setOut]
  refine ⟨⟨?_, rfl, id, ?_, fun _ => .refl _⟩, id⟩
  · exact { hl with outbound := by simp [hout] }
  intro _ x
  have hlose : r.complete.countP counted ≤ (outWindow l x).unread := by
    simpa [outWindow, hq, unread] using hle
  exact Window.moves_lose hlose

theorem turn_processDelimiter (hstate : l.pipe.state = .active) : Turn 0 l l.processDelimiter := by
  have heq : l.processDelimiter = l.modify fun p => { p with state := .delimiterReceived } := by
    simp [Local.processDelimiter, hstate]
  rw [heq]
  refine ⟨⟨?_, rfl, ?_, fun _ _ => .refl _, fun _ => .refl _⟩, id⟩
  · exact { hl with state := .inr rfl }
  · rintro ⟨⟩

theorem mayRead_active (h : l.mayRead = true) : l.pipe.state = .active := by
  rcases hl.state with hstate | hstate
  · exact hstate
  · simp [Local.mayRead, hstate] at h

theorem turn_consume {gone : List Msg} (hq : l.inbound l.pipe.inpipe = some q)
    (hgone : Consumes q gone rest) : Turn 0 l (l.setIn (some rest)) := by
  rw [hl.inpipe] at hq
  refine turn_setIn hl hq ?_
  rw [hgone.complete, countP_append]
  exact Nat.le_add_left _ _

theorem turn_checkRead : Turn 0 l l.checkRead.1 := by
  have hchecked := checkRead_checked l
  generalize l.checkRead = r at hchecked ⊢
  cases hchecked with
  | refused => exact Turn.refl hl
  | lost hlost => simpa [← hl.inpipe, hlost] using hl.inbound
  | empty => exact turn_inActive hl false
  | ready => exact Turn.refl hl
  | delimiter hmay hq hgone =>
    have hactive := mayRead_active hl hmay
    have hset := turn_consume hl hq hgone
    exact hset.trans (turn_processDelimiter hset.isOpen hactive)

/-- The count of the reader goes up by one, and the message is gone. -/
theorem turn_countRead {before : List Msg} (hq : l.inbound 0 = some q)
    (hgone : Consumes q (before ++ [m]) rest) :
    Turn (tick (some m)) l ((l.setIn (some rest)).countRead m) := by
  have hcount : q.complete.countP counted =
      before.countP counted + (rest.complete.countP counted + if counted m then 1 else 0) := by
    rw [hgone.complete, append_assoc, countP_append, singleton_append, countP_cons]
  have hset := turn_setIn (r := rest) hl hq (by omega)
  unfold Local.countRead
  split
  · rename_i hm
    have hm' : counted m = true := hm
    have htick : tick (some m) = 1 := if_pos hm'
    rw [htick]
    have hin : (l.setIn (some rest)).inbound 0 = some rest := by simp [Local.setIn, hl.inpipe]
    have hopen := hset.isOpen
    refine ⟨⟨?_, rfl, id, fun _ _ => .refl _, ?_⟩, id⟩
    · exact { hopen with }
    intro x
    have htake : rest.complete.countP counted + 1 ≤ (inWindow l x).unread := by
      simp only [inWindow, hq, unread, hcount, hm', if_true]
      omega
    have heq : inWindow ((l.setIn (some rest)).modify fun p =>
          { p with msgsRead := (p.msgsRead + 1) % 2 ^ 64 }) x =
        { inWindow l x with
          read := ((inWindow l x).read + 1) % 2 ^ 64
          unread := rest.complete.countP counted } := by
      simp only [inWindow, Local.modify, hin, unread]
      rfl
    rw [heq]
    exact Window.moves_take htake
  · rename_i hm
    have htick : tick (some m) = 0 := if_neg hm
    rw [htick]
    exact hset

theorem turn_reportRead : Turn 0 l l.reportRead := by
  unfold Local.reportRead
  split
  · refine ⟨⟨?_, rfl, id, fun _ _ => .refl _, ?_⟩, id⟩
    · refine { hl with sent := ?_ }
      exact forall_mem_append.mpr ⟨hl.sent, forall_mem_singleton.mpr trivial⟩
    intro x
    have heq : inWindow (l.send (.activateWrite l.pipe.msgsRead)) x =
        { inWindow l x with announced := (inWindow l x).announced ++ [(inWindow l x).read] } := by
      simp [inWindow, Local.send, reports, report]
    rw [heq]
    exact Window.moves_announce _
  · exact Turn.refl hl

theorem turn_read : Turn (tick l.read.2) l l.read.1 := by
  have hfetched := read_fetched l
  generalize l.read = r at hfetched ⊢
  cases hfetched with
  | refused => exact Turn.refl hl
  | lost hlost => simpa [← hl.inpipe, hlost] using hl.inbound
  | empty hq hgone =>
    have hset := turn_consume hl hq hgone
    exact hset.trans (turn_inActive hset.isOpen false)
  | delimiter hmay hq hgone =>
    have hactive := mayRead_active hl hmay
    have hset := turn_consume hl hq hgone
    exact hset.trans (turn_processDelimiter hset.isOpen hactive)
  | part _ hq hgone =>
    rw [hl.inpipe] at hq
    have hcount := turn_countRead hl hq hgone
    exact hcount.trans (turn_reportRead hcount.isOpen)

theorem turn_rollback : Turn 0 l l.rollback := by
  obtain ⟨q, hq⟩ := isSome_iff_exists.mp hl.outbound
  obtain ⟨hreadable, hunflushed, -⟩ := unwriteAll_frame (q.unfinished.length + 1) q
  unfold Local.rollback
  simp only [hl.outpipe, hq, unwriteAll_ok, if_true]
  apply turn_setOut hl hq
  rw [complete, complete, hreadable, hunflushed]

theorem turn_flush : Turn 0 l l.flush := by
  obtain ⟨q, hq⟩ := isSome_iff_exists.mp hl.outbound
  have hactive : ¬ l.pipe.state = .termAckSent := by
    rcases hl.state with hstate | hstate <;> rw [hstate] <;> decide
  unfold Local.flush
  simp only [if_neg hactive, hl.outpipe, hq]
  have hset := turn_setOut (r := q.flush) hl hq (Nat.le_of_eq (by rw [q.complete_flush.1]))
  have hopen := hset.isOpen
  refine hset.trans (m := 0) ⟨⟨?_, rfl, id, fun _ _ => .refl _, ?_⟩, id⟩
  · refine { hopen with sent := ?_ }
    exact forall_mem_append.mpr ⟨hopen.sent, forall_mem_singleton.mpr trivial⟩
  intro x
  have heq : inWindow ((l.setOut 0 (some q.flush)).send .activateRead) x =
      inWindow (l.setOut 0 (some q.flush)) x := by
    simp [inWindow, Local.send, reports, report]
  rw [heq]
  exact .refl _

theorem turn_processActivateRead : Turn 0 l l.processActivateRead := by
  unfold Local.processActivateRead
  split
  · exact turn_inActive hl true
  · exact Turn.refl hl

theorem turn_blocked (hfull : l.pipe.checkHwm = false) :
    Turn 0 l (l.modify fun p => { p with outActive := false }) := by
  refine ⟨⟨?_, rfl, id, fun _ _ => .refl _, fun _ => .refl _⟩, ?_⟩
  · exact { hl with }
  · rintro ⟨-, hroom⟩
    cases hroom.symm.trans hfull

theorem turn_checkWrite : Turn 0 l l.checkWrite.1 := by
  unfold Local.checkWrite
  split
  · exact Turn.refl hl
  split
  · rename_i hfull
    exact turn_blocked hl (by simpa using hfull)
  · exact Turn.refl hl

theorem write_of_going (hstate : l.pipe.state = .active) (hgoing : Going l) (m : Msg) :
    (l.write m).2 = true := by
  have hwrote := write_wrote l m
  generalize l.write m = r at hwrote ⊢
  cases hwrote with
  | refused hclosed => cases hgoing.1.symm.trans (hclosed hstate)
  | full hfull => cases hgoing.2.symm.trans hfull
  | lost hlost => simpa [hlost 0 hl.outpipe] using hl.outbound
  | put => rfl

end

theorem countP_write_more (q : UPipe) (m : Msg) (hmore : true = true → m.flags.more = true) :
    (q.write m true hmore).complete.countP counted ≤ q.complete.countP counted := by
  cases q with
  | normal queue more => exact Nat.le_refl _
  | conflate front =>
    have hm : counted m = false := by simp [counted, hmore rfl]
    simp [write, complete, readable, unflushed, hm]

theorem countP_write_last (q : UPipe) (m : Msg) (hmore : false = true → m.flags.more = true) :
    (q.write m false hmore).complete.countP counted ≤
      q.complete.countP counted + if counted m then 1 else 0 := by
  cases q with
  | normal queue more =>
    have hzero : queue.unfinished.countP counted = 0 := by
      rw [countP_eq_zero]
      intro p hp
      simp [counted, more p hp]
    rw [complete_write_last rfl hmore, countP_append, countP_append, countP_singleton]
    change _ + (queue.unfinished.countP counted + _) ≤ _
    omega
  | conflate front =>
    change [m].countP counted ≤ _
    rw [countP_singleton]
    omega

theorem room_iff (hpos : 0 < l.pipe.hwm) (x : Window) :
    (outWindow l x).Room ↔ l.pipe.checkHwm = true := by
  simp [Pipe.checkHwm, hpos, Window.Room, outWindow]

theorem turn_write_more (hl : Open l) (hq : l.outbound 0 = some q) (hmore : m.flags.more = true) :
    Turn 0 l ((l.setOut 0 (some (q.write m m.flags.more fun h => h))).countWritten m) := by
  simp only [Local.countWritten, hmore, Bool.not_true, Bool.false_and, Bool.false_eq_true, if_false]
  exact turn_setOut hl hq (countP_write_more q m fun _ => hmore)

theorem flow_write_last (hl : Open l) (hq : l.outbound 0 = some q)
    (hroom : l.pipe.checkHwm = true) (hmore : m.flags.more = false) :
    Flow (tick (some m)) 0 l
      ((l.setOut 0 (some (q.write m m.flags.more fun h => h))).countWritten m) := by
  have hcount := countP_write_last q m (by simp)
  simp only [Local.countWritten, hmore, Bool.not_false, Bool.true_and]
  split
  · rename_i hrouting
    have hm : counted m = true := by simp [counted, hmore, hrouting]
    have htick : tick (some m) = 1 := if_pos hm
    rw [hm] at hcount
    rw [htick]
    refine ⟨?_, rfl, id, ?_, fun _ => .refl _⟩
    · exact { hl with outbound := by simp [Local.modify, Local.setOut] }
    intro hpos x
    have hput : (q.write m false (by simp)).complete.countP counted ≤
        (outWindow l x).unread + 1 := by
      simpa [outWindow, hq, unread] using hcount
    have hstep := Window.moves_put ((room_iff hpos x).mpr hroom) hput
    exact hstep
  · rename_i hrouting
    have hm : counted m = false := by simpa [counted, hmore] using hrouting
    have htick : tick (some m) = 0 := by simp [tick, hm]
    rw [hm] at hcount
    rw [htick]
    exact (turn_setOut hl hq hcount).toFlow

end Ends

section Systems
variable {s t : Watched} {i j : Side} {h : Int} {l : Local} {rest : List Command}

structure Inv (i : Side) (h : Int) (s : Watched) : Prop where
  failed : s.system.failed = false
  isOpen : ∀ j, Open (s.system.view j)
  mailbox : ∀ j, ∀ c ∈ s.system.mailbox j, plainCommand c
  hwm : (s.system.pipe i).hwm = h
  positive : 0 < h
  int : h < 2 ^ 31
  tally : ∃ known announced, (window s.system i).Tally (s.written i) (s.read i) known announced
  going : s.inMessage i = true → (s.system.pipe i).state = .active → Going (s.system.view i)

theorem window_writer {s t : System} (hc : Committed s j rest l t) :
    window t j = outWindow l { window s j with announced := reports rest } := by
  simp only [window, outWindow, hc.pipe, hc.peer, hc.outbound, hc.taken]

theorem window_reader {s t : System} (hc : Committed s j rest l t) :
    window t j.peer = inWindow l (window s j.peer) := by
  simp only [window, inWindow, hc.pipe, hc.peer, hc.inbound, hc.sent, Side.peer_peer, reports,
    filterMap_append]

theorem inWindow_view (s : System) (j : Side) :
    inWindow (s.view j) (window s j.peer) = window s j.peer := by
  simp [inWindow, window, System.view, reports]

/-- The window after an end has done something, with or without a command that is no
announcement. -/
theorem tally_committed {s t : System} {p n written read known : Nat} {announced : List Nat}
    (htally : (window s i).Tally written read known announced) (hpos : 0 < (s.pipe i).hwm)
    (hint : (s.pipe i).hwm < 2 ^ 31) (hc : Committed s j rest l t) (hflow : Flow p n (s.view j) l)
    (hrest : reports rest = reports (s.mailbox j)) :
    ∃ announced', (window t i).Tally (written + if i = j then p else 0)
      (read + if i = j.peer then n else 0) known announced' := by
  have hlimit : (window s i).limit < 2 ^ 64 := by
    change (s.pipe i).hwm.toNat < 2 ^ 64
    omega
  rcases Side.eq_or_eq_peer j i with rfl | rfl
  · rw [window_writer hc, hrest, if_pos rfl, if_neg (Side.ne_peer i)]
    exact (hflow.outWindow hpos (window s i)).2 hlimit htally
  · rw [window_reader hc, if_pos rfl, if_neg (Side.peer_ne j)]
    have hmoves := hflow.inWindow (window s j.peer)
    rw [inWindow_view] at hmoves
    exact hmoves.2 hlimit htally

theorem going_iff {s : System} (hpipe : s.pipe i = l.pipe) : Going (s.view i) ↔ Going l := by
  change (s.pipe i).outActive = true ∧ (s.pipe i).checkHwm = true ↔ _
  rw [hpipe]
  rfl

theorem going_peer (hs : Inv j.peer h s) (hc : Committed s.system j rest l t.system)
    (hin : s.inMessage j.peer = true) (hstate : (t.system.pipe j.peer).state = .active) :
    Going (t.system.view j.peer) := by
  rw [hc.peer] at hstate
  have hpipe : t.system.pipe j.peer = (s.system.view j.peer).pipe := hc.peer
  rw [going_iff hpipe]
  exact hs.going hin hstate

section
variable (hs : Inv i h s)
include hs

section
variable (hc : Committed s.system j rest l t.system)
include hc

/-- An end is left open and with its mark. -/
theorem inv_committed (hl : Open l)
    (hhwm : l.pipe.hwm = (s.system.view j).pipe.hwm) (hplain : ∀ c ∈ rest, plainCommand c)
    (htally : ∃ known announced, (window t.system i).Tally (t.written i) (t.read i) known announced)
    (hgoing : t.inMessage i = true → (t.system.pipe i).state = .active → Going (t.system.view i)) :
    Inv i h t := by
  constructor
  case failed =>
    rw [hc.failed, hs.failed, hl.failed]
    rfl
  case isOpen =>
    refine hc.forall_view { hl with failed := rfl, sent := nofun } ?_
    exact { hs.isOpen j.peer with inbound := hl.outbound, outbound := hl.inbound }
  case mailbox => exact hc.forall_mailbox (hs.mailbox j.peer) hplain hl.sent
  case hwm =>
    rcases Side.eq_or_eq_peer j i with rfl | rfl
    · rw [hc.pipe, hhwm]
      exact hs.hwm
    · rw [hc.peer]
      exact hs.hwm
  case positive => exact hs.positive
  case int => exact hs.int
  case tally => exact htally
  case going => exact hgoing

theorem inv_flow {p n : Nat} (hflow : Flow p n (s.system.view j) l)
    (hrest : reports rest = reports (s.system.mailbox j)) (hplain : ∀ c ∈ rest, plainCommand c)
    (hwritten : t.written i = s.written i + if i = j then p else 0)
    (hread : t.read i = s.read i + if i = j.peer then n else 0)
    (hgoing : t.inMessage i = true → (t.system.pipe i).state = .active → Going (t.system.view i)) :
    Inv i h t := by
  refine inv_committed hs hc hflow.isOpen hflow.hwm hplain ?_ hgoing
  obtain ⟨known, announced, htally⟩ := hs.tally
  rw [hwritten, hread]
  exact ⟨known, tally_committed htally (hs.hwm ▸ hs.positive) (hs.hwm ▸ hs.int) hc hflow hrest⟩

theorem inv_turn {n : Nat}
    (hturn : Turn n (s.system.view j) l) (hrest : reports rest = reports (s.system.mailbox j))
    (hplain : ∀ c ∈ rest, plainCommand c) (hwritten : t.written i = s.written i)
    (hread : t.read i = s.read i + if i = j.peer then n else 0)
    (hwithin : t.inMessage i = true → s.inMessage i = true ∨ i = j ∧ Going (s.system.view j)) :
    Inv i h t := by
  refine inv_flow hs hc hturn.toFlow hrest hplain (by simpa using hwritten) hread ?_
  intro hin hstate
  rcases Side.eq_or_eq_peer j i with rfl | rfl
  · rw [going_iff hc.pipe]
    apply hturn.going
    rcases hwithin hin with hin | ⟨-, hgoing⟩
    · rw [hc.pipe] at hstate
      exact hs.going hin (hturn.state hstate)
    · exact hgoing
  · rcases hwithin hin with hin | ⟨hpeer, -⟩
    · exact going_peer hs hc hin hstate
    · exact absurd hpeer (Side.peer_ne j)

end

theorem inv_write {u : System}
    (hc : Committed s.system j (s.system.mailbox j) ((s.system.view j).write m).1 u) :
    Inv i h (record s (.call j (.write m)) u) := by
  have hview := hs.isOpen j
  have hwrote := write_wrote (s.system.view j) m
  rcases heq : (s.system.view j).write m with ⟨l, ok⟩
  rw [heq] at hwrote hc
  have hrefused : ok = false → Turn 0 (s.system.view j) l →
      Inv i h (record s (.call j (.write m)) u) := by
    rintro rfl hturn
    refine inv_turn (t := record s _ u) hs hc hturn rfl (hs.mailbox j) ?_ ?_ ?_
    · simp [record, puts, heq]
    · simp [record, takes]
    · intro hin
      left
      simpa [record, within, heq] using hin
  cases hwrote with
  | refused => exact hrefused rfl (Turn.refl hview)
  | full hfull => exact hrefused rfl (turn_blocked hview hfull)
  | lost hlost => simpa [hlost 0 hview.outpipe] using hview.outbound
  | put hactive hroom hout hp hq =>
    cases hview.outpipe.symm.trans hp
    cases hmore : m.flags.more with
    | true =>
      have htick : tick (some m) = 0 := by simp [tick, counted, hmore]
      refine inv_turn (t := record s _ u) hs hc (turn_write_more hview hq hmore) rfl
        (hs.mailbox j) ?_ ?_ ?_
      · simp [record, puts, htick]
      · simp [record, takes]
      intro hin
      by_cases hij : i = j
      · exact .inr ⟨hij, hout, hroom⟩
      · left
        simpa [record, within, hij] using hin
    | false =>
      refine inv_flow (t := record s _ u) hs hc (flow_write_last hview hq hroom hmore) rfl
        (hs.mailbox j) ?_ ?_ ?_
      · simp [record, puts, heq]
      · simp [record, takes]
      intro hin hstate
      rcases Side.eq_or_eq_peer j i with rfl | rfl
      · simp [record, within, heq, hmore] at hin
      · have hin' : s.inMessage j.peer = true := by simpa [record, within] using hin
        exact going_peer (t := record s (.call j (.write m)) u) hs hc hin' hstate

/-- An announcement tells the writer more, and wakes it up. -/
theorem inv_activateWrite {msgsRead : Nat}
    (hmail : s.system.mailbox j = .activateWrite msgsRead :: rest)
    (hc : Committed s.system j rest ((s.system.view j).processActivateWrite msgsRead) t.system)
    (hwithin : t.inMessage i = s.inMessage i) (hwritten : t.written i = s.written i)
    (hread : t.read i = s.read i) : Inv i h t := by
  obtain ⟨b, hb, heq⟩ : ∃ b, ((s.system.view j).pipe.outActive = true → b = true) ∧
      (s.system.view j).processActivateWrite msgsRead =
        (s.system.view j).modify fun p => { p with peersMsgsRead := msgsRead, outActive := b } := by
    unfold Local.processActivateWrite
    dsimp only
    split
    · exact ⟨true, fun _ => rfl, rfl⟩
    · exact ⟨(s.system.view j).pipe.outActive, id, rfl⟩
  rw [heq] at hc
  have hview := hs.isOpen j
  have hplain := hs.mailbox j
  rw [hmail] at hplain
  have hopen : Open ((s.system.view j).modify fun p =>
      { p with peersMsgsRead := msgsRead, outActive := b }) :=
    { hview with }
  have hreports : reports (s.system.mailbox j) = msgsRead :: reports rest := by
    simp [hmail, reports, report]
  obtain ⟨known, announced, htally⟩ := hs.tally
  refine inv_committed hs hc hopen rfl (forall_mem_cons.mp hplain).2 ?_ ?_
  · rw [hwritten, hread]
    rcases Side.eq_or_eq_peer j i with rfl | rfl
    · rw [window_writer hc]
      obtain ⟨known', announced', hheard, -⟩ := htally.hear hreports
      exact ⟨known', announced', hheard⟩
    rw [window_reader hc]
    change ∃ known announced, (inWindow (s.system.view j) (window s.system j.peer)).Tally _ _
      known announced
    rw [inWindow_view]
    exact ⟨known, announced, htally⟩
  · intro hin hstate
    rw [hwithin] at hin
    rcases Side.eq_or_eq_peer j i with rfl | rfl
    · rw [hc.pipe] at hstate
      obtain ⟨hactive, hroom⟩ := hs.going hin hstate
      rw [going_iff hc.pipe]
      refine ⟨hb hactive, ?_⟩
      have hpos : 0 < (s.system.view i).pipe.hwm := hs.hwm ▸ hs.positive
      have hlimit : (window s.system i).limit < 2 ^ 64 := by
        have hint := hs.int
        rw [← hs.hwm] at hint
        change (s.system.pipe i).hwm.toNat < 2 ^ 64
        omega
      -- What was room before is room after the announcement.
      have hbefore := (htally.room_iff hlimit).mp ((room_iff hpos (window s.system i)).mpr hroom)
      obtain ⟨known', announced', hheard, hle⟩ := htally.hear hreports
      have hafter : ((window s.system i).hear msgsRead (reports rest)).Room := by
        rw [hheard.room_iff hlimit]
        change s.written i < known' + (window s.system i).limit
        omega
      exact (room_iff (l := (s.system.view i).modify fun p =>
        { p with peersMsgsRead := msgsRead, outActive := b }) hpos
        { window s.system i with announced := reports rest }).mp hafter
    · exact going_peer hs hc hin hstate

theorem inv_call {c : Call} {u : System} (hguard : Guard s (.call j c))
    (hc : Committed s.system j (s.system.mailbox j) (perform (s.system.view j) c) u) :
    Inv i h (record s (.call j c) u) := by
  have hview := hs.isOpen j
  have hsame : ∀ l, Turn 0 (s.system.view j) l → perform (s.system.view j) c = l →
      puts s (.call j c) i = 0 → takes s (.call j c) i = 0 →
      (within s (.call j c) i = true → s.inMessage i = true) →
        Inv i h (record s (.call j c) u) := by
    intro l hturn heq hputs htakes hwithin
    rw [heq] at hc
    refine inv_turn (t := record s (.call j c) u) hs hc hturn rfl (hs.mailbox j) ?_ ?_
      fun hin => .inl (hwithin hin)
    · simp [record, hputs]
    · simp [record, htakes]
  cases c with
  | checkRead => exact hsame _ (turn_checkRead hview) rfl rfl rfl id
  | read =>
    refine inv_turn (t := record s (.call j .read) u) hs hc (turn_read hview) rfl (hs.mailbox j)
      ?_ ?_ .inl
    · simp [record, puts]
    · simp [record, takes]
  | checkWrite => exact hsame _ (turn_checkWrite hview) rfl rfl rfl id
  | write m => exact inv_write hs hc
  | rollback =>
    refine hsame _ (turn_rollback hview) rfl rfl rfl ?_
    simp only [within]
    split
    · rintro ⟨⟩
    · exact id
  | flush => exact hsame _ (turn_flush hview) rfl rfl rfl id
  | setNodelay =>
    refine hsame (s.system.view j).setNodelay
      ⟨⟨?_, rfl, id, fun _ _ => .refl _, fun _ => .refl _⟩, id⟩ rfl rfl rfl id
    exact { hview with }
  | terminate | hiccup | setHwms | sendHwmsToPeer => exact hguard.elim

theorem inv_step {input : Pipes.Input} (hguard : Guard s input) (hstep : step s input = some t) :
    Inv i h t := by
  obtain ⟨u, hu, rfl⟩ := map_eq_some_iff.mp hstep
  obtain ⟨-, hacts⟩ := step_acts hu
  cases hacts with
  | call _ hc => exact inv_call hs hguard hc
  | @deliver j c rest _ hmail hc =>
    have hplain := hs.mailbox j
    rw [hmail] at hplain
    have hplainc := hplain c mem_cons_self
    cases c with
    | activateRead =>
      refine inv_turn (t := record s (.deliver j) u) hs hc (turn_processActivateRead (hs.isOpen j))
        ?_ (fun c hmem => hplain c (mem_cons_of_mem _ hmem)) rfl ?_ .inl
      · rw [hmail]
        rfl
      · simp [record, takes]
    | activateWrite msgsRead => exact inv_activateWrite hs hmail hc rfl rfl rfl
    | hiccup | pipeTerm | pipeTermAck | pipeHwm => exact hplainc.elim
  | @late j hgone _ =>
    have halive : (s.system.pipe j).deleted = false := (hs.isOpen j).deleted
    rw [halive] at hgone
    cases hgone

end

theorem start_mailbox {s : System} (hs : Start s) (j : Side) : s.mailbox j = [] := by
  cases hs <;> rfl

theorem start_window {s : System} (hs : Start s) (i : Side) :
    window s i = ⟨(s.pipe i).hwm.toNat, 0, 0, 0, [], 0⟩ := by
  have hline := start_line hs i
  have hwritten : (s.pipe i).msgsWritten = 0 := congrArg Credit.Line.written hline
  have hread : (s.pipe i.peer).msgsRead = 0 := congrArg Credit.Line.read hline
  have hknown : (s.pipe i).peersMsgsRead = 0 := congrArg Credit.Line.known hline
  have hpending : pending (s.queue i.peer 0) = [] := congrArg Credit.Line.pending hline
  have hunread : unread (s.queue i.peer 0) = 0 := by
    cases hq : s.queue i.peer 0 with
    | none => rfl
    | some q =>
      rw [hq] at hpending
      have hnil : q.complete = [] := map_eq_nil_iff.mp hpending
      simp [unread, hnil]
  simp [window, hwritten, hread, hknown, hunread, start_mailbox hs, reports]

theorem initial_inv (hs : Initial i h s) : Inv i h s := by
  obtain ⟨hstart, hhwm, hpos, hint, hin, hwritten, hread⟩ := hs
  have hplain := start_plain hstart
  constructor
  case failed => exact hplain.failed
  case isOpen =>
    intro j
    have hready := hplain.ready j
    obtain ⟨q, hq, -⟩ := hready.inbound
    obtain ⟨p, hp, -⟩ := hready.outbound
    exact ⟨rfl, hready.deleted, .inl hready.state, hready.inpipe, hready.outpipe, by simp [hq],
      by simp [hp], by rintro c ⟨⟩⟩
  case mailbox =>
    intro j c hmem
    rw [start_mailbox hstart] at hmem
    cases hmem
  case hwm => exact hhwm
  case positive => exact hpos
  case int => exact hint
  case tally =>
    rw [start_window hstart, hhwm, hwritten, hread]
    exact ⟨0, [], rfl, rfl, rfl, rfl, by simp, Nat.le_refl _, by simp⟩
  case going =>
    intro hopen
    rw [hin] at hopen
    cases hopen

theorem inv_of_reach (hreach : Reach (Initial i h) Guard step s) : Inv i h s := by
  apply hreach.invariant (fun s => initial_inv)
  intro s input t hs hguard hstep
  exact inv_step hs hguard hstep

/-- Of the messages that end `i` has completed, at most `h` have not been read, and no more
are in the queue. Once it has written the first part of a message, every further part is
accepted while it is active. -/
theorem unread_le_hwm (hreach : Reach (Initial i h) Guard step s) :
    (s.written i : Int) ≤ s.read i + h ∧ (unread (s.system.queue i.peer 0) : Int) ≤ h ∧
      (s.inMessage i = true → (s.system.pipe i).state = .active →
        ∀ m, ((s.system.view i).write m).2 = true) := by
  have hinv := inv_of_reach hreach
  obtain ⟨known, announced, htally⟩ := hinv.tally
  obtain ⟨hwritten, hunread⟩ := htally.bounded
  have hpos := hinv.positive
  simp only [window, hinv.hwm] at hwritten hunread
  refine ⟨by omega, by omega, ?_⟩
  intro hin hstate m
  exact write_of_going (hinv.isOpen i) hstate (hinv.going hin hstate) m

/-- Two messages are written, a third one is refused, the first is read, and a third one is
begun. -/
def fillingRun : List Pipes.Input :=
  [.call .first (.write {}), .call .first (.write {}), .call .first .flush,
    .call .first (.write {}), .call .second .read, .deliver .first,
    .call .first (.write { flags := { more := true } })]

theorem fillingRun_bounded :
    ∃ s, Reach (Initial .first 2) Guard step s ∧ s.written .first = 2 ∧ s.read .first = 1 ∧
      (s.written .first : Int) ≤ s.read .first + 2 ∧
      s.inMessage .first = true ∧ ∀ m, ((s.system.view .first).write m).2 = true := by
  have hrun : ∃ s, Reach (Initial .first 2) Guard step s ∧ s.written .first = 2 ∧
      s.read .first = 1 ∧ s.inMessage .first = true ∧ (s.system.pipe .first).state = .active := by
    refine Reach.of_exec (s := { system := pipepair (fun _ => 2) fun _ => false }) Guard step
      fillingRun ?_ ⟨.pipepair _ _, rfl, by decide, by decide, rfl, rfl, rfl⟩
    decide +kernel
  obtain ⟨s, hreach, hwritten, hread, hin, hstate⟩ := hrun
  have hbound := unread_le_hwm hreach
  exact ⟨s, hreach, hwritten, hread, hbound.1, hin, hbound.2.2 hin hstate⟩

end Systems

end Uzmq.PipeBound
