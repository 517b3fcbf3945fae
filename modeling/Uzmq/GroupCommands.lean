import Uzmq.Dishes
import Uzmq.PeerSessions

/-!
# Groups as commands

The messages by which a DISH socket joins and leaves groups cross the network as command
frames: `dish_session_t::pull_msg` makes a frame of such a message, and
`radio_session_t::push_msg` makes a message of the frame. Both ends then have the same groups.
The second function takes the length of a group from the frame, and a group that is too long
for a message fails an assertion.
-/

namespace Uzmq.GroupCommands

open List Message Dishes PeerSessions
open Distributors (Linked)

variable {Pipe : Type} [DecidableEq Pipe]

section Model

/-- The bytes of `"\4JOIN"`. -/
def joinName : List UInt8 := [4, 74, 79, 73, 78]

/-- The bytes of `"\5LEAVE"`. -/
def leaveName : List UInt8 := [5, 76, 69, 65, 86, 69]

/-- What `dish_session_t::pull_msg` makes of a message from the pipe. -/
def dishPullMsg (m : Msg) : Msg :=
  match m.type with
  | .join => { flags := { command := true }, data := joinName ++ m.data.takeWhile (· ≠ 0) }
  | .leave => { flags := { command := true }, data := leaveName ++ m.data.takeWhile (· ≠ 0) }
  | _ => m

/-- The message that `radio_session_t::push_msg` passes on. There is none after a failed
assertion. The length of a group is an `int` in the code, and wraps for frames of `2 ^ 31` bytes
and more. -/
def joinOrLeave (m : Msg) : Option Msg :=
  if m.flags.command then
    if m.data.take 5 = joinName then (setGroup (m.data.drop 5)).map joinMsg
    else if m.data.take 6 = leaveName then (setGroup (m.data.drop 6)).map leaveMsg
    else some m
  else some m

def radioPushMsg (m : Msg) (room : Bool) : Option (Msg × Result) :=
  (joinOrLeave m).map fun m => (m, basePushMsg m room)

/-- The groups in `radio_t::subscriptions`, each with a pipe. -/
abbrev Groups (Pipe : Type) := List (List UInt8 × Pipe)

/-- One turn of the loop in `radio_t::xread_activated`. -/
def readMsg (groups : Groups Pipe) (pipe : Pipe) (m : Msg) : Groups Pipe :=
  match m.type with
  | .join => (m.data, pipe) :: groups
  | .leave => groups.erase (m.data, pipe)
  | _ => groups

/-- The messages in the pipe of a DISH socket cross the network one after the other. -/
def receive (pipe : Pipe) : Groups Pipe → List Msg → Option (Groups Pipe)
  | groups, [] => some groups
  | groups, m :: later =>
    match radioPushMsg (dishPullMsg m) true with
    | some (t, .ok) =>
      receive pipe (if t.flags.command then groups else readMsg groups pipe t) later
    | _ => none

/-- A call with a C string. The pipe always has room. -/
structure Call (pipe : Pipe) where
  join : Bool
  group : List UInt8
  ok : Nat → Pipe → Bool
  text : 0 ∉ group
  room : ∀ k, ok k pipe = true

variable {pipe : Pipe}

def Call.msg (c : Call pipe) : Msg := if c.join then joinMsg c.group else leaveMsg c.group

def Call.perform (c : Call pipe) (d : Dish Pipe) : Option (Sent Pipe) :=
  if c.join then d.xjoin c.group c.ok else d.xleave c.group c.ok

/-- The socket after some calls, and what they have written to the pipe. -/
def run : Dish Pipe → List (Call pipe) → Option (Dish Pipe × List Msg)
  | d, [] => some (d, [])
  | d, c :: later =>
    match c.perform d with
    | none => none
    | some sent =>
      (run sent.socket later).map fun r =>
        (r.1, if (pipe, true) ∈ sent.log then c.msg :: r.2 else r.2)

/-- A command with a group that is too long. -/
def Overlong (m : Msg) : Prop :=
  (m.data.take 5 = joinName ∧ groupMaxLength + 5 < m.size) ∨
    (m.data.take 6 = leaveName ∧ groupMaxLength + 6 < m.size)
  deriving Decidable

end Model

section Frames

theorem setGroup_isSome {group : List UInt8} :
    (setGroup group).isSome ↔ group.length ≤ groupMaxLength := by
  unfold setGroup
  split <;> simp <;> omega

omit [DecidableEq Pipe] in
/-- The second function undoes what the first one does. -/
theorem joinOrLeave_dishPullMsg {pipe : Pipe} (c : Call pipe)
    (hshort : c.group.length ≤ groupMaxLength) : joinOrLeave (dishPullMsg c.msg) = some c.msg := by
  have htake := (takeWhile_text c.group).mpr c.text
  have hset := setGroup_eq c.group hshort
  unfold Call.msg
  split <;> simp only [dishPullMsg, joinMsg, leaveMsg, htake] at hset ⊢ <;>
    simp [joinOrLeave, joinMsg, leaveMsg, joinName, leaveName, hset]

theorem pushed_iff (m : Msg) (room : Bool) (hm : m.flags.command = true) :
    (radioPushMsg m room).isSome ↔ ¬ Overlong m := by
  have hapart (hjoin : m.data.take 5 = joinName) : m.data.take 6 ≠ leaveName := by
    intro hleave
    have hfive := congrArg (take 5) hleave
    rw [take_take, min_eq_left (by decide), hjoin] at hfive
    cases hfive
  unfold radioPushMsg joinOrLeave Overlong Msg.size
  rw [if_pos hm, Option.isSome_map]
  split
  · rename_i hjoin
    simp [setGroup_isSome, hjoin, hapart hjoin]
  split
  · rename_i hjoin hleave
    simp [setGroup_isSome, hjoin, hleave]
  · simp [*]

end Frames

section Calls
variable {pipe : Pipe} {d : Dish Pipe} {groups : Groups Pipe}

/-- RADIO has an entry of the pipe for each group that DISH has joined. -/
def Agree (groups : Groups Pipe) (pipe : Pipe) (d : Dish Pipe) : Prop :=
  ∀ g, groups.count (g, pipe) = d.subscriptions.count g

/-- The groups change, and the message about it reaches the pipe. -/
structure Announced (c : Call pipe) (d : Dish Pipe) (sent : Sent Pipe) : Prop where
  short : c.group.length ≤ groupMaxLength
  log : (pipe, true) ∈ sent.log
  linked : Linked sent.socket.dist pipe
  agree : ∀ groups, Agree groups pipe d → Agree (readMsg groups pipe c.msg) pipe sent.socket

theorem Linked.announce (h : Linked d.dist pipe) (subscriptions : List (List UInt8)) {m : Msg}
    (hmore : m.flags.more = false) {ok : Nat → Pipe → Bool} (hok : ∀ k, ok k pipe = true) :
    ∃ sent, d.announce subscriptions m ok = some sent ∧ (pipe, true) ∈ sent.log ∧
      Linked sent.socket.dist pipe ∧ sent.socket.subscriptions = subscriptions := by
  obtain ⟨r, hr, -⟩ := h.ordered.serves.sendToAll m {} ok
  obtain ⟨hlinked, hlog⟩ := h.sendToAll hmore hok hr
  exact ⟨_, by rw [Dish.announce, hr]; rfl, hlog, hlinked, rfl⟩

theorem perform_cases (h : Linked d.dist pipe) (c : Call pipe) :
    c.perform d = some ⟨d, []⟩ ∨ ∃ sent, c.perform d = some sent ∧ Announced c d sent := by
  unfold Call.perform
  cases hjoin : c.join with
  | true =>
    simp only [if_true, Dish.xjoin]
    split
    · exact .inl rfl
    rename_i hcond
    rw [not_or, Nat.not_lt] at hcond
    obtain ⟨sent, hsent, hlog, hlinked, hgroups⟩ := Linked.announce h
      (d.subscriptions.orderedInsert (· ≤ ·) c.group) (m := joinMsg c.group) rfl c.room
    refine .inr ⟨sent, hsent, hcond.1, hlog, hlinked, ?_⟩
    intro groups hagree g
    rw [hgroups, (perm_orderedInsert _ _ _).count_eq]
    simp [Call.msg, hjoin, readMsg, joinMsg, count_cons, hagree g]
  | false =>
    simp only [Bool.false_eq_true, if_false, Dish.xleave]
    split
    · exact .inl rfl
    rename_i hcond
    rw [not_or, Nat.not_lt] at hcond
    obtain ⟨sent, hsent, hlog, hlinked, hgroups⟩ := Linked.announce h
      (d.subscriptions.erase c.group) (m := leaveMsg c.group) rfl c.room
    refine .inr ⟨sent, hsent, hcond.1, hlog, hlinked, ?_⟩
    intro groups hagree g
    rw [hgroups]
    simp [Call.msg, hjoin, readMsg, leaveMsg, count_erase, hagree g]

theorem receive_msg {c : Call pipe} {sent : Sent Pipe} (h : Announced c d sent) (later : List Msg) :
    receive pipe groups (c.msg :: later) = receive pipe (readMsg groups pipe c.msg) later := by
  have hflags : c.msg.flags = {} := by
    unfold Call.msg
    split <;> rfl
  simp [receive, radioPushMsg, joinOrLeave_dishPullMsg c h.short, hflags, basePushMsg]

theorem run_agrees (calls : List (Call pipe)) (h : Linked d.dist pipe)
    (hagree : Agree groups pipe d) : ∃ t written after, run d calls = some (t, written) ∧
      receive pipe groups written = some after ∧ Agree after pipe t := by
  induction calls generalizing d groups with
  | nil => exact ⟨d, [], groups, rfl, rfl, hagree⟩
  | cons c later ih =>
    rcases perform_cases h c with hsame | ⟨sent, hsent, hannounced⟩
    · obtain ⟨t, written, after, hrun, hreceive, hafter⟩ := ih h hagree
      exact ⟨t, written, after, by simp [run, hsame, hrun], hreceive, hafter⟩
    · obtain ⟨t, written, after, hrun, hreceive, hafter⟩ :=
        ih hannounced.linked (hannounced.agree groups hagree)
      refine ⟨t, c.msg :: written, after, ?_, ?_, hafter⟩
      · simp [run, hsent, hrun, hannounced.log]
      · rw [receive_msg hannounced, hreceive]

/-- Both ends have the same groups after every sequence of calls, and a command frame fails no
assertion unless its group is too long. -/
theorem groups_agree (h : Linked d.dist pipe) (hnone : d.subscriptions = [])
    (hnew : ∀ g, (g, pipe) ∉ groups) (calls : List (Call pipe)) (m : Msg)
    (hm : m.flags.command = true) (room : Bool) :
    (∃ t written after, run d calls = some (t, written) ∧
      receive pipe groups written = some after ∧
      ∀ g, (g, pipe) ∈ after ↔ g ∈ t.subscriptions) ∧
    ((radioPushMsg m room).isSome ↔ ¬ Overlong m) := by
  have hagree : Agree groups pipe d := by
    intro g
    rw [hnone, count_nil, count_eq_zero]
    exact hnew g
  obtain ⟨t, written, after, hrun, hreceive, hafter⟩ := run_agrees calls h hagree
  refine ⟨⟨t, written, after, hrun, hreceive, ?_⟩, pushed_iff m room hm⟩
  intro g
  rw [← count_pos_iff, hafter g, count_pos_iff]

def connected : Dish Nat := { dist := { pipes := ⟨[0], by decide⟩, active := 1, eligible := 1 } }

/-- Two groups are joined, and the first of them is left. -/
def joining : List (Call 0) :=
  [⟨true, [97], fun _ _ => true, by decide, fun _ => rfl⟩,
    ⟨true, [98], fun _ _ => true, by decide, fun _ => rfl⟩,
    ⟨false, [97], fun _ _ => true, by decide, fun _ => rfl⟩]

theorem joining_agrees :
    (∃ t written after, run connected joining = some (t, written) ∧
      receive 0 [] written = some after ∧ ∀ g, (g, 0) ∈ after ↔ g ∈ t.subscriptions) ∧
    ((radioPushMsg { flags := { command := true }, data := joinName ++ [97] } true).isSome ↔
      ¬ Overlong { flags := { command := true }, data := joinName ++ [97] }) :=
  groups_agree ⟨⟨by decide, by decide, by decide, fun _ => rfl⟩, rfl, by decide⟩ rfl (by simp)
    joining { flags := { command := true }, data := joinName ++ [97] } rfl true

/-- A peer joins a group with a name of 16 bytes. -/
theorem overlong_group :
    radioPushMsg { flags := { command := true }, data := joinName ++ List.replicate 16 65 } true =
      none := by
  decide

end Calls

end Uzmq.GroupCommands
