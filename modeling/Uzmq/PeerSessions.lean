import Uzmq.Dishes

/-!
# Sessions that look into the frames they pass on

`req_session_t` and `dish_session_t` parse the frames an engine pushes to them. The pipe answers
every write with yes or no, and after `EAGAIN` the engine pushes the same frame again: a frame
stands here with the number of times it is refused. `udp_engine_t` makes two frames of a datagram
and pushes both at once. `none` is a failed assertion.
-/

namespace Uzmq.PeerSessions

open List Message
open Dishes (groupMaxLength)

/-- What `push_msg` returns: zero, or minus one with an `errno`. -/
inductive Result where
  | ok
  | eagain
  | efault
  deriving DecidableEq, Repr

/-- `session_base_t::push_msg`, with the answer of the pipe. -/
def basePushMsg (m : Msg) (room : Bool) : Result :=
  if m.flags.command then .ok else if room then .ok else .eagain

section Req

inductive ReqState where
  | requestId
  | body
  | bottom
  deriving DecidableEq, Repr

def moreOnly : Flags := { more := true }

/-- The cases of `req_session_t::push_msg` in which the frame is passed on, with the new state. -/
def advance : ReqState → Msg → Option ReqState
  | .bottom, m =>
    if m.flags = moreOnly then
      if m.size = 4 then some .requestId else if m.size = 0 then some .body else none
    else none
  | .requestId, m => if m.flags = moreOnly ∧ m.size = 0 then some .body else none
  | .body, m =>
    if m.flags = moreOnly then some .body else if m.flags = {} then some .bottom else none

/-- The state is set before the frame is passed on. -/
def reqPushMsg (s : ReqState) (m : Msg) (room : Bool) : ReqState × Result :=
  match advance s m with
  | some t => (t, basePushMsg m room)
  | none => (s, .efault)

/-- A frame is pushed until it is not refused any more. -/
def offer : Nat → ReqState → Msg → ReqState × Result
  | 0, s, m => reqPushMsg s m true
  | refusals + 1, s, m =>
    match reqPushMsg s m false with
    | (t, .eagain) => offer refusals t m
    | r => r

/-- The frames that are accepted, and whether the next one is a protocol error, after which the
engine is given up. -/
def receive : ReqState → List (Msg × Nat) → List Msg × Bool
  | _, [] => ([], false)
  | s, (m, refusals) :: later =>
    match offer refusals s m with
    | (t, .ok) => (m :: (receive t later).1, (receive t later).2)
    | _ => ([], true)

def unrefused (frames : List (Msg × Nat)) : List (Msg × Nat) := frames.map fun f => (f.1, 0)

/-- Body frames and the last frame. -/
def Bodies (frames : List Msg) : Prop :=
  ∃ (bodies : List Msg) (last : Msg), frames = bodies ++ [last] ∧
    (∀ m ∈ bodies, m.flags = moreOnly) ∧ last.flags = {}

def Enveloped (frames : List Msg) : Prop :=
  ∃ empty rest, frames = empty :: rest ∧ empty.flags = moreOnly ∧ empty.size = 0 ∧ Bodies rest

def Reply (frames : List Msg) : Prop :=
  Enveloped frames ∨
    ∃ id rest, frames = id :: rest ∧ id.flags = moreOnly ∧ id.size = 4 ∧ Enveloped rest

/-- Whole replies, the last one perhaps unfinished. -/
def Replies (frames : List Msg) : Prop :=
  ∃ (missing : List Msg) (replies : List (List Msg)), frames ++ missing = replies.flatten ∧
    ∀ f ∈ replies, Reply f

/-- Frames after which the state does not take the same frame again: a request id, and the last
frame of a reply. -/
def Fragile : ReqState → Msg → Prop
  | .bottom, m => m.flags = moreOnly ∧ m.size = 4
  | .requestId, _ => False
  | .body, m => m.flags = {}

/-- No such frame is refused. -/
def Harmless : ReqState → List (Msg × Nat) → Prop
  | _, [] => True
  | s, (m, refusals) :: later =>
    (refusals = 0 ∨ ¬ Fragile s m) ∧ ∀ t, advance s m = some t → Harmless t later

variable {s t : ReqState} {m : Msg} {refusals : Nat}

theorem push_of_advance (h : advance s m = some t) (room : Bool) :
    reqPushMsg s m room = (t, if room then .ok else .eagain) := by
  have hcommand : m.flags.command = false := by
    revert h
    cases s <;> simp only [advance] <;> split_ifs <;> simp_all [moreOnly]
  simp [reqPushMsg, h, basePushMsg, hcommand]

theorem offer_of_none (h : advance s m = none) : (offer refusals s m).2 = .efault := by
  cases refusals <;> simp [offer, reqPushMsg, h]

theorem advance_of_fragile (h : Fragile s m) : ∃ t, advance s m = some t ∧ advance t m = none := by
  cases s with
  | bottom => exact ⟨.requestId, by simp [advance, h.1, h.2], by simp [advance, h.2]⟩
  | requestId => exact h.elim
  | body =>
    have hflags : m.flags = {} := h
    exact ⟨.bottom, by simp [advance, hflags, moreOnly], by simp [advance, hflags, moreOnly]⟩

theorem advance_again (h : advance s m = some t) (hfragile : ¬ Fragile s m) :
    advance t m = some t ∧ ¬ Fragile t m := by
  obtain ⟨rfl, hflags⟩ : t = .body ∧ m.flags = moreOnly := by
    revert h hfragile
    cases s <;> simp only [advance, Fragile] <;> split_ifs <;> simp_all
  exact ⟨by simp [advance, hflags], by simp [Fragile, hflags, moreOnly]⟩

theorem offer_of_advance (h : advance s m = some t) (hsafe : refusals = 0 ∨ ¬ Fragile s m) :
    offer refusals s m = (t, .ok) := by
  induction refusals generalizing s with
  | zero => simp [offer, push_of_advance h]
  | succ refusals ih =>
    obtain ⟨hagain, hnot⟩ := advance_again h (hsafe.resolve_left (Nat.succ_ne_zero _))
    simp only [offer, push_of_advance h]
    exact ih hagain (.inr hnot)

theorem offer_of_fragile (h : Fragile s m) (hpos : refusals ≠ 0) :
    (offer refusals s m).2 = .efault := by
  obtain ⟨t, ht, hnone⟩ := advance_of_fragile h
  obtain ⟨refusals, rfl⟩ := Nat.exists_eq_succ_of_ne_zero hpos
  simp [offer, push_of_advance ht, offer_of_none hnone]

open Classical in
theorem receive_cons (s : ReqState) (m : Msg) (refusals : Nat) (later : List (Msg × Nat)) :
    receive s ((m, refusals) :: later) = match advance s m with
      | none => ([], true)
      | some t => if refusals = 0 ∨ ¬ Fragile s m
        then (m :: (receive t later).1, (receive t later).2) else ([], true) := by
  have hfault (h : (offer refusals s m).2 = .efault) :
      receive s ((m, refusals) :: later) = ([], true) := by
    rw [receive]
    generalize offer refusals s m = r at h
    obtain ⟨t, rc⟩ := r
    cases h
    rfl
  cases ht : advance s m with
  | none => exact hfault (offer_of_none ht)
  | some t =>
    by_cases hsafe : refusals = 0 ∨ ¬ Fragile s m
    · simp only [receive, offer_of_advance ht hsafe, if_pos hsafe]
    · obtain ⟨hpos, hfragile⟩ := not_or.mp hsafe
      simp only [hfault (offer_of_fragile (not_not.mp hfragile) hpos), if_neg hsafe]

theorem receive_unrefused (s : ReqState) (input : List (Msg × Nat)) :
    receive s input = receive s (unrefused input) ↔ Harmless s input := by
  induction input generalizing s with
  | nil => simp [unrefused, Harmless]
  | cons f later ih =>
    obtain ⟨m, refusals⟩ := f
    rw [show unrefused ((m, refusals) :: later) = (m, 0) :: unrefused later from rfl,
      receive_cons, receive_cons, Harmless]
    cases ht : advance s m with
    | none =>
      have hsafe : ¬ Fragile s m := by
        intro h
        obtain ⟨t, hsome, -⟩ := advance_of_fragile h
        cases ht.symm.trans hsome
      simp [hsafe]
    | some t =>
      by_cases hsafe : refusals = 0 ∨ ¬ Fragile s m
      · simp [hsafe, ← ih t, Prod.ext_iff]
      · simp [hsafe]

/-- What may still come of the present reply. -/
def Remains : ReqState → List Msg → Prop
  | .bottom => Reply
  | .requestId => Enveloped
  | .body => Bodies

theorem exists_remains (s : ReqState) : ∃ frames, Remains s frames := by
  have hbodies : Bodies [{}] := ⟨[], {}, rfl, nofun, rfl⟩
  have henveloped : Enveloped [{ flags := moreOnly }, {}] := ⟨_, _, rfl, rfl, rfl, hbodies⟩
  cases s with
  | bottom => exact ⟨_, .inl henveloped⟩
  | requestId => exact ⟨_, henveloped⟩
  | body => exact ⟨_, hbodies⟩

theorem Remains.cons {frames : List Msg} (h : Remains t frames) (hstep : advance s m = some t) :
    Remains s (m :: frames) ∨ t = .bottom ∧ Remains s [m] := by
  cases s with
  | bottom =>
    simp only [advance] at hstep
    split_ifs at hstep with hflags hid hempty <;> cases hstep
    · exact .inl (.inr ⟨m, frames, rfl, hflags, hid, h⟩)
    · exact .inl (.inl ⟨m, frames, rfl, hflags, hempty, h⟩)
  | requestId =>
    obtain ⟨hempty, ⟨⟩⟩ := Option.ite_none_right_eq_some.mp hstep
    exact .inl ⟨m, frames, rfl, hempty.1, hempty.2, h⟩
  | body =>
    simp only [advance] at hstep
    split_ifs at hstep with hmore hlast <;> cases hstep
    · obtain ⟨bodies, last, rfl, hbodies, hflags⟩ := h
      exact .inl ⟨m :: bodies, last, rfl, forall_mem_cons.mpr ⟨hmore, hbodies⟩, hflags⟩
    · exact .inr ⟨rfl, [], m, rfl, nofun, hlast⟩

/-- The accepted frames complete the present reply and go on with whole ones, up to a rest. -/
theorem receive_remains (s : ReqState) (input : List (Msg × Nat)) :
    ∃ (missing first : List Msg) (replies : List (List Msg)),
      (receive s input).1 ++ missing = first ++ replies.flatten ∧ Remains s first ∧
        ∀ f ∈ replies, Reply f := by
  obtain ⟨rest, hrest⟩ := exists_remains s
  induction input generalizing s rest with
  | nil => exact ⟨rest, rest, [], by simp [receive], hrest, nofun⟩
  | cons f later ih =>
    rw [receive_cons]
    split
    · exact ⟨rest, rest, [], by simp, hrest, nofun⟩
    · rename_i t ht
      split
      · obtain ⟨rest', hrest'⟩ := exists_remains t
        obtain ⟨missing, first, replies, heq, hfirst, hreplies⟩ := ih t rest' hrest'
        rcases hfirst.cons ht with hcons | ⟨rfl, hlast⟩
        · exact ⟨missing, f.1 :: first, replies, by simp [heq], hcons, hreplies⟩
        · exact ⟨missing, [f.1], first :: replies, by simp [heq], hlast,
            forall_mem_cons.mpr ⟨hfirst, hreplies⟩⟩
      · exact ⟨rest, rest, [], by simp, hrest, nofun⟩

/-- Frames are accepted as if the pipe always had room exactly if it refuses no request id and no
last frame. -/
theorem req_retry_iff (input : List (Msg × Nat)) :
    receive .bottom input = receive .bottom (unrefused input) ∧ Replies (receive .bottom input).1 ↔
      Harmless .bottom input := by
  rw [← receive_unrefused, and_iff_left]
  obtain ⟨missing, first, replies, heq, hfirst, hreplies⟩ := receive_remains .bottom input
  exact ⟨missing, first :: replies, heq, forall_mem_cons.mpr ⟨hfirst, hreplies⟩⟩

/-- A request id that is refused once is a protocol error when it comes again. -/
theorem refused_request_id :
    receive .bottom [({ flags := moreOnly, data := [0, 0, 0, 1] }, 1)] = ([], true) ∧
      receive .bottom [({ flags := moreOnly, data := [0, 0, 0, 1] }, 0)] =
        ([{ flags := moreOnly, data := [0, 0, 0, 1] }], false) := by
  decide

end Req

section Dish

inductive DishState where
  | group
  | body
  deriving DecidableEq, Repr

/-- A message and its group. -/
structure Grouped where
  group : List UInt8
  msg : Msg
  deriving DecidableEq, Repr

/-- `msg_t::set_group` keeps a C string. -/
def setGroup (group : List UInt8) : Option (List UInt8) :=
  if groupMaxLength < group.length then none else some (group.takeWhile (· ≠ 0))

/-- There is no `groupMsg` after it was closed. `pipe` is what has been written. -/
structure DishSession where
  state : DishState := .group
  groupMsg : Option Msg := none
  pipe : List Grouped := []
  deriving DecidableEq, Repr

def dishPushMsg (s : DishSession) (m : Msg) (room : Bool) : Option (DishSession × Result) :=
  match s.state with
  | .group =>
    if m.flags.more = false ∨ groupMaxLength < m.size then some (s, .efault)
    else some ({ s with state := .body, groupMsg := some m }, .ok)
  | .body =>
    match s.groupMsg.bind fun g => setGroup g.data with
    | none => none
    | some group =>
      if m.flags.more then some ({ s with groupMsg := none }, .efault)
      else match basePushMsg m room with
        | .ok => some ({ state := .group, groupMsg := none, pipe := if m.flags.command then s.pipe
                           else s.pipe ++ [⟨group, m⟩] }, .ok)
        | r => some ({ s with groupMsg := none }, r)

def dishOffer : Nat → DishSession → Msg → Option (DishSession × Result)
  | 0, s, m => dishPushMsg s m true
  | refusals + 1, s, m =>
    match dishPushMsg s m false with
    | some (t, .eagain) => dishOffer refusals t m
    | r => r

/-- The two frames of a message. The second one is refused some times. -/
structure Pair where
  head : Msg
  body : Msg
  refusals : Nat
  more : head.flags.more = true
  short : head.size ≤ groupMaxLength
  text : 0 ∉ head.data
  last : body.flags.more = false

/-- There is no session after a failed assertion or a protocol error. -/
def dishReceive : DishSession → List Pair → Option DishSession
  | s, [] => some s
  | s, p :: later =>
    match dishPushMsg s p.head true with
    | some (t, .ok) =>
      match dishOffer p.refusals t p.body with
      | some (u, .ok) => dishReceive u later
      | _ => none
    | _ => none

variable {w : List Grouped} {g : Option Msg}

theorem setGroup_eq (group : List UInt8) (hshort : group.length ≤ groupMaxLength) :
    setGroup group = some (group.takeWhile (· ≠ 0)) := if_neg (Nat.not_lt.mpr hshort)

theorem takeWhile_text (group : List UInt8) : group.takeWhile (· ≠ 0) = group ↔ 0 ∉ group := by
  rw [takeWhile_eq_self_iff]
  simp only [ne_eq, decide_not, Bool.not_eq_eq_eq_not, Bool.not_true, decide_eq_false_iff_not]
  exact ⟨fun h hin => h 0 hin rfl, fun h x hx heq => h (heq ▸ hx)⟩

theorem dishPushMsg_head {m : Msg} (hmore : m.flags.more = true) (hshort : m.size ≤ groupMaxLength)
    (room : Bool) : dishPushMsg ⟨.group, g, w⟩ m room = some (⟨.body, some m, w⟩, .ok) := by
  simp [dishPushMsg, hmore, Nat.not_lt.mpr hshort]

theorem dishPushMsg_body {head m : Msg} (hshort : head.size ≤ groupMaxLength)
    (hlast : m.flags.more = false) (room : Bool) :
    dishPushMsg ⟨.body, some head, w⟩ m room =
      if m.flags.command then some (⟨.group, none, w⟩, .ok)
      else if room then
        some (⟨.group, none, w ++ [⟨head.data.takeWhile (· ≠ 0), m⟩]⟩, .ok)
      else some (⟨.body, none, w⟩, .eagain) := by
  have hset := setGroup_eq head.data hshort
  unfold dishPushMsg
  simp only [Option.bind_some, hset, hlast, basePushMsg, Bool.false_eq_true, if_false]
  cases m.flags.command <;> cases room <;> simp

/-- A refused body comes again when the group is gone. -/
theorem dishReceive_cons (p : Pair) (later : List Pair) :
    dishReceive ⟨.group, g, w⟩ (p :: later) =
      if p.body.flags.command then dishReceive ⟨.group, none, w⟩ later
      else if p.refusals = 0 then
        dishReceive ⟨.group, none, w ++ [⟨p.head.data, p.body⟩]⟩ later
      else none := by
  have htext := (takeWhile_text p.head.data).mpr p.text
  have hbody := dishPushMsg_body (w := w) p.short p.last
  simp only [dishReceive, dishPushMsg_head p.more p.short]
  cases hcommand : p.body.flags.command with
  | true => cases p.refusals <;> simp [dishOffer, hbody, hcommand]
  | false =>
    cases p.refusals with
    | zero => simp only [dishOffer, hbody, hcommand, htext, if_true, Bool.false_eq_true, if_false]
    | succ refusals =>
      cases refusals <;> simp only [dishOffer, hbody, hcommand, Bool.false_eq_true, if_false] <;>
        rfl

theorem length_dishReceive {pairs : List Pair} {t : DishSession}
    (h : dishReceive ⟨.group, g, w⟩ pairs = some t) :
    t.pipe.length ≤ w.length + pairs.length := by
  induction pairs generalizing g w with
  | nil =>
    cases h
    exact Nat.le_refl _
  | cons p later ih =>
    rw [dishReceive_cons] at h
    simp only [length_cons]
    split_ifs at h
    · have := ih h
      omega
    · have := ih h
      simp only [length_append, length_singleton] at this
      omega

theorem dishReceive_iff (pairs : List Pair) :
    (dishReceive ⟨.group, g, w⟩ pairs).map (·.pipe) =
        some (w ++ pairs.map fun p => ⟨p.head.data, p.body⟩) ↔
      ∀ p ∈ pairs, p.refusals = 0 ∧ p.body.flags.command = false := by
  induction pairs generalizing g w with
  | nil => simp [dishReceive]
  | cons p later ih =>
    rw [dishReceive_cons, forall_mem_cons]
    cases hcommand : p.body.flags.command with
    | true =>
      simp only [if_true, Bool.true_eq_false, and_false, false_and, iff_false]
      intro h
      obtain ⟨t, ht, hpipe⟩ := Option.map_eq_some_iff.mp h
      have hle := length_dishReceive ht
      simp only [hpipe, length_append, length_map, length_cons] at hle
      omega
    | false =>
      by_cases hrefusals : p.refusals = 0
      · have hlater := ih (g := none) (w := w ++ [⟨p.head.data, p.body⟩])
        rw [append_assoc] at hlater
        simpa only [hrefusals, Bool.false_eq_true, if_false, if_true, true_and, and_self,
          map_cons, singleton_append] using hlater
      · simp [hrefusals]

/-- One message for each pair is written exactly if no body frame is refused; a command would be
dropped by the session. -/
theorem dish_retry_iff (pairs : List Pair) :
    (dishReceive {} pairs).map (·.pipe) = some (pairs.map fun p => ⟨p.head.data, p.body⟩) ↔
      ∀ p ∈ pairs, p.refusals = 0 ∧ p.body.flags.command = false :=
  dishReceive_iff pairs

/-- A body that is refused once finds the group message closed. -/
theorem refused_body :
    dishReceive {} [⟨{ flags := moreOnly, data := [97] }, {}, 1, rfl, by decide, by decide, rfl⟩] =
      none := by
  decide

end Dish

section Udp

/-- What `recvfrom` gives. `stale` is the first byte of the buffer before. -/
structure Datagram where
  address : List UInt8
  port : UInt16
  bytes : List UInt8
  stale : UInt8 := 0

def decimal (n : Nat) : List UInt8 := (Nat.toDigits 10 n).map fun c => .ofNat c.toNat

def sockaddrToMsg (d : Datagram) : Msg where
  flags := moreOnly
  data := [46].intercalate (d.address.map fun b => decimal b.toNat) ++ 58 ::
    decimal d.port.toNat ++ [0]

/-- The two frames of a datagram; one that does not fit has none. -/
def Datagram.frames (d : Datagram) (rawSocket : Bool) : Option (Msg × Msg) :=
  if rawSocket then some (sockaddrToMsg d, { data := d.bytes })
  else
    let groupSize := (d.bytes.headD d.stale).toNat
    if (d.bytes.length : Int) - 1 < groupSize then none
    else some ({ flags := moreOnly, data := (d.bytes.drop 1).take groupSize },
      { data := d.bytes.drop (1 + groupSize) })

variable {σ μ : Type} (push : σ → Msg → Bool → Option (σ × Result))

def inEvent (frames : Option (Msg × Msg)) (s : σ) (room : Bool) : Option σ :=
  match frames with
  | none => some s
  | some (head, body) =>
    match push s head room with
    | some (t, .ok) =>
      match push t body room with
      | some (u, .ok) => some u
      | _ => none
    | some (t, .eagain) => some t
    | _ => none

/-- No assertion fails, and each datagram leads to one whole message or to nothing. -/
def Sound (rawSocket : Bool) (pipe : σ → List μ) (message : Msg × Msg → List μ) :
    σ → List (Datagram × Bool) → Prop
  | _, [] => True
  | s, (d, room) :: later => ∃ t, inEvent push (d.frames rawSocket) s room = some t ∧
      (pipe t = pipe s ∨ ∃ f, d.frames rawSocket = some f ∧ pipe t = pipe s ++ message f) ∧
      Sound rawSocket pipe message t later

def dgramPushMsg (pipe : List Msg) (m : Msg) (room : Bool) : Option (List Msg × Result) :=
  match basePushMsg m room with
  | .ok => some (if m.flags.command then pipe else pipe ++ [m], .ok)
  | r => some (pipe, r)

theorem dgram_sound (input : List (Datagram × Bool)) (pipe : List Msg) :
    Sound dgramPushMsg true id (fun f => [f.1, f.2]) pipe input := by
  induction input generalizing pipe with
  | nil => trivial
  | cons x later ih =>
    obtain ⟨d, room⟩ := x
    cases room with
    | false => exact ⟨pipe, rfl, .inl rfl, ih pipe⟩
    | true => exact ⟨_, rfl, .inr ⟨_, rfl, append_assoc ..⟩, ih _⟩

/-- The frames a DISH session takes. -/
def Fits (f : Msg × Msg) (room : Bool) : Prop :=
  room = true ∧ f.1.size ≤ groupMaxLength ∧ 0 ∉ f.1.data

theorem frames_shape {d : Datagram} {f : Msg × Msg} (h : d.frames false = some f) :
    f.1.flags = moreOnly ∧ f.2.flags = {} := by
  simp only [Datagram.frames, Bool.false_eq_true, if_false] at h
  split_ifs at h
  cases h
  exact ⟨rfl, rfl⟩

theorem dish_inEvent {f : Msg × Msg} (hhead : f.1.flags = moreOnly) (hbody : f.2.flags = {})
    (g : Option Msg) (w : List Grouped) (room : Bool) :
    inEvent dishPushMsg (some f) ⟨.group, g, w⟩ room =
      if f.1.size ≤ groupMaxLength ∧ room = true then
        some ⟨.group, none, w ++ [⟨f.1.data.takeWhile (· ≠ 0), f.2⟩]⟩
      else none := by
  by_cases hshort : f.1.size ≤ groupMaxLength
  · have hmore : f.1.flags.more = true := by rw [hhead]; rfl
    have hlast : f.2.flags.more = false := by rw [hbody]
    simp only [inEvent, dishPushMsg_head hmore hshort, dishPushMsg_body hshort hlast]
    cases room <;> simp [hbody, hshort]
  · simp [inEvent, dishPushMsg, hshort, Nat.lt_of_not_le hshort]

theorem dish_sound_iff (input : List (Datagram × Bool)) (g : Option Msg) (w : List Grouped) :
    Sound dishPushMsg false (·.pipe) (fun f => [⟨f.1.data, f.2⟩]) ⟨.group, g, w⟩ input ↔
      ∀ x ∈ input, ∀ f, x.1.frames false = some f → Fits f x.2 := by
  induction input generalizing g w with
  | nil => simp [Sound]
  | cons x later ih =>
    obtain ⟨d, room⟩ := x
    rw [forall_mem_cons]
    cases hframes : d.frames false with
    | none => simp [Sound, inEvent, hframes, ih]
    | some f =>
      obtain ⟨hhead, hbody⟩ := frames_shape hframes
      simp only [Sound, hframes, dish_inEvent hhead hbody, Option.some.injEq, forall_eq']
      by_cases hfits : f.1.size ≤ groupMaxLength ∧ room = true
      · have hpipe : w ++ [⟨f.1.data.takeWhile (· ≠ 0), f.2⟩] = w ++ [⟨f.1.data, f.2⟩] ↔
            Fits f room := by
          simp only [append_cancel_left_eq, cons.injEq, Grouped.mk.injEq, takeWhile_text,
            and_true, Fits, hfits, true_and]
        simp only [hfits, and_self, if_true, Option.some.injEq, exists_eq_left', hpipe, ih,
          append_right_eq_self, cons_ne_nil, false_or]
      · simp only [hfits, if_false, reduceCtorEq, false_and, exists_false, false_iff, not_and]
        exact fun h => absurd ⟨h.2.1, h.1⟩ hfits

/-- A DGRAM session takes every datagram. A DISH session does exactly if each one that has two
frames comes while the pipe has room, with a group that is a C string of at most 15 bytes. -/
theorem udp_input_iff (input : List (Datagram × Bool)) :
    Sound dgramPushMsg true id (fun f => [f.1, f.2]) [] input ∧
      (Sound dishPushMsg false (·.pipe) (fun f => [⟨f.1.data, f.2⟩]) {} input ↔
        ∀ x ∈ input, ∀ f, x.1.frames false = some f → Fits f x.2) :=
  ⟨dgram_sound input [], dish_sound_iff input none []⟩

/-- A datagram with the empty group aborts the process if the pipe is full. -/
theorem full_pipe_datagram :
    inEvent dishPushMsg (Datagram.frames ⟨[], 0, [0], 0⟩ false) {} false = none := by
  decide

end Udp

end Uzmq.PeerSessions
