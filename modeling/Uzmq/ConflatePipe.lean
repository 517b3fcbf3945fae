import Uzmq.Runs

/-!
# The conflating pipe

`ypipe_conflate_t` over `dbuffer_t`, with one thread that writes and one that reads. The operations
on the mutex are steps of their own. What a thread does while it has the mutex is one step: the
other thread can only move a value to `back` then, and the reader never looks at `back`.
-/

namespace Uzmq.ConflatePipe

open Runs

variable {α : Type}

/-- Where the writing thread is, and the value that it has moved to `back`. -/
inductive WriterPc (α : Type) where
  | idle
  | locking (value : α)
  | swapping (value : α)
  | unlocking
  deriving DecidableEq

/-- Where the reading thread is; `reading` tells `read` from `check_read`. -/
inductive ReaderPc where
  | idle
  | checking (reading : Bool)
  | looking (reading : Bool)
  | looked (reading res : Bool)
  | locking
  | taking
  | unlocking
  deriving DecidableEq

/-- What the calls do and return; `swapped` says that `try_lock` succeeded. -/
inductive Event (α : Type) where
  | write (value : α) (swapped : Bool)
  | checkRead (res : Bool)
  | read (result : Option α)
  deriving DecidableEq

structure State (α : Type) where
  back : α
  front : α
  hasMsg : Bool := false
  sync : Bool := false
  readerAwake : Bool := false
  writer : WriterPc α := .idle
  reader : ReaderPc := .idle
  log : List (Event α) := []

/-- Calls, and steps of the two threads. -/
inductive Input (α : Type) where
  | write (value : α)
  | checkRead (reading : Bool)
  | writer
  | reader

def writerStep (s : State α) : Option (State α) :=
  match s.writer with
  | .idle => none
  | .locking value =>
    if s.sync then some { s with writer := .idle, log := s.log ++ [.write value false] }
    else some { s with sync := true, writer := .swapping value }
  | .swapping value =>
    some { s with
      back := s.front, front := s.back, hasMsg := true, writer := .unlocking
      log := s.log ++ [.write value true] }
  | .unlocking => some { s with sync := false, writer := .idle }

/-- `dbuffer_t::check_read`, where a call may end. -/
def look (s : State α) (reading : Bool) : State α :=
  if s.hasMsg && reading then { s with reader := .looked reading s.hasMsg }
  else
    { s with
      reader := .looked reading s.hasMsg
      log := s.log ++ [if reading then .read none else .checkRead s.hasMsg] }

def readerStep [Inhabited α] (s : State α) : Option (State α) :=
  match s.reader with
  | .idle => none
  | .checking reading =>
    if s.sync then none else some { s with sync := true, reader := .looking reading }
  | .looking reading => some (look s reading)
  | .looked reading res =>
    some { s with
      sync := false
      readerAwake := res && s.readerAwake
      reader := if res && reading then .locking else .idle }
  | .locking => if s.sync then none else some { s with sync := true, reader := .taking }
  | .taking =>
    if s.hasMsg then
      some { s with
        front := default, hasMsg := false, reader := .unlocking
        log := s.log ++ [.read (some s.front)] }
    else some { s with reader := .unlocking, log := s.log ++ [.read none] }
  | .unlocking => some { s with sync := false, reader := .idle }

def step [Inhabited α] (s : State α) : Input α → Option (State α)
  | .write value =>
    if s.writer matches .idle then some { s with back := value, writer := .locking value } else none
  | .checkRead reading =>
    if s.reader matches .idle then some { s with reader := .checking reading } else none
  | .writer => writerStep s
  | .reader => readerStep s

def State.new [Inhabited α] : State α where
  back := default
  front := default

def Initial [Inhabited α] (s : State α) : Prop := s = .new

/-- A call of the reader during which the writer does nothing. -/
def call [Inhabited α] (s : State α) (reading : Bool) : Option (State α) :=
  exec Always step s (.checkRead reading :: List.replicate (if reading then 6 else 3) .reader)

/-- The last value that was swapped to the front after the last successful read. -/
def latest (log : List (Event α)) : Option α :=
  log.foldl (fun last e =>
    match e with
    | .write value true => some value
    | .read (some _) => none
    | _ => last) none

section Invariant

variable {s t : State α}

def WriterPc.locked : WriterPc α → Bool
  | .swapping _ | .unlocking => true
  | _ => false

def ReaderPc.locked : ReaderPc → Bool
  | .looking _ | .looked _ _ | .taking | .unlocking => true
  | _ => false

/-- A value that has not been swapped yet is in `back`. -/
def WriterPc.Moved (back : α) : WriterPc α → Prop
  | .locking value | .swapping value => back = value
  | _ => True

structure Inv (s : State α) : Prop where
  sync : s.sync = true → s.writer.locked = true ∨ s.reader.locked = true
  back : s.writer.Moved s.back
  latest : latest s.log = if s.hasMsg then some s.front else none

theorem latest_append (log : List (Event α)) (e : Event α) :
    latest (log ++ [e]) =
      match e with
      | .write value true => some value
      | .read (some _) => none
      | _ => latest log := by
  simp only [latest, List.foldl_append, List.foldl_cons, List.foldl_nil]

theorem Inv.writerStep (h : Inv s) (hstep : writerStep s = some t) : Inv t := by
  obtain ⟨hsync, hback, hlatest⟩ := h
  unfold ConflatePipe.writerStep at hstep
  cases hw : s.writer with
  | idle => simp [hw] at hstep
  | locking value =>
    rw [hw] at hstep hsync hback
    dsimp only at hstep
    split at hstep
    · cases hstep
      refine ⟨hsync, trivial, ?_⟩
      rwa [latest_append]
    · cases hstep
      exact ⟨fun _ => .inl rfl, hback, hlatest⟩
  | swapping value =>
    rw [hw] at hstep hback
    cases hstep
    refine ⟨fun _ => .inl rfl, trivial, ?_⟩
    rw [latest_append]
    exact congrArg some hback.symm
  | unlocking =>
    rw [hw] at hstep
    cases hstep
    exact ⟨nofun, trivial, hlatest⟩

theorem Inv.readerStep [Inhabited α] (h : Inv s) (hstep : readerStep s = some t) : Inv t := by
  obtain ⟨hsync, hback, hlatest⟩ := h
  unfold ConflatePipe.readerStep at hstep
  cases hr : s.reader with
  | idle => simp [hr] at hstep
  | checking | locking =>
    rw [hr] at hstep
    obtain ⟨-, ⟨⟩⟩ := Option.ite_none_left_eq_some.mp hstep
    exact ⟨fun _ => .inr rfl, hback, hlatest⟩
  | looking reading =>
    rw [hr] at hstep
    cases hstep
    unfold look
    split
    · exact ⟨fun _ => .inr rfl, hback, hlatest⟩
    · refine ⟨fun _ => .inr rfl, hback, ?_⟩
      cases reading <;> rwa [latest_append]
  | looked | unlocking =>
    rw [hr] at hstep
    cases hstep
    exact ⟨nofun, hback, hlatest⟩
  | taking =>
    rw [hr] at hstep
    dsimp only at hstep
    split at hstep
    · cases hstep
      refine ⟨fun _ => .inr rfl, hback, ?_⟩
      rw [latest_append]
      rfl
    · cases hstep
      refine ⟨fun _ => .inr rfl, hback, ?_⟩
      rwa [latest_append]

theorem Inv.step [Inhabited α] {i : Input α} (h : Inv s) (hstep : step s i = some t) : Inv t := by
  have hsync := h.sync
  cases i with
  | write value =>
    unfold ConflatePipe.step at hstep
    dsimp only at hstep
    split at hstep
    · rename_i hw
      cases hstep
      rw [hw] at hsync
      exact ⟨hsync, rfl, h.latest⟩
    · cases hstep
  | checkRead reading =>
    unfold ConflatePipe.step at hstep
    dsimp only at hstep
    split at hstep
    · rename_i hr
      cases hstep
      rw [hr] at hsync
      exact ⟨hsync, h.back, h.latest⟩
    · cases hstep
  | writer => exact h.writerStep hstep
  | reader => exact h.readerStep hstep

end Invariant

section Results

/-- Between operations, the value that was last swapped to the front, if it has not been read, is
there and is what `read` returns. -/
theorem latest_read [Inhabited α] {s : State α} {value : α} (h : Reach Initial Always step s)
    (hw : s.writer = .idle) (hr : s.reader = .idle) (hlatest : latest s.log = some value) :
    (∃ t ∈ call s false, t.log = s.log ++ [.checkRead true]) ∧
      ∃ t ∈ call s true, t.log = s.log ++ [.read (some value)] := by
  have hinv : Inv s := by
    refine h.invariant ?_ fun _ _ _ hs _ hstep => hs.step hstep
    rintro _ rfl
    exact ⟨nofun, trivial, rfl⟩
  have hsync : s.sync = false := by
    rw [Bool.eq_false_iff]
    intro hlocked
    have hholder := hinv.sync hlocked
    simp [hw, hr, WriterPc.locked, ReaderPc.locked] at hholder
  obtain ⟨hmsg, hfront⟩ := Option.ite_none_right_eq_some.mp (hinv.latest.symm.trans hlatest)
  obtain ⟨back, front, hasMsg, sync, readerAwake, writer, reader, log⟩ := s
  cases hsync
  cases hmsg
  cases hr
  cases hfront
  exact ⟨⟨_, rfl, rfl⟩, _, rfl, rfl⟩

/-- The second value replaces the first one, and the third one is given up while the reader looks
for a message. -/
def conflatingRun : List (Input Nat) :=
  [.write 1, .writer, .writer, .writer, .write 2, .writer, .writer, .writer, .checkRead false,
    .reader, .write 3, .writer, .reader, .reader]

theorem conflatingRun_read : ∃ s : State Nat, Reach Initial Always step s ∧
    (s.writer = .idle ∧ s.reader = .idle ∧ latest s.log = some 2) ∧
    (∃ t ∈ call s false, t.log = s.log ++ [.checkRead true]) ∧
      ∃ t ∈ call s true, t.log = s.log ++ [.read (some 2)] := by
  obtain ⟨s, hreach, hw, hr, hlatest⟩ : ∃ s : State Nat, Reach Initial Always step s ∧
      s.writer = .idle ∧ s.reader = .idle ∧ latest s.log = some 2 := by
    refine Reach.of_exec (s := State.new) Always step conflatingRun ?_ rfl
    decide +kernel
  exact ⟨s, hreach, ⟨hw, hr, hlatest⟩, latest_read hreach hw hr hlatest⟩

/-- The reader looks for a message while the only write gives up: nothing is there afterwards. -/
theorem write_given_up : ∃ s : State Nat, Reach Initial Always step s ∧
    s.log = [.write 7 false, .checkRead false] ∧ s.writer = .idle ∧ s.reader = .idle ∧
    ∃ t ∈ call s false, t.log = s.log ++ [.checkRead false] := by
  refine Reach.of_exec (s := State.new) Always step
    [.checkRead false, .reader, .write 7, .writer, .reader, .reader] ?_ rfl
  decide +kernel

end Results

end Uzmq.ConflatePipe
