import Uzmq.Channel
import Uzmq.Message

/-!
# The queues under a pipe

`upipe_t` is `ypipe_t` or `ypipe_conflate_t`. Calls are atomic here, and the result
of `flush` is left out since `pipe_t::flush` ignores it. Only parts with the `more`
flag are written as incomplete items, which the queue carries as a proof.
-/

namespace Uzmq

open List Message

inductive UPipe where
  | normal (queue : Channel Msg) (more : ∀ m ∈ queue.unfinished, m.flags.more = true)
  | conflate (front : Option Msg)

variable {q rest : UPipe} {value m : Msg}

namespace UPipe

def new (conflate : Bool) : UPipe :=
  if conflate then .conflate none else .normal {} (by simp)

/-- The front buffer of a conflating queue is overwritten. -/
def write (q : UPipe) (value : Msg) (incomplete : Bool)
    (h : incomplete = true → value.flags.more = true) : UPipe :=
  match q with
  | .normal queue more => .normal (queue.write value incomplete) (by
      intro m hm
      rcases Channel.mem_unfinished_write hm with hm | ⟨rfl, hincomplete⟩
      · exact more m hm
      · exact h hincomplete)
  | .conflate _ => .conflate (some value)

def unwrite (q : UPipe) : Option (Msg × UPipe) :=
  match q with
  | .normal queue more => queue.unfinished.getLast?.map fun value =>
      (value, .normal queue.unpush fun m hm => more m (List.dropLast_subset _ hm))
  | .conflate _ => none

def flush (q : UPipe) : UPipe :=
  match q with
  | .normal queue more => .normal queue.flush more
  | .conflate front => .conflate front

def checkRead (q : UPipe) : Bool :=
  match q with
  | .normal queue _ => queue.checkRead
  | .conflate front => front.isSome

def read (q : UPipe) : Option (Msg × UPipe) :=
  match q with
  | .normal queue more => queue.flushed.head?.map fun value => (value, .normal queue.pop more)
  | .conflate front => front.map fun value => (value, .conflate none)

/-- No answer stands for a failed assertion that there is an item. -/
def probe (q : UPipe) (fn : Msg → Bool) : Option Bool :=
  match q with
  | .normal queue _ => queue.flushed.head?.map fn
  | .conflate front => front.map fn

def readable (q : UPipe) : List Msg :=
  match q with
  | .normal queue _ => queue.flushed
  | .conflate front => front.toList

/-- What the writer can take back. -/
def unfinished (q : UPipe) : List Msg :=
  match q with
  | .normal queue _ => queue.unfinished
  | .conflate _ => []

/-- What is complete and has not been flushed. -/
def unflushed (q : UPipe) : List Msg :=
  match q with
  | .normal queue _ => queue.finished
  | .conflate _ => []

@[simp] theorem readable_new (conflate : Bool) : (new conflate).readable = [] := by
  cases conflate <;> rfl

theorem checkRead_eq (q : UPipe) : q.checkRead = !q.readable.isEmpty := by
  cases q with
  | normal queue more => rfl
  | conflate front => cases front <;> rfl

theorem probe_eq (q : UPipe) (fn : Msg → Bool) : q.probe fn = q.readable.head?.map fn := by
  cases q with
  | normal queue more => rfl
  | conflate front => cases front <;> rfl

theorem read_eq_none : q.read = none ↔ q.readable = [] := by
  cases q with
  | normal | conflate => simp [read, readable]

theorem read_eq_some (h : q.read = some (value, rest)) : q.readable = value :: rest.readable := by
  cases q with
  | normal queue more =>
    obtain ⟨m, hm, ⟨⟩⟩ := Option.map_eq_some_iff.mp h
    obtain ⟨later, hlater⟩ := head?_eq_some_iff.mp hm
    simp [readable, Channel.pop, hlater]
  | conflate front =>
    obtain ⟨m, rfl, ⟨⟩⟩ := Option.map_eq_some_iff.mp h
    rfl

theorem read_frame (h : q.read = some (value, rest)) :
    rest.unflushed = q.unflushed ∧ rest.unfinished = q.unfinished := by
  cases q with
  | normal queue more =>
    obtain ⟨m, hm, ⟨⟩⟩ := Option.map_eq_some_iff.mp h
    exact ⟨rfl, rfl⟩
  | conflate front =>
    obtain ⟨m, rfl, ⟨⟩⟩ := Option.map_eq_some_iff.mp h
    exact ⟨rfl, rfl⟩

/-- The assertion of `rollback` holds for what `unwrite` returns. -/
theorem unwrite_eq_some (h : q.unwrite = some (value, rest)) :
    q.unfinished = rest.unfinished ++ [value] ∧ value.flags.more = true ∧
      rest.readable = q.readable ∧ rest.unflushed = q.unflushed := by
  cases q with
  | normal queue more =>
    obtain ⟨m, hm, ⟨⟩⟩ := Option.map_eq_some_iff.mp h
    obtain ⟨l, hl⟩ := getLast?_eq_some_iff.mp hm
    refine ⟨?_, more _ (mem_of_getLast? hm), rfl, rfl⟩
    simp [unfinished, Channel.unpush, hl]
  | conflate front => cases h

/-- What will be read if nothing else is written. -/
def complete (q : UPipe) : List Msg := q.readable ++ q.unflushed

/-- A write takes the place of an item that has not been read. -/
def overwrites (q : UPipe) : Bool :=
  match q with
  | .normal _ _ => false
  | .conflate front => front.isSome

theorem unfinished_more (h : m ∈ q.unfinished) : m.flags.more = true := by
  cases q with
  | normal queue more => exact more m h
  | conflate front => cases h

theorem complete_flush (q : UPipe) :
    q.flush.complete = q.complete ∧ q.flush.unfinished = q.unfinished := by
  cases q with
  | normal queue more => simp [complete, flush, readable, unflushed, unfinished, Channel.flush]
  | conflate front => exact ⟨rfl, rfl⟩

/-- A part to be continued waits for the last one, unless the queue is conflating. -/
theorem complete_write_more (hq : q.overwrites = false)
    (h : true = true → value.flags.more = true) :
    (q.write value true h).complete = q.complete ∨
      (q.write value true h).complete = q.complete ++ [value] := by
  cases q with
  | normal queue more => exact .inl rfl
  | conflate front =>
    cases front with
    | none => exact .inr rfl
    | some m => cases hq

theorem complete_write_last (hq : q.overwrites = false)
    (h : false = true → value.flags.more = true) :
    (q.write value false h).complete = q.complete ++ (q.unfinished ++ [value]) := by
  cases q with
  | normal queue more =>
    simp [complete, write, readable, unflushed, unfinished, Channel.write]
  | conflate front =>
    cases front with
    | none => rfl
    | some m => cases hq

/-- Everything that has been written and not been read. -/
def parts (q : UPipe) : List Msg := q.complete ++ q.unfinished

theorem mem_parts_write {incomplete : Bool} {h : incomplete = true → value.flags.more = true}
    (hm : m ∈ (q.write value incomplete h).parts) : m = value ∨ m ∈ q.parts := by
  cases q with
  | normal queue more =>
    cases incomplete with
    | false =>
      simp only [parts, complete, write, readable, unflushed, unfinished, Channel.write,
        Bool.false_eq_true, if_false, append_nil, mem_append, mem_singleton] at hm ⊢
      tauto
    | true =>
      simp only [parts, complete, write, readable, unflushed, unfinished, Channel.write,
        if_true, mem_append, mem_singleton] at hm ⊢
      tauto
  | conflate front =>
    left
    simpa [parts, complete, write, readable, unflushed, unfinished] using hm

theorem readable_flush (h : m ∈ q.readable) : m ∈ q.flush.readable := by
  cases q with
  | normal queue more => exact mem_append_left _ h
  | conflate front => exact h

/-- A complete item can be read once it has been flushed. -/
theorem readable_write_flush (q : UPipe) (value : Msg)
    (h : false = true → value.flags.more = true) :
    value ∈ (q.write value false h).flush.readable := by
  cases q with
  | normal queue more => simp [write, flush, readable, Channel.write, Channel.flush]
  | conflate front => simp [write, flush, readable]

end UPipe

end Uzmq
