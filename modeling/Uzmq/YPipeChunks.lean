import Uzmq.YQueueChunks
import Uzmq.YPipeStream

/-!
# The lock-free pipe over chunks

The pipe over chunks does the same as the pipe over positions: as long as all its
pointers lie between the front and the back, equal pointers are equal positions.
The pointer `w` may dangle while `flush` is about to overwrite it.
-/

namespace Uzmq.YPipeChunks

open Option List YPipes YQueues YQueueChunks YPipeStream Runs

variable {n : Nat} {α : Type}

abbrev Addr := Option Nat × Nat

abbrev ChunkPipe (n : Nat) (α : Type) := YPipe (YQueue n α) Addr α

/-- The slot at the back has a value between `set` and `push`, and after `unpush`. -/
def filled (a : Pipe α) : Nat :=
  match a.writer with
  | .pushing _ _ => a.queue.back + 1
  | .taking _ => a.queue.back + 1
  | _ => a.queue.back

def Advancing (a : Pipe α) : Prop := ∃ result asleep, a.writer = .advancing result asleep

def Inside (a : Pipe α) (i : Nat) : Prop := a.queue.front ≤ i ∧ i ≤ a.queue.back

structure Within (a : Pipe α) : Prop where
  w : ¬ Advancing a → Inside a a.w
  f : Inside a a.f
  r : ∀ i ∈ a.r, Inside a i
  c : ∀ i ∈ a.c, Inside a i
  front : Inside a a.queue.front
  back : Inside a a.queue.back

/-- The pipe `a` with the pointers of another kind of queue. -/
def embed (a : Pipe α) (queue : YQueue n α) (w f : Addr) (r c : Option Addr) :
    ChunkPipe n α where
  queue := queue
  w := w
  f := f
  r := r
  c := c
  writer := a.writer
  reader := a.reader
  failed := a.failed
  complete := a.complete
  unfinished := a.unfinished
  sent := a.sent
  received := a.received
  asleep := a.asleep
  lastRollback := a.lastRollback
  lastFlush := a.lastFlush

/-- `at_ i` is the address of element `i`. -/
structure Pointers (a : Pipe α) (at_ : Nat → Addr) (w f : Addr) (r c : Option Addr) : Prop where
  w : ¬ Advancing a → w = at_ a.w
  f : f = at_ a.f
  r : r = a.r.map at_
  c : c = a.c.map at_

def place (n : Nat) (a : Pipe α) (cs : List Nat) (i : Nat) : Addr :=
  addr n (a.queue.front / n) cs i

structure Simulates (s : ChunkPipe n α) (a : Pipe α) (cs : List Nat) : Prop where
  queue : Represents s.queue a.queue cs (filled a)
  pointers : Pointers a (place n a cs) s.w s.f s.r s.c
  rest : s = embed a s.queue s.w s.f s.r s.c

/-- The abstract pipe takes the step too. -/
def Follows (result : Option (Pipe α)) (t : ChunkPipe n α) : Prop :=
  ∃ b cs, result = some b ∧ Simulates t b cs

variable {j : Nat} {asleep : Bool} {s : ChunkPipe n α} {i : Input α}

section Steps
variable {s t : ChunkPipe n α} {a b : Pipe α} {cs : List Nat} {chunk : Nat}

theorem back_ge (h : Inv a) : a.complete.length ≤ a.queue.back := by
  have hwritten : (written a).length = a.complete.length + a.unfinished.length := by
    rw [written, length_append]
  have hat := h.writer
  unfold WriterAt at hat
  split at hat
  all_goals omega

theorem within_of_inv (h : Inv a) : Within a := by
  have hback := back_ge h
  have hlength := h.length_le
  have hfront := h.front
  constructor
  · intro hnot
    have hw := h.w (fun result asleep heq => hnot ⟨result, asleep, heq⟩)
    constructor <;> omega
  · rw [h.f]
    constructor <;> omega
  · intro i hi
    have := h.r i hi
    constructor <;> omega
  · intro i hi
    have hc := h.c
    rw [hi] at hc
    split at hc
    · cases hc
    · cases hc
      constructor <;> omega
  · constructor <;> omega
  · constructor <;> omega

theorem le_filled (a : Pipe α) : a.queue.back ≤ filled a := by
  unfold filled
  split <;> omega

section
variable (h : Simulates s a cs)
include h

/-- Elements between the front and the back have different addresses. -/
theorem Simulates.place_inj {i : Nat} (hi : Inside a i) (hj : Inside a j) :
    place n a cs i = place n a cs j ↔ i = j := by
  constructor
  · exact h.queue.spans.addr_inj hi.1 (Nat.le_succ_of_le hi.2) hj.1
  · rintro rfl
    rfl

theorem Simulates.embedded : ∃ q w f r c, s = embed a q w f r c :=
  ⟨_, _, _, _, _, h.rest⟩

theorem Simulates.stored : Represents s.queue a.queue cs a.queue.back :=
  h.queue.weaken (le_filled a)

theorem Simulates.front_eq : Queue.front s.queue = place n a cs a.queue.front :=
  h.queue.spans.front_addr

theorem Simulates.back_eq : Queue.back s.queue = place n a cs a.queue.back := h.queue.back

theorem Simulates.map_eq {o : Option Nat} (ho : ∀ i ∈ o, Inside a i) (hj : Inside a j) :
    o.map (place n a cs) = some (place n a cs j) ↔ o = some j := by
  cases o with
  | none => simp
  | some i =>
    simp only [map_some, some.injEq]
    exact h.place_inj (ho i rfl) hj

end

theorem Pointers.congr {at_ at' : Nat → Addr} {w f : Addr} {r c : Option Addr}
    (h : Pointers a at_ w f r c) (hb : Within b)
    (same : ∀ i, Inside b i → at' i = at_ i) (hw : ¬ Advancing b → ¬ Advancing a ∧ b.w = a.w)
    (hf : b.f = a.f) (hr : b.r = a.r) (hc : b.c = a.c) : Pointers b at' w f r c := by
  constructor
  · intro hnot
    obtain ⟨hnot', heq⟩ := hw hnot
    rw [same _ (hb.w hnot), h.w hnot', heq]
  · rw [same _ hb.f, h.f, hf]
  · rw [h.r, ← hr]
    apply Option.map_congr
    intro i hi
    exact (same i (hb.r i hi)).symm
  · rw [h.c, ← hc]
    apply Option.map_congr
    intro i hi
    exact (same i (hb.c i hi)).symm

end Steps

section Writer
variable {t : ChunkPipe n α} {a b : Pipe α} {cs : List Nat} {chunk : Nat} {q : YQueue n α}
  {w f : Addr} {r c : Option Addr} {pc : WriterPc α} {value : α} {incomplete : Bool}
  {removed : List α}

theorem not_advancing (hpc : a.writer = pc) (hne : ∀ x y, pc ≠ .advancing x y) : ¬ Advancing a := by
  rintro ⟨x, y, heq⟩
  exact hne x y (hpc.symm.trans heq)

section
variable (h : Simulates (embed a q w f r c) a cs)
include h

theorem Simulates.goto (hnot : ¬ Advancing a)
    (hfilled : filled { a with writer := pc } = a.queue.back) :
    Simulates (embed { a with writer := pc } q w f r c) { a with writer := pc } cs := by
  refine ⟨hfilled ▸ h.stored, ?_, rfl⟩
  exact { h.pointers with w := fun _ => h.pointers.w hnot }

theorem Simulates.w_eq_f (hinv : Inv a) (hnot : ¬ Advancing a) : w = f ↔ a.w = a.f := by
  have hwithin := within_of_inv hinv
  have hw : w = place n a cs a.w := h.pointers.w hnot
  have hf : f = place n a cs a.f := h.pointers.f
  rw [hw, hf]
  exact h.place_inj (hwithin.w hnot) hwithin.f

/-- Steps that change the queue, the pointers stay where they are. -/
theorem Simulates.requeue {q' : YQueue n α} {cs' : List Nat} (hb : Inv b)
    (hq : Represents q' b.queue cs' (filled b))
    (same : ∀ i, Inside b i → place n b cs' i = place n a cs i)
    (hw : ¬ Advancing b → ¬ Advancing a ∧ b.w = a.w) (hf : b.f = a.f) (hr : b.r = a.r)
    (hc : b.c = a.c) : Simulates (embed b q' w f r c) b cs' :=
  ⟨hq, h.pointers.congr (within_of_inv hb) same hw hf hr hc, rfl⟩

end

section Steps
variable (h : Simulates (embed a q w f r c) a cs)
  (hstep : writerStep (embed a q w f r c) chunk = some t)
include h hstep

theorem completing_simulated (hpc : a.writer = .completing value) : Follows (writerStep a chunk) t
    := by
  simp only [writerStep, embed, hpc] at hstep ⊢
  cases hstep
  have hnot := not_advancing hpc (by simp)
  refine ⟨_, cs, rfl, h.stored, ?_, rfl⟩
  exact { h.pointers with w := fun _ => h.pointers.w hnot, f := h.back_eq }

theorem taking_simulated (hpc : a.writer = .taking removed) : Follows (writerStep a chunk) t := by
  have hfilled : filled a = a.queue.back + 1 := by simp [filled, hpc]
  have hnot := not_advancing hpc (by simp)
  have hget : Queue.get q (Queue.back q) = Queue.get a.queue (Queue.back a.queue) := by
    have hback : Queue.back q = place n a cs a.queue.back := h.back_eq
    rw [hback]
    apply h.queue.spans.get h.queue.le
    rw [hfilled]
    exact Nat.lt_succ_self _
  simp only [writerStep, embed, hpc, hget] at hstep ⊢
  cases hvalue : Queue.get a.queue (Queue.back a.queue) with
  | none =>
    simp only [hvalue] at hstep ⊢
    cases hstep
    refine ⟨_, cs, rfl, h.queue.weaken (Nat.le_of_eq hfilled.symm), ?_, rfl⟩
    exact { h.pointers with w := fun _ => h.pointers.w hnot }
  | some value =>
    simp only [hvalue] at hstep ⊢
    cases hstep
    exact ⟨_, cs, rfl, h.goto hnot rfl⟩

theorem waking_simulated (hpc : a.writer = .waking asleep) : Follows (writerStep a chunk) t := by
  simp only [writerStep, embed, hpc] at hstep ⊢
  cases hstep
  refine ⟨_, cs, rfl, h.stored, ?_, rfl⟩
  refine { h.pointers with w := ?_, c := congrArg some h.pointers.f }
  intro hadvancing
  exact absurd ⟨_, _, rfl⟩ hadvancing

theorem advancing_simulated {result : Bool} (hpc : a.writer = .advancing result asleep) :
    Follows (writerStep a chunk) t := by
  simp only [writerStep, embed, hpc] at hstep ⊢
  cases hstep
  refine ⟨_, cs, rfl, h.stored, ?_, rfl⟩
  exact { h.pointers with w := fun _ => h.pointers.f }

variable (hinv : Inv a)
include hinv

theorem storing_simulated (hpc : a.writer = .storing value incomplete) : Follows
    (writerStep a chunk) t := by
  simp only [writerStep, embed, hpc] at hstep
  cases hstep
  have hset := h.queue.set (le_filled a) value
  have hstep' : writerStep a chunk = some { a with
      queue := Queue.set a.queue (Queue.back a.queue) value
      writer := .pushing value incomplete } := by
    simp only [writerStep, hpc]
  exact ⟨_, cs, hstep', h.requeue (writer_inv hinv hstep') hset (fun i _ => rfl)
    (fun _ => ⟨not_advancing hpc (by simp), rfl⟩) rfl rfl rfl⟩

theorem pushing_simulated (hpc : a.writer = .pushing value incomplete) : Follows
    (writerStep a chunk) t := by
  have hfilled : filled a = a.queue.back + 1 := by simp [filled, hpc]
  have hnot := not_advancing hpc (by simp)
  cases hpush : Queue.push q chunk with
  | none => simp [writerStep, embed, hpc, hpush] at hstep
  | some q' =>
    obtain ⟨cs', hcs, hrep⟩ := h.queue.push hpush
    rw [hfilled] at hrep
    have hplace : ∀ i, a.queue.front ≤ i ∧ i ≤ a.queue.back + 1 →
        addr n (a.queue.front / n) cs' i = place n a cs i := by
      rintro i ⟨hi, hi'⟩
      exact addr_extend hcs (h.queue.spans.index_lt hi hi')
    cases incomplete with
    | true =>
      simp only [writerStep, embed, hpc, hpush, if_true] at hstep
      cases hstep
      have hstep' : writerStep a chunk = some { a with
          queue := { a.queue with back := a.queue.back + 1 }, writer := .idle
          unfinished := a.unfinished ++ [value] } := by
        simp [writerStep, hpc, Queue.push]
      exact ⟨_, cs', hstep', h.requeue (writer_inv hinv hstep') hrep hplace
        (fun _ => ⟨hnot, rfl⟩) rfl rfl rfl⟩
    | false =>
      simp only [writerStep, embed, hpc, hpush, Bool.false_eq_true, if_false] at hstep
      cases hstep
      have hstep' : writerStep a chunk = some { a with
          queue := { a.queue with back := a.queue.back + 1 }, writer := .completing value } := by
        simp [writerStep, hpc, Queue.push]
      exact ⟨_, cs', hstep', h.requeue (writer_inv hinv hstep') hrep hplace
        (fun _ => ⟨hnot, rfl⟩) rfl rfl rfl⟩

/-- The end of a rollback is found at the same part. -/
theorem comparing_simulated (hpc : a.writer = .comparing removed) : Follows (writerStep a chunk) t
    := by
  have hwithin := within_of_inv hinv
  have hnot := not_advancing hpc (by simp)
  have hiff : f = Queue.back q ↔ a.f = Queue.back a.queue := by
    have hf : f = place n a cs a.f := h.pointers.f
    have hback : Queue.back q = place n a cs a.queue.back := h.back_eq
    rw [hf, hback]
    exact h.place_inj hwithin.f hwithin.back
  simp only [writerStep, embed, hpc, hiff] at hstep ⊢
  by_cases heq : a.f = Queue.back a.queue
  · rw [if_pos heq] at hstep ⊢
    cases hstep
    refine ⟨_, cs, rfl, h.stored, ?_, rfl⟩
    exact { h.pointers with w := fun _ => h.pointers.w hnot }
  · rw [if_neg heq] at hstep ⊢
    cases hstep
    exact ⟨_, cs, rfl, h.goto hnot rfl⟩

theorem unpushing_simulated (hpc : a.writer = .unpushing removed) : Follows (writerStep a chunk) t
    := by
  simp only [writerStep, embed, hpc] at hstep
  cases hstep
  have hlt : a.queue.front < a.queue.back := by
    have hat := hinv.writer
    simp only [WriterAt, hpc] at hat
    have := hinv.length_le
    have := hinv.front
    omega
  obtain ⟨cs', hcs, hrep⟩ := h.stored.unpush hlt le_rfl
  have hstep' : writerStep a chunk = some { a with
      queue := { a.queue with back := a.queue.back - 1 }, writer := .taking removed } := by
    simp [writerStep, hpc, Queue.unpush]
  have hfilled : a.queue.back - 1 + 1 ≤ a.queue.back := by omega
  refine ⟨_, cs', hstep', h.requeue (writer_inv hinv hstep') (hrep.weaken hfilled) ?_
    (fun _ => ⟨not_advancing hpc (by simp), rfl⟩) rfl rfl rfl⟩
  intro i hi
  exact (addr_extend hcs (hrep.spans.index_lt hi.1 (Nat.le_succ_of_le hi.2))).symm

theorem flushing_simulated (hpc : a.writer = .flushing) : Follows (writerStep a chunk) t := by
  have hnot := not_advancing hpc (by simp)
  simp only [writerStep, embed, hpc, h.w_eq_f hinv hnot] at hstep ⊢
  by_cases heq : a.w = a.f
  · rw [if_pos heq] at hstep ⊢
    cases hstep
    exact ⟨_, cs, rfl, h.goto hnot rfl⟩
  · rw [if_neg heq] at hstep ⊢
    cases hstep
    exact ⟨_, cs, rfl, h.goto hnot rfl⟩

/-- The compare-and-swap of the writer finds the same positions equal. -/
theorem swapping_simulated (hpc : a.writer = .swapping) : Follows (writerStep a chunk) t := by
  have hwithin := within_of_inv hinv
  have hnot := not_advancing hpc (by simp)
  have hf : f = place n a cs a.f := h.pointers.f
  have hiff : c = some w ↔ a.c = some a.w := by
    have hw : w = place n a cs a.w := h.pointers.w hnot
    have hc : c = a.c.map (place n a cs) := h.pointers.c
    rw [hw, hc]
    exact h.map_eq hwithin.c (hwithin.w hnot)
  simp only [writerStep, embed, hpc, hiff] at hstep ⊢
  by_cases heq : a.c = some a.w
  · rw [if_pos heq] at hstep ⊢
    cases hstep
    refine ⟨_, cs, rfl, h.stored, ?_, rfl⟩
    refine { h.pointers with w := ?_, c := congrArg some hf }
    intro hadvancing
    exact absurd ⟨_, _, rfl⟩ hadvancing
  · rw [if_neg heq] at hstep ⊢
    cases hstep
    exact ⟨_, cs, rfl, h.goto hnot rfl⟩

end Steps

theorem writer_simulated (hinv : Inv a) (h : Simulates s a cs)
    (hstep : writerStep s chunk = some t) : Follows (writerStep a chunk) t := by
  obtain ⟨q, w, f, r, c, rfl⟩ := h.embedded
  cases hpc : a.writer with
  | idle => simp [writerStep, embed, hpc] at hstep
  | storing value incomplete => exact storing_simulated h hstep hinv hpc
  | pushing value incomplete => exact pushing_simulated h hstep hinv hpc
  | completing value => exact completing_simulated h hstep hpc
  | comparing removed => exact comparing_simulated h hstep hinv hpc
  | unpushing removed => exact unpushing_simulated h hstep hinv hpc
  | taking removed => exact taking_simulated h hstep hpc
  | flushing => exact flushing_simulated h hstep hinv hpc
  | swapping => exact swapping_simulated h hstep hinv hpc
  | waking asleep => exact waking_simulated h hstep hpc
  | advancing result asleep => exact advancing_simulated h hstep hpc

end Writer

section Reader
variable {t : ChunkPipe n α} {a b : Pipe α} {cs : List Nat} {q : YQueue n α}
  {w f : Addr} {r c : Option Addr} {pc : ReaderPc α} {reading : Bool}

theorem Simulates.goto_reader (h : Simulates (embed a q w f r c) a cs) (pc : ReaderPc α) :
    Simulates (embed { a with reader := pc } q w f r c) { a with reader := pc } cs :=
  ⟨h.queue, { h.pointers with }, rfl⟩

theorem Simulates.front_eq_r (hinv : Inv a) (h : Simulates (embed a q w f r c) a cs) :
    some (Queue.front q) = r ↔ some (Queue.front a.queue) = a.r := by
  have hwithin := within_of_inv hinv
  have hr : r = a.r.map (place n a cs) := h.pointers.r
  have hfront : Queue.front q = place n a cs a.queue.front := h.front_eq
  rw [hr, hfront, eq_comm, h.map_eq hwithin.r hwithin.front, eq_comm]
  rfl

theorem Simulates.r_eq_none (h : Simulates (embed a q w f r c) a cs) : r = none ↔ a.r = none := by
  have hr : r = a.r.map (place n a cs) := h.pointers.r
  rw [hr, map_eq_none_iff]

theorem lt_back (hinv : Inv a) {p : Nat} (hp : a.r = some p) (hlt : a.queue.front < p) :
    a.queue.front < a.queue.back := by
  have hback := back_ge hinv
  have hle := (hinv.r p hp).2
  have hlength := hinv.length_le
  omega

section Steps
variable (hinv : Inv a) (h : Simulates (embed a q w f r c) a cs)
  (hstep : readerStep (embed a q w f r c) = some t)
include hinv h hstep

theorem checking_simulated (hpc : a.reader = .checking reading) : Follows (readerStep a) t := by
  simp only [readerStep, embed, hpc, ne_eq, h.front_eq_r hinv, h.r_eq_none] at hstep ⊢
  by_cases hfound : ¬ some (Queue.front a.queue) = a.r ∧ ¬ a.r = none
  · rw [if_pos hfound] at hstep ⊢
    cases hstep
    exact ⟨_, cs, rfl, h.goto_reader _⟩
  · rw [if_neg hfound] at hstep ⊢
    cases hstep
    exact ⟨_, cs, rfl, h.goto_reader (.prefetching reading)⟩

/-- The compare-and-swap of the reader finds the same positions equal. -/
theorem prefetching_simulated (hpc : a.reader = .prefetching reading) : Follows (readerStep a) t :=
    by
  have hwithin := within_of_inv hinv
  have hc : c = a.c.map (place n a cs) := h.pointers.c
  have hiff : c = some (Queue.front q) ↔ a.c = some (Queue.front a.queue) := by
    have hfront : Queue.front q = place n a cs a.queue.front := h.front_eq
    rw [hc, hfront]
    exact h.map_eq hwithin.c hwithin.front
  have hnull : c = none ↔ a.c = none := by rw [hc, map_eq_none_iff]
  simp only [readerStep, embed, hpc, hiff, hnull] at hstep ⊢
  cases hstep
  refine ⟨_, cs, rfl, h.queue, ?_, rfl⟩
  refine { h.pointers with r := hc, c := ?_ }
  split
  · rfl
  · exact hc

theorem testing_simulated (hpc : a.reader = .testing reading) : Follows (readerStep a) t := by
  simp only [readerStep, embed, hpc, h.front_eq_r hinv, h.r_eq_none] at hstep ⊢
  by_cases hnone : some (Queue.front a.queue) = a.r ∨ a.r = none
  · rw [if_pos hnone] at hstep ⊢
    cases hstep
    exact ⟨_, cs, rfl, h.goto_reader .idle⟩
  · rw [if_neg hnone] at hstep ⊢
    cases hstep
    exact ⟨_, cs, rfl, h.goto_reader _⟩

theorem fetching_simulated (hpc : a.reader = .fetching) : Follows (readerStep a) t := by
  have hat := hinv.reader
  simp only [ReaderAt, hpc] at hat
  obtain ⟨p, hp, hlt⟩ := hat
  have hback := lt_back hinv hp hlt
  have hget : Queue.get q (Queue.front q) = Queue.get a.queue (Queue.front a.queue) := by
    have hfront : Queue.front q = place n a cs a.queue.front := h.front_eq
    rw [hfront]
    exact h.queue.spans.get (Nat.le_refl _) (Nat.lt_of_lt_of_le hback (le_filled a))
  simp only [readerStep, embed, hpc, hget] at hstep ⊢
  cases hvalue : Queue.get a.queue (Queue.front a.queue) with
  | none =>
    simp only [hvalue] at hstep ⊢
    cases hstep
    exact ⟨_, cs, rfl, h.queue, { h.pointers with }, rfl⟩
  | some value =>
    simp only [hvalue] at hstep ⊢
    cases hstep
    exact ⟨_, cs, rfl, h.goto_reader (.popping value)⟩

theorem popping_simulated {value : α} (hpc : a.reader = .popping value) : Follows (readerStep a) t
    := by
  have hat := hinv.reader
  simp only [ReaderAt, hpc] at hat
  obtain ⟨⟨p, hp, hlt⟩, -⟩ := hat
  obtain ⟨cs', hrep, hplace⟩ := h.queue.pop (lt_back hinv hp hlt)
  simp only [readerStep, embed, hpc] at hstep
  cases hstep
  have hstep' : readerStep a = some { a with
      queue := { a.queue with front := a.queue.front + 1 }, reader := .idle
      received := a.received ++ [value] } := by
    simp [readerStep, hpc, Queue.pop]
  exact ⟨_, cs', hstep', h.requeue (reader_inv hinv hstep') hrep (fun i hi => hplace i hi.1)
    (fun hnot => ⟨hnot, rfl⟩) rfl rfl rfl⟩

end Steps

theorem reader_simulated (hinv : Inv a) (h : Simulates s a cs) (hstep : readerStep s = some t) :
    Follows (readerStep a) t := by
  obtain ⟨q, w, f, r, c, rfl⟩ := h.embedded
  cases hpc : a.reader with
  | idle => simp [readerStep, embed, hpc] at hstep
  | checking reading => exact checking_simulated hinv h hstep hpc
  | prefetching reading => exact prefetching_simulated hinv h hstep hpc
  | testing reading => exact testing_simulated hinv h hstep hpc
  | fetching => exact fetching_simulated hinv h hstep hpc
  | popping value => exact popping_simulated hinv h hstep hpc

end Reader

section Parts
variable {Q A : Type} [DecidableEq A] [Queue Q A α] {s t : YPipe Q A α} {more : α → Bool}

/-- `pipe_t::write`: a part is incomplete if more parts follow it. -/
def Framed (more : α → Bool) (_ : YPipe Q A α) (i : Input α) : Prop :=
  match i with
  | .write value incomplete => incomplete = more value
  | _ => True

instance (s : YPipe Q A α) (i : Input α) : Decidable (Framed more s i) := by
  unfold Framed
  split <;> infer_instance

/-- Messages end with a part that no other part follows. -/
structure Parts (more : α → Bool) (s : YPipe Q A α) : Prop where
  unfinished : ∀ v ∈ s.unfinished, more v = true
  complete : ∀ v ∈ s.complete.getLast?, more v = false
  sent : ∀ v ∈ s.sent.getLast?, more v = false
  rollback : ∀ x ∈ s.lastRollback, ∀ v ∈ x.1, more v = true
  writer : match s.writer with
    | .storing v incomplete => incomplete = more v
    | .pushing v incomplete => incomplete = more v
    | .completing v => more v = false
    | _ => True

theorem writer_parts {chunk : Nat} (h : Parts more s) (hstep : writerStep s chunk = some t) :
    Parts more t := by
  have hat := h.writer
  cases hpc : s.writer with
  | idle => simp [writerStep, hpc] at hstep
  | pushing value incomplete =>
    simp only [hpc] at hat
    simp only [writerStep, hpc] at hstep
    split at hstep
    · cases hstep
    cases hincomplete : incomplete with
    | true =>
      simp only [hincomplete, if_true] at hstep
      cases hstep
      refine { h with unfinished := ?_, writer := trivial }
      intro v hv
      rcases mem_append.mp hv with hv | hv
      · exact h.unfinished v hv
      · rw [mem_singleton] at hv
        rw [hv, ← hat, hincomplete]
    | false =>
      simp only [hincomplete, Bool.false_eq_true, if_false] at hstep
      cases hstep
      exact { h with writer := hat.symm.trans hincomplete }
  | completing value =>
    simp only [hpc] at hat
    simp only [writerStep, hpc] at hstep
    cases hstep
    refine ⟨by simp, ?_, h.sent, h.rollback, trivial⟩
    intro v hv
    simp only [getLast?_append, getLast?_singleton, some_or] at hv
    cases hv
    exact hat
  | comparing removed =>
    simp only [writerStep, hpc] at hstep
    split at hstep
    · cases hstep
      refine ⟨by simp, h.complete, h.sent, ?_, trivial⟩
      rintro x ⟨⟩
      exact h.unfinished
    · cases hstep
      exact { h with writer := trivial }
  | swapping =>
    simp only [writerStep, hpc] at hstep
    split at hstep
    · cases hstep
      exact { h with sent := h.complete, writer := trivial }
    · cases hstep
      exact { h with writer := trivial }
  | waking asleep =>
    simp only [writerStep, hpc] at hstep
    cases hstep
    exact { h with sent := h.complete, writer := trivial }
  | taking | flushing =>
    simp only [writerStep, hpc] at hstep
    split at hstep <;> cases hstep <;> exact { h with writer := trivial }
  | storing value incomplete =>
    simp only [hpc] at hat
    simp only [writerStep, hpc] at hstep
    cases hstep
    exact { h with writer := hat }
  | unpushing | advancing =>
    simp only [writerStep, hpc] at hstep
    cases hstep
    exact { h with writer := trivial }

theorem reader_parts (h : Parts more s) (hstep : readerStep s = some t) : Parts more t := by
  unfold readerStep at hstep
  split at hstep
  · cases hstep
  all_goals
    try split at hstep
    all_goals
      cases hstep
      exact { h with }

theorem parts_step (h : Parts more s) (hframed : Framed more s i) (hstep : step s i = some t) :
    Parts more t := by
  unfold step at hstep
  split at hstep
  · cases hstep
  cases i with
  | write value incomplete =>
    dsimp only at hstep
    split at hstep <;> cases hstep
    exact { h with writer := hframed }
  | rollback | flush =>
    dsimp only at hstep
    split at hstep <;> cases hstep
    exact { h with writer := trivial }
  | checkRead | read =>
    dsimp only at hstep
    split at hstep <;> cases hstep
    exact { h with }
  | writer chunk => exact writer_parts h hstep
  | reader => exact reader_parts h hstep

end Parts

section Runs
variable {s t : ChunkPipe n α} {a : Pipe α} {cs : List Nat}

theorem step_simulated (hinv : Inv a) (h : Simulates s a cs) (hstep : step s i = some t) :
    Follows (step a i) t := by
  have hfailed : s.failed = false := by
    rw [h.rest]
    exact hinv.failed
  have hcall : ∀ pc, a.writer = .idle → filled { a with writer := pc } = a.queue.back →
      Simulates { s with writer := pc } { a with writer := pc } cs := by
    intro pc hpc hfilled
    obtain ⟨q, w, f, r, c, rfl⟩ := h.embedded
    exact h.goto (not_advancing hpc (by simp)) hfilled
  have hcall' : ∀ pc, Simulates { s with reader := pc } { a with reader := pc } cs := by
    intro pc
    obtain ⟨q, w, f, r, c, rfl⟩ := h.embedded
    exact h.goto_reader pc
  have hwriter : s.writer = a.writer := by rw [h.rest]; rfl
  have hreader : s.reader = a.reader := by rw [h.rest]; rfl
  simp only [step, if_neg (show ¬ s.failed = true by simp [hfailed])] at hstep
  simp only [step, if_neg (show ¬ a.failed = true by simp [hinv.failed])]
  cases i with
  | write value incomplete =>
    cases hpc : a.writer <;> simp only [hwriter, hpc] at hstep <;> cases hstep
    exact ⟨_, cs, rfl, hcall (.storing value incomplete) hpc rfl⟩
  | rollback =>
    cases hpc : a.writer <;> simp only [hwriter, hpc] at hstep <;> cases hstep
    exact ⟨_, cs, rfl, hcall (.comparing []) hpc rfl⟩
  | flush =>
    cases hpc : a.writer <;> simp only [hwriter, hpc] at hstep <;> cases hstep
    exact ⟨_, cs, rfl, hcall .flushing hpc rfl⟩
  | checkRead =>
    cases hpc : a.reader <;> simp only [hreader, hpc] at hstep <;> cases hstep
    exact ⟨_, cs, rfl, hcall' (.checking false)⟩
  | read =>
    cases hpc : a.reader <;> simp only [hreader, hpc] at hstep <;> cases hstep
    exact ⟨_, cs, rfl, hcall' (.checking true)⟩
  | writer chunk => exact writer_simulated hinv h hstep
  | reader => exact reader_simulated hinv h hstep

/-- A pipe as its constructor leaves it. -/
def Initial (s : ChunkPipe n α) : Prop :=
  0 < n ∧ ∃ first fresh queue, (YQueue.create first).push fresh = some queue ∧ s = YPipe.new queue

theorem initial_simulated (hinit : Initial s) : ∃ cs, Simulates s (YPipe.new Positions.new) cs := by
  obtain ⟨hn, first, fresh, queue, hpush, rfl⟩ := hinit
  obtain ⟨cs, hrep⟩ := represents_create hn hpush
  refine ⟨cs, hrep, ?_, rfl⟩
  have hback := hrep.back
  exact ⟨fun _ => hback, hback, congrArg some hback, congrArg some hback⟩

/-- Every run over chunks is a run over positions. -/
theorem simulated_of_reach {Guard : ChunkPipe n α → Input α → Prop}
    (h : Reach Initial Guard step s) : ∃ a cs, Inv a ∧ Simulates s a cs := by
  have base : ∀ s : ChunkPipe n α, Initial s → ∃ a cs, Inv a ∧ Simulates s a cs := by
    intro s hinit
    obtain ⟨cs, hsim⟩ := initial_simulated hinit
    exact ⟨_, cs, new_inv, hsim⟩
  apply h.invariant base
  rintro s i t ⟨a, cs, hinv, hsim⟩ _ hstep
  obtain ⟨b, cs', hstep', hsim'⟩ := step_simulated hinv hsim hstep
  exact ⟨b, cs', inv_step hinv hstep', hsim'⟩

/-- The elements from the front to the back, at most `fuel` of them. -/
def contents : Nat → YQueue n α → List α
  | 0, _ => []
  | fuel + 1, q =>
    if (Queue.front q : Addr) = Queue.back q then []
    else
      match Queue.get q (Queue.front q) with
      | none => []
      | some value => value :: contents fuel (Queue.pop q)

theorem contents_eq {q : YQueue n α} {p : Positions α} {l : List α} {fuel filled : Nat}
    (h : Represents q p cs filled) (hfilled : p.back ≤ filled) (hlength : l.length = p.back)
    (hslots : ∀ i < p.back, p.slots i = l[i]?) (hfuel : p.back ≤ p.front + fuel) :
    contents fuel q = l.drop p.front := by
  have hle := h.le
  induction fuel generalizing q p cs with
  | zero =>
    rw [contents, drop_of_length_le (by omega)]
  | succ fuel ih =>
    have hfront : (Queue.front q : Addr) = addr n (p.front / n) cs p.front := h.spans.front_addr
    have hback : (Queue.back q : Addr) = addr n (p.front / n) cs p.back := h.back
    rw [contents, hfront, hback]
    by_cases hempty : p.front = p.back
    · rw [if_pos (by rw [hempty]), drop_of_length_le (by omega)]
    have hlt : p.front < p.back := by omega
    have hne : ¬ addr n (p.front / n) cs p.front = addr n (p.front / n) cs p.back := by
      intro heq
      exact hempty (h.spans.addr_inj (Nat.le_refl _) (by omega) hle heq)
    have hget : Queue.get q (addr n (p.front / n) cs p.front) = some l[p.front] := by
      have hget := h.spans.get (Nat.le_refl _) (Nat.lt_of_lt_of_le hlt hfilled)
      rw [hslots _ hlt, getElem?_eq_getElem (by omega)] at hget
      exact hget
    obtain ⟨cs', hpop, -⟩ := h.pop hlt
    rw [if_neg hne, hget, drop_eq_getElem_cons (by omega)]
    refine congrArg _ (ih hpop hfilled hlength hslots ?_ hlt)
    change p.back ≤ p.front + 1 + fuel
    omega

/-- What a pipe does for its two threads. `lastRollback` is the unfinished message and
what was removed, in this order; `lastFlush` is the result of a flush that had something
to publish, and whether the reader was asleep. -/
structure Stream (more : α → Bool) (s : ChunkPipe n α) : Prop where
  failed : s.failed = false ∧ s.queue.crashed = false
  received : s.received <+: s.sent
  sent : s.sent <+: s.complete
  messages : ∀ v ∈ s.sent.getLast?, more v = false
  rollback : ∀ x ∈ s.lastRollback, x.2.reverse = x.1 ∧ ∀ v ∈ x.2, more v = true
  contents : s.writer = .idle →
    contents (s.complete ++ s.unfinished).length s.queue =
      (s.complete ++ s.unfinished).drop s.received.length
  publish : s.writer = .flushing → (s.w = s.f ↔ s.sent = s.complete)
  flush : ∀ x ∈ s.lastFlush, x.1 = false ↔ x.2 = true

/-- In every interleaving of a thread that writes, rolls back and flushes and one that
checks and reads, the parts read are a prefix of the flushed ones, a rollback removes
the unfinished message, and a flush returns false exactly if the reader is asleep. -/
theorem stream_of_reach (more : α → Bool) (h : Reach Initial (Framed more) step s) :
    Stream more s := by
  obtain ⟨a, cs, hinv, hsim⟩ := simulated_of_reach h
  have hparts : Parts more s := by
    have base : ∀ s : ChunkPipe n α, Initial s → Parts more s := by
      rintro s ⟨-, first, fresh, queue, -, rfl⟩
      exact ⟨by simp [YPipe.new], by simp [YPipe.new], by simp [YPipe.new], by simp [YPipe.new],
        trivial⟩
    apply h.invariant base
    intro s i t hparts hframed hstep
    exact parts_step hparts hframed hstep
  obtain ⟨q, w, f, r, c, rfl⟩ := hsim.embedded
  have hfront := hinv.front
  have hreceived := hinv.length_received
  constructor
  · exact ⟨hinv.failed, hsim.queue.crashed⟩
  · change a.received <+: a.sent
    obtain ⟨rest, hrest⟩ := hinv.sent
    rw [hinv.received, ← hrest, take_append_of_le_length hfront]
    exact take_prefix _ _
  · exact hinv.sent
  · exact hparts.sent
  · intro x hx
    have hremoved := hinv.rollback x hx
    have hmore := hparts.rollback x hx
    rw [hremoved]
    refine ⟨reverse_reverse _, ?_⟩
    intro v hv
    exact hmore v (mem_reverse.mp hv)
  · intro hpc
    change a.writer = .idle at hpc
    have hback : a.queue.back = (a.complete ++ a.unfinished).length := by
      have hat := hinv.writer
      simp only [WriterAt, hpc] at hat
      exact hat
    change contents (a.complete ++ a.unfinished).length q =
      (a.complete ++ a.unfinished).drop a.received.length
    rw [hreceived]
    refine contents_eq hsim.queue ?_ hback.symm ?_ (by omega)
    · simp [filled, hpc]
    · rw [hback]
      exact hinv.slots
  · intro hpc
    change a.writer = .flushing at hpc
    have hnot := not_advancing hpc (by simp)
    change w = f ↔ a.sent = a.complete
    rw [hsim.w_eq_f hinv hnot, hinv.f, hinv.w (by simp [hpc])]
    constructor
    · exact hinv.sent.eq_of_length
    · exact congrArg length
  · intro x hx
    rw [hinv.flush x hx]
    cases x.2 <;> simp

/-- Two chunks of two elements: a message is flushed and read, an unfinished one is
rolled back, and a flush wakes up the reader. -/
def wakingRun : List (Input Nat) :=
  [.write 10 true, .writer 2, .writer 2, .write 1 false, .writer 2, .writer 2, .writer 2,
    .flush, .writer 2, .writer 2, .writer 2,
    .read, .reader, .reader, .reader, .reader, .reader,
    .write 11 true, .writer 3, .writer 3, .rollback, .writer 3, .writer 3, .writer 3, .writer 3,
    .read, .reader, .reader, .reader, .checkRead, .reader, .reader, .reader,
    .write 2 false, .writer 3, .writer 3, .writer 3, .flush, .writer 3, .writer 3, .writer 3,
    .writer 3]

theorem wakingRun_stream :
    ∃ s : ChunkPipe 2 Nat, Reach Initial (Framed fun v => decide (10 ≤ v)) step s ∧
      Stream (fun v => decide (10 ≤ v)) s ∧ s.received = [10, 1] ∧ s.sent = [10, 1, 2] ∧
      s.lastRollback = some ([11], [11]) ∧ s.lastFlush = some (false, true) := by
  refine Reach.of_exec_left
    (s := YPipe.new { (YQueue.create 0 : YQueue 2 Nat) with backChunk := some 0, endPos := 1 })
    (Framed fun v => decide (10 ≤ v)) step wakingRun ?_ ⟨by decide, 0, 1, _, rfl, rfl⟩
    fun s hs => stream_of_reach _ hs
  decide +kernel

end Runs

end Uzmq.YPipeChunks
