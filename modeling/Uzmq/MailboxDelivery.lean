import Uzmq.Mailboxes

/-!
# Delivery of commands

When the reader of the pipe falls asleep, the next flush returns false, and the thread
that flushed sends one signal. So there is at most one token that stands for waking up the
receiver: it is with the flush, with the thread that has to send the signal, or in the
signaler. The mailbox becomes active when the receiver takes the token, and then there is a
command to be read.

The token need not be in the signaler when a later command has been sent completely by
another thread.
-/

namespace Uzmq.MailboxDelivery

open Option Function
open YPipes YPipeStream YPipeChunks Mailboxes Runs

variable {n : Nat} {α : Type}

section Definitions

inductive Place where
  | nowhere
  | pipe
  | sender (k : Nat)
  | signaler
  deriving DecidableEq

/-- The thread has found the reader asleep and has not sent the signal. -/
def owes : SenderPc α → Bool
  | .unlocking false => true
  | .signalling => true
  | _ => false

structure TokenAt (m : Mailbox n α) (a : Pipe (Nat × α)) (place : Place) : Prop where
  signals : m.signals = if place = .signaler then 1 else 0
  sender : ∀ k, owes (m.sender k) = true ↔ place = .sender k
  pipe : (∃ asleep, a.writer = .advancing false asleep) ↔ place = .pipe

def Asleep (a : Pipe (Nat × α)) (place : Place) : Prop := a.asleep = true ∧ place = .nowhere

/-- The reader was woken up, and has not heard of it. -/
def Called (a : Pipe (Nat × α)) (place : Place) : Prop :=
  a.asleep = false ∧ place ≠ .nowhere ∧ a.queue.front < a.sent.length

def Awake (a : Pipe (Nat × α)) (place : Place) : Prop := a.asleep = false ∧ place = .nowhere

/-- The check that is being made will not find anything. -/
def Failing (a : Pipe (Nat × α)) : Prop := a.r = none ∨ a.r = some a.queue.front

def Reading (a : Pipe (Nat × α)) (place : Place) : Prop :=
  match a.reader with
  | .checking true => Awake a place
  | .prefetching true => Awake a place
  | .testing true =>
    Failing a ∧ (Asleep a place ∨ Called a place) ∨ ¬ Failing a ∧ Awake a place
  | .fetching => Awake a place
  | .popping _ => Awake a place
  | _ => False

def Rereading (a : Pipe (Nat × α)) : Prop :=
  match a.reader with
  | .checking true => True
  | .prefetching true => True
  | .testing true => ¬ Failing a
  | .fetching => True
  | .popping _ => True
  | _ => False

def Phase (m : Mailbox n α) (a : Pipe (Nat × α)) (place : Place) : Prop :=
  match m.active, m.receiver with
  | false, .idle => a.reader = .idle ∧ (Asleep a place ∨ Called a place)
  | false, .waiting => a.reader = .idle ∧ (Asleep a place ∨ Called a place)
  | false, .receiving => a.reader = .idle ∧ Called a place ∧ place = .signaler
  | true, .idle => a.reader = .idle ∧ Awake a place
  | true, .reading => Reading a place
  | true, .rereading => Awake a place ∧ a.queue.front < a.sent.length ∧ Rereading a
  | _, _ => False

/-- Where the thread that has the mutex is in the pipe. -/
def Holds (k : Nat) (pc : SenderPc α) (a : Pipe (Nat × α)) : Prop :=
  match pc with
  | .writing cmd =>
    (a.writer = .storing (k, cmd) false ∨ a.writer = .pushing (k, cmd) false ∨
      a.writer = .completing (k, cmd)) ∧ a.sent = a.complete
  | .written => a.writer = .idle ∧ a.sent.length < a.complete.length
  | .flushing =>
    (a.writer = .flushing ∨ a.writer = .swapping ∨ ∃ asleep, a.writer = .waking asleep) ∧
        a.sent.length < a.complete.length ∨
      ∃ ok asleep, a.writer = .advancing ok asleep
  | .unlocking _ => a.writer = .idle ∧ a.sent = a.complete
  | _ => False

def Rests : SenderPc α → Prop
  | .idle => True
  | .locking _ => True
  | .signalling => True
  | _ => False

/-- The command of a call that has not been written. -/
def underway : SenderPc α → List α
  | .locking cmd => [cmd]
  | .writing cmd => [cmd]
  | _ => []

/-- The commands of thread `k`. -/
def commands (k : Nat) (l : List (Nat × α)) : List α :=
  (l.filter fun x => x.1 = k).map Prod.snd

structure Facts (m : Mailbox n α) (a : Pipe (Nat × α)) : Prop where
  failed : m.failed = false
  unfinished : a.unfinished = []
  free : m.sync = none → a.writer = .idle ∧ a.sent = a.complete
  holder : ∀ k, m.sync = some k → Holds k (m.sender k) a
  others : ∀ k, m.sync ≠ some k → Rests (m.sender k)
  log : ∀ k, m.issued k = commands k a.complete ++ underway (m.sender k)
  token : ∃ place, TokenAt m a place ∧ Phase m a place

end Definitions

section Steps
variable {place : Place} {a b : Pipe (Nat × α)} {chunk : Nat}

/-- What the writer does not touch. -/
structure ReaderSame (a b : Pipe (Nat × α)) : Prop where
  reader : b.reader = a.reader
  r : b.r = a.r
  front : b.queue.front = a.queue.front
  received : b.received = a.received

theorem writer_same (h : writerStep a chunk = some b) : ReaderSame a b := by
  unfold writerStep at h
  split at h
  · cases h
  all_goals
    try simp only [Queue.push] at h
    try split at h
    all_goals
      cases h
      exact ⟨rfl, rfl, rfl, rfl⟩

/-- What the reader does not touch. -/
structure WriterSame (a b : Pipe (Nat × α)) : Prop where
  writer : b.writer = a.writer
  complete : b.complete = a.complete
  unfinished : b.unfinished = a.unfinished
  sent : b.sent = a.sent

theorem reader_same (h : readerStep a = some b) : WriterSame a b := by
  unfold readerStep found at h
  split at h
  · cases h
  all_goals
    try split at h
    all_goals
      cases h
      exact ⟨rfl, rfl, rfl, rfl⟩

/-- A `read` finds something, or is about to find nothing. -/
theorem reading_iff : Reading a place ↔ Rereading a ∧ Awake a place ∨
    a.reader = .testing true ∧ Failing a ∧ (Asleep a place ∨ Called a place) := by
  unfold Reading Rereading
  split
  · simp [*]
  · simp [*]
  · rename_i hat
    rw [or_comm, hat, eq_self, true_and]
  · simp [*]
  · simp [*]
  · simp_all

/-- The token goes from `place` to `q`, and from nowhere only to call the reader. -/
def Moves (a b : Pipe (Nat × α)) (place q : Place) : Prop :=
  (b.asleep = a.asleep ∧ (q = .nowhere ↔ place = .nowhere) ∧ (place = .signaler → q = .signaler)) ∨
    Asleep a place ∧ Called b q

/-- The receiver is not disturbed by the threads that send, unless they wake it up. -/
theorem Phase.of_writer {m m' : Mailbox n α} {place' : Place} (h : Phase m a place)
    (hactive : m'.active = m.active) (hreceiver : m'.receiver = m.receiver) (hsame : ReaderSame a b)
    (hsent : a.sent.length ≤ b.sent.length) (hmove : Moves a b place place') :
    Phase m' b place' := by
  have hasleep : Asleep a place ∨ Called a place → Asleep b place' ∨ Called b place' := by
    rintro (h | h)
    · rcases hmove with ⟨hb, hnowhere, -⟩ | ⟨-, hcalled⟩
      · exact .inl ⟨hb.trans h.1, hnowhere.mpr h.2⟩
      · exact .inr hcalled
    rcases hmove with ⟨hb, hnowhere, -⟩ | ⟨hasleep, -⟩
    · refine .inr ⟨hb.trans h.1, fun hn => h.2.1 (hnowhere.mp hn), ?_⟩
      rw [hsame.front]
      exact Nat.lt_of_lt_of_le h.2.2 hsent
    · exact absurd hasleep.2 h.2.1
  have hcalled : Called a place → Called b place' := by
    intro h
    rcases hasleep (.inr h) with hb | hb
    · rcases hmove with ⟨-, hnowhere, -⟩ | ⟨-, hcalled⟩
      · exact absurd (hnowhere.mp hb.2) h.2.1
      · exact hcalled
    · exact hb
  have hawake : Awake a place → Awake b place' := by
    intro h
    rcases hmove with ⟨hb, hnowhere, -⟩ | ⟨hasleep, -⟩
    · exact ⟨hb.trans h.1, hnowhere.mpr h.2⟩
    · exact absurd (h.1.symm.trans hasleep.1) (by decide)
  have hfailing : Failing b ↔ Failing a := by
    rw [Failing, Failing, hsame.r, hsame.front]
  have hrereading : Rereading a → Rereading b := by
    unfold Rereading
    rw [hsame.reader, hfailing]
    exact id
  unfold Phase at h ⊢
  rw [hactive, hreceiver]
  split at h
  · exact ⟨hsame.reader.trans h.1, hasleep h.2⟩
  · exact ⟨hsame.reader.trans h.1, hasleep h.2⟩
  · refine ⟨hsame.reader.trans h.1, hcalled h.2.1, ?_⟩
    rcases hmove with ⟨-, -, hsignaler⟩ | ⟨hnone, -⟩
    · exact hsignaler h.2.2
    · exact absurd hnone.2 h.2.1.2.1
  · exact ⟨hsame.reader.trans h.1, hawake h.2⟩
  · refine reading_iff.mpr ((reading_iff.mp h).imp ?_ ?_)
    · exact fun h => ⟨hrereading h.1, hawake h.2⟩
    · exact fun h => ⟨hsame.reader.trans h.1, hfailing.mpr h.2.1, hasleep h.2.2⟩
  · refine ⟨hawake h.1, ?_, hrereading h.2.2⟩
    rw [hsame.front]
    exact Nat.lt_of_lt_of_le h.2.1 hsent
  · exact h.elim

theorem writer_step {i : Nat} (hinv : Inv a) (h : YPipes.step a (.writer i) = some b) :
    writerStep a i = some b := by
  simpa [YPipes.step, hinv.failed] using h

theorem reader_step (hinv : Inv a) (h : YPipes.step a .reader = some b) :
    readerStep a = some b := by
  simpa [YPipes.step, hinv.failed] using h

theorem writing_step {v : Nat × α} (hunfinished : a.unfinished = [])
    (hpc : a.writer = .storing v false ∨ a.writer = .pushing v false ∨ a.writer = .completing v)
    (h : writerStep a chunk = some b) :
    b.unfinished = [] ∧ b.sent = a.sent ∧ b.asleep = a.asleep ∧
      (b.complete = a.complete ∧
          (b.writer = .storing v false ∨ b.writer = .pushing v false ∨ b.writer = .completing v) ∨
        b.complete = a.complete ++ [v] ∧ b.writer = .idle) := by
  rcases hpc with hpc | hpc | hpc
  · simp only [writerStep, hpc] at h
    cases h
    exact ⟨hunfinished, rfl, rfl, .inl ⟨rfl, .inr (.inl rfl)⟩⟩
  · simp only [writerStep, hpc] at h
    cases h
    exact ⟨hunfinished, rfl, rfl, .inl ⟨rfl, .inr (.inr rfl)⟩⟩
  · simp only [writerStep, hpc] at h
    cases h
    refine ⟨rfl, rfl, rfl, .inr ⟨?_, rfl⟩⟩
    simp [hunfinished]

/-- What the writer does within `flush`: the pipe is woken up iff it was asleep. -/
theorem flushing_step (hinv : Inv a)
    (hpc : a.writer = .flushing ∨ a.writer = .swapping ∨ ∃ asleep, a.writer = .waking asleep)
    (hlt : a.sent.length < a.complete.length) (h : writerStep a chunk = some b) :
    b.complete = a.complete ∧ b.unfinished = a.unfinished ∧
      ((b.writer = .swapping ∨ ∃ asleep, b.writer = .waking asleep) ∧ b.sent = a.sent ∧
          b.asleep = a.asleep ∨
        (∃ asleep, b.writer = .advancing true asleep) ∧ b.sent = a.complete ∧
          b.asleep = a.asleep ∨
        (∃ asleep, b.writer = .advancing false asleep) ∧ b.sent = a.complete ∧
          a.asleep = true ∧ b.asleep = false) := by
  rcases hpc with hpc | hpc | ⟨asleep, hpc⟩
  · have hw := hinv.w (by simp [hpc])
    have hne : a.w ≠ a.f := by
      rw [hinv.f]
      omega
    simp only [writerStep, hpc, if_neg hne] at h
    cases h
    exact ⟨rfl, rfl, .inl ⟨.inl rfl, rfl, rfl⟩⟩
  · simp only [writerStep, hpc] at h
    split at h
    · cases h
      exact ⟨rfl, rfl, .inr (.inl ⟨⟨_, rfl⟩, rfl, rfl⟩)⟩
    · cases h
      exact ⟨rfl, rfl, .inl ⟨.inr ⟨_, rfl⟩, rfl, rfl⟩⟩
  · have hat := hinv.writer
    simp only [WriterAt, hpc] at hat
    simp only [writerStep, hpc] at h
    cases h
    exact ⟨rfl, rfl, .inr (.inr ⟨⟨_, rfl⟩, rfl, hat.2.1, rfl⟩)⟩

/-- Nobody has been told to wake up a reader that is asleep. -/
theorem Phase.asleep {m : Mailbox n α} (h : Phase m a place) (hasleep : a.asleep = true) :
    Asleep a place := by
  have hnot {P : Prop} : ¬ (a.asleep = false ∧ P) := by
    rintro ⟨hawake, -⟩
    rw [hasleep] at hawake
    cases hawake
  unfold Phase at h
  split at h
  · exact h.2.resolve_right hnot
  · exact h.2.resolve_right hnot
  · exact absurd h.2.1 hnot
  · exact absurd h.2 hnot
  · rcases reading_iff.mp h with ⟨-, h⟩ | ⟨-, -, h⟩
    · exact absurd h hnot
    · exact h.resolve_right hnot
  · exact absurd h.1 hnot
  · exact h.elim

end Steps

section Senders
variable {m t : Mailbox n α} {a b : Pipe (Nat × α)} {cs : List Nat} {k chunk : Nat}
  {c : SenderPc α} {place q : Place} {p : ChunkPipe n (Nat × α)} {sync : Option Nat} {signals : Nat}
  {issued : Nat → List α}

theorem writer_eq {s : ChunkPipe n (Nat × α)} (h : Simulates s a cs) : s.writer = a.writer := by
  rw [h.rest]
  rfl

theorem reader_eq {s : ChunkPipe n (Nat × α)} (h : Simulates s a cs) : s.reader = a.reader := by
  rw [h.rest]
  rfl

theorem usePipe_cases {i : YPipes.Input (Nat × α)}
    {f : ChunkPipe n (Nat × α) → Mailbox n α → Mailbox n α} (hinv : Inv a)
    (hsim : Simulates m.cpipe a cs) (h : m.usePipe i f = some t) :
    ∃ p b cs', t = f p { m with cpipe := p } ∧ YPipes.step a i = some b ∧ Inv b ∧
      Simulates p b cs' := by
  obtain ⟨p, hp, rfl⟩ := map_eq_some_iff.mp h
  obtain ⟨b, cs', hb, hsim'⟩ := step_simulated hinv hsim hp
  exact ⟨p, b, cs', rfl, hb, inv_step hinv hb, hsim'⟩

/-- A step of thread `k` moves the token, or leaves it where it is. -/
theorem TokenAt.move (h : TokenAt m a place) (hsignals : signals = if q = .signaler then 1 else 0)
    (howes : owes c = true ↔ q = .sender k)
    (hothers : ∀ j ≠ k, place = .sender j ↔ q = .sender j)
    (hpipe : (∃ asleep, b.writer = .advancing false asleep) ↔ q = .pipe) :
    TokenAt (Mailbox.setSender
      { m with cpipe := p, sync := sync, signals := signals, issued := issued } k c) b q := by
  constructor
  · exact hsignals
  · intro j
    dsimp only [Mailbox.setSender]
    rcases eq_or_ne j k with rfl | hj
    · rw [update_self]
      exact howes
    · rw [update_of_ne hj, h.sender j]
      exact hothers j hj
  · exact hpipe

theorem TokenAt.same (h : TokenAt m a place) (howes : owes c = owes (m.sender k))
    (hpipe : (∃ asleep, b.writer = .advancing false asleep) ↔
      ∃ asleep, a.writer = .advancing false asleep) :
    TokenAt (Mailbox.setSender { m with cpipe := p, sync := sync, issued := issued } k c)
      b place := by
  refine h.move h.signals ?_ (fun _ _ => Iff.rfl) (hpipe.trans h.pipe)
  rw [howes]
  exact h.sender k

/-- A step of thread `k`, which has the mutex before or after it. -/
theorem Facts.sender (h : Facts m a) (hphase : Phase m a place) (hsame : ReaderSame a b)
    (hunfinished : b.unfinished = []) (hbefore : m.sync = none ∨ m.sync = some k)
    (hafter : sync = some k ∧ Holds k c b ∨
      sync = none ∧ Rests c ∧ b.writer = .idle ∧ b.sent = b.complete)
    (hlog : ∀ j, commands j b.complete ++ underway (update m.sender k c j) =
      commands j a.complete ++ underway (m.sender j))
    (htoken : TokenAt (Mailbox.setSender { m with cpipe := p, sync := sync } k c) b q)
    (hsent : a.sent.length ≤ b.sent.length)
    (hmove : Moves a b place q) :
    Facts (Mailbox.setSender { m with cpipe := p, sync := sync } k c) b := by
  constructor
  case failed => exact h.failed
  case unfinished => exact hunfinished
  case free =>
    intro hnone
    rcases hafter with ⟨hsome, -⟩ | ⟨-, -, hfree⟩
    · cases hsome.symm.trans hnone
    · exact hfree
  case holder =>
    intro j hj
    rcases hafter with ⟨hsome, hholds⟩ | ⟨hnone, -⟩
    · obtain rfl : k = j := some.inj (hsome.symm.trans hj)
      simpa [Mailbox.setSender] using hholds
    · cases hnone.symm.trans hj
  case others =>
    intro j hj
    rcases eq_or_ne j k with rfl | hjk
    · rcases hafter with ⟨hsome, -⟩ | ⟨-, hrests, -⟩
      · exact absurd hsome hj
      · simpa [Mailbox.setSender] using hrests
    · have hother : m.sync ≠ some j := by
        rintro hsome
        rcases hbefore with hnone | hown
        · cases hnone.symm.trans hsome
        · exact hjk (some.inj (hsome.symm.trans hown))
      simpa [Mailbox.setSender, hjk] using h.others j hother
  case log =>
    intro j
    exact (h.log j).trans (hlog j).symm
  case token => exact ⟨q, htoken, hphase.of_writer rfl rfl hsame hsent hmove⟩

theorem log_same (hcomplete : b.complete = a.complete)
    (hunderway : underway c = underway (m.sender k)) (j : Nat) :
    commands j b.complete ++ underway (update m.sender k c j) =
      commands j a.complete ++ underway (m.sender j) := by
  rw [hcomplete]
  rcases eq_or_ne j k with rfl | hj
  · rw [update_self, hunderway]
  · rw [update_of_ne hj]

theorem stay (hasleep : b.asleep = a.asleep) : Moves a b place place :=
  .inl ⟨hasleep, Iff.rfl, id⟩

/-- The invariant, with the pipe over positions that the pipe of the mailbox simulates. -/
def Good (m : Mailbox n α) : Prop := ∃ a cs, Inv a ∧ Simulates m.cpipe a cs ∧ Facts m a

/-- A thread that does not have the mutex goes from one place to another. -/
theorem Facts.rest (h : Facts m a) (hbefore : Rests (m.sender k)) (hafter : Rests c)
    (hlog : ∀ j, issued j = commands j a.complete ++ underway (update m.sender k c j))
    (htoken : ∃ place,
      TokenAt (Mailbox.setSender { m with signals := signals, issued := issued } k c) a place ∧
      Phase (Mailbox.setSender { m with signals := signals, issued := issued } k c) a place) :
    Facts (Mailbox.setSender { m with signals := signals, issued := issued } k c) a := by
  have hne : ∀ j, m.sync = some j → j ≠ k := by
    rintro j hj rfl
    have hholds := h.holder j hj
    unfold Rests at hbefore
    split at hbefore <;> simp_all [Holds]
  constructor
  case failed => exact h.failed
  case unfinished => exact h.unfinished
  case free => exact h.free
  case holder =>
    intro j hj
    simpa [Mailbox.setSender, hne j hj] using h.holder j hj
  case others =>
    intro j hj
    rcases eq_or_ne j k with rfl | hjk
    · simpa [Mailbox.setSender] using hafter
    · simpa [Mailbox.setSender, hjk] using h.others j hj
  case log => exact hlog
  case token => exact htoken

section Steps
variable (hinv : Inv a) (hsim : Simulates m.cpipe a cs) (h : Facts m a)
  (htoken : TokenAt m a place) (hphase : Phase m a place)
include hinv hsim h htoken hphase

theorem good_send (hpc : m.sender k = .idle) :
    Good (Mailbox.setSender
      { m with issued := update m.issued k (m.issued k ++ [cmd]) } k (.locking cmd)) := by
  refine ⟨a, cs, hinv, hsim, ?_⟩
  refine h.rest (by rw [hpc]; trivial) trivial ?_ ⟨place, ?_, ?_⟩
  · intro j
    rcases eq_or_ne j k with rfl | hj
    · rw [h.log j, hpc]
      simp [underway]
    · rw [update_of_ne hj, update_of_ne hj]
      exact h.log j
  · exact htoken.same (by rw [hpc]; rfl) Iff.rfl
  · exact hphase.of_writer rfl rfl ⟨rfl, rfl, rfl, rfl⟩ (Nat.le_refl _) (stay rfl)

variable (hstep : m.senderStep k chunk = some t)
include hstep

theorem good_locking {cmd : α} (hpc : m.sender k = .locking cmd) : Good t := by
  simp only [Mailbox.senderStep, hpc] at hstep
  split at hstep
  · cases hstep
  rename_i hsync
  obtain ⟨p, b, cs', rfl, hb, hinv', hsim'⟩ := usePipe_cases hinv hsim hstep
  obtain ⟨hidle, hall⟩ := h.free hsync
  simp only [YPipes.step, hinv.failed, Bool.false_eq_true, if_false, hidle, some.injEq] at hb
  refine ⟨b, cs', hinv', hsim', ?_⟩
  subst hb
  refine h.sender hphase ⟨rfl, rfl, rfl, rfl⟩ h.unfinished (.inl hsync)
    (.inl ⟨rfl, .inl rfl, hall⟩) (log_same rfl ?_) ?_ (Nat.le_refl _) (stay rfl)
  · rw [hpc]
    rfl
  · refine htoken.same ?_ ?_
    · rw [hpc]
      rfl
    · simp [hidle]

/-- The token goes from the thread to the signaler. -/
theorem good_signalling (hpc : m.sender k = .signalling) : Good t := by
  simp only [Mailbox.senderStep, hpc] at hstep
  cases hstep
  have hplace : place = .sender k := by
    rw [← htoken.sender k, hpc]
    rfl
  subst hplace
  refine ⟨a, cs, hinv, hsim, ?_⟩
  refine h.rest (by rw [hpc]; trivial) trivial ?_ ⟨.signaler, ?_, ?_⟩
  · intro j
    exact (h.log j).trans (log_same rfl (by rw [hpc]; rfl) j).symm
  · refine htoken.move ?_ (by simp [owes]) ?_ ?_
    · have hsignals := htoken.signals
      rw [hsignals]
      rfl
    · intro j hj
      simp [Ne.symm hj]
    · simpa using htoken.pipe
  · exact hphase.of_writer rfl rfl ⟨rfl, rfl, rfl, rfl⟩ (Nat.le_refl _)
      (.inl ⟨rfl, by simp, by rintro ⟨⟩⟩)

variable (hsync : m.sync = some k)
include hsync

theorem good_writing {cmd : α} (hpc : m.sender k = .writing cmd) : Good t := by
  simp only [Mailbox.senderStep, hpc] at hstep
  obtain ⟨p, b, cs', rfl, hb, hinv', hsim'⟩ := usePipe_cases hinv hsim hstep
  have hholds := h.holder k hsync
  rw [hpc] at hholds
  obtain ⟨hat, hall⟩ := hholds
  have hwriter := writer_step hinv hb
  have hsame := writer_same hwriter
  obtain ⟨hunfinished, hsent, hasleep, hcases⟩ := writing_step h.unfinished hat hwriter
  have hnot : ¬ ∃ asleep, a.writer = .advancing false asleep := by
    rcases hat with hat | hat | hat <;> simp [hat]
  have howes : ∀ pc : SenderPc α, owes pc = false → owes pc = owes (m.sender k) := by
    intro pc hpc'
    rw [hpc, hpc']
    rfl
  have hle : a.sent.length ≤ b.sent.length := Nat.le_of_eq (by rw [hsent])
  have hp := writer_eq hsim'
  rcases hcases with ⟨hcomplete, hat'⟩ | ⟨hcomplete, hidle⟩
  · have hnot' : ¬ ∃ asleep, b.writer = .advancing false asleep := by
      rcases hat' with hat' | hat' | hat' <;> simp [hat']
    have heq : afterWrite cmd p.writer = .writing cmd := by
      rw [hp]
      rcases hat' with hat' | hat' | hat' <;> rw [hat'] <;> rfl
    rw [heq]
    refine ⟨b, cs', hinv', hsim', ?_⟩
    refine h.sender hphase hsame hunfinished (.inr hsync) (.inl ⟨hsync, hat', ?_⟩)
      (log_same hcomplete (by rw [hpc])) ?_ hle (stay hasleep)
    · rw [hsent, hcomplete, hall]
    · exact htoken.same (howes _ rfl) (by simp only [hnot, hnot'])
  · have heq : afterWrite cmd p.writer = .written := by
      rw [hp, hidle]
      rfl
    rw [heq]
    refine ⟨b, cs', hinv', hsim', ?_⟩
    refine h.sender hphase hsame hunfinished (.inr hsync) (.inl ⟨hsync, hidle, ?_⟩) ?_ ?_ hle
      (stay hasleep)
    · rw [hsent, hcomplete, hall]
      simp
    · intro j
      rw [hcomplete]
      rcases eq_or_ne j k with rfl | hj
      · rw [hpc]
        simp [commands, underway]
      · rw [update_of_ne hj]
        simp [commands, Ne.symm hj]
    · exact htoken.same (howes _ rfl) (by simp [hnot, hidle])

theorem good_written (hpc : m.sender k = .written) : Good t := by
  simp only [Mailbox.senderStep, hpc] at hstep
  obtain ⟨p, b, cs', rfl, hb, hinv', hsim'⟩ := usePipe_cases hinv hsim hstep
  have hholds := h.holder k hsync
  rw [hpc] at hholds
  obtain ⟨hidle, hlt⟩ := hholds
  simp only [YPipes.step, hinv.failed, Bool.false_eq_true, if_false, hidle, some.injEq] at hb
  refine ⟨b, cs', hinv', hsim', ?_⟩
  subst hb
  refine h.sender hphase ⟨rfl, rfl, rfl, rfl⟩ h.unfinished (.inr hsync)
    (.inl ⟨hsync, .inl ⟨.inl rfl, hlt⟩⟩) (log_same rfl (by rw [hpc]; rfl)) ?_ (Nat.le_refl _)
    (stay rfl)
  exact htoken.same (by rw [hpc]; rfl) (by simp [hidle])

theorem good_flushing (hpc : m.sender k = .flushing) : Good t := by
  simp only [Mailbox.senderStep, hpc] at hstep
  obtain ⟨p, b, cs', rfl, hb, hinv', hsim'⟩ := usePipe_cases hinv hsim hstep
  have hholds := h.holder k hsync
  rw [hpc] at hholds
  have hwriter := writer_step hinv hb
  have hsame := writer_same hwriter
  have howes : owes (.flushing : SenderPc α) = owes (m.sender k) := by rw [hpc]
  have hp := writer_eq hsim'
  have hm := writer_eq hsim
  rcases hholds with ⟨hat, hlt⟩ | ⟨ok, asleep, hat⟩
  · obtain ⟨hcomplete, hunfinished, hcases⟩ := flushing_step hinv hat hlt hwriter
    have hnot : ¬ ∃ asleep, a.writer = .advancing false asleep := by
      rcases hat with hat | hat | ⟨_, hat⟩ <;> simp [hat]
    have hlog := log_same (m := m) (k := k) (c := .flushing) hcomplete (by rw [hpc])
    have hne : b.writer ≠ .idle := by
      rcases hcases with ⟨hat' | ⟨_, hat'⟩, -⟩ | ⟨⟨_, hat'⟩, -⟩ | ⟨⟨_, hat'⟩, -⟩ <;> simp [hat']
    have hnone : afterFlush m.cpipe.writer p.writer = .flushing := by
      rw [hp]
      cases hw : b.writer with
      | idle => exact absurd hw hne
      | _ => cases m.cpipe.writer <;> rfl
    rw [hnone]
    refine ⟨b, cs', hinv', hsim', ?_⟩
    rcases hcases with ⟨hat', hsent, hasleep⟩ | ⟨⟨z, hat'⟩, hsent, hasleep⟩ |
      ⟨⟨z, hat'⟩, hsent, hslept, hwoken⟩
    · have hnot' : ¬ ∃ asleep, b.writer = .advancing false asleep := by
        rcases hat' with hat' | ⟨_, hat'⟩ <;> simp [hat']
      refine h.sender hphase hsame (hunfinished.trans h.unfinished) (.inr hsync)
        (.inl ⟨hsync, .inl ⟨.inr hat', ?_⟩⟩) hlog ?_ (Nat.le_of_eq (by rw [hsent])) (stay hasleep)
      · rw [hsent, hcomplete]
        exact hlt
      · exact htoken.same howes (by simp only [hnot, hnot'])
    · refine h.sender hphase hsame (hunfinished.trans h.unfinished) (.inr hsync)
        (.inl ⟨hsync, .inr ⟨_, _, hat'⟩⟩) hlog ?_ ?_ (stay hasleep)
      · exact htoken.same howes (by simp [hnot, hat'])
      · rw [hsent]
        exact Nat.le_of_lt hlt
    · -- The reader was asleep: the token appears with this flush.
      have hasleep := hphase.asleep hslept
      have hcalled : Called b .pipe := by
        refine ⟨hwoken, by decide, ?_⟩
        rw [hsame.front, hsent, hinv.drained hslept]
        exact hlt
      refine h.sender hphase hsame (hunfinished.trans h.unfinished) (.inr hsync)
        (.inl ⟨hsync, .inr ⟨_, _, hat'⟩⟩) hlog ?_ ?_ (.inr ⟨hasleep, hcalled⟩)
      · refine htoken.move ?_ (by simp [owes]) ?_ (by simp [hat'])
        · have hsignals := htoken.signals
          rw [hasleep.2] at hsignals
          exact hsignals
        · intro j _
          simp [hasleep.2]
      · rw [hsent]
        exact Nat.le_of_lt hlt
  · have hat2 := hinv.writer
    simp only [WriterAt, hat] at hat2
    simp only [writerStep, hat, some.injEq] at hwriter
    have hafter : afterFlush m.cpipe.writer p.writer = .unlocking ok := by
      rw [hp, hm, hat, ← hwriter]
      rfl
    rw [hafter]
    refine ⟨b, cs', hinv', hsim', ?_⟩
    subst hwriter
    have hlog := log_same (m := m) (k := k) (c := .unlocking ok) (a := a) (b := a) rfl
      (by rw [hpc]; rfl)
    have hholds : Holds k (.unlocking ok) { a with w := a.f, writer := .idle } := ⟨rfl, hat2.2.1⟩
    cases ok with
    | true =>
      refine h.sender hphase ⟨rfl, rfl, rfl, rfl⟩ h.unfinished (.inr hsync)
        (.inl ⟨hsync, hholds⟩) hlog ?_ (Nat.le_refl _) (stay rfl)
      exact htoken.same (by rw [hpc]; rfl) (by simp [hat])
    | false =>
      have hplace : place = .pipe := htoken.pipe.mp ⟨_, hat⟩
      subst hplace
      refine h.sender (q := .sender k) hphase ⟨rfl, rfl, rfl, rfl⟩ h.unfinished (.inr hsync)
        (.inl ⟨hsync, hholds⟩) hlog ?_ (Nat.le_refl _) (.inl ⟨rfl, by simp, by rintro ⟨⟩⟩)
      refine htoken.move htoken.signals (by simp [owes]) ?_ (by simp)
      intro j hj
      simp [Ne.symm hj]

theorem good_unlocking {ok : Bool} (hpc : m.sender k = .unlocking ok) : Good t := by
  simp only [Mailbox.senderStep, hpc] at hstep
  cases hstep
  have hholds := h.holder k hsync
  rw [hpc] at hholds
  refine ⟨a, cs, hinv, hsim, ?_⟩
  refine h.sender hphase ⟨rfl, rfl, rfl, rfl⟩ h.unfinished (.inr hsync)
    (.inr ⟨rfl, ?_, hholds⟩) (log_same rfl ?_) ?_ (Nat.le_refl _) (stay rfl)
  · cases ok <;> trivial
  · rw [hpc]
    cases ok <;> rfl
  · refine htoken.same ?_ Iff.rfl
    rw [hpc]
    cases ok <;> rfl

end Steps

theorem good_sender (hgood : Good m) (hstep : m.senderStep k chunk = some t) : Good t := by
  obtain ⟨a, cs, hinv, hsim, h⟩ := hgood
  obtain ⟨place, htoken, hphase⟩ := h.token
  -- Only the holder of the mutex uses the pipe.
  have hsync {pc : SenderPc α} (hpc : m.sender k = pc) (hnot : ¬ Rests pc) : m.sync = some k := by
    by_contra hne
    exact hnot (hpc ▸ h.others k hne)
  cases hpc : m.sender k with
  | idle => simp [Mailbox.senderStep, hpc] at hstep
  | locking cmd => exact good_locking hinv hsim h htoken hphase hstep hpc
  | writing cmd => exact good_writing hinv hsim h htoken hphase hstep (hsync hpc id) hpc
  | written => exact good_written hinv hsim h htoken hphase hstep (hsync hpc id) hpc
  | flushing => exact good_flushing hinv hsim h htoken hphase hstep (hsync hpc id) hpc
  | unlocking ok => exact good_unlocking hinv hsim h htoken hphase hstep (hsync hpc id) hpc
  | signalling => exact good_signalling hinv hsim h htoken hphase hstep hpc

end Senders

section Reader
variable {a b : Pipe (Nat × α)}

/-- How far a `read` is from its end if it finds something. -/
def stage : ReaderPc (Nat × α) → Nat
  | .checking _ => 6
  | .prefetching _ => 5
  | .testing _ => 4
  | .fetching => 3
  | .popping _ => 2
  | .idle => 0

/-- The reader goes on, falls asleep iff there is nothing to be read, or has got a command. -/
theorem rereading_step (hinv : Inv a) (hinv' : Inv b) (hawake : a.asleep = false)
    (hreading : Rereading a) (h : readerStep a = some b) :
    (fetched a.reader b.reader = none ∧ b.queue.front = a.queue.front ∧ b.received = a.received ∧
        (b.asleep = false ∧ Rereading b ∧ stage b.reader < stage a.reader ∨
          ¬ a.queue.front < a.sent.length ∧ b.asleep = true ∧ b.reader = .testing true ∧
            Failing b)) ∨
      fetched a.reader b.reader = some true ∧ b.asleep = false ∧ b.reader = .idle ∧
        ∃ v, b.received = a.received ++ [v] := by
  unfold Rereading at hreading
  split at hreading
  · rename_i hat
    simp only [readerStep, hat] at h
    rw [hat]
    split at h <;> cases h
    · exact .inl ⟨rfl, rfl, rfl, .inl ⟨hawake, trivial, (by decide : 3 < 6)⟩⟩
    · exact .inl ⟨rfl, rfl, rfl, .inl ⟨hawake, trivial, (by decide : 5 < 6)⟩⟩
  · rename_i hat
    have hc := hinv.c
    rw [hawake] at hc
    have hfront := hinv.front
    simp only [readerStep, hat] at h
    cases h
    rw [hat]
    refine .inl ⟨rfl, rfl, rfl, ?_⟩
    by_cases hlt : a.queue.front < a.sent.length
    · have hne : ¬ a.sent.length = a.queue.front := by omega
      refine .inl ⟨?_, ?_, (by decide : 4 < 5)⟩
      · simp [hawake, hc, Queue.front, hne]
      · simp [Rereading, Failing, hc, hne]
    · have heq : a.sent.length = a.queue.front := by omega
      refine .inr ⟨hlt, ?_, rfl, ?_⟩
      · simp [hc, Queue.front, heq]
      · simp [Failing, hc, heq]
  · rename_i hat
    simp only [readerStep, hat] at h
    rw [if_neg fun hfail => hreading (hfail.symm.imp_right Eq.symm)] at h
    cases h
    rw [hat]
    exact .inl ⟨rfl, rfl, rfl, .inl ⟨hawake, trivial, (by decide : 3 < 4)⟩⟩
  · rename_i hat
    simp only [readerStep, hat] at h
    rw [hat]
    split at h <;> cases h
    · cases hinv'.failed
    · exact .inl ⟨rfl, rfl, rfl, .inl ⟨hawake, trivial, (by decide : 2 < 3)⟩⟩
  · rename_i v hat
    simp only [readerStep, hat] at h
    cases h
    rw [hat]
    exact .inr ⟨rfl, hawake, rfl, v, rfl⟩
  · exact hreading.elim

end Reader

section Receiver
variable {m t : Mailbox n α} {a b : Pipe (Nat × α)} {cs : List Nat} {place : Place}
  {p : ChunkPipe n (Nat × α)} {signals : Nat} {act expired : Bool} {pc : ReceiverPc}

theorem Phase.active (h : Phase m a place)
    (hpc : m.receiver = .reading ∨ m.receiver = .rereading) : m.active = true := by
  cases hactive : m.active with
  | true => rfl
  | false => rcases hpc with hpc | hpc <;> simp [Phase, hactive, hpc] at h

theorem Phase.passive (h : Phase m a place)
    (hpc : m.receiver = .waiting ∨ m.receiver = .receiving) : m.active = false := by
  cases hactive : m.active with
  | true => rcases hpc with hpc | hpc <;> simp [Phase, hactive, hpc] at h
  | false => rfl

theorem Facts.receiver (h : Facts m a) (hsame : WriterSame a b)
    (htoken : ∃ place,
      TokenAt { m with cpipe := p, signals := signals, active := act, receiver := pc } b place ∧
      Phase { m with cpipe := p, signals := signals, active := act, receiver := pc } b place) :
    Facts { m with cpipe := p, signals := signals, active := act, receiver := pc } b := by
  constructor
  case failed => exact h.failed
  case unfinished => exact hsame.unfinished.trans h.unfinished
  case free =>
    rw [hsame.writer, hsame.sent, hsame.complete]
    exact h.free
  case holder =>
    intro k hk
    have hholds := h.holder k hk
    unfold Holds at hholds ⊢
    rw [hsame.writer, hsame.sent, hsame.complete]
    exact hholds
  case others => exact h.others
  case log =>
    intro k
    rw [hsame.complete]
    exact h.log k
  case token => exact htoken

theorem TokenAt.receiver (h : TokenAt m a place) (hsame : WriterSame a b) :
    TokenAt { m with cpipe := p, active := act, receiver := pc } b place := by
  refine { h with pipe := ?_ }
  rw [hsame.writer]
  exact h.pipe

theorem Facts.good_receiver (h : Facts m a) (htoken : TokenAt m a place) (hinv : Inv b)
    (hsim : Simulates p b cs) (hsame : WriterSame a b)
    (hphase : Phase { m with cpipe := p, active := act, receiver := pc } b place) :
    Good { m with cpipe := p, active := act, receiver := pc } :=
  ⟨b, cs, hinv, hsim, h.receiver hsame ⟨place, htoken.receiver hsame, hphase⟩⟩

section Steps
variable (hinv : Inv a) (hsim : Simulates m.cpipe a cs) (h : Facts m a)
  (htoken : TokenAt m a place) (hphase : Phase m a place)
include hinv hsim h htoken hphase

theorem good_recv (hpc : m.receiver = .idle) (hstep : Mailboxes.step m .recv = some t) :
    Good t := by
  simp only [Mailboxes.step, if_neg (show ¬ m.failed = true by simp [h.failed]), hpc] at hstep
  cases hactive : m.active with
  | true =>
    simp only [Phase, hactive, hpc] at hphase
    rw [hactive, if_pos rfl] at hstep
    obtain ⟨p, b, cs', rfl, hb, hinv', hsim'⟩ := usePipe_cases hinv hsim hstep
    simp only [YPipes.step, hinv.failed, Bool.false_eq_true, if_false, hphase.1] at hb
    cases hb
    refine h.good_receiver htoken hinv' hsim' ⟨rfl, rfl, rfl, rfl⟩ ?_
    simp only [Phase, hactive, Reading]
    exact hphase.2
  | false =>
    simp only [Phase, hactive, hpc] at hphase
    rw [hactive] at hstep
    cases hstep
    refine h.good_receiver htoken hinv hsim ⟨rfl, rfl, rfl, rfl⟩ ?_
    simp only [Phase]
    exact hphase

variable (hstep : m.receiverStep expired = some t)
include hstep

theorem good_reading (hpc : m.receiver = .reading) : Good t := by
  simp only [Mailbox.receiverStep, hpc] at hstep
  obtain ⟨p, b, cs', rfl, hb, hinv', hsim'⟩ := usePipe_cases hinv hsim hstep
  have hreader := reader_step hinv hb
  have hsame := reader_same hreader
  have hactive := hphase.active (.inl hpc)
  simp only [Phase, hactive, hpc] at hphase
  rw [reader_eq hsim', reader_eq hsim]
  rcases reading_iff.mp hphase with ⟨hreading, hawake, hplace⟩ | ⟨hat, hfailing, hrest⟩
  · rcases rereading_step hinv hinv' hawake hreading hreader with
      ⟨hnone, -, -, hcases⟩ | ⟨hsome, hawake', hat', -⟩
    · rw [hnone]
      refine h.good_receiver htoken hinv' hsim' hsame ?_
      simp only [Phase, hactive, hpc]
      rcases hcases with ⟨hawake', hreading', -⟩ | ⟨-, hasleep, hat', hfailing⟩
      · exact reading_iff.mpr (.inl ⟨hreading', hawake', hplace⟩)
      · exact reading_iff.mpr (.inr ⟨hat', hfailing, .inl ⟨hasleep, hplace⟩⟩)
    · rw [hsome]
      refine h.good_receiver htoken hinv' hsim' hsame ?_
      simp only [Phase, hactive, hat', true_and]
      exact ⟨hawake', hplace⟩
  · have hfail : some (Queue.front a.queue) = a.r ∨ a.r = none := hfailing.symm.imp_left Eq.symm
    simp only [readerStep, hat, if_pos hfail] at hreader
    cases hreader
    rw [hat]
    exact h.good_receiver htoken hinv' hsim' hsame ⟨rfl, hrest⟩

theorem good_waiting (hpc : m.receiver = .waiting) : Good t := by
  have hactive := hphase.passive (.inl hpc)
  simp only [Phase, hactive, hpc] at hphase
  simp only [Mailbox.receiverStep, hpc] at hstep
  split at hstep
  · cases hstep
    refine h.good_receiver htoken hinv hsim ⟨rfl, rfl, rfl, rfl⟩ ?_
    simp only [hactive]
    exact hphase
  · split at hstep
    · rename_i hsignal
      cases hstep
      refine h.good_receiver htoken hinv hsim ⟨rfl, rfl, rfl, rfl⟩ ?_
      have hplace : place = .signaler := by
        by_contra hne
        rw [htoken.signals, if_neg hne] at hsignal
        cases hsignal
      simp only [hactive]
      refine ⟨hphase.1, hphase.2.resolve_left ?_, hplace⟩
      rintro ⟨-, hnowhere⟩
      rw [hplace] at hnowhere
      cases hnowhere
    · cases hstep

/-- There is exactly one signal: the receiver takes the token, and there is something to
be read. -/
theorem good_receiving (hpc : m.receiver = .receiving) : Good t := by
  have hactive := hphase.passive (.inr hpc)
  simp only [Phase, hactive, hpc] at hphase
  obtain ⟨hidle, hcalled, rfl⟩ := hphase
  have hone : m.signals = 1 := htoken.signals
  simp only [Mailbox.receiverStep, hpc, if_neg (show ¬ m.signals = 0 by omega),
    if_neg (show ¬ 1 < m.signals by omega)] at hstep
  have hsim0 : Simulates
      ({ m with signals := 0, receiver := .receiving } : Mailbox n α).cpipe a cs := hsim
  obtain ⟨p, b, cs', rfl, hb, hinv', hsim'⟩ := usePipe_cases hinv hsim0 hstep
  simp only [YPipes.step, hinv.failed, Bool.false_eq_true, if_false, hidle, some.injEq] at hb
  refine ⟨b, cs', hinv', hsim', ?_⟩
  subst hb
  refine h.receiver ⟨rfl, rfl, rfl, rfl⟩ ⟨.nowhere, ⟨rfl, ?_, ?_⟩, ?_⟩
  · intro k
    have hk := htoken.sender k
    exact hk.trans ⟨by rintro ⟨⟩, by rintro ⟨⟩⟩
  · exact htoken.pipe.trans ⟨by rintro ⟨⟩, by rintro ⟨⟩⟩
  · exact ⟨⟨hcalled.1, rfl⟩, hcalled.2.2, trivial⟩

/-- The `read` after a signal finds a command. -/
theorem good_rereading (hpc : m.receiver = .rereading) : Good t := by
  simp only [Mailbox.receiverStep, hpc] at hstep
  obtain ⟨p, b, cs', rfl, hb, hinv', hsim'⟩ := usePipe_cases hinv hsim hstep
  have hreader := reader_step hinv hb
  have hsame := reader_same hreader
  have hactive := hphase.active (.inr hpc)
  simp only [Phase, hactive, hpc] at hphase
  obtain ⟨⟨hawake, hplace⟩, hunread, hreading⟩ := hphase
  rw [reader_eq hsim', reader_eq hsim]
  rcases rereading_step hinv hinv' hawake hreading hreader with
    ⟨hnone, hfront, -, ⟨hawake', hreading', -⟩ | ⟨hnot, -⟩⟩ | ⟨hsome, hawake', hat', -⟩
  · rw [hnone]
    refine h.good_receiver htoken hinv' hsim' hsame ?_
    simp only [hactive, hpc]
    refine ⟨⟨hawake', hplace⟩, ?_, hreading'⟩
    rw [hfront, hsame.sent]
    exact hunread
  · exact absurd hunread hnot
  · rw [hsome]
    refine h.good_receiver htoken hinv' hsim' hsame ?_
    simp only [Phase, hactive, hat', true_and]
    exact ⟨hawake', hplace⟩

end Steps

theorem good_step {input : Mailboxes.Input α} (hgood : Good m)
    (hstep : Mailboxes.step m input = some t) : Good t := by
  obtain ⟨a, cs, hinv, hsim, h⟩ := hgood
  obtain ⟨place, htoken, hphase⟩ := h.token
  have hnot : ¬ m.failed = true := by simp [h.failed]
  cases input with
  | send k cmd =>
    cases hpc : m.sender k <;> simp only [Mailboxes.step, if_neg hnot, hpc] at hstep <;> cases hstep
    exact good_send hinv hsim h htoken hphase hpc
  | sender k chunk =>
    simp only [Mailboxes.step, if_neg hnot] at hstep
    exact good_sender ⟨a, cs, hinv, hsim, h⟩ hstep
  | recv =>
    cases hpc : m.receiver with
    | idle => exact good_recv hinv hsim h htoken hphase hpc hstep
    | _ => simp [Mailboxes.step, hpc] at hstep
  | receiver expired =>
    simp only [Mailboxes.step, if_neg hnot] at hstep
    cases hpc : m.receiver with
    | idle => simp [Mailbox.receiverStep, hpc] at hstep
    | reading => exact good_reading hinv hsim h htoken hphase hstep hpc
    | waiting => exact good_waiting hinv hsim h htoken hphase hstep hpc
    | receiving => exact good_receiving hinv hsim h htoken hphase hstep hpc
    | restoring extra =>
      cases hactive : m.active <;> simp [Phase, hactive, hpc] at hphase
    | rereading => exact good_rereading hinv hsim h htoken hphase hstep hpc

end Receiver

section Runs
variable {s : ChunkPipe n (Nat × α)} {a : Pipe (Nat × α)} {cs : List Nat} {m t : Mailbox n α}

theorem exec_simulated {u : ChunkPipe n (Nat × α)} (inputs : List (YPipes.Input (Nat × α)))
    (hinv : Inv a) (hsim : Simulates s a cs) (h : exec Always YPipes.step s inputs = some u) :
    ∃ b cs', exec Always YPipes.step a inputs = some b ∧ Inv b ∧ Simulates u b cs' := by
  induction inputs generalizing s a cs with
  | nil =>
    cases h
    exact ⟨a, cs, rfl, hinv, hsim⟩
  | cons i later ih =>
    rw [exec_always_cons, bind_eq_some_iff] at h
    obtain ⟨p, hp, h⟩ := h
    obtain ⟨b, cs', hb, hsim'⟩ := step_simulated hinv hsim hp
    obtain ⟨c, cs'', hc, hrest⟩ := ih (inv_step hinv hb) hsim' h
    refine ⟨c, cs'', ?_, hrest⟩
    rw [exec_always_cons, hb]
    exact hc

theorem initial_good (h : Mailboxes.Initial m) : Good m := by
  obtain ⟨p, hp, q, hq, rfl⟩ := h
  obtain ⟨cs, hsim⟩ := initial_simulated hp
  obtain ⟨b, cs', hb, hinv, hsim'⟩ := exec_simulated _ new_inv hsim hq
  have hb' : b = { (YPipe.new Positions.new : Pipe (Nat × α)) with
      c := none, asleep := true } := by
    refine some.inj (hb.symm.trans ?_)
    simp [exec, Always, YPipes.step, readerStep, YPipe.new, Positions.new, Queue.back, Queue.front]
  refine ⟨b, cs', hinv, hsim', ?_⟩
  subst hb'
  constructor
  case failed => rfl
  case unfinished => rfl
  case free => exact fun _ => ⟨rfl, rfl⟩
  case holder => rintro k ⟨⟩
  case others => exact fun k _ => trivial
  case log => exact fun k => rfl
  case token =>
    refine ⟨.nowhere, ⟨rfl, ?_, ?_⟩, ⟨rfl, .inl ⟨rfl, rfl⟩⟩⟩
    · intro k
      exact ⟨by rintro ⟨⟩, by rintro ⟨⟩⟩
    · exact ⟨by rintro ⟨_, ⟨⟩⟩, by rintro ⟨⟩⟩

theorem good_of_reach (h : Reach Mailboxes.Initial Always Mailboxes.step m) : Good m := by
  apply h.invariant (fun m => initial_good)
  intro m input t hgood _ hstep
  exact good_step hgood hstep

/-- The inputs of the receiving thread that does not give up waiting. -/
def Receives : Mailboxes.Input α → Prop
  | .recv => True
  | .receiver expired => expired = false
  | _ => False

/-- The check that is being made will succeed. -/
def finding (p : ChunkPipe n (Nat × α)) : Bool :=
  decide (some (Queue.front p.queue) ≠ p.r ∧ p.r ≠ none)

def readRank (p : ChunkPipe n (Nat × α)) : Nat :=
  match p.reader with
  | .checking _ => 6
  | .prefetching _ => 5
  | .testing _ => if finding p then 4 else 9
  | .fetching => 3
  | .popping _ => 2
  | .idle => 0

/-- How far the receiver is from getting a command, if there is one. -/
def rank (m : Mailbox n α) : Nat :=
  match m.receiver with
  | .idle => if m.active then 7 else 9
  | .waiting => 8
  | .receiving => 7
  | .restoring _ => 7
  | .reading => readRank m.cpipe
  | .rereading => readRank m.cpipe

def remaining (m : Mailbox n α) : Nat :=
  10 * (m.cpipe.complete.length - m.cpipe.received.length) + rank m

/-- The receiver has come closer to a command. -/
def Nearer (m t : Mailbox n α) : Prop :=
  t.sender = m.sender ∧ t.issued = m.issued ∧ t.cpipe.complete = m.cpipe.complete ∧
    remaining t < remaining m

theorem finding_iff (hinv : Inv a) (h : Simulates s a cs) : finding s = true ↔ ¬ Failing a := by
  obtain ⟨q, w, f, r, c, rfl⟩ := h.embedded
  have hfront := h.front_eq_r hinv
  have hnone := h.r_eq_none
  simp only [finding, decide_eq_true_eq, Failing, not_or]
  change some (Queue.front q) ≠ r ∧ r ≠ none ↔ _
  rw [Ne, Ne, hfront, hnone]
  constructor
  · rintro ⟨hne, hsome⟩
    exact ⟨hsome, fun heq => hne heq.symm⟩
  · rintro ⟨hsome, hne⟩
    exact ⟨fun heq => hne heq.symm, hsome⟩

theorem readRank_eq (hinv : Inv a) (h : Simulates s a cs) (hreading : Rereading a) :
    readRank s = stage a.reader := by
  have hfinding := finding_iff hinv h
  unfold readRank
  rw [reader_eq h]
  unfold Rereading at hreading
  split at hreading <;> simp_all [stage]

theorem readerStep_total {p : ChunkPipe n (Nat × α)} (h : p.reader ≠ .idle) :
    ∃ q, readerStep p = some q := by
  unfold readerStep
  split
  · contradiction
  all_goals
    try split
    all_goals exact ⟨_, rfl⟩

theorem shared_eq (h : Simulates s a cs) :
    s.complete = a.complete ∧ s.received = a.received ∧ s.sent = a.sent ∧ s.failed = a.failed := by
  rw [h.rest]
  exact ⟨rfl, rfl, rfl, rfl⟩

theorem read_progress (hinv : Inv a) (hsim : Simulates m.cpipe a cs) (hactive : m.active = true)
    (hreceiver : m.receiver = .reading ∨ m.receiver = .rereading)
    (hunread : a.queue.front < a.sent.length) (hreading : Rereading a) (hawake : a.asleep = false) :
    ∃ t, m.receiverStep false = some t ∧ Nearer m t := by
  have hreader : m.cpipe.reader = a.reader := reader_eq hsim
  obtain ⟨hcomplete, hreceived, -, hfailed⟩ := shared_eq hsim
  have hne : m.cpipe.reader ≠ .idle := by
    rw [hreader]
    intro hidle
    simp [Rereading, hidle] at hreading
  obtain ⟨p, hp⟩ := readerStep_total hne
  have hstep : YPipes.step m.cpipe .reader = some p := by
    simpa [YPipes.step, hfailed, hinv.failed] using hp
  obtain ⟨b, cs', hb, hsim'⟩ := step_simulated hinv hsim hstep
  have hinv' := inv_step hinv hb
  have hb' := reader_step hinv hb
  have hsame := reader_same hb'
  have hreader' : p.reader = b.reader := reader_eq hsim'
  obtain ⟨hcomplete', hreceived', -, -⟩ := shared_eq hsim'
  have hkeep : p.complete = m.cpipe.complete := by rw [hcomplete', hcomplete, hsame.complete]
  have hrank : rank m = readRank m.cpipe := by
    rcases hreceiver with h | h <;> simp [rank, h]
  have hrank' : rank { m with cpipe := p } = readRank p := by
    rcases hreceiver with h | h <;> simp [rank, h]
  rcases rereading_step hinv hinv' hawake hreading hb' with
    ⟨hnone, -, hrec, ⟨-, hreading', hlt⟩ | ⟨hnot, -⟩⟩ | ⟨hsome, -, -, v, hrec⟩
  · refine ⟨{ m with cpipe := p }, ?_, rfl, rfl, hkeep, ?_⟩
    · rcases hreceiver with h | h <;>
        simp [Mailbox.receiverStep, h, Mailbox.usePipe, hstep, hreader, hreader', hnone]
    · rw [remaining, remaining, hrank, hrank', hkeep, readRank_eq hinv' hsim' hreading',
        readRank_eq hinv hsim hreading, hreceived', hrec, ← hreceived]
      omega
  · exact absurd hunread hnot
  · refine ⟨{ m with cpipe := p, receiver := .idle }, ?_, rfl, rfl, hkeep, ?_⟩
    · rcases hreceiver with h | h <;>
        simp [Mailbox.receiverStep, h, Mailbox.usePipe, hstep, hreader, hreader', hsome]
    have hfront := hinv.length_received
    have hlength := hinv.length_le
    rw [remaining, remaining]
    change 10 * (p.complete.length - p.received.length) + (if m.active then 7 else 9) < _
    rw [hactive, if_pos rfl, hkeep, hreceived', hrec, hreceived, hcomplete, List.length_append,
      List.length_singleton, hfront]
    omega

/-- Nobody has the mutex, and the token is in the signaler if there is one. -/
theorem Facts.settled {place : Place} (h : Facts m a) (htoken : TokenAt m a place)
    (hidle : ∀ k, m.sender k = .idle) :
    a.writer = .idle ∧ a.sent = a.complete ∧ (place = .nowhere ∨ place = .signaler) := by
  have hsync : m.sync = none := by
    cases hsync : m.sync with
    | none => rfl
    | some k =>
      have hholds := h.holder k hsync
      rw [hidle k] at hholds
      exact hholds.elim
  obtain ⟨hwriter, hsent⟩ := h.free hsync
  refine ⟨hwriter, hsent, ?_⟩
  cases place with
  | nowhere => exact .inl rfl
  | signaler => exact .inr rfl
  | pipe =>
    obtain ⟨_, hadvancing⟩ := htoken.pipe.mpr rfl
    rw [hwriter] at hadvancing
    cases hadvancing
  | sender k =>
    have howes := (htoken.sender k).mpr rfl
    rw [hidle k] at howes
    cases howes

/-- While no thread sends and there is a command, the receiver comes closer to it. -/
theorem progress (hgood : Good m) (hidle : ∀ k, m.sender k = .idle)
    (hunread : m.cpipe.received.length < m.cpipe.complete.length) :
    ∃ input t, Receives input ∧ Mailboxes.step m input = some t ∧ Nearer m t := by
  obtain ⟨a, cs, hinv, hsim, h⟩ := hgood
  obtain ⟨place, htoken, hphase⟩ := h.token
  obtain ⟨hwriter, hsent, hplace⟩ := h.settled htoken hidle
  obtain ⟨hcomplete, hreceived, -, hpipe⟩ := shared_eq hsim
  have hfront : a.queue.front < a.sent.length := by
    rw [hsent, ← hinv.length_received, ← hreceived, ← hcomplete]
    exact hunread
  have hnotasleep : ¬ Asleep a place := by
    rintro ⟨hasleep, -⟩
    have := hinv.drained hasleep
    omega
  have hnot : ¬ m.failed = true := by simp [h.failed]
  have hpipe' : m.cpipe.failed = false := hpipe.trans hinv.failed
  have hreceiver : ∀ t, m.receiverStep false = some t → Nearer m t →
      ∃ input t, Receives input ∧ Mailboxes.step m input = some t ∧ Nearer m t := by
    intro t ht hfacts
    refine ⟨.receiver false, t, rfl, ?_, hfacts⟩
    simpa only [Mailboxes.step, if_neg hnot] using ht
  have hread (hreader : a.reader = .idle) :
      YPipes.step m.cpipe .read = some { m.cpipe with reader := .checking true } := by
    simp [YPipes.step, hpipe', (reader_eq hsim).trans hreader]
  unfold Phase at hphase
  split at hphase
  · rename_i hactive hpc
    refine ⟨.recv, { m with receiver := .waiting }, trivial, ?_, rfl, rfl, rfl, ?_⟩
    · simp [Mailboxes.step, h.failed, hpc, hactive]
    · simp [remaining, rank, hpc, hactive]
  · rename_i hactive hpc
    have hcalled := hphase.2.resolve_left hnotasleep
    have hsignals : m.signals = 1 := by
      rw [htoken.signals, if_pos (hplace.resolve_left hcalled.2.1)]
    refine hreceiver { m with receiver := .receiving } ?_ ⟨rfl, rfl, rfl, ?_⟩
    · simp [Mailbox.receiverStep, hpc, hsignals]
    · simp [remaining, rank, hpc]
  · rename_i hactive hpc
    obtain ⟨hreader, -, rfl⟩ := hphase
    have hsignals : m.signals = 1 := htoken.signals
    refine hreceiver { m with
      signals := 0, active := true, receiver := .rereading
      cpipe := { m.cpipe with reader := .checking true } } ?_ ⟨rfl, rfl, rfl, ?_⟩
    · simp [Mailbox.receiverStep, hpc, hsignals, Mailbox.activate, Mailbox.usePipe, hread hreader]
    · simp [remaining, rank, readRank, hpc]
  · rename_i hactive hpc
    obtain ⟨hreader, -⟩ := hphase
    refine ⟨.recv, { m with
      receiver := .reading, cpipe := { m.cpipe with reader := .checking true } },
      trivial, ?_, rfl, rfl, rfl, ?_⟩
    · simp [Mailboxes.step, h.failed, hpc, hactive, Mailbox.usePipe, hread hreader]
    · simp [remaining, rank, readRank, hpc, hactive]
  · rename_i hactive hpc
    rcases reading_iff.mp hphase with ⟨hreading, hawake, -⟩ | ⟨hat, hfail, -⟩
    · obtain ⟨t, ht, hfacts⟩ := read_progress hinv hsim hactive (.inl hpc) hfront hreading hawake
      exact hreceiver t ht hfacts
    · -- The reader fell asleep and was woken up again: it will wait, and find the signal.
      have hat' : m.cpipe.reader = .testing true := (reader_eq hsim).trans hat
      have hnone : finding m.cpipe = false := by
        rw [← Bool.not_eq_true, finding_iff hinv hsim, not_not]
        exact hfail
      have hcond : some (Queue.front m.cpipe.queue) = m.cpipe.r ∨ m.cpipe.r = none := by
        simp only [finding, decide_eq_false_iff_not, not_and,not_not] at hnone
        by_cases heq : some (Queue.front m.cpipe.queue) = m.cpipe.r
        · exact .inl heq
        · exact .inr (hnone heq)
      have hread : YPipes.step m.cpipe .reader = some { m.cpipe with reader := .idle } := by
        simp [YPipes.step, hpipe', readerStep, hat', if_pos hcond]
      refine hreceiver { m with
        active := false, receiver := .waiting, cpipe := { m.cpipe with reader := .idle } } ?_
        ⟨rfl, rfl, rfl, ?_⟩
      · simp [Mailbox.receiverStep, hpc, Mailbox.usePipe, hread, hat', fetched]
      · simp [remaining, rank, readRank, hpc, hat', hnone]
  · rename_i hactive hpc
    obtain ⟨⟨hawake, -⟩, -, hreading⟩ := hphase
    obtain ⟨t, ht, hfacts⟩ := read_progress hinv hsim hactive (.inr hpc) hfront hreading hawake
    exact hreceiver t ht hfacts
  · exact hphase.elim

theorem drains {bound : Nat} (hgood : Good m) (hidle : ∀ k, m.sender k = .idle)
    (hbound : remaining m < bound) :
    ∃ inputs : List (Mailboxes.Input α), (∀ i ∈ inputs, Receives i) ∧
      ∃ t ∈ exec Always Mailboxes.step m inputs, ∀ k, commands k t.cpipe.received = m.issued k := by
  induction bound generalizing m with
  | zero => cases hbound
  | succ bound ih =>
    by_cases hunread : m.cpipe.received.length < m.cpipe.complete.length
    · obtain ⟨input, t, hinput, hstep, hsender, hissued, -, hless⟩ := progress hgood hidle hunread
      obtain ⟨inputs, hinputs, u, hu, hall⟩ :=
        ih (good_step hgood hstep) (by rw [hsender]; exact hidle) (by omega)
      refine ⟨input :: inputs, ?_, u, ?_, ?_⟩
      · intro i hi
        rcases List.mem_cons.mp hi with rfl | hi
        · exact hinput
        · exact hinputs i hi
      · rw [exec_always_cons, hstep]
        exact hu
      · rw [← hissued]
        exact hall
    · refine ⟨[], by simp, m, rfl, ?_⟩
      intro k
      obtain ⟨a, cs, hinv, hsim, h⟩ := hgood
      obtain ⟨hcomplete, hreceived, -, -⟩ := shared_eq hsim
      rw [hcomplete, hreceived, hinv.received, List.length_take] at hunread
      rw [hreceived, hinv.received, List.take_of_length_le (by omega), h.log k, hidle k]
      simp [underway]

/-- The signal of thread `k` is still to come. -/
def Signals (m : Mailbox n α) (k : Nat) : Prop :=
  owes (m.sender k) = true ∨
    m.sender k = .flushing ∧ ∃ asleep, m.cpipe.writer = .advancing false asleep

/-- What a mailbox does for its threads. -/
structure Delivers (m : Mailbox n α) : Prop where
  failed : m.failed = false ∧ m.cpipe.failed = false
  order : ∀ k, commands k m.cpipe.received <+: m.issued k
  signalled : m.active = false → m.cpipe.received.length < m.cpipe.sent.length →
    m.signals = 1 ∨ ∃ k, Signals m k
  drains : (∀ k, m.sender k = .idle) →
    ∃ inputs : List (Mailboxes.Input α), (∀ i ∈ inputs, Receives i) ∧
      ∃ t ∈ exec Always Mailboxes.step m inputs, ∀ k, commands k t.cpipe.received = m.issued k

/-- In every interleaving, the commands of a thread are received once and in the order in
which it sent them, and the `read` after a signal succeeds. While the mailbox is passive and
a flushed command has not been read, there is one signal, or it is still to come. When no
thread is sending, the receiver alone gets all commands that were sent. -/
theorem delivers_of_reach (h : Reach Mailboxes.Initial Always Mailboxes.step m) : Delivers m := by
  have hgood := good_of_reach h
  have hdrains := fun hidle => drains hgood hidle (Nat.lt_succ_self (remaining m))
  obtain ⟨a, cs, hinv, hsim, h⟩ := hgood
  obtain ⟨hcomplete, hreceived, hsent, hfailed⟩ := shared_eq hsim
  refine ⟨⟨h.failed, hfailed.trans hinv.failed⟩, ?_, ?_, hdrains⟩
  · intro k
    rw [h.log k, hreceived, hinv.received]
    have hpre := ((List.take_prefix a.queue.front a.complete).filter fun x => x.1 = k).map Prod.snd
    exact hpre.trans (List.prefix_append _ _)
  · intro hactive hunread
    obtain ⟨place, htoken, hphase⟩ := h.token
    have hnotasleep : ¬ Asleep a place := by
      rintro ⟨hasleep, -⟩
      rw [hsent, hreceived, hinv.length_received, hinv.drained hasleep] at hunread
      exact Nat.lt_irrefl _ hunread
    have hcalled : Called a place := by
      unfold Phase at hphase
      rw [hactive] at hphase
      split at hphase
      · exact hphase.2.resolve_left hnotasleep
      · exact hphase.2.resolve_left hnotasleep
      · exact hphase.2.1
      all_goals contradiction
    cases place with
    | nowhere => exact absurd rfl hcalled.2.1
    | signaler => exact .inl htoken.signals
    | sender k => exact .inr ⟨k, .inl ((htoken.sender k).mpr rfl)⟩
    | pipe =>
      obtain ⟨asleep, hat⟩ := htoken.pipe.mpr rfl
      have hwriter := writer_eq hsim
      cases hsync : m.sync with
      | none =>
        have hidle := (h.free hsync).1
        rw [hat] at hidle
        cases hidle
      | some k =>
        have hholds := h.holder k hsync
        refine .inr ⟨k, .inr ⟨?_, asleep, hwriter.trans hat⟩⟩
        cases hpc : m.sender k <;> simp_all [Holds]

/-- A mailbox with chunks of two commands. -/
def fresh : Mailbox 2 Nat where
  cpipe := { YPipe.new
    { (YQueues.YQueue.create 0 : YQueues.YQueue 2 (Nat × Nat)) with
      backChunk := some 0, endPos := 1 } with
    c := none, asleep := true }

theorem fresh_initial : Mailboxes.Initial fresh :=
  ⟨_, ⟨by decide, 0, 1, _, rfl, rfl⟩, _, rfl, rfl⟩

/-- Thread `k` sends, and takes the given number of steps. -/
def sending (k cmd steps : Nat) : List (Mailboxes.Input Nat) :=
  .send k cmd :: (List.range steps).map fun i => .sender k (10 * k + i + 2)

/-- Two commands are sent, one of which finds the reader awake. -/
def twoSendersRun : List (Mailboxes.Input Nat) := sending 0 5 11 ++ sending 1 6 9

theorem twoSendersRun_delivers :
    ∃ m : Mailbox 2 Nat, Reach Mailboxes.Initial Always Mailboxes.step m ∧ Delivers m ∧
      m.active = false ∧ m.cpipe.sent = [(0, 5), (1, 6)] ∧ m.signals = 1 := by
  refine Reach.of_exec_left (s := fresh) Always Mailboxes.step twoSendersRun ?_ fresh_initial
    fun m hm => delivers_of_reach hm
  decide +kernel

/-- Thread 0 has flushed its command and has not sent the signal when thread 1 sends a
command from the first to the last step: the mailbox is passive, the command of thread 1 is
not read, and there is no signal. -/
theorem sent_without_signal :
    ∃ m : Mailbox 2 Nat, Reach Mailboxes.Initial Always Mailboxes.step m ∧ m.active = false ∧
      m.sender 1 = .idle ∧ m.issued 1 = [6] ∧ m.cpipe.received = [] ∧ m.signals = 0 := by
  refine Reach.of_exec (s := fresh) Always Mailboxes.step (sending 0 5 10 ++ sending 1 6 9) ?_
    fresh_initial
  decide +kernel

end Runs

end Uzmq.MailboxDelivery
