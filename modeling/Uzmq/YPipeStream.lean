import Uzmq.YPipes

/-!
# The stream through a lock-free pipe

First for elements with consecutive addresses. Up to `f` the elements are the parts
of the complete messages, from there on those of the unfinished one. `c` is null if
the reader went to sleep and was not woken up, and the end of the flushed parts
otherwise; the reader only reads what lies before a value of `c` it has seen.
-/

namespace Uzmq.YPipeStream

open Function List
open YPipes Runs

variable {α : Type}

abbrev Pipe (α : Type) := YPipe (Positions α) Nat α

/-- All parts in writing order. -/
def written (s : Pipe α) : List α := s.complete ++ s.unfinished

/-- The back of the queue, and how far a rollback has got. -/
def WriterAt (s : Pipe α) : Prop :=
  match s.writer with
  | .pushing value _ =>
    s.queue.back = (written s).length ∧ s.queue.slots (written s).length = some value
  | .completing value =>
    s.queue.back = (written s).length + 1 ∧ s.queue.slots (written s).length = some value
  | .comparing removed => ∃ k ≤ s.unfinished.length,
    s.queue.back = s.complete.length + k ∧ removed = (s.unfinished.drop k).reverse
  | .unpushing removed => ∃ k < s.unfinished.length,
    s.queue.back = s.complete.length + (k + 1) ∧ removed = (s.unfinished.drop (k + 1)).reverse
  | .taking removed => ∃ k < s.unfinished.length,
    s.queue.back = s.complete.length + k ∧ removed = (s.unfinished.drop (k + 1)).reverse
  | .waking asleep => s.queue.back = (written s).length ∧ s.asleep = true ∧ asleep = true
  | .advancing result asleep =>
    s.queue.back = (written s).length ∧ s.sent = s.complete ∧ result = !asleep
  | _ => s.queue.back = (written s).length

def ReaderAt (s : Pipe α) : Prop :=
  match s.reader with
  | .prefetching _ => s.r = none ∨ s.r = some s.queue.front
  | .fetching => ∃ p, s.r = some p ∧ s.queue.front < p
  | .popping value => (∃ p, s.r = some p ∧ s.queue.front < p) ∧
    s.complete[s.queue.front]? = some value
  | _ => True

structure Inv (s : Pipe α) : Prop where
  failed : s.failed = false
  f : s.f = s.complete.length
  w : (∀ result asleep, s.writer ≠ .advancing result asleep) → s.w = s.sent.length
  sent : s.sent <+: s.complete
  front : s.queue.front ≤ s.sent.length
  received : s.received = s.complete.take s.queue.front
  slots : ∀ i < (written s).length, s.queue.slots i = (written s)[i]?
  writer : WriterAt s
  reader : ReaderAt s
  c : s.c = if s.asleep then none else some s.sent.length
  drained : s.asleep = true → s.queue.front = s.sent.length
  r : ∀ p ∈ s.r, s.queue.front ≤ p ∧ p ≤ s.sent.length
  rollback : ∀ x ∈ s.lastRollback, x.2 = x.1.reverse
  flush : ∀ x ∈ s.lastFlush, x.1 = !x.2

variable {value : α} {incomplete asleep reading : Bool} {removed : List α}

section Writer
variable {s t : Pipe α} {chunk : Nat}

theorem Inv.length_le (h : Inv s) : s.sent.length ≤ s.complete.length := h.sent.length_le

theorem Inv.length_received (h : Inv s) : s.received.length = s.queue.front := by
  have hlength := h.length_le
  have hfront := h.front
  rw [h.received, length_take]
  omega

/-- A part that is being read stays where it is when more messages are completed. -/
theorem reader_append (h : ReaderAt s) (hcomplete : s.complete <+: t.complete)
    (hreader : t.reader = s.reader) (hr : t.r = s.r) (hfront : t.queue.front = s.queue.front) :
    ReaderAt t := by
  unfold ReaderAt at h ⊢
  rw [hreader, hr, hfront]
  cases hs : s.reader with
  | popping value =>
    rw [hs] at h
    obtain ⟨hp, hvalue⟩ := h
    obtain ⟨more, hmore⟩ := hcomplete
    refine ⟨hp, ?_⟩
    rw [← hmore, getElem?_append_left]
    · exact hvalue
    · exact (List.getElem?_eq_some_iff.mp hvalue).1
  | _ =>
    rw [hs] at h
    exact h

section
variable (h : Inv s)
include h

theorem written_getElem {k : Nat} (hk : k < s.unfinished.length) :
    s.queue.slots (s.complete.length + k) = some s.unfinished[k] := by
  have hlt : s.complete.length + k < (written s).length := by
    rw [written, length_append]
    omega
  rw [h.slots _ hlt, written, getElem?_append_right (Nat.le_add_right _ _)]
  rw [Nat.add_sub_cancel_left]
  exact getElem?_eq_getElem hk

theorem slots_append (hvalue : s.queue.slots (written s).length = some value) :
    ∀ i < (written s ++ [value]).length, s.queue.slots i = (written s ++ [value])[i]? := by
  intro i hi
  rw [length_append, length_singleton] at hi
  by_cases hlast : i = (written s).length
  · subst hlast
    rw [hvalue]
    simp
  · have hlt : i < (written s).length := by omega
    rw [h.slots i hlt, getElem?_append_left hlt]

/-- All complete parts have been flushed, and the reader is awake. -/
theorem flushed_inv {result awake : Bool} (hback : s.queue.back = (written s).length)
    (hresult : result = !asleep) (hawake : awake = false) :
    Inv { s with
      c := some s.f, sent := s.complete, asleep := awake, writer := .advancing result asleep } := by
  have hlength := h.length_le
  have hfront := h.front
  subst hawake
  refine ⟨h.failed, h.f, ?_, prefix_rfl, ?_, h.received, h.slots, ⟨hback, rfl, hresult⟩, h.reader,
    ?_, nofun, ?_, h.rollback, h.flush⟩
  · intro hne
    exact absurd rfl (hne result asleep)
  · change s.queue.front ≤ s.complete.length
    omega
  · change some s.f = some s.complete.length
    rw [h.f]
  · intro p hp
    obtain ⟨hle, hle'⟩ := h.r p hp
    exact ⟨hle, Nat.le_trans hle' hlength⟩

variable (hstep : writerStep s chunk = some t)
include hstep

theorem storing_inv (hpc : s.writer = .storing value incomplete) : Inv t := by
  have hback := h.writer
  simp only [WriterAt, hpc] at hback
  simp only [writerStep, hpc] at hstep
  cases hstep
  have hw : s.w = s.sent.length := h.w (by simp [hpc])
  refine { h with w := fun _ => hw, slots := ?_, writer := ?_ }
  · intro i hi
    have hne : i ≠ s.queue.back := by
      rw [hback]
      exact Nat.ne_of_lt hi
    change update s.queue.slots s.queue.back (some value) i = _
    rw [update_of_ne hne]
    exact h.slots i hi
  · refine ⟨hback, ?_⟩
    change update s.queue.slots s.queue.back (some value) (written s).length = _
    rw [← hback, update_self]

theorem pushing_inv (hpc : s.writer = .pushing value incomplete) : Inv t := by
  have hback := h.writer
  simp only [WriterAt, hpc] at hback
  obtain ⟨hback, hvalue⟩ := hback
  have hw : s.w = s.sent.length := h.w (by simp [hpc])
  simp only [writerStep, hpc, Queue.push] at hstep
  cases incomplete with
  | true =>
    cases hstep
    refine { h with w := fun _ => hw, slots := ?_, writer := ?_ }
    · have hslots := slots_append h hvalue
      simpa only [written, append_assoc] using hslots
    · change s.queue.back + 1 = (s.complete ++ (s.unfinished ++ [value])).length
      rw [hback, ← append_assoc, length_append]
      rfl
  | false =>
    cases hstep
    refine { h with w := fun _ => hw, writer := ?_ }
    refine ⟨?_, hvalue⟩
    change s.queue.back + 1 = (written s).length + 1
    rw [hback]

theorem completing_inv (hpc : s.writer = .completing value) : Inv t := by
  have hback := h.writer
  simp only [WriterAt, hpc] at hback
  obtain ⟨hback, hvalue⟩ := hback
  have hw : s.w = s.sent.length := h.w (by simp [hpc])
  have hlength := h.length_le
  have hfront := h.front
  simp only [writerStep, hpc] at hstep
  cases hstep
  have hcomplete : s.complete <+: s.complete ++ s.unfinished ++ [value] := by
    rw [append_assoc]
    exact prefix_append _ _
  refine ⟨h.failed, ?_, fun _ => hw, h.sent.trans hcomplete, h.front, ?_, ?_, ?_, ?_, h.c,
    h.drained, h.r, h.rollback, h.flush⟩
  · change s.queue.back = (s.complete ++ s.unfinished ++ [value]).length
    rw [hback, length_append]
    rfl
  · change s.received = (s.complete ++ s.unfinished ++ [value]).take s.queue.front
    rw [append_assoc, take_append_of_le_length (by omega)]
    exact h.received
  · have hslots := slots_append h hvalue
    simpa only [written, append_nil] using hslots
  · change s.queue.back = (s.complete ++ s.unfinished ++ [value] ++ []).length
    rw [hback, append_nil, length_append]
    rfl
  · exact reader_append h.reader hcomplete rfl rfl rfl

theorem comparing_inv (hpc : s.writer = .comparing removed) : Inv t := by
  have hat := h.writer
  simp only [WriterAt, hpc] at hat
  obtain ⟨k, hk, hback, hremoved⟩ := hat
  have hw : s.w = s.sent.length := h.w (by simp [hpc])
  have hf := h.f
  simp only [writerStep, hpc] at hstep
  split at hstep
  · rename_i heq
    cases hstep
    have hzero : k = 0 := by
      change s.f = s.queue.back at heq
      omega
    subst hzero
    refine { h with w := fun _ => hw, slots := ?_, writer := ?_, rollback := ?_ }
    · intro i hi
      change i < (s.complete ++ []).length at hi
      change s.queue.slots i = (s.complete ++ [])[i]?
      rw [append_nil] at hi ⊢
      rw [h.slots i (by rw [written, length_append]; omega), written, getElem?_append_left hi]
    · change s.queue.back = (s.complete ++ []).length
      rw [hback, append_nil]
      rfl
    · rintro x ⟨⟩
      exact hremoved
  · rename_i hne
    cases hstep
    obtain ⟨j, rfl⟩ : ∃ j, k = j + 1 := by
      cases k with
      | zero =>
        change ¬ s.f = s.queue.back at hne
        omega
      | succ j => exact ⟨j, rfl⟩
    exact { h with w := fun _ => hw, writer := ⟨j, hk, hback, hremoved⟩ }

theorem unpushing_inv (hpc : s.writer = .unpushing removed) : Inv t := by
  have hat := h.writer
  simp only [WriterAt, hpc] at hat
  obtain ⟨k, hk, hback, hremoved⟩ := hat
  have hw : s.w = s.sent.length := h.w (by simp [hpc])
  simp only [writerStep, hpc] at hstep
  cases hstep
  refine { h with w := fun _ => hw, writer := ⟨k, hk, ?_, hremoved⟩ }
  change s.queue.back - 1 = s.complete.length + k
  omega

theorem taking_inv (hpc : s.writer = .taking removed) : Inv t := by
  have hat := h.writer
  simp only [WriterAt, hpc] at hat
  obtain ⟨k, hk, hback, hremoved⟩ := hat
  have hw : s.w = s.sent.length := h.w (by simp [hpc])
  have hget : Queue.get s.queue (Queue.back s.queue) = some s.unfinished[k] := by
    change s.queue.slots s.queue.back = _
    rw [hback]
    exact written_getElem h hk
  simp only [writerStep, hpc, hget] at hstep
  cases hstep
  refine { h with w := fun _ => hw, writer := ⟨k, Nat.le_of_lt hk, hback, ?_⟩ }
  rw [hremoved, drop_eq_getElem_cons hk, reverse_cons]

theorem flushing_inv (hpc : s.writer = .flushing) : Inv t := by
  have hback := h.writer
  simp only [WriterAt, hpc] at hback
  have hw : s.w = s.sent.length := h.w (by simp [hpc])
  simp only [writerStep, hpc] at hstep
  split at hstep <;> cases hstep <;> exact { h with w := fun _ => hw, writer := hback }

/-- The compare-and-swap fails only if the reader is asleep. -/
theorem swapping_inv (hpc : s.writer = .swapping) : Inv t := by
  have hback := h.writer
  simp only [WriterAt, hpc] at hback
  have hw : s.w = s.sent.length := h.w (by simp [hpc])
  have hc := h.c
  simp only [writerStep, hpc] at hstep
  cases hasleep : s.asleep with
  | true =>
    rw [hasleep] at hc
    rw [if_neg (by rw [hc]; rintro ⟨⟩)] at hstep
    cases hstep
    exact { h with w := fun _ => hw, writer := ⟨hback, hasleep, hasleep⟩ }
  | false =>
    rw [hasleep] at hc
    rw [if_pos (by rw [hc, hw]; rfl)] at hstep
    cases hstep
    exact flushed_inv h hback (by rw [hasleep]; rfl) hasleep

theorem waking_inv (hpc : s.writer = .waking asleep) : Inv t := by
  have hat := h.writer
  simp only [WriterAt, hpc] at hat
  obtain ⟨hback, -, hasleep⟩ := hat
  simp only [writerStep, hpc] at hstep
  cases hstep
  exact flushed_inv h hback (by rw [hasleep]; rfl) rfl

theorem advancing_inv {result : Bool} (hpc : s.writer = .advancing result asleep) : Inv t := by
  have hat := h.writer
  simp only [WriterAt, hpc] at hat
  obtain ⟨hback, hsent, hresult⟩ := hat
  simp only [writerStep, hpc] at hstep
  cases hstep
  refine { h with w := ?_, writer := hback, flush := ?_ }
  · intro _
    rw [hsent, h.f]
  · rintro x ⟨⟩
    exact hresult

theorem writer_inv : Inv t := by
  cases hpc : s.writer with
  | idle => simp [writerStep, hpc] at hstep
  | storing value incomplete => exact storing_inv h hstep hpc
  | pushing value incomplete => exact pushing_inv h hstep hpc
  | completing value => exact completing_inv h hstep hpc
  | comparing removed => exact comparing_inv h hstep hpc
  | unpushing removed => exact unpushing_inv h hstep hpc
  | taking removed => exact taking_inv h hstep hpc
  | flushing => exact flushing_inv h hstep hpc
  | swapping => exact swapping_inv h hstep hpc
  | waking asleep => exact waking_inv h hstep hpc
  | advancing result asleep => exact advancing_inv h hstep hpc

end

end Writer

section Reader
variable {s t : Pipe α}
variable (h : Inv s)
include h

/-- A successful check: there is an element before `r`. -/
theorem found_inv (reading : Bool) (hne : some s.queue.front ≠ s.r) (hnull : s.r ≠ none) :
    Inv (found s reading) := by
  obtain ⟨p, hp⟩ := Option.ne_none_iff_exists'.mp hnull
  have hlt : s.queue.front < p := by
    have hle := (h.r p hp).1
    have : s.queue.front ≠ p := by
      rintro rfl
      exact hne hp.symm
    omega
  refine { h with reader := ?_ }
  cases reading with
  | false => trivial
  | true => exact ⟨p, hp, hlt⟩

variable (hstep : readerStep s = some t)
include hstep

theorem checking_inv (hpc : s.reader = .checking reading) : Inv t := by
  simp only [readerStep, hpc] at hstep
  split at hstep
  · rename_i hfound
    cases hstep
    exact found_inv h reading hfound.1 hfound.2
  rename_i hnot
  cases hstep
  refine { h with reader := ?_ }
  by_cases hnull : s.r = none
  · exact .inl hnull
  · right
    by_contra hne
    exact hnot ⟨fun heq => hne heq.symm, hnull⟩

/-- The reader sees all flushed parts, or it falls asleep. -/
theorem prefetching_inv (hpc : s.reader = .prefetching reading) : Inv t := by
  have hc := h.c
  have hwriter : ∀ b : Bool, (s.asleep = true → b = true) → WriterAt s →
      ∀ c r reader, WriterAt { s with c := c, r := r, reader := reader, asleep := b } := by
    intro b hb hat c r reader
    unfold WriterAt at hat ⊢
    cases hw : s.writer <;> simp only [hw] at hat ⊢ <;> first | exact hat | skip
    exact ⟨hat.1, hb hat.2.1, hat.2.2⟩
  simp only [readerStep, hpc] at hstep
  cases hstep
  cases hasleep : s.asleep with
  | true =>
    rw [hasleep] at hc
    refine { h with writer := ?_, reader := trivial, c := ?_, drained := ?_, r := ?_ }
    · exact hwriter _ (by simp) h.writer _ _ _
    · simp [hc]
    · intro _
      exact h.drained hasleep
    · intro p hp
      rw [hc] at hp
      cases hp
  | false =>
    rw [hasleep] at hc
    by_cases hempty : s.queue.front = s.sent.length
    · refine { h with writer := ?_, reader := trivial, c := ?_, drained := ?_, r := ?_ }
      · refine hwriter _ ?_ h.writer _ _ _
        simp [hasleep]
      · simp [hc, Queue.front, hempty]
      · intro _
        exact hempty
      · intro p hp
        rw [hc] at hp
        cases hp
        exact ⟨h.front, Nat.le_refl _⟩
    · have hne : ¬ s.sent.length = s.queue.front := by omega
      refine { h with writer := ?_, reader := trivial, c := ?_, drained := ?_, r := ?_ }
      · refine hwriter _ ?_ h.writer _ _ _
        simp [hasleep]
      · simp [hc, Queue.front, hne]
      · simp [hc, Queue.front, hne]
      · intro p hp
        rw [hc] at hp
        cases hp
        exact ⟨h.front, Nat.le_refl _⟩

theorem testing_inv (hpc : s.reader = .testing reading) : Inv t := by
  simp only [readerStep, hpc] at hstep
  split at hstep
  · cases hstep
    exact { h with reader := trivial }
  · rename_i hnot
    cases hstep
    rw [not_or] at hnot
    exact found_inv h reading hnot.1 hnot.2

theorem fetching_inv (hpc : s.reader = .fetching) : Inv t := by
  have hat := h.reader
  simp only [ReaderAt, hpc] at hat
  obtain ⟨p, hp, hlt⟩ := hat
  have hle := (h.r p hp).2
  have hlength := h.length_le
  have hfront : s.queue.front < s.complete.length := by omega
  have hget : Queue.get s.queue (Queue.front s.queue) = some s.complete[s.queue.front] := by
    change s.queue.slots s.queue.front = _
    rw [h.slots _ (by rw [written, length_append]; omega), written, getElem?_append_left hfront]
    exact getElem?_eq_getElem hfront
  simp only [readerStep, hpc, hget] at hstep
  cases hstep
  exact { h with reader := ⟨⟨p, hp, hlt⟩, getElem?_eq_getElem hfront⟩ }

theorem popping_inv (hpc : s.reader = .popping value) : Inv t := by
  have hat := h.reader
  simp only [ReaderAt, hpc] at hat
  obtain ⟨⟨p, hp, hlt⟩, hvalue⟩ := hat
  have hle := (h.r p hp).2
  simp only [readerStep, hpc] at hstep
  cases hstep
  refine { h with front := ?_, received := ?_, reader := trivial, drained := ?_, r := ?_ }
  · change s.queue.front + 1 ≤ s.sent.length
    omega
  · change s.received ++ [value] = s.complete.take (s.queue.front + 1)
    rw [take_add_one, hvalue, h.received]
    rfl
  · intro hasleep
    have := h.drained hasleep
    omega
  · intro q hq
    have heq : q = p := Option.some.inj (hq.symm.trans hp)
    subst heq
    exact ⟨hlt, hle⟩

theorem reader_inv : Inv t := by
  cases hpc : s.reader with
  | idle => simp [readerStep, hpc] at hstep
  | checking reading => exact checking_inv h hstep hpc
  | prefetching reading => exact prefetching_inv h hstep hpc
  | testing reading => exact testing_inv h hstep hpc
  | fetching => exact fetching_inv h hstep hpc
  | popping value => exact popping_inv h hstep hpc

end Reader

section Runs
variable {s t : Pipe α}

theorem inv_step {i : Input α} (h : Inv s) (hstep : step s i = some t) : Inv t := by
  have hback : s.writer = .idle → s.queue.back = (written s).length := by
    intro hpc
    have := h.writer
    simpa only [WriterAt, hpc] using this
  have hw : s.writer = .idle → s.w = s.sent.length := fun hpc => h.w (by simp [hpc])
  simp only [step, h.failed, Bool.false_eq_true, if_false] at hstep
  cases i with
  | write | flush =>
    cases hpc : s.writer <;> simp only [hpc] at hstep <;> cases hstep
    exact { h with failed := rfl, w := fun _ => hw hpc, writer := hback hpc }
  | rollback =>
    cases hpc : s.writer <;> simp only [hpc] at hstep <;> cases hstep
    refine { h with failed := rfl, w := fun _ => hw hpc, writer := ?_ }
    refine ⟨s.unfinished.length, Nat.le_refl _, ?_, by simp⟩
    rw [hback hpc, written, length_append]
  | checkRead | read =>
    cases hpc : s.reader <;> simp only [hpc] at hstep <;> cases hstep
    exact { h with failed := rfl, reader := trivial }
  | writer chunk => exact writer_inv h hstep
  | reader => exact reader_inv h hstep

theorem new_inv : Inv (YPipe.new Positions.new : Pipe α) := by
  refine ⟨rfl, rfl, fun _ => rfl, prefix_rfl, Nat.le_refl _, rfl, ?_, rfl, trivial, rfl, ?_,
    ?_, ?_, ?_⟩
  · intro i hi
    cases hi
  · rintro ⟨⟩
  · rintro p ⟨⟩
    exact ⟨Nat.le_refl _, Nat.le_refl _⟩
  · rintro x ⟨⟩
  · rintro x ⟨⟩

end Runs

end Uzmq.YPipeStream
