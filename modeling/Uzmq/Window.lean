import Mathlib

/-!
# Bounded windows

A sender counts what it sends and hears, with a delay, how much has been taken at the
other end. It sends only while it is less than `limit` ahead of what it has heard. Both
counters have 64 bits, so that only their differences mean anything.

What is sent and not taken stays within the limit, and room that the sender has found is
not lost by hearing more.
-/

namespace Uzmq

open List

/-- `announced` are the counts under way to the sender, and `unread` is how many of the
things it counted have not been taken. -/
structure Window where
  limit : Nat
  written : Nat
  read : Nat
  known : Nat
  announced : List Nat
  unread : Nat

variable {unread : Nat}

namespace Window

def Room (x : Window) : Prop := (x.written + 2 ^ 64 - x.known) % 2 ^ 64 < x.limit

/-- The counters are remainders of numbers that never decrease. Things may be lost, or be
taken without being counted at the other end, so that less may be left than has been
written and not read. -/
structure Tally (x : Window) (written read known : Nat) (announced : List Nat) : Prop where
  written_eq : x.written = written % 2 ^ 64
  read_eq : x.read = read % 2 ^ 64
  known_eq : x.known = known % 2 ^ 64
  announced_eq : x.announced = announced.map (· % 2 ^ 64)
  ordered : (known :: (announced ++ [read])).Pairwise (· ≤ ·)
  unread_le : x.unread + read ≤ written
  limit_le : written ≤ known + x.limit

variable {x : Window} {written read known : Nat} {announced : List Nat}

section
variable (h : x.Tally written read known announced)
include h

theorem Tally.known_le : known ≤ read :=
  (pairwise_cons.mp h.ordered).1 read (by simp)

theorem Tally.room_iff (hlimit : x.limit < 2 ^ 64) : x.Room ↔ written < known + x.limit := by
  have hknown := h.known_le
  have hunread := h.unread_le
  have hbound := h.limit_le
  rw [Room, h.written_eq, h.known_eq]
  omega

theorem Tally.put (hroom : written < known + x.limit) (hunread : unread ≤ x.unread + 1) :
    Tally { x with written := (x.written + 1) % 2 ^ 64, unread := unread }
      (written + 1) read known announced := by
  have hle := h.unread_le
  refine { h with written_eq := ?_, unread_le := ?_, limit_le := hroom }
  · simp [h.written_eq]
  · change unread + read ≤ written + 1
    omega

/-- What has been announced lies between what was heard and what was read. -/
theorem Tally.ordered_read {read' : Nat} (hle : read ≤ read') :
    (known :: (announced ++ [read'])).Pairwise (· ≤ ·) := by
  have hordered : ((known :: announced) ++ [read]).Pairwise (· ≤ ·) := h.ordered
  rw [pairwise_append] at hordered
  obtain ⟨hfront, -, hback⟩ := hordered
  change ((known :: announced) ++ [read']).Pairwise (· ≤ ·)
  rw [pairwise_append]
  refine ⟨hfront, by simp, ?_⟩
  intro a ha b hb
  have := hback a ha read (by simp)
  rw [mem_singleton.mp hb]
  omega

theorem Tally.take (hunread : unread + 1 ≤ x.unread) :
    Tally { x with read := (x.read + 1) % 2 ^ 64, unread := unread }
      written (read + 1) known announced := by
  have hle := h.unread_le
  refine { h with read_eq := ?_, ordered := h.ordered_read (Nat.le_succ read), unread_le := ?_ }
  · simp [h.read_eq]
  · change unread + (read + 1) ≤ written
    omega

theorem Tally.lose (hunread : unread ≤ x.unread) :
    Tally { x with unread := unread } written read known announced := by
  have hle := h.unread_le
  refine { h with unread_le := ?_ }
  change unread + read ≤ written
  omega

theorem Tally.announce :
    Tally { x with announced := x.announced ++ [x.read] }
      written read known (announced ++ [read]) := by
  refine { h with announced_eq := ?_, ordered := ?_ }
  · simp [h.announced_eq, h.read_eq]
  have hordered : ((known :: (announced ++ [read])) ++ [read]).Pairwise (· ≤ ·) := by
    rw [pairwise_append]
    refine ⟨h.ordered, by simp, ?_⟩
    intro a ha b hb
    obtain rfl := mem_singleton.mp hb
    have hordered : ((known :: announced) ++ [b]).Pairwise (· ≤ ·) := h.ordered
    rw [pairwise_append] at hordered
    rcases mem_append.mp (show a ∈ (known :: announced) ++ [b] from ha) with ha | ha
    · exact hordered.2.2 a ha b (by simp)
    · exact Nat.le_of_eq (mem_singleton.mp ha)
  simpa using hordered

end

/-- `p` things are put into the window and `n` are taken out of it. -/
def Moves (p n : Nat) (x y : Window) : Prop :=
  y.limit = x.limit ∧ (x.limit < 2 ^ 64 → ∀ {written read known announced},
    x.Tally written read known announced →
    ∃ announced', y.Tally (written + p) (read + n) known announced')

section Moves
variable {y z : Window} {p n : Nat}

theorem Moves.refl (x : Window) : Moves 0 0 x x := ⟨rfl, fun _ _ _ _ _ htally => ⟨_, htally⟩⟩

theorem Moves.trans {p' n' : Nat} (h : Moves p n x y) (h' : Moves p' n' y z) :
    Moves (p + p') (n + n') x z := by
  refine ⟨h'.1.trans h.1, ?_⟩
  intro hlimit written read known announced htally
  obtain ⟨_, hmid⟩ := h.2 hlimit htally
  obtain ⟨announced', hlast⟩ := h'.2 (by rw [h.1]; exact hlimit) hmid
  rw [Nat.add_assoc, Nat.add_assoc] at hlast
  exact ⟨announced', hlast⟩

theorem moves_put (hroom : x.Room) (hunread : unread ≤ x.unread + 1) :
    Moves 1 0 x { x with written := (x.written + 1) % 2 ^ 64, unread := unread } := by
  refine ⟨rfl, ?_⟩
  intro hlimit written read known announced htally
  exact ⟨_, htally.put ((htally.room_iff hlimit).mp hroom) hunread⟩

theorem moves_take (hunread : unread + 1 ≤ x.unread) :
    Moves 0 1 x { x with read := (x.read + 1) % 2 ^ 64, unread := unread } :=
  ⟨rfl, fun _ _ _ _ _ htally => ⟨_, htally.take hunread⟩⟩

theorem moves_lose (hunread : unread ≤ x.unread) : Moves 0 0 x { x with unread := unread } :=
  ⟨rfl, fun _ _ _ _ _ htally => ⟨_, htally.lose hunread⟩⟩

theorem moves_announce (x : Window) :
    Moves 0 0 x { x with announced := x.announced ++ [x.read] } :=
  ⟨rfl, fun _ _ _ _ _ htally => ⟨_, htally.announce⟩⟩

end Moves

/-- The sender hears the oldest announcement. -/
def hear (x : Window) (count : Nat) (rest : List Nat) : Window :=
  { x with known := count, announced := rest }

/-- More is known after an announcement has been heard, so that room is not lost. -/
theorem Tally.hear {count : Nat} {rest : List Nat} (h : x.Tally written read known announced)
    (hannounced : x.announced = count :: rest) :
    ∃ known' announced', (x.hear count rest).Tally written read known' announced' ∧
      known ≤ known' := by
  cases announced with
  | nil =>
    rw [h.announced_eq] at hannounced
    cases hannounced
  | cons first later =>
    have heq := h.announced_eq
    rw [hannounced, map_cons, cons.injEq] at heq
    obtain ⟨hcount, hrest⟩ := heq
    obtain ⟨hknown, hordered⟩ := pairwise_cons.mp h.ordered
    have hfirst : known ≤ first := hknown first (by simp)
    have hle := h.limit_le
    refine ⟨first, later, ?_, hfirst⟩
    refine ⟨h.written_eq, h.read_eq, hcount, hrest, hordered, h.unread_le, ?_⟩
    change written ≤ first + x.limit
    omega

theorem Tally.bounded (h : x.Tally written read known announced) :
    written ≤ read + x.limit ∧ x.unread ≤ x.limit := by
  have hknown := h.known_le
  have hunread := h.unread_le
  have hlimit := h.limit_le
  omega

end Window

end Uzmq
