import Mathlib

/-!
# Cuts of a stream

A stream cut into non-empty parts. A part is known by its index or by its offset,
the number of elements before it; both order the parts the same way.
-/

namespace Uzmq

universe u

structure Cut (α : Type u) where
  parts : List (List α)
  nonempty : ∀ part ∈ parts, part ≠ []

variable {i : Nat} {j : Nat}

namespace Cut
variable {α : Type u} (c : Cut α)

def stream : List α := c.parts.flatten

def offset (i : Nat) : Nat := (c.parts.take i).flatten.length

@[simp] theorem offset_zero : c.offset 0 = 0 := by simp [offset]

theorem offset_length : c.offset c.parts.length = c.stream.length := by
  simp [offset, stream]

variable {c} {part : List α}

section
variable (h : c.parts[i]? = some part)
include h

theorem flatten_take_succ : (c.parts.take (i + 1)).flatten = (c.parts.take i).flatten ++ part := by
  simp [List.take_add_one, h]

theorem offset_succ : c.offset (i + 1) = c.offset i + part.length := by
  simp [offset, flatten_take_succ h]

theorem part_pos : 0 < part.length := by
  apply List.length_pos_iff.mpr
  exact c.nonempty part (List.mem_of_getElem? h)

end

theorem offset_lt_succ (h : i < c.parts.length) : c.offset i < c.offset (i + 1) := by
  have hpart := List.getElem?_eq_getElem h
  have hpos := part_pos hpart
  rw [offset_succ hpart]
  omega

theorem offset_lt_of_lt (h : i < j) (hj : j ≤ c.parts.length) : c.offset i < c.offset j := by
  induction j with
  | zero => omega
  | succ j ih =>
    have hstep := offset_lt_succ (c := c) (i := j) (by omega)
    rcases eq_or_ne i j with rfl | heq
    · exact hstep
    · omega

theorem offset_le_of_le (h : i ≤ j) (hj : j ≤ c.parts.length) : c.offset i ≤ c.offset j := by
  rcases Nat.lt_or_eq_of_le h with hlt | rfl
  · exact Nat.le_of_lt (offset_lt_of_lt hlt hj)
  · exact Nat.le_refl _

theorem offset_le_length (h : i ≤ c.parts.length) : c.offset i ≤ c.stream.length := by
  rw [← offset_length]
  exact offset_le_of_le h (Nat.le_refl _)

theorem offset_inj (hi : i ≤ c.parts.length) (hj : j ≤ c.parts.length)
    (h : c.offset i = c.offset j) : i = j := by
  rcases Nat.lt_trichotomy i j with hlt | heq | hgt
  · have := offset_lt_of_lt hlt hj
    omega
  · exact heq
  · have := offset_lt_of_lt hgt hi
    omega

theorem flatten_take_le (i : Nat) : (c.parts.take i).flatten <+: c.stream := by
  refine ⟨(c.parts.drop i).flatten, ?_⟩
  rw [← List.flatten_append, List.take_append_drop, stream]

end Cut

end Uzmq
