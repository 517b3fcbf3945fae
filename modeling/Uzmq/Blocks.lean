import Mathlib

/-!
# Memory in blocks

A memory is a family of blocks, each of which maps offsets to values. A range of a block is
loaded as a list, and a list is stored over a range. What is stored is what is loaded from there,
and other blocks and earlier offsets are left as they were.
-/

namespace Uzmq

variable {B V : Type} [DecidableEq B]

/-- The value at each offset of each block. -/
def Blocks (B V : Type) : Type := B → Nat → V

namespace Blocks

/-- The `n` values from an offset on. -/
def load (m : Blocks B V) (b : B) (offset : Nat) : Nat → List V
  | 0 => []
  | n + 1 => m b offset :: load m b (offset + 1) n

/-- Store values from an offset on. -/
def fill (m : Blocks B V) (b : B) (offset : Nat) (values : List V) : Blocks B V :=
  fun c i => if c = b ∧ offset ≤ i then (values[i - offset]?).getD (m c i) else m c i

variable (m : Blocks B V) (b c : B) (offset n : Nat)

section
omit [DecidableEq B]

@[simp] theorem load_length : (m.load b offset n).length = n := by
  induction n generalizing offset with
  | zero => rfl
  | succ n ih => simp [load, ih]

theorem load_add (k : Nat) :
    m.load b offset (n + k) = m.load b offset n ++ m.load b (offset + n) k := by
  induction n generalizing offset with
  | zero => simp [load]
  | succ n ih =>
    have hnext : offset + 1 + n = offset + (n + 1) := by omega
    rw [Nat.add_right_comm, load, load, ih, hnext, List.cons_append]

theorem load_take {k : Nat} (h : k ≤ n) : (m.load b offset n).take k = m.load b offset k := by
  obtain ⟨later, rfl⟩ := Nat.exists_eq_add_of_le h
  rw [load_add, List.take_append_of_le_length (by simp)]
  exact List.take_of_length_le (by simp)

theorem load_drop {k : Nat} (h : k ≤ n) :
    (m.load b offset n).drop k = m.load b (offset + k) (n - k) := by
  obtain ⟨later, rfl⟩ := Nat.exists_eq_add_of_le h
  rw [load_add, Nat.add_sub_cancel_left]
  exact List.drop_left' (by simp)

theorem load_congr {m m' : Blocks B V} (h : ∀ i, offset ≤ i → i < offset + n → m b i = m' b i) :
    m.load b offset n = m'.load b offset n := by
  induction n generalizing offset with
  | zero => rfl
  | succ n ih =>
    have hhead := h offset (Nat.le_refl _) (by omega)
    have htail := ih (offset + 1) fun i hle hlt => h i (by omega) (by omega)
    rw [load, load, hhead, htail]

end

theorem load_fill_of_ne {c b : B} (h : c ≠ b) (i : Nat) (values : List V) :
    (m.fill b offset values).load c i n = m.load c i n := by
  refine load_congr c i n fun j _ _ => ?_
  simp [fill, h]

theorem load_fill_before {i : Nat} (h : i + n ≤ offset) (values : List V) :
    (m.fill b offset values).load c i n = m.load c i n := by
  refine load_congr c i n fun j _ hj => ?_
  have hlt : ¬ offset ≤ j := by omega
  simp [fill, hlt]

theorem load_fill_self (values : List V) :
    (m.fill b offset values).load b offset values.length = values := by
  induction values generalizing m offset with
  | nil => rfl
  | cons v later ih =>
    -- after the first value the rest is stored one further on
    have hhead : m.fill b offset (v :: later) b offset = v := by simp [fill]
    have htail : (m.fill b offset (v :: later)).load b (offset + 1) later.length =
        (m.fill b (offset + 1) later).load b (offset + 1) later.length := by
      refine load_congr b (offset + 1) later.length fun i hle hlt => ?_
      obtain ⟨k, rfl⟩ := Nat.exists_eq_add_of_le hle
      have hoffset : offset + 1 + k - offset = k + 1 := by omega
      have hle' : offset ≤ offset + 1 + k := by omega
      simp [fill, hoffset, hle']
    rw [List.length_cons, load, hhead, htail, ih]

end Blocks

end Uzmq
