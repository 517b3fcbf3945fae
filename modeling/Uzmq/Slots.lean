import Mathlib

/-!
# Arrays of distinct items

An array whose items know their positions: two items can be swapped, an item can be pushed at
the end, and an item is erased by moving the last one to its place. No result stands for an
access out of bounds.

What an operation does is said by the positions of the items after it. Regions of the array
are intervals of positions, so that facts about them are facts of arithmetic.
-/

namespace Uzmq

open List

structure Slots (α : Type) where
  items : List α := []
  nodup : items.Nodup := by exact List.nodup_nil

namespace Slots

variable {α : Type} [DecidableEq α]

def size (s : Slots α) : Nat := s.items.length

def index (s : Slots α) (a : α) : Nat := s.items.idxOf a

def push (s : Slots α) (a : α) : Option (Slots α) :=
  if h : a ∈ s.items then none
  else some ⟨s.items ++ [a], by
    rw [nodup_append']
    exact ⟨s.nodup, nodup_singleton a, by simpa [disjoint_singleton] using h⟩⟩

def swap (s : Slots α) (i j : Nat) : Option (Slots α) :=
  if h : i < s.items.length ∧ j < s.items.length then
    some ⟨(s.items.set i s.items[j]).set j s.items[i],
      (List.Perm.nodup_iff (set_set_perm h.1 h.2)).mpr s.nodup⟩
  else none

/-- The last item takes the place of the one that is erased. -/
def erase (s : Slots α) (a : α) : Option (Slots α) :=
  match s.swap (s.index a) (s.size - 1) with
  | none => none
  | some s' => some ⟨s'.items.dropLast, s'.nodup.sublist (dropLast_sublist _)⟩

section Positions
variable {s s' : Slots α} {a b : α} {i j : Nat}

theorem index_eq_iff (h : i < s.size) : s.index a = i ↔ s.items[i]? = some a := by
  constructor
  · rintro rfl
    have hmem : a ∈ s.items := idxOf_lt_length_iff.mp h
    exact getElem?_idxOf hmem
  · intro hget
    obtain ⟨hlt, rfl⟩ := List.getElem?_eq_some_iff.mp hget
    exact s.nodup.idxOf_getElem i hlt

theorem index_lt_size_iff : s.index a < s.size ↔ a ∈ s.items := idxOf_lt_length_iff

theorem exists_index (h : i < s.size) : ∃ a, a ∈ s.items ∧ s.index a = i := by
  refine ⟨s.items.get ⟨i, h⟩, get_mem _ _, ?_⟩
  exact s.nodup.idxOf_getElem i h

theorem index_inj (ha : a ∈ s.items) : s.index a = s.index b ↔ a = b := idxOf_inj ha

omit [DecidableEq α] in
theorem swap_isSome (hi : i < s.size) (hj : j < s.size) : ∃ s', s.swap i j = some s' := by
  exact ⟨_, by rw [swap, dif_pos ⟨hi, hj⟩]⟩

omit [DecidableEq α] in
theorem swap_self (h : i < s.size) : s.swap i i = some s := by
  unfold swap
  rw [dif_pos ⟨h, h⟩]
  cases s
  simp

structure Swapped (s : Slots α) (i j : Nat) (s' : Slots α) : Prop where
  left : i < s.size
  right : j < s.size
  size : s'.size = s.size
  mem : ∀ a, a ∈ s'.items ↔ a ∈ s.items
  index : ∀ a, s'.index a =
    if s.index a = i then j else if s.index a = j then i else s.index a

theorem swapped_of_swap (h : s.swap i j = some s') : Swapped s i j s' := by
  unfold swap at h
  split at h
  · rename_i hij
    cases h
    have hperm := set_set_perm hij.1 hij.2
    refine ⟨hij.1, hij.2, ?_, fun a => hperm.mem_iff, ?_⟩
    · simp [Slots.size]
    intro a
    by_cases ha : a ∈ s.items
    · have hk := index_lt_size_iff.mpr ha
      obtain ⟨k, hk'⟩ : ∃ k, s.index a = k := ⟨_, rfl⟩
      have hget := (index_eq_iff (by omega)).mp hk'
      obtain ⟨hlt, hgeta⟩ := List.getElem?_eq_some_iff.mp hget
      rw [hk']
      have hsize : ((s.items.set i s.items[j]).set j s.items[i]).length = s.items.length := by simp
      split
      · rename_i hki
        subst hki
        rw [index_eq_iff (by rw [Slots.size, hsize]; exact hij.2)]
        simp [hij.2, hgeta]
      · split
        · rename_i hki hkj
          subst hkj
          rw [index_eq_iff (by rw [Slots.size, hsize]; exact hij.1)]
          rw [getElem?_set_ne hki, getElem?_set_self hij.1, hgeta]
        · rename_i hki hkj
          rw [index_eq_iff (by rw [Slots.size, hsize]; exact hlt)]
          rw [getElem?_set_ne (Ne.symm hkj), getElem?_set_ne (Ne.symm hki), hget]
    · have hsame : s.index a = s.items.length := idxOf_of_notMem ha
      have hlen : ((s.items.set i s.items[j]).set j s.items[i]).length = s.items.length := by simp
      have hafter : idxOf a ((s.items.set i s.items[j]).set j s.items[i]) = s.items.length := by
        rw [idxOf_of_notMem (fun h => ha (hperm.mem_iff.mp h)), hlen]
      rw [hsame, if_neg (by omega), if_neg (by omega)]
      exact hafter
  · cases h

theorem Swapped.index_self (h : Swapped s i i s') (a : α) : s'.index a = s.index a := by
  rw [h.index]
  split <;> simp_all

theorem Swapped.symm (h : Swapped s i j s') : Swapped s j i s' := by
  refine ⟨h.right, h.left, h.size, h.mem, ?_⟩
  intro a
  rw [h.index]
  split
  · split <;> omega
  · rfl

structure Pushed (s : Slots α) (a : α) (s' : Slots α) : Prop where
  new : a ∉ s.items
  size : s'.size = s.size + 1
  mem : ∀ b, b ∈ s'.items ↔ b ∈ s.items ∨ b = a
  own : s'.index a = s.size
  below : ∀ b, b ≠ a → ∀ j, j ≤ s.size → (s'.index b < j ↔ s.index b < j)

theorem pushed_of_push (h : s.push a = some s') : Pushed s a s' := by
  unfold push at h
  split at h
  · cases h
  rename_i hnew
  cases h
  constructor
  · exact hnew
  · simp [Slots.size]
  · intro b
    simp
  · simp [Slots.index, Slots.size, idxOf_append_of_notMem hnew]
  · intro b hb j hj
    change idxOf b (s.items ++ [a]) < j ↔ idxOf b s.items < j
    by_cases hmem : b ∈ s.items
    · rw [idxOf_append_of_mem hmem]
    · rw [idxOf_append_of_notMem hmem, idxOf_of_notMem hmem]
      have : s.items.length = s.size := rfl
      omega

theorem push_isSome (h : a ∉ s.items) : ∃ s', s.push a = some s' := by
  exact ⟨_, by rw [push, dif_neg h]⟩

structure Erased (s : Slots α) (a : α) (s' : Slots α) : Prop where
  old : a ∈ s.items
  size : s'.size + 1 = s.size
  mem : ∀ b, b ∈ s'.items ↔ b ∈ s.items ∧ b ≠ a
  below : ∀ b, b ≠ a → ∀ j, j ≤ s.index a → (s'.index b < j ↔ s.index b < j)

theorem erased_of_erase (h : s.erase a = some s') : Erased s a s' := by
  unfold erase at h
  cases hswap : s.swap (s.index a) (s.size - 1) with
  | none => simp [hswap] at h
  | some s₁ =>
    rw [hswap] at h
    cases h
    have hs := swapped_of_swap hswap
    have hleft := hs.left
    have hold : a ∈ s.items := index_lt_size_iff.mp hleft
    have hsize := hs.size
    have hlength : s₁.items.length = s₁.size := rfl
    have hlast : s₁.index a = s.size - 1 := by
      rw [hs.index, if_pos rfl]
    have hmem (b : α) : b ∈ s₁.items.dropLast ↔ b ∈ s.items ∧ b ≠ a := by
      constructor
      · intro hb
        have hb₁ : b ∈ s₁.items := dropLast_subset _ hb
        refine ⟨(hs.mem b).mp hb₁, ?_⟩
        rintro rfl
        have hlt : s₁.index b < s₁.items.length - 1 := (mem_dropLast_iff_idxOf_lt hb₁).mp hb
        omega
      · rintro ⟨hb, hne⟩
        have hb₁ : b ∈ s₁.items := (hs.mem b).mpr hb
        have hlt := index_lt_size_iff.mpr hb₁
        have hdiff : s₁.index b ≠ s₁.index a := fun heq => hne ((index_inj hb₁).mp heq)
        rw [mem_dropLast_iff_idxOf_lt hb₁]
        change s₁.index b < s₁.items.length - 1
        omega
    constructor
    · exact hold
    · change s₁.items.dropLast.length + 1 = s.size
      rw [length_dropLast]
      omega
    · exact hmem
    · intro b hne j hj
      change idxOf b s₁.items.dropLast < j ↔ _
      by_cases hb : b ∈ s.items
      · have hdrop := (hmem b).mpr ⟨hb, hne⟩
        have hdiff : s.index b ≠ s.index a := fun heq => hne ((index_inj hb).mp heq)
        have hsame : idxOf b s₁.items.dropLast = s₁.index b :=
          List.IsPrefix.idxOf_eq_of_mem ( dropLast_prefix _) hdrop
        rw [hsame, hs.index, if_neg hdiff]
        split <;> omega
      · have hnot : b ∉ s₁.items.dropLast := fun h => hb ((hmem b).mp h).1
        have hout : s.index b = s.size := idxOf_of_notMem hb
        rw [idxOf_of_notMem hnot, length_dropLast]
        omega

theorem erase_isSome (h : a ∈ s.items) : ∃ s', s.erase a = some s' := by
  have hlt := index_lt_size_iff.mpr h
  obtain ⟨s₁, hs₁⟩ := swap_isSome hlt (show s.size - 1 < s.size by omega)
  exact ⟨_, by rw [erase, hs₁]⟩

/-- An item moves to the end of the region of the first `k` positions and leaves it. -/
structure Left (s : Slots α) (a : α) (k : Nat) (s' : Slots α) : Prop where
  size : s'.size = s.size
  mem : ∀ b, b ∈ s'.items ↔ b ∈ s.items
  own : s'.index a = k - 1
  rest : ∀ b, b ≠ a → (s'.index b < k - 1 ↔ s.index b < k)
  below : ∀ b, b ≠ a → ∀ j, j ≤ s.index a → (s'.index b < j ↔ s.index b < j)
  above : ∀ b, ∀ j, k ≤ j → (s'.index b < j ↔ s.index b < j)

theorem Swapped.index_other {j : Nat} (h : Swapped s (s.index a) j s') {b : α} (hb : b ≠ a) :
    s.index b ≠ s.index a ∧ s'.index b = if s.index b = j then s.index a else s.index b := by
  have hne : s.index b ≠ s.index a :=
    fun heq => hb ((index_inj (index_lt_size_iff.mp h.left)).mp heq.symm).symm
  exact ⟨hne, by rw [h.index, if_neg hne]⟩

theorem Swapped.left_region {k : Nat} (h : Swapped s (s.index a) (k - 1) s') (hk : s.index a < k) :
    Left s a k s' := by
  constructor
  · exact h.size
  · exact h.mem
  · rw [h.index, if_pos rfl]
  · intro b hb
    obtain ⟨hne, hindex⟩ := h.index_other hb
    rw [hindex]
    split <;> omega
  · intro b hb j hj
    obtain ⟨hne, hindex⟩ := h.index_other hb
    rw [hindex]
    split <;> omega
  · intro b j hj
    rw [h.index]
    split
    · omega
    · split <;> omega

/-- An item moves to the position after the first `k` and enters the region. -/
structure Entered (s : Slots α) (a : α) (k : Nat) (s' : Slots α) : Prop where
  size : s'.size = s.size
  mem : ∀ b, b ∈ s'.items ↔ b ∈ s.items
  own : s'.index a = k
  rest : ∀ b, b ≠ a → (s'.index b < k + 1 ↔ s.index b < k)
  below : ∀ b, b ≠ a → ∀ j, j ≤ k → (s'.index b < j ↔ s.index b < j)
  above : ∀ b, ∀ j, s.index a < j → (s'.index b < j ↔ s.index b < j)

theorem Swapped.entered {k : Nat} (h : Swapped s (s.index a) k s') (hk : k ≤ s.index a) :
    Entered s a k s' := by
  constructor
  · exact h.size
  · exact h.mem
  · rw [h.index, if_pos rfl]
  · intro b hb
    obtain ⟨hne, hindex⟩ := h.index_other hb
    rw [hindex]
    split <;> omega
  · intro b hb j hj
    obtain ⟨hne, hindex⟩ := h.index_other hb
    rw [hindex]
    split <;> omega
  · intro b j hj
    rw [h.index]
    split
    · omega
    · split <;> omega

/-- A new item is inserted after the first `k` positions. -/
structure Inserted (s : Slots α) (a : α) (k : Nat) (s' : Slots α) : Prop where
  size : s'.size = s.size + 1
  mem : ∀ b, b ∈ s'.items ↔ b ∈ s.items ∨ b = a
  own : s'.index a = k
  rest : ∀ b, b ≠ a → (s'.index b < k + 1 ↔ s.index b < k)
  below : ∀ b, b ≠ a → ∀ j, j ≤ k → (s'.index b < j ↔ s.index b < j)

theorem Pushed.inserted {s₁ : Slots α} {k : Nat} (h : Pushed s a s₁) (hk : k ≤ s.size) :
    ∃ s', s₁.swap k (s₁.size - 1) = some s' ∧ Inserted s a k s' := by
  have hsize := h.size
  have hlast : s₁.index a = s₁.size - 1 := by
    rw [h.own]
    omega
  obtain ⟨s', hs'⟩ := swap_isSome (s := s₁) (i := k) (j := s₁.size - 1) (by omega) (by omega)
  have hswap := (swapped_of_swap hs').symm
  rw [← hlast] at hswap
  have hent := hswap.entered (by omega)
  refine ⟨s', hs', ?_, ?_, hent.own, ?_, ?_⟩
  · rw [hent.size, hsize]
  · intro b
    rw [hent.mem, h.mem]
  · intro b hb
    rw [hent.rest b hb, h.below b hb k hk]
  · intro b hb j hj
    rw [hent.below b hb j hj, h.below b hb j (by omega)]

/-! The items of a region, given as a set, after one of them has been moved. -/

section Regions
variable {P : α → Prop} {j k : Nat}

theorem region_enters (own : s'.index a = k)
    (rest : ∀ b, b ≠ a → (s'.index b < k + 1 ↔ s.index b < k)) (h : ∀ b, s.index b < k ↔ P b)
    (b : α) : s'.index b < k + 1 ↔ P b ∨ b = a := by
  rcases eq_or_ne b a with rfl | hb
  · simp [own]
  · rw [rest b hb, h]
    simp [hb]

theorem region_stays (own : s'.index a = k)
    (below : ∀ b, b ≠ a → ∀ i, i ≤ k → (s'.index b < i ↔ s.index b < i)) (hj : j ≤ k)
    (h : ∀ b, s.index b < j ↔ P b) (ha : ¬ P a) (b : α) : s'.index b < j ↔ P b := by
  rcases eq_or_ne b a with rfl | hb
  · simp only [ha, iff_false]
    omega
  · rw [below b hb j hj, h]

theorem region_loses (own : ¬ s'.index a < j)
    (rest : ∀ b, b ≠ a → (s'.index b < j ↔ s.index b < k)) (h : ∀ b, s.index b < k ↔ P b)
    (b : α) : s'.index b < j ↔ P b ∧ b ≠ a := by
  rcases eq_or_ne b a with rfl | hb
  · simp [own]
  · rw [rest b hb, h]
    simp [hb]

end Regions

end Positions

end Slots

end Uzmq
