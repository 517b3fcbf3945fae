import Mathlib

/-!
# Tables of subnodes

A table maps the bytes from `min` on, `count` of them, to subnodes that may be missing. A
table of one byte is a pointer, and a longer one is an array of pointers, in a union: an
access that does not fit what is stored has no result.

The table is extended to either side for a byte that is out of its range. It is compact if
there is a subnode at either end.
-/

namespace Uzmq

open List

inductive Next (T : Type) where
  | null
  | node (p : Option T)
  | table (l : List (Option T))

/-- `min` has 8 bits, and `count` and `liveNodes` have 16. -/
structure RangeTable (T : Type) where
  min : Nat := 0
  count : Nat := 0
  liveNodes : Nat := 0
  next : Next T := .null

namespace RangeTable

variable {T : Type}
variable (t : RangeTable T)

def covers (c : Nat) : Bool :=
  !(decide (c < t.min) || decide (t.min + t.count ≤ c))

/-- The pointer for a byte in the range. -/
def slot (c : Nat) : Option (Option T) :=
  if t.count = 1 then
    match t.next with
    | .node p => some p
    | _ => none
  else
    match t.next with
    | .table l => l[c - t.min]?
    | _ => none

def setSlot (c : Nat) (p : Option T) : RangeTable T :=
  if t.count = 1 then { t with next := .node p }
  else
    match t.next with
    | .table l => { t with next := .table (l.set (c - t.min) p) }
    | _ => t

/-- Make room for a byte that is out of the range. -/
def extend (c : Nat) : Option (RangeTable T) :=
  if t.count = 0 then some { t with min := c, count := 1, next := .node none }
  else if t.count = 1 then
    match t.next with
    | .node oldp =>
      let count := ((if t.min < c then c - t.min else t.min - c) + 1) % 2 ^ 16
      let min := if c < t.min then c else t.min
      some { t with
        min := min, count := count
        next := .table ((List.replicate count none).set (t.min - min) oldp) }
    | _ => none
  else
    match t.next with
    | .table l =>
      if t.min < c then
        -- The new byte is above the range.
        let count := (c - t.min + 1) % 2 ^ 16
        some { t with count := count, next := .table (l ++ List.replicate (count - t.count) none) }
      else
        let count := (t.min + t.count - c) % 2 ^ 16
        some { t with
          min := c, count := count, next := .table (List.replicate (t.min - c) none ++ l) }
    | _ => none

/-- The range shrinks to `n` entries of the array, from entry `lo` on. -/
def narrow (lo n : Nat) : RangeTable T :=
  match t.next with
  | .table l =>
    { t with
      min := (t.min + lo) % 2 ^ 8, count := n % 2 ^ 16, next := .table ((l.drop lo).take n) }
  | _ => t

def entry (i : Nat) : Option T :=
  match t.next with
  | .table l => (l[i]?).join
  | _ => none

/-- Only entry `i` of the array is kept. -/
def collapse (i : Nat) : RangeTable T :=
  { t with min := (t.min + i) % 2 ^ 8, count := 1, next := .node (t.entry i) }

def find (c : Nat) : Option T :=
  if t.covers c then (t.slot c).join else none

/-- The bytes that have a subnode. -/
def live : Finset Nat := (Finset.range (2 ^ 8)).filter fun c => (t.find c).isSome

/-- What is stored fits the range. -/
structure Shaped (t : RangeTable T) : Prop where
  range : t.min + t.count ≤ 2 ^ 8
  one : t.count = 1 → ∃ p, t.next = .node p
  many : 2 ≤ t.count → ∃ l, t.next = .table l ∧ l.length = t.count

structure Compact (t : RangeTable T) : Prop extends Shaped t where
  first : t.count ≠ 0 → (t.find t.min).isSome
  last : t.count ≠ 0 → (t.find (t.min + t.count - 1)).isSome
  liveNodes : t.liveNodes = t.live.card

section Find
variable {t : RangeTable T} {c d : Nat}

theorem covers_iff : t.covers c = true ↔ t.min ≤ c ∧ c < t.min + t.count := by
  simp [covers]

theorem Shaped.slot_isSome (h : t.Shaped) (hc : t.covers c = true) : ∃ p, t.slot c = some p := by
  rw [covers_iff] at hc
  by_cases hone : t.count = 1
  · obtain ⟨p, hp⟩ := h.one hone
    exact ⟨p, by simp [slot, hone, hp]⟩
  · obtain ⟨l, hl, hlength⟩ := h.many (by omega)
    have hlt : c - t.min < l.length := by omega
    exact ⟨l[c - t.min], by simp [slot, hone, hl, hlt]⟩

theorem find_of_slot {p : Option T} (hc : t.covers c = true) (h : t.slot c = some p) :
    t.find c = p := by
  simp [find, hc, h]

theorem find_eq_none (hc : t.covers c = false) : t.find c = none := by
  simp [find, hc]

theorem find_table {l : List (Option T)} (hcount : t.count ≠ 1) (hnext : t.next = .table l)
    (hlength : l.length = t.count) (c : Nat) :
    t.find c = if t.min ≤ c then (l[c - t.min]?).join else none := by
  by_cases hc : t.covers c = true
  · rw [covers_iff] at hc
    simp [find, covers_iff.mpr hc, slot, hcount, hnext, hc.1]
  rw [find_eq_none (by simpa using hc)]
  rw [covers_iff] at hc
  by_cases hmin : t.min ≤ c
  · have : l.length ≤ c - t.min := by omega
    simp [hmin, getElem?_eq_none this]
  · simp [hmin]

theorem find_node {p : Option T} (hcount : t.count = 1) (hnext : t.next = .node p) (c : Nat) :
    t.find c = if c = t.min then p else none := by
  by_cases hc : c = t.min
  · have hcovers : t.covers c = true := by
      rw [covers_iff]
      omega
    rw [find_of_slot hcovers (by simp [slot, hcount, hnext]; rfl), if_pos hc]
  · rw [find_eq_none, if_neg hc]
    rw [← Bool.not_eq_true, covers_iff]
    omega

theorem covers_of_find (h : (t.find c).isSome) : t.covers c = true := by
  by_contra hc
  rw [find_eq_none (by simpa using hc)] at h
  cases h

theorem Shaped.slot_of_find {m : T} (h : t.Shaped) (hm : t.find c = some m) :
    t.covers c = true ∧ t.slot c = some (some m) := by
  have hc := covers_of_find (t := t) (c := c) (by simp [hm])
  obtain ⟨p, hp⟩ := h.slot_isSome hc
  refine ⟨hc, ?_⟩
  rw [hp, ← find_of_slot hc hp, hm]

theorem find_of_mem {l : List (Option T)} {m : T} (hcount : t.count ≠ 1) (hnext : t.next = .table l)
    (hlength : l.length = t.count) (hm : some m ∈ l) : ∃ d, t.find d = some m := by
  obtain ⟨i, hi⟩ := mem_iff_getElem?.mp hm
  refine ⟨t.min + i, ?_⟩
  rw [find_table hcount hnext hlength, if_pos (by omega), Nat.add_sub_cancel_left, hi]
  rfl

theorem Compact.single (h : t.Compact) (hone : t.count = 1) :
    ∃ m, t.next = .node (some m) ∧ ∀ c, t.find c = if c = t.min then some m else none := by
  obtain ⟨p, hp⟩ := h.one hone
  have hfind := find_node hone hp
  have hfirst := h.first (by omega)
  rw [hfind, if_pos rfl] at hfirst
  obtain ⟨m, rfl⟩ := Option.isSome_iff_exists.mp hfirst
  exact ⟨m, hp, hfind⟩

theorem mem_live (hrange : t.min + t.count ≤ 2 ^ 8) : c ∈ t.live ↔ (t.find c).isSome := by
  simp only [live, Finset.mem_filter, Finset.mem_range, and_iff_right_iff_imp]
  intro h
  have := covers_iff.mp (covers_of_find h)
  omega

end Find

section Empty
variable {t : RangeTable T}

theorem find_of_count_eq_zero (h : t.count = 0) (d : Nat) : t.find d = none := by
  refine find_eq_none ?_
  rw [← Bool.not_eq_true, covers_iff]
  omega

theorem compact_of_count_eq_zero (hcount : t.count = 0) (hlive : t.liveNodes = 0)
    (hmin : t.min ≤ 2 ^ 8) : t.Compact := by
  refine ⟨⟨by omega, by omega, by omega⟩, by omega, by omega, ?_⟩
  simp [live, find_of_count_eq_zero hcount, hlive]

theorem find_empty (d : Nat) : ({} : RangeTable T).find d = none := find_of_count_eq_zero rfl d

theorem compact_empty : ({} : RangeTable T).Compact :=
  compact_of_count_eq_zero rfl rfl (Nat.zero_le _)

end Empty

section Room
variable {t : RangeTable T} {c : Nat}

/-- A byte in the range need not have a subnode, even if it is at an end. -/
structure Loose (t : RangeTable T) (c : Nat) : Prop extends Shaped t where
  covers : t.covers c = true
  first : t.min = c ∨ (t.find t.min).isSome
  last : t.min + t.count - 1 = c ∨ (t.find (t.min + t.count - 1)).isSome
  liveNodes : t.liveNodes = t.live.card

variable {t' : RangeTable T}

theorem live_congr (h : ∀ d, t'.find d = t.find d) : t'.live = t.live := by
  simp [live, h]

theorem Compact.loose (h : t.Compact) (hc : t.covers c = true) : t.Loose c := by
  have hcount : t.count ≠ 0 := by
    have := covers_iff.mp hc
    omega
  exact ⟨h.toShaped, hc, .inr (h.first hcount), .inr (h.last hcount), h.liveNodes⟩

theorem Loose.compact (h : t.Loose c) (hc : (t.find c).isSome) : t.Compact := by
  constructor
  · exact h.toShaped
  · intro _
    rcases h.first with hfirst | hfirst
    · rwa [hfirst]
    · exact hfirst
  · intro _
    rcases h.last with hlast | hlast
    · rwa [hlast]
    · exact hlast
  · exact h.liveNodes

theorem join_replicate (n i : Nat) : ((List.replicate n (none : Option T))[i]?).join = none := by
  rw [getElem?_replicate]
  split <;> rfl

theorem entry_eq (h : t.Shaped) (hcount : 2 ≤ t.count) (i : Nat) :
    t.entry i = t.find (t.min + i) := by
  obtain ⟨l, hl, hlength⟩ := h.many hcount
  rw [find_table (by omega) hl hlength, if_pos (by omega)]
  simp [entry, hl]

theorem extend_empty (hcount : t.count = 0) (hlive : t.liveNodes = t.live.card) (hc : c < 2 ^ 8) :
    ∃ t', t.extend c = some t' ∧ t'.Loose c ∧ ∀ d, t'.find d = t.find d := by
  let t' : RangeTable T := { t with min := c, count := 1, next := .node none }
  have hfind (d : Nat) : t'.find d = t.find d := by
    rw [find_node (t := t') rfl rfl, find_eq_none (t := t)]
    · simp
    · rw [← Bool.not_eq_true, covers_iff]
      omega
  refine ⟨t', by simp [extend, hcount, t'], ⟨⟨?_, ?_, ?_⟩, ?_, ?_, ?_, ?_⟩, hfind⟩
  · change c + 1 ≤ 2 ^ 8
    omega
  · intro _
    exact ⟨none, rfl⟩
  · intro hmany
    change 2 ≤ 1 at hmany
    omega
  · rw [covers_iff]
    change c ≤ c ∧ c < c + 1
    omega
  · exact .inl rfl
  · exact .inl rfl
  · rw [live_congr hfind]
    exact hlive

/-- An array that reaches from the old range to the byte. -/
theorem loose_of_array {l : List (Option T)} (h : t.Compact) (hcount : t.count ≠ 0) (hc : c < 2 ^ 8)
    (hrange : t.covers c = false) (hnext : t'.next = .table l) (hlength : l.length = t'.count)
    (hmin : t'.min = Min.min t.min c) (hlast : t'.min + t'.count = max (t.min + t.count) (c + 1))
    (hentry : ∀ i, (l[i]?).join = t.find (t'.min + i)) (hlive : t'.liveNodes = t.liveNodes) :
    t'.Loose c ∧ ∀ d, t'.find d = t.find d := by
  have hold := h.range
  rw [← Bool.not_eq_true, covers_iff] at hrange
  have hfind (d : Nat) : t'.find d = t.find d := by
    rw [find_table (by omega) hnext hlength]
    split
    · rw [hentry]
      congr 1
      omega
    · rw [find_eq_none]
      rw [← Bool.not_eq_true, covers_iff]
      omega
  refine ⟨⟨⟨by omega, by omega, fun _ => ⟨l, hnext, hlength⟩⟩, ?_, ?_, ?_, ?_⟩, hfind⟩
  · rw [covers_iff]
    omega
  · rw [hfind]
    by_cases hle : c < t.min
    · left
      omega
    · right
      rw [show t'.min = t.min by omega]
      exact h.first hcount
  · rw [hfind]
    by_cases hle : t.min + t.count ≤ c
    · left
      omega
    · right
      rw [show t'.min + t'.count - 1 = t.min + t.count - 1 by omega]
      exact h.last hcount
  · rw [live_congr hfind, hlive]
    exact h.liveNodes

theorem extend_node (h : t.Compact) (hcount : t.count = 1) (hrange : t.covers c = false)
    (hc : c < 2 ^ 8) :
    ∃ t', t.extend c = some t' ∧ t'.Loose c ∧ ∀ d, t'.find d = t.find d := by
  obtain ⟨p, hp⟩ := h.one hcount
  have hmin := h.range
  refine ⟨_, by simp only [extend, hcount, hp]; rfl, ?_⟩
  refine loose_of_array h (by omega) hc hrange rfl (by simp) ?_ ?_ ?_ rfl
  · dsimp only
    split <;> omega
  · dsimp only
    split <;> split <;> omega
  intro i
  rw [find_node hcount hp]
  have hm : (if c < t.min then c else t.min) = Min.min t.min c := by
    split <;> omega
  have hsize : ((if t.min < c then c - t.min else t.min - c) + 1) % 2 ^ 16 =
      max t.min c - Min.min t.min c + 1 := by
    split <;> omega
  rw [hm, hsize]
  by_cases hi : Min.min t.min c + i = t.min
  · rw [if_pos hi, getElem?_set, if_pos (by omega), if_pos (by rw [length_replicate]; omega)]
    rfl
  · rw [if_neg hi, getElem?_set_ne (by omega), join_replicate]

theorem extend_table (h : t.Compact) (hcount : 2 ≤ t.count) (hrange : t.covers c = false)
    (hc : c < 2 ^ 8) :
    ∃ t', t.extend c = some t' ∧ t'.Loose c ∧ ∀ d, t'.find d = t.find d := by
  obtain ⟨l, hl, hlength⟩ := h.many hcount
  have hmin := h.range
  have hfind := find_table (by omega) hl hlength
  have hout := hrange
  rw [← Bool.not_eq_true, covers_iff] at hout
  simp only [extend, hl]
  rw [if_neg (by omega), if_neg (by omega)]
  by_cases habove : t.min < c
  · rw [if_pos habove]
    refine ⟨_, rfl, loose_of_array h (by omega) hc hrange rfl ?_ ?_ ?_ ?_ rfl⟩
    · simp only [length_append, length_replicate]
      omega
    · dsimp only
      omega
    · dsimp only
      omega
    · intro i
      rw [hfind, if_pos (by simp), getElem?_append]
      rw [Nat.add_sub_cancel_left]
      split
      · rfl
      · rename_i hi
        rw [join_replicate, getElem?_eq_none (by omega)]
        rfl
  · rw [if_neg habove]
    refine ⟨_, rfl, loose_of_array h (by omega) hc hrange rfl ?_ ?_ ?_ ?_ rfl⟩
    · simp only [length_append, length_replicate]
      omega
    · dsimp only
      omega
    · dsimp only
      omega
    · intro i
      rw [hfind, getElem?_append, length_replicate]
      dsimp only
      by_cases hi : i < t.min - c
      · rw [if_pos hi, join_replicate, if_neg (by omega)]
      · rw [if_neg hi, if_pos (by omega)]
        congr 2
        omega

/-- The table is extended for a byte that is out of the range. -/
def makeRoom (t : RangeTable T) (c : Nat) : Option (RangeTable T) :=
  if t.covers c then some t else t.extend c

theorem makeRoom_loose (h : t.Compact) (hc : c < 2 ^ 8) :
    ∃ t', t.makeRoom c = some t' ∧ t'.Loose c ∧ ∀ d, t'.find d = t.find d := by
  by_cases hrange : t.covers c = true
  · exact ⟨t, by simp [makeRoom, hrange], h.loose hrange, fun _ => rfl⟩
  have hout : t.covers c = false := by simpa using hrange
  simp only [makeRoom, hout, Bool.false_eq_true, if_false]
  by_cases hzero : t.count = 0
  · exact extend_empty hzero h.liveNodes hc
  · by_cases hone : t.count = 1
    · exact extend_node h hone hout hc
    · exact extend_table h (by omega) hout hc

end Room

section Entries
variable {t : RangeTable T} {c : Nat} {p : Option T}

@[simp] theorem setSlot_min : (t.setSlot c p).min = t.min := by
  unfold setSlot
  split
  · rfl
  · split <;> rfl

@[simp] theorem setSlot_count : (t.setSlot c p).count = t.count := by
  unfold setSlot
  split
  · rfl
  · split <;> rfl

@[simp] theorem setSlot_liveNodes : (t.setSlot c p).liveNodes = t.liveNodes := by
  unfold setSlot
  split
  · rfl
  · split <;> rfl

theorem setSlot_self (h : t.slot c = some p) : t.setSlot c p = t := by
  obtain ⟨min, count, liveNodes, next⟩ := t
  unfold slot at h
  unfold setSlot
  by_cases hone : count = 1
  · rw [if_pos hone] at h ⊢
    cases next with
    | node q =>
      cases h
      rfl
    | _ => cases h
  · rw [if_neg hone] at h ⊢
    cases next with
    | table l =>
      obtain ⟨hlt, hget⟩ := List.getElem?_eq_some_iff.mp h
      dsimp only
      rw [← hget, set_getElem_self]
    | _ => cases h

theorem Shaped.setSlot (h : t.Shaped) : (t.setSlot c p).Shaped := by
  constructor
  · simpa using h.range
  · intro hone
    rw [setSlot_count] at hone
    exact ⟨p, by simp [RangeTable.setSlot, hone]⟩
  intro hmany
  rw [setSlot_count] at hmany ⊢
  obtain ⟨l, hl, hlength⟩ := h.many hmany
  refine ⟨l.set (c - t.min) p, ?_, by simpa using hlength⟩
  simp [RangeTable.setSlot, hl, show t.count ≠ 1 by omega]

theorem Shaped.find_setSlot (h : t.Shaped) (hc : t.covers c = true) (d : Nat) :
    (t.setSlot c p).find d = if d = c then p else t.find d := by
  have hrange := covers_iff.mp hc
  by_cases hone : t.count = 1
  · obtain ⟨q, hq⟩ := h.one hone
    have hcmin : c = t.min := by omega
    rw [find_node (t := t.setSlot c p) (p := p) (by simpa using hone)
      (by simp [RangeTable.setSlot, hone]), find_node hone hq, setSlot_min, hcmin]
    split <;> rfl
  · obtain ⟨l, hl, hlength⟩ := h.many (by omega)
    rw [find_table (t := t.setSlot c p) (l := l.set (c - t.min) p) (by simpa using hone)
      (by simp [RangeTable.setSlot, hl, hone]) (by simpa using hlength),
      find_table hone hl hlength, setSlot_min]
    rcases eq_or_ne d c with rfl | hd
    · rw [if_pos rfl, if_pos hrange.1, getElem?_set_self (by omega)]
      rfl
    · rw [if_neg hd]
      by_cases hmin : t.min ≤ d
      · rw [if_pos hmin, if_pos hmin, getElem?_set_ne (by omega)]
      · rw [if_neg hmin, if_neg hmin]

/-- The number of subnodes does not matter for what the table maps a byte to. -/
@[simp] theorem find_liveNodes (n d : Nat) :
    ({ t with liveNodes := n } : RangeTable T).find d = t.find d := rfl

theorem card_live_le (t : RangeTable T) : t.live.card ≤ 2 ^ 8 := by
  calc
    t.live.card ≤ (Finset.range (2 ^ 8)).card := Finset.card_filter_le _ _
    _ = 2 ^ 8 := Finset.card_range _

theorem live_setSlot_some (h : t.Shaped) (hc : t.covers c = true) (m : T) :
    (t.setSlot c (some m)).live = insert c t.live := by
  have hrange := h.range
  ext d
  rw [mem_live (by simpa using hrange), Finset.mem_insert, mem_live hrange, h.find_setSlot hc]
  by_cases hd : d = c <;> simp [hd]

theorem live_setSlot_none (h : t.Shaped) (hc : t.covers c = true) :
    (t.setSlot c none).live = t.live.erase c := by
  have hrange := h.range
  ext d
  rw [mem_live (by simpa using hrange), Finset.mem_erase, mem_live hrange, h.find_setSlot hc]
  by_cases hd : d = c <;> simp [hd]

end Entries

section Subnodes
variable {t : RangeTable T} {c : Nat}

/-- The entry of a byte is changed, and the subnodes are counted again. -/
theorem Shaped.loose_setSlot {p : Option T} {n : Nat} (h : t.Shaped) (hc : t.covers c = true)
    (hfirst : t.min = c ∨ (t.find t.min).isSome)
    (hlast : t.min + t.count - 1 = c ∨ (t.find (t.min + t.count - 1)).isSome)
    (hn : n = (t.setSlot c p).live.card) :
    ({ t.setSlot c p with liveNodes := n } : RangeTable T).Loose c := by
  have hend {d : Nat} (hd : d = c ∨ (t.find d).isSome) :
      d = c ∨ ((t.setSlot c p).find d).isSome := by
    rw [h.find_setSlot hc]
    rcases eq_or_ne d c with heq | hne
    · exact .inl heq
    · rwa [if_neg hne]
  have hshaped := h.setSlot (c := c) (p := p)
  refine ⟨{ hshaped with }, ?_, ?_, ?_, hn⟩
  · rw [covers_iff]
    simpa using covers_iff.mp hc
  · rw [find_liveNodes, setSlot_min]
    exact hend hfirst
  · rw [find_liveNodes, setSlot_min, setSlot_count]
    exact hend hlast

theorem Loose.put (h : t.Loose c) (hnone : t.find c = none) (m : T) :
    (({ t with liveNodes := (t.liveNodes + 1) % 2 ^ 16 } : RangeTable T).setSlot c (some m)).Compact
    := by
  let t' : RangeTable T := { t with liveNodes := (t.liveNodes + 1) % 2 ^ 16 }
  have hshaped : t'.Shaped := { h with }
  have hnot : c ∉ t.live := by simp [mem_live h.range, hnone]
  refine Loose.compact (hshaped.loose_setSlot (n := (t'.setSlot c (some m)).liveNodes) h.covers
    h.first h.last ?_) ?_
  · rw [setSlot_liveNodes, live_setSlot_some hshaped h.covers]
    change (t.liveNodes + 1) % 2 ^ 16 = (insert c t.live).card
    have hle := card_live_le t
    rw [Finset.card_insert_of_notMem hnot, h.liveNodes]
    omega
  · change ((t'.setSlot c (some m)).find c).isSome
    simp [hshaped.find_setSlot h.covers]

theorem Compact.replace (h : t.Compact) (hsome : (t.find c).isSome) (m : T) :
    (t.setSlot c (some m)).Compact := by
  have hc := covers_of_find hsome
  have hloose := h.loose hc
  refine Loose.compact (h.toShaped.loose_setSlot (n := (t.setSlot c (some m)).liveNodes) hc
    hloose.first hloose.last ?_) ?_
  · have hmem : c ∈ t.live := (mem_live h.range).mpr hsome
    rw [setSlot_liveNodes, live_setSlot_some h.toShaped hc, Finset.insert_eq_of_mem hmem]
    exact h.liveNodes
  · simp [h.toShaped.find_setSlot hc]

theorem Loose.liveNodes_eq_zero (h : t.Loose c) (hcount : t.count = 1) (hnone : t.find c = none) :
    t.liveNodes = 0 := by
  rw [h.liveNodes, Finset.card_eq_zero, Finset.eq_empty_iff_forall_notMem]
  intro d hd
  rw [mem_live h.range] at hd
  have hdc := covers_iff.mp (covers_of_find hd)
  have hcc := covers_iff.mp h.covers
  rw [show d = c by omega, hnone] at hd
  cases hd

theorem Loose.liveNodes_pos (h : t.Loose c) (hcount : 2 ≤ t.count) : 0 < t.liveNodes := by
  rw [h.liveNodes, Finset.card_pos]
  rcases h.first with hfirst | hfirst
  · rcases h.last with hlast | hlast
    · omega
    · exact ⟨_, (mem_live h.range).mpr hlast⟩
  · exact ⟨_, (mem_live h.range).mpr hfirst⟩

theorem Compact.two_le_liveNodes (h : t.Compact) (hcount : 2 ≤ t.count) : 2 ≤ t.liveNodes := by
  have hfirst : t.min ∈ t.live := (mem_live h.range).mpr (h.first (by omega))
  have hlast : t.min + t.count - 1 ∈ t.live := (mem_live h.range).mpr (h.last (by omega))
  rw [h.liveNodes]
  exact Finset.one_lt_card.mpr ⟨_, hfirst, _, hlast, by omega⟩

theorem Compact.clear (h : t.Compact) (hsome : (t.find c).isSome) :
    ({ t.setSlot c none with liveNodes := t.liveNodes - 1 } : RangeTable T).Loose c := by
  have hc := covers_of_find hsome
  have hloose := h.loose hc
  refine h.toShaped.loose_setSlot hc hloose.first hloose.last ?_
  have hmem : c ∈ t.live := (mem_live h.range).mpr hsome
  rw [live_setSlot_none h.toShaped hc, Finset.card_erase_of_mem hmem, h.liveNodes]

end Subnodes

section Shrink
variable {t : RangeTable T} {c : Nat}

theorem narrow_compact {lo n : Nat} (h : t.Shaped) (hlive : t.liveNodes = t.live.card)
    (hcount : 2 ≤ t.count) (hn : 2 ≤ n) (hlo : lo + n ≤ t.count)
    (hin : ∀ d, (t.find d).isSome → t.min + lo ≤ d ∧ d < t.min + lo + n)
    (hfirst : (t.find (t.min + lo)).isSome) (hlast : (t.find (t.min + lo + n - 1)).isSome) :
    (t.narrow lo n).Compact ∧ ∀ d, (t.narrow lo n).find d = t.find d := by
  obtain ⟨l, hl, hlength⟩ := h.many hcount
  have hrange := h.range
  have hmin : (t.narrow lo n).min = t.min + lo := by
    simp only [narrow, hl]
    omega
  have hsize : (t.narrow lo n).count = n := by
    simp only [narrow, hl]
    omega
  have hnext : (t.narrow lo n).next = .table ((l.drop lo).take n) := by
    simp [narrow, hl]
  have hlen : ((l.drop lo).take n).length = (t.narrow lo n).count := by
    rw [hsize, length_take, length_drop]
    omega
  have hfind (d : Nat) : (t.narrow lo n).find d = t.find d := by
    rw [find_table (by omega) hnext hlen, hmin]
    by_cases hd : t.min + lo ≤ d ∧ d < t.min + lo + n
    · rw [if_pos hd.1, find_table (by omega) hl hlength, if_pos (by omega), getElem?_take,
        if_pos (by omega), getElem?_drop]
      congr 2
      omega
    · have hnone : t.find d = none := by
        by_contra hne
        exact hd (hin d (Option.isSome_iff_ne_none.mpr hne))
      rw [hnone]
      by_cases hle : t.min + lo ≤ d
      · rw [if_pos hle, getElem?_take, if_neg (by omega)]
        rfl
      · rw [if_neg hle]
  have hkeep : (t.narrow lo n).liveNodes = t.liveNodes := by
    simp [narrow, hl]
  constructor
  · constructor
    · exact ⟨by omega, by omega, fun _ => ⟨_, hnext, hlen⟩⟩
    · intro _
      rwa [hfind, hmin]
    · intro _
      rwa [hfind, hmin, hsize]
    · rw [live_congr hfind, hkeep]
      exact hlive
  · exact hfind

theorem collapse_compact {i : Nat} (h : t.Shaped) (hlive : t.liveNodes = t.live.card)
    (hcount : 2 ≤ t.count) (hi : i < t.count) (hone : ∀ d, (t.find d).isSome → d = t.min + i)
    (hsome : (t.find (t.min + i)).isSome) :
    (t.collapse i).Compact ∧ ∀ d, (t.collapse i).find d = t.find d := by
  have hrange := h.range
  have hmin : (t.collapse i).min = t.min + i := by
    change (t.min + i) % 2 ^ 8 = t.min + i
    omega
  have hfind (d : Nat) : (t.collapse i).find d = t.find d := by
    rw [find_node (t := t.collapse i) rfl rfl, hmin, entry_eq h hcount]
    by_cases hd : d = t.min + i
    · rw [if_pos hd, hd]
    · rw [if_neg hd]
      by_contra hne
      exact hd (hone d (Option.isSome_iff_ne_none.mpr (Ne.symm hne)))
  have hsize : (t.collapse i).count = 1 := rfl
  constructor
  · constructor
    · exact ⟨by omega, fun _ => ⟨_, rfl⟩, by omega⟩
    · intro _
      rwa [hfind, hmin]
    · intro _
      rwa [hfind, hmin, hsize, Nat.add_sub_cancel]
    · rw [live_congr hfind]
      exact hlive
  · exact hfind

/-- The first entry of the array from `k` on that is not null. -/
def firstFrom (t : RangeTable T) (k : Nat) : Option Nat :=
  (List.range t.count).find? fun i => decide (k ≤ i) && (t.entry i).isSome

/-- How far the last entry that is not null, the very last one apart, is from the end. -/
def lastBefore (t : RangeTable T) : Option Nat :=
  (List.range t.count).find? fun i => decide (1 ≤ i) && (t.entry (t.count - 1 - i)).isSome

theorem find?_range {f : Nat → Bool} {n k : Nat} (hk : k < n) (hf : f k = true) :
    ∃ i, (List.range n).find? f = some i ∧ i < n ∧ f i = true ∧ ∀ j < i, f j = false := by
  cases hi : (range n).find? f with
  | none =>
    rw [find?_eq_none] at hi
    exact absurd hf (hi k (mem_range.mpr hk))
  | some i =>
    rw [find?_range_eq_some] at hi
    obtain ⟨hfi, hmem, hbefore⟩ := hi
    exact ⟨i, rfl, mem_range.mp hmem, hfi, fun j hj => by simpa using hbefore j hj⟩

/-- What a search of the array finds, the `i`-th entry it looks at being the one at `f i`. -/
theorem find?_entry {f : Nat → Nat} {k m : Nat} (h : t.Shaped) (hcount : 2 ≤ t.count) (hk : k ≤ m)
    (hm : m < t.count) (hsome : (t.find (t.min + f m)).isSome) :
    ∃ i, ((List.range t.count).find? fun i => decide (k ≤ i) && (t.entry (f i)).isSome) = some i ∧
      k ≤ i ∧ i < t.count ∧ (t.find (t.min + f i)).isSome ∧
      ∀ j, k ≤ j → (t.find (t.min + f j)).isSome → i ≤ j := by
  simp only [entry_eq h hcount]
  obtain ⟨i, hi, hlt, hfi, hbefore⟩ :=
    find?_range (f := fun i => decide (k ≤ i) && (t.find (t.min + f i)).isSome) hm
      (by simp [hk, hsome])
  simp only [Bool.and_eq_true, decide_eq_true_eq] at hfi
  refine ⟨i, hi, hfi.1, hlt, hfi.2, ?_⟩
  intro j hkj hj
  by_contra hji
  simpa [hkj, hj] using hbefore j (by omega)

/-- The array is made as small as possible after the entry of a byte became null. If one subnode
is left, `single` says which entry it is. No result stands for a failed assertion. -/
def shrink (single : RangeTable T → Nat → Option Nat) (t : RangeTable T) (c : Nat) :
    Option (RangeTable T) :=
  if t.liveNodes = 1 then
    match single t c with
    | none => none
    | some i => if (t.entry i).isSome then some (t.collapse i) else none
  else if c = t.min then
    match t.firstFrom 1 with
    | none => none
    | some i => some (t.narrow i (t.count - i))
  else if c = t.min + t.count - 1 then
    match t.lastBefore with
    | none => none
    | some i => some (t.narrow 0 (t.count - i))
  else some t

/-- The subnode at a byte is removed. -/
def prune (single : RangeTable T → Nat → Option Nat) (t : RangeTable T) (c : Nat) :
    Option (RangeTable T) :=
  if t.count = 0 then none
  else if t.count = 1 then
    if t.liveNodes = 1 then some { t with next := .node none, count := 0, liveNodes := 0 } else none
  else if 1 < t.liveNodes then
    shrink single { t.setSlot c none with liveNodes := t.liveNodes - 1 } c
  else none

/-- The entry of the subnode that is left is found. -/
def Finds (single : RangeTable T → Nat → Option Nat) : Prop :=
  ∀ (t : RangeTable T) (c i : Nat), t.Loose c → t.find c = none → 2 ≤ t.count →
    (∀ d, (t.find d).isSome ↔ d = t.min + i) → single t c = some i

variable {single : RangeTable T → Nat → Option Nat}

theorem shrink_single (hsingle : Finds single) (h : t.Loose c) (hnone : t.find c = none)
    (hcount : 2 ≤ t.count) (hlive : t.liveNodes = 1) :
    ∃ t', t.shrink single c = some t' ∧ t'.Compact ∧ ∀ d, t'.find d = t.find d := by
  have hcard : t.live.card = 1 := by rw [← h.liveNodes, hlive]
  obtain ⟨d, hd⟩ := Finset.card_eq_one.mp hcard
  have hiff (e : Nat) : (t.find e).isSome ↔ e = d := by
    rw [← mem_live h.range, hd, Finset.mem_singleton]
  have hcovers := covers_iff.mp (covers_of_find ((hiff d).mpr rfl))
  obtain ⟨i, rfl⟩ : ∃ i, d = t.min + i := ⟨d - t.min, by omega⟩
  have hsome := (hiff _).mpr rfl
  refine ⟨t.collapse i, ?_, ?_⟩
  · simp [shrink, hlive, hsingle t c i h hnone hcount hiff, entry_eq h.toShaped hcount, hsome]
  · exact collapse_compact h.toShaped h.liveNodes hcount (by omega) (fun e => (hiff e).mp) hsome

theorem ne_of_live {x : Nat} (hnone : t.find c = none) (hx : (t.find x).isSome) :
    x ≠ c ∧ t.min ≤ x ∧ x < t.min + t.count := by
  refine ⟨?_, covers_iff.mp (covers_of_find hx)⟩
  rintro rfl
  simp [hnone] at hx

section
variable (h : t.Loose c) (hnone : t.find c = none) (hcount : 2 ≤ t.count) (hlive : 2 ≤ t.liveNodes)
include h hnone hcount hlive

omit hnone hcount in
theorem Loose.two_live : ∃ d e, (t.find d).isSome ∧ (t.find e).isSome ∧ d ≠ e := by
  rw [h.liveNodes] at hlive
  obtain ⟨d, hd, e, he, hne⟩ := Finset.one_lt_card.mp hlive
  rw [mem_live h.range] at hd he
  exact ⟨d, e, hd, he, hne⟩

theorem shrink_left (hc : c = t.min) :
    ∃ t', t.shrink single c = some t' ∧ t'.Compact ∧ ∀ d, t'.find d = t.find d := by
  obtain ⟨d, e, hd, he, hne⟩ := h.two_live hlive
  have hat {x : Nat} (hx : (t.find x).isSome) : t.min + (x - t.min) = x := by
    have := ne_of_live hnone hx
    omega
  have hd' := ne_of_live hnone hd
  have he' := ne_of_live hnone he
  obtain ⟨i, hi, hle, hlt, hsome, hleast⟩ := find?_entry (f := fun i => i) (k := 1)
    h.toShaped hcount (m := d - t.min) (by omega) (by omega) (by rwa [hat hd])
  have hfrom {x : Nat} (hx : (t.find x).isSome) : t.min + i ≤ x := by
    have hx' := ne_of_live hnone hx
    have := hleast (x - t.min) (by omega) (by rwa [hat hx])
    omega
  have hlast := h.last.resolve_left (by omega)
  have hdi := hfrom hd
  have hei := hfrom he
  refine ⟨t.narrow i (t.count - i), ?_, ?_⟩
  · simp only [shrink, firstFrom, hi]
    rw [if_neg (by omega), if_pos hc]
  refine narrow_compact h.toShaped h.liveNodes hcount (by omega) (by omega) ?_ hsome ?_
  · intro x hx
    have := ne_of_live hnone hx
    exact ⟨hfrom hx, by omega⟩
  · rwa [show t.min + i + (t.count - i) - 1 = t.min + t.count - 1 by omega]

theorem shrink_right (hc : c = t.min + t.count - 1) :
    ∃ t', t.shrink single c = some t' ∧ t'.Compact ∧ ∀ d, t'.find d = t.find d := by
  obtain ⟨d, e, hd, he, hne⟩ := h.two_live hlive
  have hat {x : Nat} (hx : (t.find x).isSome) :
      t.min + (t.count - 1 - (t.count - 1 - (x - t.min))) = x := by
    have := ne_of_live hnone hx
    omega
  have hd' := ne_of_live hnone hd
  have he' := ne_of_live hnone he
  obtain ⟨i, hi, hle, hlt, hsome, hleast⟩ := find?_entry (f := fun i => t.count - 1 - i) (k := 1)
    h.toShaped hcount (m := t.count - 1 - (d - t.min)) (by omega) (by omega) (by rwa [hat hd])
  have hupto {x : Nat} (hx : (t.find x).isSome) : x < t.min + (t.count - i) := by
    have hx' := ne_of_live hnone hx
    have := hleast (t.count - 1 - (x - t.min)) (by omega) (by rwa [hat hx])
    omega
  have hfirst := h.first.resolve_left (by omega)
  have hdi := hupto hd
  have hei := hupto he
  refine ⟨t.narrow 0 (t.count - i), ?_, ?_⟩
  · simp only [shrink, lastBefore, hi]
    rw [if_neg (by omega), if_neg (by omega), if_pos hc]
  · refine narrow_compact h.toShaped h.liveNodes hcount (by omega) (by omega) ?_ hfirst ?_
    · intro x hx
      exact ⟨(ne_of_live hnone hx).2.1, hupto hx⟩
    · rwa [show t.min + 0 + (t.count - i) - 1 = t.min + (t.count - 1 - i) by omega]

end

theorem shrink_compact (hsingle : Finds single) (h : t.Loose c) (hnone : t.find c = none)
    (hcount : 2 ≤ t.count) :
    ∃ t', t.shrink single c = some t' ∧ t'.Compact ∧ ∀ d, t'.find d = t.find d := by
  have hpos := h.liveNodes_pos hcount
  by_cases hone : t.liveNodes = 1
  · exact shrink_single hsingle h hnone hcount hone
  by_cases hmin : c = t.min
  · exact shrink_left h hnone hcount (by omega) hmin
  by_cases hmax : c = t.min + t.count - 1
  · exact shrink_right h hnone hcount (by omega) hmax
  refine ⟨t, by simp [shrink, hone, hmin, hmax], ⟨h.toShaped, ?_, ?_, h.liveNodes⟩,
    fun _ => rfl⟩
  · intro _
    exact h.first.resolve_left (Ne.symm hmin)
  · intro _
    exact h.last.resolve_left (Ne.symm hmax)

theorem Compact.liveNodes_eq_one (h : t.Compact) (hcount : t.count = 1) : t.liveNodes = 1 := by
  rw [h.liveNodes, Finset.card_eq_one]
  refine ⟨t.min, ?_⟩
  ext d
  rw [mem_live h.range, Finset.mem_singleton]
  constructor
  · intro hd
    have := covers_iff.mp (covers_of_find hd)
    omega
  · rintro rfl
    exact h.first (by omega)

theorem prune_compact (hsingle : Finds single) (h : t.Compact) (hc : (t.find c).isSome) :
    ∃ t', t.prune single c = some t' ∧ t'.Compact ∧
      ∀ d, t'.find d = if d = c then none else t.find d := by
  have hcovers := covers_of_find hc
  have hrange := covers_iff.mp hcovers
  have hbound := h.range
  by_cases hone : t.count = 1
  · let t' : RangeTable T := { t with next := .node none, count := 0, liveNodes := 0 }
    have hlive := h.liveNodes_eq_one hone
    refine ⟨t', by simp [prune, hone, hlive, t'],
      compact_of_count_eq_zero rfl rfl (show t.min ≤ 2 ^ 8 by omega), ?_⟩
    intro d
    obtain ⟨p, hp⟩ := h.one hone
    rw [find_of_count_eq_zero (t := t') rfl, find_node hone hp, show c = t.min by omega]
    split <;> rfl
  · have htwo := h.two_le_liveNodes (by omega)
    let t₁ : RangeTable T := { t.setSlot c none with liveNodes := t.liveNodes - 1 }
    have hfind (d : Nat) : t₁.find d = if d = c then none else t.find d :=
      h.toShaped.find_setSlot hcovers d
    have hcount : 2 ≤ t₁.count := by
      rw [setSlot_count]
      omega
    obtain ⟨t', ht', hcompact, hsame⟩ :=
      shrink_compact hsingle (h.clear hc) ((hfind c).trans (if_pos rfl)) hcount
    refine ⟨t', ?_, hcompact, fun d => (hsame d).trans (hfind d)⟩
    unfold prune
    rw [if_neg (by omega), if_neg hone, if_pos (by omega)]
    exact ht'

end Shrink

end RangeTable

end Uzmq
