import Mathlib

/-!
# Flow control by announced counts

A sender may be `hwm` items ahead of the last count it knows of its receiver, where a
mark of zero or less is no limit. The receiver counts what it reads, and announces the
count after a read if it is a multiple of `lwm`. Counters have 64 bits.

The two sides need not agree on what is counted: `skew` is what the sender has counted
and the receiver will never count. `Covered` says that a sender without room will hear
from its receiver.
-/

namespace Uzmq.Credit

open List

/-- What the receiver does with an item: it counts it, it reads it without counting it,
or it passes over it. -/
inductive Kind where
  | counted
  | uncounted
  | hidden
  deriving DecidableEq, Repr

/-- One direction: `announced` are the announcements under way, `pending` the items that
will be read, and `blocked` says that the sender waits for an announcement. -/
structure Line where
  hwm : Int
  lwm : Int
  written : Nat
  read : Nat
  known : Nat
  announced : List Nat
  pending : List Kind
  blocked : Bool

/-- The count is announced. -/
def Due (lwm : Int) (read : Nat) : Prop := 0 < lwm ∧ read % lwm.toNat = 0
  deriving Decidable

/-- Something is announced while the items are read. -/
def Announces (lwm : Int) : Nat → List Kind → Prop
  | _, [] => False
  | read, .hidden :: rest => Announces lwm read rest
  | read, .uncounted :: rest => Due lwm read ∨ Announces lwm read rest
  | read, .counted :: rest =>
    Due lwm ((read + 1) % 2 ^ 64) ∨ Announces lwm ((read + 1) % 2 ^ 64) rest

instance Announces.decidable (lwm : Int) :
    (read : Nat) → (items : List Kind) → Decidable (Announces lwm read items)
  | _, [] => isFalse id
  | read, .hidden :: rest => Announces.decidable lwm read rest
  | read, .uncounted :: rest =>
    @instDecidableOr _ _ inferInstance (Announces.decidable lwm read rest)
  | _, .counted :: rest =>
    @instDecidableOr _ _ inferInstance (Announces.decidable lwm _ rest)

section Announces
variable {lwm : Int} {read : Nat} {items rest : List Kind}

theorem announces_append (h : Announces lwm read items) : Announces lwm read (items ++ rest) := by
  induction items generalizing read with
  | nil => exact h.elim
  | cons k items ih =>
    cases k with
    | hidden => exact ih h
    | uncounted | counted =>
      rcases h with h | h
      · exact .inl h
      · exact .inr (ih h)

theorem announces_hidden (h : ∀ k ∈ items, k = Kind.hidden) :
    Announces lwm read (items ++ rest) ↔ Announces lwm read rest := by
  induction items with
  | nil => exact Iff.rfl
  | cons k items ih =>
    obtain rfl := h k mem_cons_self
    exact ih fun j hj => h j (mem_cons_of_mem _ hj)

theorem announces_of_due {k : Nat} (hk : 1 ≤ k) (hle : k ≤ items.count .counted)
    (hdue : Due lwm ((read + k) % 2 ^ 64)) : Announces lwm read items := by
  induction items generalizing read k with
  | nil =>
    rw [count_nil] at hle
    omega
  | cons j items ih =>
    cases j with
    | hidden => exact ih hk (by simpa using hle) hdue
    | uncounted => exact .inr (ih hk (by simpa using hle) hdue)
    | counted =>
      rw [count_cons_self] at hle
      rcases eq_or_ne k 1 with rfl | hone
      · exact .inl hdue
      · refine .inr (ih (k := k - 1) (by omega) (by omega) ?_)
        have heq : ((read + 1) % 2 ^ 64 + (k - 1)) % 2 ^ 64 = (read + k) % 2 ^ 64 := by omega
        rw [heq]
        exact hdue

/-- A due count comes within the next `lwm` ones. -/
theorem exists_due (hlwm : 0 < lwm) (read : Nat) :
    ∃ k : Nat, 1 ≤ k ∧ (k : Int) ≤ lwm ∧ Due lwm ((read + k) % 2 ^ 64) := by
  obtain ⟨l, rfl⟩ := Int.eq_ofNat_of_zero_le (Int.le_of_lt hlwm)
  have hl : 0 < l := by omega
  obtain ⟨r, hr⟩ : ∃ r, r = read % 2 ^ 64 := ⟨_, rfl⟩
  have hmod := Nat.mod_lt r hl
  by_cases hwrap : r + (l - r % l) < 2 ^ 64
  · refine ⟨l - r % l, by omega, by omega, hlwm, ?_⟩
    have heq : (read + (l - r % l)) % 2 ^ 64 = r + (l - r % l) := by omega
    have hsum : r + (l - r % l) = l * (r / l) + l := by
      have := Nat.div_add_mod r l
      omega
    rw [heq, hsum, Int.toNat_natCast]
    simp
  · refine ⟨2 ^ 64 - r, by omega, by omega, hlwm, ?_⟩
    have heq : (read + (2 ^ 64 - r)) % 2 ^ 64 = 0 := by omega
    rw [heq, Nat.zero_mod]

end Announces

variable {passed rest : List Kind} {k : Kind}

namespace Line

/-- The sender may not send. -/
def Full (x : Line) : Prop := 0 < x.hwm ∧ x.hwm ≤ ((x.written : Int) - x.known) % 2 ^ 64

/-- The last count announced. -/
def last (x : Line) : Nat := x.announced.getLast?.getD x.known

/-- How far the sender will be ahead of the receiver when everything has been read. -/
def skew (x : Line) : Int :=
  ((x.written : Int) - x.read - x.pending.count Kind.counted) % 2 ^ 64

/-- How far the sender will be ahead of the last announcement, if there is no other one
before everything has been read. -/
def ahead (x : Line) : Int :=
  ((x.written : Int) - x.last - x.pending.count Kind.counted) % 2 ^ 64

/-- A limit is compatible with the low mark; there is an announcement before the limit
is reached; and a sender that waits will hear one. -/
structure Covered (x : Line) : Prop where
  fits : 0 < x.hwm → 0 < x.lwm ∧ x.lwm + x.skew ≤ x.hwm
  room : 0 < x.hwm → Announces x.lwm x.read x.pending ∨
    ∃ k ≤ x.hwm.toNat, 1 ≤ k ∧ x.ahead + k ≤ x.hwm ∧ Due x.lwm ((x.read + k) % 2 ^ 64)
  wake : x.blocked = true → x.announced ≠ [] ∨ Announces x.lwm x.read x.pending

theorem covered_iff (x : Line) : x.Covered ↔
    (0 < x.hwm → 0 < x.lwm ∧ x.lwm + x.skew ≤ x.hwm) ∧
    (0 < x.hwm → Announces x.lwm x.read x.pending ∨
      ∃ k ≤ x.hwm.toNat, 1 ≤ k ∧ x.ahead + k ≤ x.hwm ∧ Due x.lwm ((x.read + k) % 2 ^ 64)) ∧
    (x.blocked = true → x.announced ≠ [] ∨ Announces x.lwm x.read x.pending) :=
  ⟨fun h => ⟨h.fits, h.room, h.wake⟩, fun h => ⟨h.1, h.2.1, h.2.2⟩⟩

instance (x : Line) : Decidable x.Covered := decidable_of_iff _ (covered_iff x).symm

/-- Items that both sides count alike are sent. -/
def put (x : Line) (items : List Kind) : Line :=
  { x with
    pending := x.pending ++ items
    written := (x.written + items.count .counted) % 2 ^ 64 }

def nextRead (x : Line) (k : Kind) : Nat :=
  if k = .counted then (x.read + 1) % 2 ^ 64 else x.read

def get (x : Line) (k : Kind) (rest : List Kind) : Line :=
  { x with
    read := x.nextRead k
    pending := rest
    announced :=
      if Due x.lwm (x.nextRead k) then x.announced ++ [x.nextRead k] else x.announced }

/-- The sender hears an announcement. -/
def hear (x : Line) (count : Nat) (later : List Nat) : Line :=
  { x with known := count, announced := later, blocked := false }

inductive Step : Line → Line → Prop where
  | put (x : Line) (items : List Kind) : Step x (x.put items)
  | get {x : Line} {rest : List Kind} {k : Kind} (hk : k ≠ .hidden)
      (h : x.pending = k :: rest) : Step x (x.get k rest)
  | pass {x : Line} {passed rest : List Kind} (hpassed : ∀ j ∈ passed, j = Kind.hidden)
      (h : x.pending = passed ++ rest) : Step x { x with pending := rest }
  | hear {x : Line} {count : Nat} {later : List Nat} (h : x.announced = count :: later) :
      Step x (x.hear count later)
  | block {x : Line} (h : x.Full) : Step x { x with blocked := true }

section Covered
variable {x y : Line}

theorem skew_nonneg : 0 ≤ x.skew := Int.emod_nonneg _ (by decide)

theorem count_hidden (h : ∀ j ∈ passed, j = Kind.hidden) : passed.count Kind.counted = 0 := by
  apply count_eq_zero.mpr
  intro hmem
  cases h _ hmem

theorem Covered.put (h : x.Covered) (items : List Kind) : (x.put items).Covered := by
  have hskew : (x.put items).skew = x.skew := by
    simp only [skew, Line.put, count_append]
    omega
  have hahead : (x.put items).ahead = x.ahead := by
    simp only [ahead, last, Line.put, count_append]
    omega
  constructor
  · intro hlimit
    rw [hskew]
    exact h.fits hlimit
  · intro hlimit
    rw [hahead]
    rcases h.room hlimit with hann | hdue
    · exact .inl (announces_append hann)
    · exact .inr hdue
  · intro hblocked
    rcases h.wake hblocked with hann | hann
    · exact .inl hann
    · exact .inr (announces_append hann)

/-- Reading an item fulfils the duty to announce or leaves it to the items behind. -/
theorem announces_get (hk : k ≠ .hidden) (hdue : ¬ Due x.lwm (x.nextRead k))
    (h : Announces x.lwm x.read (k :: rest)) : Announces x.lwm (x.nextRead k) rest := by
  cases k with
  | hidden => exact absurd rfl hk
  | uncounted | counted => exact h.resolve_left hdue

theorem Covered.get (h : x.Covered) (hk : k ≠ .hidden) (hpending : x.pending = k :: rest) :
    (x.get k rest).Covered := by
  have hcount : x.pending.count Kind.counted =
      (if k = .counted then 1 else 0) + rest.count Kind.counted := by
    rw [hpending, count_cons]
    simp only [beq_iff_eq]
    omega
  have hskew : (x.get k rest).skew = x.skew := by
    simp only [skew, Line.get, nextRead, hcount]
    split <;> omega
  by_cases hdue : Due x.lwm (x.nextRead k)
  · have hannounced : (x.get k rest).announced = x.announced ++ [x.nextRead k] := by
      simp only [Line.get, if_pos hdue]
    have hahead : (x.get k rest).ahead = (x.get k rest).skew := by
      simp only [ahead, last, hannounced, getLast?_append, getLast?_singleton,
        Option.some_or, Option.getD_some]
      rfl
    constructor
    · intro hlimit
      rw [hskew]
      exact h.fits hlimit
    · intro hlimit
      obtain ⟨hlwm, hle⟩ := h.fits hlimit
      obtain ⟨j, hj, hjlwm, hnext⟩ := exists_due hlwm (x.nextRead k)
      have hnonneg := skew_nonneg (x := x)
      refine .inr ⟨j, ?_, hj, ?_, hnext⟩
      · change j ≤ x.hwm.toNat
        omega
      · rw [hahead, hskew]
        change x.skew + j ≤ x.hwm
        omega
    · intro _
      left
      rw [hannounced]
      simp
  · have hannounced : (x.get k rest).announced = x.announced := by
      simp only [Line.get, if_neg hdue]
    constructor
    · intro hlimit
      rw [hskew]
      exact h.fits hlimit
    · intro hlimit
      rcases h.room hlimit with hann | ⟨j, hjle, hj, hroom, hnext⟩
      · rw [hpending] at hann
        exact .inl (announces_get hk hdue hann)
      right
      have hlast : (x.get k rest).last = x.last := by
        rw [last, hannounced]
        rfl
      cases k with
      | hidden => exact absurd rfl hk
      | uncounted =>
        refine ⟨j, hjle, hj, ?_, hnext⟩
        have hahead : (x.get .uncounted rest).ahead = x.ahead := by
          rw [ahead, ahead, hlast, hcount]
          simp [Line.get]
        rw [hahead]
        exact hroom
      | counted =>
        have hone : j ≠ 1 := by
          rintro rfl
          exact hdue hnext
        refine ⟨j - 1, by change j - 1 ≤ x.hwm.toNat; omega, by omega, ?_, ?_⟩
        · have hahead : (x.get .counted rest).ahead ≤ x.ahead + 1 := by
            rw [ahead, ahead, hlast, hcount]
            simp only [Line.get, if_true]
            omega
          change _ ≤ x.hwm
          omega
        · have heq : ((x.get .counted rest).read + (j - 1)) % 2 ^ 64 = (x.read + j) % 2 ^ 64 := by
            simp only [Line.get, nextRead, if_true]
            omega
          rw [heq]
          exact hnext
    · intro hblocked
      rcases h.wake hblocked with hann | hann
      · left
        rw [hannounced]
        exact hann
      · rw [hpending] at hann
        exact .inr (announces_get hk hdue hann)

theorem Covered.pass (h : x.Covered) (hpassed : ∀ j ∈ passed, j = Kind.hidden)
    (hpending : x.pending = passed ++ rest) : Covered { x with pending := rest } := by
  have hcount : x.pending.count Kind.counted = rest.count Kind.counted := by
    rw [hpending, count_append, count_hidden hpassed, Nat.zero_add]
  have hann : Announces x.lwm x.read x.pending ↔ Announces x.lwm x.read rest := by
    rw [hpending]
    exact announces_hidden hpassed
  have hskew : skew { x with pending := rest } = x.skew := by
    simp only [skew, hcount]
  have hahead : ahead { x with pending := rest } = x.ahead := by
    simp only [ahead, last, hcount]
  constructor
  · intro hlimit
    rw [hskew]
    exact h.fits hlimit
  · intro hlimit
    rw [hahead]
    exact (h.room hlimit).imp_left hann.mp
  · intro hblocked
    exact (h.wake hblocked).imp_right hann.mp

theorem Covered.hear {count : Nat} {later : List Nat} (h : x.Covered)
    (hannounced : x.announced = count :: later) : (x.hear count later).Covered := by
  have hlast : (x.hear count later).last = x.last := by
    cases later with
    | nil => simp [last, Line.hear, hannounced]
    | cons next later =>
      simp only [last, Line.hear, hannounced, getLast?_cons_cons]
      cases hl : (next :: later).getLast? with
      | none => simp at hl
      | some n => rfl
  have hahead : (x.hear count later).ahead = x.ahead := by
    rw [ahead, ahead, hlast]
    rfl
  constructor
  · exact h.fits
  · intro hlimit
    rw [hahead]
    exact h.room hlimit
  · rintro ⟨⟩

/-- A sender that finds its limit reached will hear an announcement. -/
theorem Covered.block (h : x.Covered) (hfull : x.Full) : Covered { x with blocked := true } := by
  refine { h with wake := ?_ }
  intro _
  by_cases hannounced : x.announced = []
  · right
    rcases h.room hfull.1 with hann | ⟨k, -, hk, hroom, hdue⟩
    · exact hann
    apply announces_of_due hk ?_ hdue
    have hlast : x.last = x.known := by simp [last, hannounced]
    have hlimit := hfull.2
    rw [ahead, hlast] at hroom
    change k ≤ x.pending.count Kind.counted
    omega
  · exact .inl hannounced

theorem Step.covered (h : Step x y) (hx : x.Covered) : y.Covered := by
  cases h with
  | put items => exact hx.put items
  | get hk hpending => exact hx.get hk hpending
  | pass hpassed hpending => exact hx.pass hpassed hpending
  | hear hannounced => exact hx.hear hannounced
  | block hfull => exact hx.block hfull

/-- Any number of steps. -/
abbrev Moves : Line → Line → Prop := Relation.ReflTransGen Step

theorem Moves.covered (h : Moves x y) (hx : x.Covered) : y.Covered := by
  induction h with
  | refl => exact hx
  | tail _ hstep ih => exact hstep.covered ih

/-- When nothing is left to be read and to be heard, the sender can go on. -/
theorem Covered.settled (h : x.Covered) (hpending : x.pending = []) (hheard : x.announced = []) :
    x.blocked = false ∧ ¬ x.Full := by
  constructor
  · cases hblocked : x.blocked with
    | false => rfl
    | true =>
      rcases h.wake hblocked with hann | hann
      · exact absurd hheard hann
      · rw [hpending] at hann
        exact hann.elim
  · rintro ⟨hlimit, hle⟩
    rcases h.room hlimit with hann | ⟨k, -, hk, hroom, -⟩
    · rw [hpending] at hann
      exact hann
    · have hlast : x.last = x.known := by simp [last, hheard]
      rw [ahead, hlast, hpending, count_nil] at hroom
      omega

end Covered

end Line

end Uzmq.Credit
