import Uzmq.Slots

/-!
# Rotas

An array of items the first of which are active, and a position among the active ones. Items are
activated at the end of the active region and deactivated by swapping them with its last item.
An attempt is made with the item at the position; if it fails the item is deactivated and the
attempt is repeated with the item that takes its place.

If the item at the position is the last active one, a deactivation before it moves the item but
sets the position to the start, so that the position points to it only if the item deactivated
was the first one.
-/

namespace Uzmq

open Function
open Slots

structure Rota (α : Type) where
  slots : Slots α := {}
  active : Nat := 0
  current : Nat := 0

namespace Rota

variable {α β σ : Type} [DecidableEq α]
variable (r : Rota α)

def here : Option α := r.slots.items[r.current]?

def attach (a : α) : Option (Rota α) :=
  match r.slots.push a with
  | none => none
  | some slots =>
    (slots.swap r.active (slots.size - 1)).map fun slots =>
      { r with slots := slots, active := r.active + 1 }

/-- The new item is not active. -/
def append (a : α) : Option (Rota α) :=
  (r.slots.push a).map fun slots => { r with slots := slots }

def activate (a : α) : Option (Rota α) :=
  (r.slots.swap (r.slots.index a) r.active).map fun slots =>
    { r with slots := slots, active := r.active + 1 }

def deactivate (i : Nat) : Option (Rota α) :=
  if r.active = 0 then none
  else
    (r.slots.swap i (r.active - 1)).map fun slots =>
      { slots := slots
        active := r.active - 1
        current := if r.current = r.active - 1 then 0 else r.current }

def remove (a : α) : Option (Rota α) :=
  match (if r.slots.index a < r.active then r.deactivate (r.slots.index a) else some r) with
  | none => none
  | some r => (r.slots.erase a).map fun slots => { r with slots := slots }

def advance : Rota α := { r with current := (r.current + 1) % r.active }

/-- What a series of attempts ends with; it is stopped by a failed attempt if it is strict. -/
structure Sought (α β σ : Type) where
  rota : Rota α
  state : σ
  found : Option (α × β) := none
  stopped : Bool := false

/-- As many attempts as there are active items. -/
def seekLoop (attempt : α → σ → Option β × σ) (strict : Bool) :
    Nat → Rota α → σ → Option (Sought α β σ)
  | 0, r, state => some { rota := r, state := state }
  | left + 1, r, state =>
    match r.here with
    | none => none
    | some a =>
      match attempt a state with
      | (some b, state) => some { rota := r, state := state, found := some (a, b) }
      | (none, state) =>
        if strict then some { rota := r, state := state, stopped := true }
        else
          match r.deactivate r.current with
          | none => none
          | some r => seekLoop attempt strict left r state

def seek (attempt : α → σ → Option β × σ) (strict : Bool) (r : Rota α) (state : σ) :
    Option (Sought α β σ) :=
  seekLoop attempt strict r.active r state

/-- The position is in the active region, or at the start if there is none. -/
structure Ok (r : Rota α) : Prop where
  active_le : r.active ≤ r.slots.size
  current_lt : r.current < r.active ∨ (r.active = 0 ∧ r.current = 0)

def Active (a : α) : Prop := r.slots.index a < r.active

def Points (a : α) : Prop := r.slots.index a = r.current ∧ r.current < r.active

/-- A rota with given items, some of which are active. -/
structure Holds (r : Rota α) (mem active : α → Prop) : Prop where
  ok : Ok r
  mem : ∀ a, a ∈ r.slots.items ↔ mem a
  active : ∀ a, r.Active a ↔ active a

section Specs
variable {r r' : Rota α} {a b : α}

omit [DecidableEq α] in
theorem ok_new : Ok ({} : Rota α) := by
  constructor
  · exact Nat.zero_le _
  · exact .inr ⟨rfl, rfl⟩

section
variable (h : Ok r)
include h

theorem Ok.holds : Holds r (· ∈ r.slots.items) r.Active := by
  constructor
  · exact h
  · intro a
    exact Iff.rfl
  · intro a
    exact Iff.rfl

omit h in
theorem Points.active (h : r.Points a) : r.Active a := by
  have heq := h.1
  have hlt := h.2
  unfold Active
  omega

theorem Ok.mem_of_active (ha : r.Active a) : a ∈ r.slots.items :=
  index_lt_size_iff.mp (Nat.lt_of_lt_of_le ha h.active_le)

omit h in
theorem Points.inj (hok : Ok r) (ha : r.Points a) (hb : r.Points b) : a = b :=
  (index_inj (hok.mem_of_active ha.active)).mp (ha.1.trans hb.1.symm)

theorem Ok.here_eq (ha : r.Points a) : r.here = some a := by
  have hle := h.active_le
  have hlt := ha.2
  exact (index_eq_iff (by omega)).mp ha.1

theorem Ok.exists_points (hactive : r.active ≠ 0) : ∃ a, r.Points a := by
  have hle := h.active_le
  have hlt : r.current < r.active := h.current_lt.resolve_right fun hzero => hactive hzero.1
  obtain ⟨a, -, ha⟩ := exists_index (s := r.slots) (i := r.current) (by omega)
  exact ⟨a, ha, hlt⟩

omit h in
/-- An item keeps its position if the regions up to it stay the same. -/
theorem Points.of_below (h : r.Points b) {s : Slots α} {k n : Nat} (hk : r.current < k)
    (hn : r.current < n)
    (hbelow : ∀ j, j ≤ k → (s.index b < j ↔ r.slots.index b < j)) :
    Points { slots := s, active := n, current := r.current } b := by
  have heq := h.1
  have hlow := hbelow r.current (by omega)
  have hhigh := hbelow (r.current + 1) (by omega)
  constructor
  · change s.index b = r.current
    omega
  · exact hn

theorem Ok.attach (hnew : a ∉ r.slots.items) : ∃ r', r.attach a = some r' ∧
      Holds r' (fun b => b ∈ r.slots.items ∨ b = a) (fun b => r.Active b ∨ b = a) ∧
      ∀ b, r.Points b → r'.Points b := by
  have hle := h.active_le
  obtain ⟨s₁, hs₁⟩ := push_isSome hnew
  obtain ⟨s, hs, hins⟩ := (pushed_of_push hs₁).inserted hle
  have hsize := hins.size
  refine ⟨{ r with slots := s, active := r.active + 1 }, ?_, ⟨⟨?_, ?_⟩, hins.mem, ?_⟩, ?_⟩
  · simp [Rota.attach, hs₁, hs]
  · change r.active + 1 ≤ s.size
    omega
  · rcases h.current_lt with hlt | ⟨hzero, hcurrent⟩
    · exact .inl (Nat.lt_succ_of_lt hlt)
    · refine .inl ?_
      dsimp only
      omega
  · exact region_enters hins.own hins.rest fun _ => Iff.rfl
  · intro b hb
    have hne : b ≠ a := by
      rintro rfl
      exact hnew (h.mem_of_active hb.active)
    exact hb.of_below hb.2 (Nat.lt_succ_of_lt hb.2) (hins.below b hne)

theorem Ok.append (hnew : a ∉ r.slots.items) :
    ∃ r', r.append a = some r' ∧ Holds r' (fun b => b ∈ r.slots.items ∨ b = a) r.Active ∧
      ∀ b, r.Points b → r'.Points b := by
  have hle := h.active_le
  obtain ⟨s, hs⟩ := push_isSome hnew
  have hpushed := pushed_of_push hs
  have hsize := hpushed.size
  have hbelow (b : α) (j : Nat) (hj : j ≤ r.slots.size) : s.index b < j ↔ r.slots.index b < j := by
    rcases eq_or_ne b a with rfl | hb
    · have hown := hpushed.own
      have hout : ¬ r.slots.index b < r.slots.size := fun hlt =>
        hnew (index_lt_size_iff.mp hlt)
      omega
    · exact hpushed.below b hb j hj
  refine ⟨{ r with slots := s }, by simp [Rota.append, hs], ⟨⟨?_, h.current_lt⟩, hpushed.mem,
    ?_⟩, ?_⟩
  · change r.active ≤ s.size
    omega
  · intro b
    exact hbelow b r.active hle
  · intro b hb
    exact hb.of_below (Nat.lt_of_lt_of_le hb.2 hle) hb.2 (hbelow b)

theorem Ok.activate (hin : a ∈ r.slots.items) (hnot : ¬ r.Active a) : ∃ r', r.activate a = some r' ∧
      Holds r' (· ∈ r.slots.items) (fun b => r.Active b ∨ b = a) ∧
      ∀ b, r.Points b → r'.Points b := by
  have hlt := index_lt_size_iff.mpr hin
  have hge : r.active ≤ r.slots.index a := Nat.le_of_not_lt hnot
  obtain ⟨s, hs⟩ := swap_isSome hlt (show r.active < r.slots.size by omega)
  have hent := (swapped_of_swap hs).entered hge
  have hsize := hent.size
  refine ⟨{ r with slots := s, active := r.active + 1 }, ?_, ⟨⟨?_, ?_⟩, hent.mem, ?_⟩, ?_⟩
  · simp [Rota.activate, hs]
  · change r.active + 1 ≤ s.size
    omega
  · rcases h.current_lt with hlt | ⟨hzero, hcurrent⟩
    · exact .inl (Nat.lt_succ_of_lt hlt)
    · refine .inl ?_
      dsimp only
      omega
  · exact region_enters hent.own hent.rest fun _ => Iff.rfl
  · intro b hb
    have hne : b ≠ a := by
      rintro rfl
      exact hnot hb.active
    exact hb.of_below hb.2 (Nat.lt_succ_of_lt hb.2) (hent.below b hne)

/-- An item is deactivated. The position still points to the same item unless that was the last
active one. -/
theorem Ok.deactivate (ha : r.Active a) : ∃ r', r.deactivate (r.slots.index a) = some r' ∧
      Holds r' (· ∈ r.slots.items) (fun b => r.Active b ∧ b ≠ a) ∧
      r'.active + 1 = r.active ∧ r'.slots.index a = r'.active ∧
      ∀ b, r.Points b → b ≠ a → (r.current + 1 = r.active → r.slots.index a = 0) → r'.Points b := by
  have hle := h.active_le
  have hlt : r.slots.index a < r.active := ha
  obtain ⟨s, hs⟩ := swap_isSome (s := r.slots) (i := r.slots.index a) (j := r.active - 1)
    (by omega) (by omega)
  have hswap := swapped_of_swap hs
  have hleft := hswap.left_region hlt
  have hsize := hleft.size
  refine ⟨{ slots := s, active := r.active - 1,
            current := if r.current = r.active - 1 then 0 else r.current }, ?_,
    ⟨⟨?_, ?_⟩, hleft.mem, ?_⟩, ?_, hleft.own, ?_⟩
  · rw [Rota.deactivate, if_neg (by omega), hs, Option.map_some]
  · change r.active - 1 ≤ s.size
    omega
  · dsimp only
    rcases h.current_lt with hcur | ⟨hzero, -⟩
    · split
      · by_cases hone : r.active = 1
        · exact .inr ⟨by omega, rfl⟩
        · exact .inl (by omega)
      · exact .inl (by omega)
    · omega
  · have hown := hleft.own
    exact region_loses (by dsimp only; omega) hleft.rest fun _ => Iff.rfl
  · dsimp only
    omega
  · intro b hb hne hlast
    have hdiff : r.slots.index b ≠ r.slots.index a := fun heq =>
      hne ((index_inj (h.mem_of_active hb.active)).mp heq)
    have hpos := hb.1
    have hcur := hb.2
    have hindex := hswap.index b
    rw [if_neg hdiff] at hindex
    by_cases heq : r.current = r.active - 1
    · -- The item that takes the place of the first one is the last one.
      have hzero := hlast (by omega)
      rw [if_pos (by omega), hzero] at hindex
      constructor
      · simpa [heq] using hindex
      · simp only [heq, if_true]
        omega
    · rw [if_neg (by omega)] at hindex
      constructor
      · simpa [heq] using hindex.trans hpos
      · simp only [heq, if_false]
        omega

theorem Ok.remove (hin : a ∈ r.slots.items) : ∃ r', r.remove a = some r' ∧
      Holds r' (fun b => b ∈ r.slots.items ∧ b ≠ a) (fun b => r.Active b ∧ b ≠ a) ∧
      ∀ b, r.Points b → b ≠ a →
        (r.Active a → r.current + 1 = r.active → r.slots.index a = 0) → r'.Points b := by
  -- First the item leaves the active region, if it is there.
  obtain ⟨r₁, hr₁, hholds, hout, hpoints⟩ : ∃ r₁,
      (if r.slots.index a < r.active then r.deactivate (r.slots.index a) else some r) = some r₁ ∧
        Holds r₁ (· ∈ r.slots.items) (fun b => r.Active b ∧ b ≠ a) ∧
        r₁.active ≤ r₁.slots.index a ∧
        ∀ b, r.Points b → b ≠ a →
          (r.Active a → r.current + 1 = r.active → r.slots.index a = 0) → r₁.Points b := by
    by_cases ha : r.slots.index a < r.active
    · obtain ⟨r₁, hr₁, hholds, -, hown, hpoints⟩ := h.deactivate ha
      refine ⟨r₁, by rw [if_pos ha, hr₁], hholds, Nat.le_of_eq hown.symm, ?_⟩
      intro b hb hne hlast
      exact hpoints b hb hne (hlast ha)
    · refine ⟨r, if_neg ha, ⟨h, fun _ => Iff.rfl, ?_⟩, Nat.le_of_not_lt ha, fun b hb _ _ => hb⟩
      intro b
      constructor
      · intro hb
        refine ⟨hb, ?_⟩
        rintro rfl
        exact ha hb
      · rintro ⟨hb, -⟩
        exact hb
  have hin₁ : a ∈ r₁.slots.items := (hholds.mem a).mpr hin
  obtain ⟨s, hs⟩ := erase_isSome hin₁
  have herased := erased_of_erase hs
  have hsize := herased.size
  have hlt := index_lt_size_iff.mpr hin₁
  refine ⟨{ r₁ with slots := s }, by simp [Rota.remove, hr₁, hs],
    ⟨⟨?_, hholds.ok.current_lt⟩, ?_, ?_⟩, ?_⟩
  · change r₁.active ≤ s.size
    omega
  · intro b
    rw [herased.mem, hholds.mem]
  · intro b
    rcases eq_or_ne b a with rfl | hb
    · simp only [ne_eq, not_true_eq_false, and_false, iff_false]
      intro hactive
      have hmem : b ∈ s.items := index_lt_size_iff.mp (by
        have : s.index b < r₁.active := hactive
        omega)
      exact ((herased.mem b).mp hmem).2 rfl
    · rw [← hholds.active]
      exact herased.below b hb r₁.active hout
  · intro b hb hne hlast
    have hpoints₁ := hpoints b hb hne hlast
    exact hpoints₁.of_below (Nat.lt_of_lt_of_le hpoints₁.2 hout) hpoints₁.2 (herased.below b hne)

theorem Ok.advance (hactive : r.active ≠ 0) : Holds r.advance (· ∈ r.slots.items) r.Active := by
  refine ⟨⟨h.active_le, .inl ?_⟩, fun _ => Iff.rfl, fun _ => Iff.rfl⟩
  exact Nat.mod_lt _ (Nat.pos_of_ne_zero hactive)

end

end Specs

section Seeking
variable {attempt : α → σ → Option β × σ} {r : Rota α} {state state' : σ} {a : α} {strict : Bool}

theorem Ok.seek_isSome (h : Ok r) (attempt : α → σ → Option β × σ) (state : σ) :
    ∃ q, r.seek attempt false state = some q ∧ q.stopped = false := by
  unfold seek
  generalize hleft : r.active = left
  induction left generalizing r state with
  | zero => exact ⟨_, rfl, rfl⟩
  | succ left ih =>
    obtain ⟨a, ha⟩ := h.exists_points (by omega)
    obtain ⟨r', hr', hholds, hactive, -⟩ := h.deactivate ha.active
    rw [ha.1] at hr'
    simp only [seekLoop, h.here_eq ha]
    cases attempt a state with
    | mk result state' =>
      cases result with
      | some b => exact ⟨_, rfl, rfl⟩
      | none =>
        simp only [Bool.false_eq_true, if_false, hr']
        exact ih hholds.ok state' (by omega)

/-- Attempts that depend on a state of the item only. What holds before them and is kept by a
failed one holds in the end, too, if they are not stopped. -/
theorem seek_cases {γ : Type} {f : α → γ → Option β × γ} {state : α → γ}
    {I : Rota α → (α → γ) → Prop} {q : Sought α β (α → γ)} (hok : ∀ r state, I r state → Ok r)
    (hfail : ∀ r state a r' x, I r state → r.Points a → f a (state a) = (none, x) →
      r.deactivate (r.slots.index a) = some r' → I r' (update state a x)) (h : I r state)
    (hq : r.seek (fun a state => ((f a (state a)).1, update state a (f a (state a)).2)) strict
      state = some q) (hrun : strict = true → q.stopped = false) :
    q.found = none ∧ I q.rota q.state ∨
      ∃ a b before x, q.found = some (a, b) ∧ I q.rota before ∧ q.rota.Points a ∧
        f a (before a) = (some b, x) ∧ q.state = update before a x := by
  unfold seek at hq
  generalize hleft : r.active = left at hq
  induction left generalizing r state with
  | zero =>
    cases hq
    exact .inl ⟨rfl, h⟩
  | succ left ih =>
    have hr := hok r state h
    obtain ⟨a, ha⟩ := hr.exists_points (by omega)
    simp only [seekLoop, hr.here_eq ha] at hq
    cases hf : f a (state a) with
    | mk result x =>
      rw [hf] at hq
      cases result with
      | some b =>
        cases hq
        exact .inr ⟨a, b, state, x, rfl, h, ha, hf, rfl⟩
      | none =>
        obtain ⟨r', hr', -, hactive, -⟩ := hr.deactivate ha.active
        have hnext := hfail r state a r' x h ha hf hr'
        rw [ha.1] at hr'
        dsimp only at hq
        split at hq
        · rename_i hstrict
          cases hq
          cases hrun hstrict
        · rw [hr'] at hq
          exact ih hnext (by omega) hq

theorem Ok.seek_found {b : β} (h : Ok r) (ha : r.Points a)
    (hattempt : attempt a state = (some b, state')) (strict : Bool) :
    r.seek attempt strict state = some { rota := r, state := state', found := some (a, b) } := by
  have hlt := ha.2
  obtain ⟨left, hleft⟩ : ∃ left, r.active = left + 1 := ⟨r.active - 1, by omega⟩
  rw [seek, hleft, seekLoop, h.here_eq ha]
  simp only [hattempt]

theorem Ok.seek_stopped (h : Ok r) (ha : r.Points a) (hattempt : attempt a state = (none, state')) :
    r.seek attempt true state = some { rota := r, state := state', stopped := true } := by
  have hlt := ha.2
  obtain ⟨left, hleft⟩ : ∃ left, r.active = left + 1 := ⟨r.active - 1, by omega⟩
  rw [seek, hleft, seekLoop, h.here_eq ha]
  simp only [hattempt, if_true]

end Seeking

end Rota

end Uzmq
