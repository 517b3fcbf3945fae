import Mathlib

/-!
# Items in transit

Items wait in the order in which they were sent. Each belongs to a lane, and the first one of a
lane is taken; items of different lanes overtake each other.
-/

namespace Uzmq.Lanes

open List

universe u
variable {α : Type u} {p : α → Bool} {items rest : List α} {a : α}

/-- The first item of a lane, and what is left. -/
def takeFirst (p : α → Bool) : List α → Option (α × List α)
  | [] => none
  | a :: items =>
    if p a then some (a, items)
    else (takeFirst p items).map fun taken => (taken.1, a :: taken.2)

section
variable (h : takeFirst p items = some (a, rest))
include h

/-- Nothing of the lane stands before the item that is taken. -/
theorem takeFirst_split :
    p a = true ∧ ∃ before after, items = before ++ a :: after ∧ rest = before ++ after ∧
      ∀ b ∈ before, p b = false := by
  induction items generalizing rest with
  | nil => cases h
  | cons b items ih =>
    unfold takeFirst at h
    cases hb : p b with
    | true =>
      rw [if_pos hb] at h
      cases h
      exact ⟨hb, [], items, rfl, rfl, nofun⟩
    | false =>
      rw [if_neg (by rw [hb]; exact nofun)] at h
      obtain ⟨⟨a', rest'⟩, htaken, heq⟩ := Option.map_eq_some_iff.mp h
      cases heq
      obtain ⟨ha, before, after, rfl, rfl, hbefore⟩ := ih htaken
      refine ⟨ha, b :: before, after, rfl, rfl, ?_⟩
      intro c hc
      rcases mem_cons.mp hc with rfl | hc
      · exact hb
      · exact hbefore c hc

omit h in
theorem takeFirst_isSome (h : ∃ a ∈ items, p a = true) :
    ∃ a rest, takeFirst p items = some (a, rest) := by
  induction items with
  | nil =>
    obtain ⟨a, ha, -⟩ := h
    cases ha
  | cons b items ih =>
    unfold takeFirst
    cases hb : p b with
    | true => exact ⟨b, items, rfl⟩
    | false =>
      obtain ⟨a, ha, hpa⟩ := h
      rcases mem_cons.mp ha with rfl | ha
      · cases hb.symm.trans hpa
      · obtain ⟨a', rest, htaken⟩ := ih ⟨a, ha, hpa⟩
        exact ⟨a', b :: rest, by simp [htaken]⟩

theorem takeFirst_perm : items.Perm (a :: rest) := by
  obtain ⟨-, before, after, rfl, rfl, -⟩ := takeFirst_split h
  exact perm_middle

/-- An order among the items of one lane stays if the item that is taken comes to the front. -/
theorem takeFirst_pairwise {R : α → α → Prop} (hpairs : items.Pairwise R)
    (hlanes : ∀ b ∈ items, p b = false → R a b) : (a :: rest).Pairwise R := by
  obtain ⟨-, before, after, rfl, rfl, hbefore⟩ := takeFirst_split h
  have hmiddle := pairwise_append.mp hpairs
  have hafter := pairwise_cons.mp hmiddle.2.1
  refine pairwise_cons.mpr ⟨?_, ?_⟩
  · intro b hb
    rcases mem_append.mp hb with hb | hb
    · exact hlanes b (mem_append_left _ hb) (hbefore b hb)
    · exact hafter.1 b hb
  · refine pairwise_append.mpr ⟨hmiddle.1, hafter.2, ?_⟩
    intro b hb c hc
    exact hmiddle.2.2 b hb c (mem_cons_of_mem a hc)

end

/-- The last item is taken if nothing of its lane stands before it. -/
theorem takeFirst_append (hitems : ∀ b ∈ items, p b = false) (ha : p a = true) :
    takeFirst p (items ++ [a]) = some (a, items) := by
  induction items with
  | nil => simp [takeFirst, ha]
  | cons b items ih =>
    have hb : p b = false := hitems b mem_cons_self
    have hrest := ih fun c hc => hitems c (mem_cons_of_mem b hc)
    simp [takeFirst, hb, hrest]

end Uzmq.Lanes
