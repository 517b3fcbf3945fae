import Mathlib

/-!
# Directories

A table of members under keys, each of which knows its own key. The table and the keys agree if
under each key there is the member with this key, and no other one.
-/

namespace Uzmq

open Function

variable {K P : Type} [DecidableEq K] [DecidableEq P]

/-- The members under their own keys are all there is in the table. -/
def Directory (target : K → Option P) (name : P → K) (member : P → Prop) : Prop :=
  ∀ k p, target k = some p ↔ member p ∧ name p = k

namespace Directory

variable {target : K → Option P} {name : P → K} {member : P → Prop} {k k' : K} {p : P}

section
variable (h : Directory target name member)
include h

omit [DecidableEq K] [DecidableEq P] in
theorem congr {member' : P → Prop} (hmember : ∀ p, member' p ↔ member p) :
    Directory target name member' := by
  intro k p
  rw [h, hmember]

theorem add (hk : target k = none) (hp : ¬ member p) :
    Directory (update target k (some p)) (update name p k)
      fun q => member q ∨ q = p := by
  intro j q
  rcases eq_or_ne j k with rfl | hj
  · simp only [update_self, Option.some.injEq]
    by_cases hq : q = p
    · simp [hq]
    · simp only [Ne.symm hq, hq, update_of_ne, ne_eq, not_false_eq_true, or_false, false_iff]
      intro hboth
      cases hk.symm.trans ((h _ _).mpr hboth)
  · rw [update_of_ne hj, h]
    rcases eq_or_ne q p with rfl | hq
    · simp [hp, Ne.symm hj]
    · simp [hq]

theorem rename (hk : target k = some p) (hk' : target k' = none) :
    Directory (update (update target k' (some p)) k none) (update name p k') member := by
  obtain ⟨hp, hname⟩ := (h _ _).mp hk
  have hne : k' ≠ k := by
    rintro rfl
    cases hk.symm.trans hk'
  intro j q
  rcases eq_or_ne j k with rfl | hj
  · simp only [update_self, reduceCtorEq, false_iff, not_and]
    by_cases hq : q = p
    · simp [hq, hne]
    · intro hmember
      rw [update_of_ne hq]
      intro heq
      exact hq (Option.some.inj (((h _ _).mpr ⟨hmember, heq⟩).symm.trans hk))
  · rw [update_of_ne hj]
    rcases eq_or_ne j k' with rfl | hj'
    · simp only [update_self, Option.some.injEq]
      by_cases hq : q = p
      · simp [hq, hp]
      · simp only [Ne.symm hq, update_of_ne hq, false_iff]
        intro hboth
        cases hk'.symm.trans ((h _ _).mpr hboth)
    · rw [update_of_ne hj', h]
      rcases eq_or_ne q p with rfl | hq
      · simp [hname, Ne.symm hj, Ne.symm hj']
      · simp [hq]

omit [DecidableEq P] in
theorem remove (hp : member p) :
    Directory (update target (name p) none) name fun q => member q ∧ q ≠ p := by
  have hown := (h _ _).mpr ⟨hp, rfl⟩
  intro j q
  by_cases hj : j = name p
  · subst hj
    simp only [update_self, reduceCtorEq, false_iff, not_and, and_imp]
    intro hmember hne heq
    exact hne (Option.some.inj (((h _ _).mpr ⟨hmember, heq⟩).symm.trans hown))
  · rw [update_of_ne hj, h]
    constructor
    · rintro ⟨hmember, rfl⟩
      refine ⟨⟨hmember, ?_⟩, rfl⟩
      rintro rfl
      exact hj rfl
    · rintro ⟨⟨hmember, -⟩, hname⟩
      exact ⟨hmember, hname⟩

end

end Directory

end Uzmq
