import Mathlib

/-!
# Runs of a system with inputs

A system is a partial function from a state and an input to the next state. A run
is guarded: each of its steps has to meet a condition on the state it starts in
and on its input. The condition that is always met gives all runs.
-/

namespace Uzmq.Runs

universe u v
variable {State : Type u} {Input : Type v}

/-- States reached from an initial one by steps that all meet the guard. -/
inductive Reach (initial : State → Prop) (guard : State → Input → Prop)
    (step : State → Input → Option State) : State → Prop where
  | start {s : State} (h : initial s) : Reach initial guard step s
  | next {s t : State} {i : Input} (before : Reach initial guard step s) (met : guard s i)
      (h : step s i = some t) : Reach initial guard step t

/-- Every run is unrestricted. -/
def Always (_ : State) (_ : Input) : Prop := True

instance (s : State) (i : Input) : Decidable (Always s i) := isTrue trivial

variable {s : State} {P initial : State → Prop}

section Invariants
variable {initial : State → Prop} {guard : State → Input → Prop}
variable {step : State → Input → Option State}

/-- What holds initially and is preserved by every guarded step holds throughout. -/
theorem Reach.invariant {Inv : State → Prop} (base : ∀ s, initial s → Inv s)
    (preserved : ∀ s i t, Inv s → guard s i → step s i = some t → Inv t)
    (h : Reach initial guard step s) : Inv s := by
  induction h with
  | start h => exact base _ h
  | next _ met h ih => exact preserved _ _ _ ih met h

/-- The same if it is known that guarded steps can be taken. -/
theorem Reach.invariant_of_progress (base : ∀ s, initial s → P s)
    (progress : ∀ s i, P s → guard s i → ∃ t, step s i = some t ∧ P t)
    (h : Reach initial guard step s) : P s := by
  refine h.invariant base ?_
  intro s i t hs met hstep
  obtain ⟨t', ht', hP⟩ := progress s i hs met
  rw [hstep] at ht'
  cases ht'
  exact hP

end Invariants

section Execution
variable (guard : State → Input → Prop) [∀ s i, Decidable (guard s i)]
variable (step : State → Input → Option State)

/-- Take the inputs one after the other, as long as the guard is met. -/
def exec : State → List Input → Option State
  | s, [] => some s
  | s, i :: later =>
    if guard s i then
      match step s i with
      | none => none
      | some t => exec t later
    else none

theorem exec_always_cons (s : State) (i : Input) (later : List Input) :
    exec Always step s (i :: later) = (step s i).bind fun t => exec Always step t later := by
  rw [exec, if_pos (show Always s i from trivial)]
  cases step s i <;> rfl

theorem Reach.exec {t : State} (inputs : List Input) (before : Reach initial guard step s)
    (h : exec guard step s inputs = some t) : Reach initial guard step t := by
  induction inputs generalizing s with
  | nil =>
    cases h
    exact before
  | cons i later ih =>
    simp only [Runs.exec] at h
    split at h
    · rename_i met
      cases hstep : step s i with
      | none => simp [hstep] at h
      | some u =>
        simp only [hstep] at h
        exact ih (.next before met hstep) h
    · cases h

/-- A property of the state a concrete run ends in is a property of a reachable state. -/
theorem Reach.of_exec (inputs : List Input) (h : ∃ t ∈ Runs.exec guard step s inputs, P t)
    (hs : initial s) : ∃ t, Reach initial guard step t ∧ P t := by
  obtain ⟨t, hrun, hP⟩ := h
  exact ⟨t, .exec guard step inputs (.start hs) hrun, hP⟩

section Known
variable {initial : State → Prop} {s : State} {P Q : State → Prop} (inputs : List Input)
  (h : ∃ t ∈ Runs.exec guard step s inputs, P t) (hs : initial s)
  (known : ∀ t, Reach initial guard step t → Q t)
include h hs known

theorem Reach.of_exec_right : ∃ t, Reach initial guard step t ∧ P t ∧ Q t := by
  obtain ⟨t, hreach, hP⟩ := Reach.of_exec guard step inputs h hs
  exact ⟨t, hreach, hP, known t hreach⟩

theorem Reach.of_exec_left : ∃ t, Reach initial guard step t ∧ Q t ∧ P t := by
  obtain ⟨t, hreach, hP, hQ⟩ := Reach.of_exec_right guard step inputs h hs known
  exact ⟨t, hreach, hQ, hP⟩

end Known

/-- The same with two properties of the state the run ends in. -/
theorem Reach.of_exec_two {P₁ P₂ Q : State → Prop} (inputs : List Input)
    (h : ∃ t ∈ Runs.exec guard step s inputs, P₁ t ∧ P₂ t) (hs : initial s)
    (known : ∀ t, Reach initial guard step t → Q t) :
    ∃ t, Reach initial guard step t ∧ P₁ t ∧ P₂ t ∧ Q t := by
  obtain ⟨t, hreach, ⟨h₁, h₂⟩, hQ⟩ := Reach.of_exec_right guard step inputs h hs known
  exact ⟨t, hreach, h₁, h₂, hQ⟩

end Execution

end Uzmq.Runs
