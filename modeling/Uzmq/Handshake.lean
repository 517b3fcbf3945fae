import Mathlib

/-!
# Closing a connection from both sides

Two parties close their connection with requests and answers that arrive in the
order they were sent. A party that gets a request may postpone its answer; a party
that gets the answer to its request confirms it and leaves; requests may cross.

`underway` says which notes are on their way to a party, given the phases of the
two. Every move of a party keeps this, whatever the other one does in the meantime.
-/

namespace Uzmq.Handshake

inductive Side where
  | first
  | second
  deriving DecidableEq, Repr

def Side.peer : Side → Side
  | first => second
  | second => first

@[simp] theorem Side.peer_peer (i : Side) : i.peer.peer = i := by cases i <;> rfl

@[simp] theorem Side.peer_ne (i : Side) : i.peer ≠ i := by cases i <;> decide

@[simp] theorem Side.ne_peer (i : Side) : i ≠ i.peer := by cases i <;> decide

theorem Side.eq_or_eq_peer (i j : Side) : j = i ∨ j = i.peer := by
  cases i <;> cases j <;> decide

theorem Side.forall_iff {P : Side → Prop} : (∀ i, P i) ↔ P .first ∧ P .second :=
  ⟨fun h => ⟨h _, h _⟩, fun h i => by cases i <;> simp [h]⟩

instance {P : Side → Prop} [DecidablePred P] : Decidable (∀ i, P i) :=
  decidable_of_iff _ Side.forall_iff.symm

inductive Phase where
  /-- Neither asked nor was asked. -/
  | opened
  /-- Was asked and has postponed the answer. -/
  | asked
  | answered
  | asking
  /-- Asked, was asked as well, and answered. -/
  | crossed
  | gone
  deriving DecidableEq, Repr

inductive Note where
  | request
  | answer
  deriving DecidableEq, Repr

/-- A party takes a note or none, sends a note or none, and changes its phase. -/
inductive Move : Phase → Option Note → Option Note → Phase → Prop where
  | stay {p : Phase} : Move p none none p
  | ask : Move .opened none (some .request) .asking
  | postpone : Move .opened (some .request) none .asked
  | reply : Move .opened (some .request) (some .answer) .answered
  | resume : Move .asked none (some .answer) .answered
  | cross : Move .asking (some .request) (some .answer) .crossed
  | confirm : Move .asking (some .answer) (some .answer) .gone
  | leave : Move .answered (some .answer) none .gone
  | leaveCrossed : Move .crossed (some .answer) none .gone

/-- The notes under way to a party in the first phase from one in the second, `none`
if the two phases do not occur together. -/
def underway : Phase → Phase → Option (List Note)
  | .opened, .opened => some []
  | .opened, .asking => some [.request]
  | .asking, .opened => some []
  | .asking, .asked => some []
  | .asked, .asking => some []
  | .asking, .answered => some [.answer]
  | .answered, .asking => some []
  | .answered, .gone => some [.answer]
  | .gone, .answered => some []
  | .asking, .asking => some [.request]
  | .asking, .crossed => some [.request, .answer]
  | .crossed, .asking => some []
  | .crossed, .crossed => some [.answer]
  | .crossed, .gone => some [.answer]
  | .gone, .crossed => some []
  | .gone, .gone => some []
  | _, _ => none

variable {p p' q : Phase} {got sent : Option Note} {l : List Note}

/-- A move changes the notes under way as its own notes say. -/
theorem Move.underway {l' : List Note} (h : Move p got sent p')
    (hto : underway p q = some (got.toList ++ l)) (hfrom : underway q p = some l') :
    underway p' q = some l ∧ underway q p' = some (l' ++ sent.toList) := by
  cases h with
  | stay => exact ⟨hto, by simpa using hfrom⟩
  | _ => cases q <;> cases hfrom <;> cases hto <;> exact ⟨rfl, rfl⟩

/-- A party that has answered sends nothing more. -/
def Phase.silent : Phase → Bool
  | .answered => true
  | .crossed => true
  | .gone => true
  | _ => false

theorem Move.silent_of_answer (h : Move p got sent p') (hsent : sent = some .answer) :
    p'.silent = true := by
  cases h <;> first | rfl | cases hsent

theorem Move.silent_of_silent (h : Move p got sent p') (hp : p.silent = true) :
    p'.silent = true := by
  cases h <;> first | rfl | exact hp

theorem Move.answer_of_gone (h : Move p got sent .gone) (hp : p ≠ .gone) : got = some .answer := by
  cases h <;> first | rfl | exact absurd rfl hp

/-- Only a note closes a party that has not been asked. -/
theorem Move.unasked (h : Move p none sent p') (hp : p = .opened ∨ p = .asking) :
    p' = .opened ∨ p' = .asking := by
  cases h with
  | stay => exact hp
  | ask => exact .inr rfl
  | resume => simp at hp

theorem silent_of_answer (h : underway q p = some l) (hmem : .answer ∈ l) : p.silent = true := by
  cases p <;> cases q <;> cases h <;> simp [Phase.silent] at hmem ⊢

theorem of_underway_gone (h : underway .gone p = some l) : l = [] ∧ p.silent = true := by
  cases p <;> cases h <;> exact ⟨rfl, rfl⟩

/-- A party that has not been closed has sent nothing, and its peer is not ahead of it. -/
theorem of_underway_opened (h : underway p .opened = some l) :
    l = [] ∧ (p = .opened ∨ p = .asking) := by
  cases p <;> cases h <;> simp

theorem of_underway_request (h : underway p q = some (.request :: l)) :
    p = .opened ∨ p = .asking := by
  cases p <;> cases q <;> cases h <;> simp

theorem of_underway_answer (h : underway p q = some (.answer :: l)) :
    l = [] ∧ (p = .asking ∨ p = .answered ∨ p = .crossed) := by
  cases p <;> cases q <;> cases h <;> simp

theorem Move.not_opened (h : Move p got sent p') (hp : p ≠ .opened) : p' ≠ .opened := by
  cases h <;> first | exact hp | decide

theorem phases_of_nothing (hp : underway p q = some []) (hq : underway q p = some []) :
    p = .opened ∧ q = .opened ∨ p = .asking ∧ q = .asked ∨
      p = .asked ∧ q = .asking ∨ p = .gone ∧ q = .gone := by
  cases p <;> cases q <;> cases hp <;> cases hq <;> simp

/-- The two parties and what is under way to each of them. -/
structure Net where
  phase : Side → Phase
  notes : Side → List Note

/-- The phases say what is under way. -/
def Net.Agreed (n : Net) : Prop :=
  ∀ i, underway (n.phase i) (n.phase i.peer) = some (n.notes i)

/-- Party `i` moves; `n'` differs as the move says. -/
structure Net.Step (n n' : Net) (i : Side) (got sent : Option Note) : Prop where
  move : Move (n.phase i) got sent (n'.phase i)
  taken : n.notes i = got.toList ++ n'.notes i
  sent : n'.notes i.peer = n.notes i.peer ++ sent.toList
  other : n'.phase i.peer = n.phase i.peer

theorem Net.Step.agreed {n n' : Net} {i : Side} (h : n.Step n' i got sent) (hn : n.Agreed) :
    n'.Agreed := by
  have hto := hn i
  have hfrom := hn i.peer
  rw [Side.peer_peer] at hfrom
  rw [h.taken] at hto
  obtain ⟨hto', hfrom'⟩ := h.move.underway hto hfrom
  intro j
  rcases Side.eq_or_eq_peer i j with rfl | rfl
  · rw [h.other]
    exact hto'
  · rw [Side.peer_peer, h.other, h.sent]
    exact hfrom'

end Uzmq.Handshake
