import Mathlib

/-!
# Doubly linked lists in a heap

The heap is one map per pointer field. `Between m p l q` says that the nodes `l`
are linked with each other in this order, the first one back to `p` and the last
one on to `q`. All changes are made of `link`, which makes two nodes neighbours;
a missing neighbour stands for an end of the list.
-/

namespace Uzmq.Linked

open Option List

universe u
variable {ι : Type u} [DecidableEq ι]

structure Links (ι : Type u) where
  next : ι → Option ι
  prev : ι → Option ι

namespace Links

def setNext (m : Links ι) (i : ι) (v : Option ι) : Links ι :=
  { m with next := Function.update m.next i v }

def setPrev (m : Links ι) (i : ι) (v : Option ι) : Links ι :=
  { m with prev := Function.update m.prev i v }

variable (m : Links ι) (i j : ι) (v : Option ι)

@[simp] theorem setNext_next_self : (m.setNext i v).next i = v := by simp [setNext]

@[simp] theorem setNext_next_ne (h : j ≠ i) : (m.setNext i v).next j = m.next j := by
  simp [setNext, h]

@[simp] theorem setNext_prev : (m.setNext i v).prev = m.prev := rfl

@[simp] theorem setPrev_prev_self : (m.setPrev i v).prev i = v := by simp [setPrev]

@[simp] theorem setPrev_prev_ne (h : j ≠ i) : (m.setPrev i v).prev j = m.prev j := by
  simp [setPrev, h]

@[simp] theorem setPrev_next : (m.setPrev i v).next = m.next := rfl

/-- Make `p` and `n` neighbours. -/
def link (m : Links ι) (p n : Option ι) : Links ι :=
  let m := match p with
    | none => m
    | some i => m.setNext i n
  match n with
  | none => m
  | some i => m.setPrev i p

end Links

/-- The nodes are linked with each other, and with `p` and `q` at the two ends. -/
def Between (m : Links ι) : Option ι → List ι → Option ι → Prop
  | _, [], _ => True
  | p, i :: l, q => m.prev i = p ∧ m.next i = l.head?.or q ∧ Between m (some i) l q

instance Between.decidable (m : Links ι) : (p : Option ι) → (l : List ι) → (q : Option ι) →
    Decidable (Between m p l q)
  | _, [], _ => isTrue trivial
  | _, i :: l, q =>
    have := Between.decidable m (some i) l q
    inferInstanceAs (Decidable (_ ∧ _ ∧ _))

variable {n p : Option ι} {j k : ι} {fuel : Nat}

section Between
variable {m m' : Links ι} {p q x y : Option ι} {a b l : List ι} {i : ι}

section
omit [DecidableEq ι]

theorem Between.congr (h : Between m p l q)
    (same : ∀ i ∈ l, m'.next i = m.next i ∧ m'.prev i = m.prev i) : Between m' p l q := by
  induction l generalizing p with
  | nil => trivial
  | cons i l ih =>
    obtain ⟨hprev, hnext, htail⟩ := h
    obtain ⟨hn, hp⟩ := same i mem_cons_self
    refine ⟨by rw [hp, hprev], by rw [hn, hnext], ih htail ?_⟩
    intro j hj
    exact same j (mem_cons_of_mem i hj)

theorem between_append :
    Between m p (a ++ b) q ↔ Between m p a (b.head?.or q) ∧ Between m (a.getLast?.or p) b q := by
  induction a generalizing p with
  | nil => simp [Between]
  | cons i a ih =>
    have hlast : (i :: a).getLast?.or p = a.getLast?.or (some i) := by
      cases a <;> simp [List.getLast?_cons]
    have hhead : (a ++ b).head?.or q = a.head?.or (b.head?.or q) := by
      cases a <;> simp
    simp only [cons_append, Between, ih, hlast, hhead]
    tauto

theorem between_split :
    Between m none (a ++ i :: b) none ↔
      Between m none a (some i) ∧ m.prev i = a.getLast? ∧ m.next i = b.head? ∧
        Between m (some i) b none := by
  rw [between_append]
  simp [Between]

theorem Between.prev_eq {k : Nat} (h : Between m p l q) (hi : l[k + 1]? = some i) :
    m.prev i = l[k]? := by
  induction l generalizing p k with
  | nil => simp at hi
  | cons j l ih =>
    obtain ⟨-, -, htail⟩ := h
    cases k with
    | zero =>
      cases l with
      | nil => simp at hi
      | cons i' l =>
        obtain ⟨hprev, -⟩ := htail
        obtain rfl : i' = i := by simpa using hi
        simpa using hprev
    | succ k => simpa using ih htail hi

end

theorem link_prev_of_ne (h : n ≠ some j) : (m.link p n).prev j = m.prev j := by
  cases p with
  | none | some =>
    cases n with
    | none => rfl
    | some k => exact Links.setPrev_prev_ne _ _ _ _ (by rintro rfl; exact h rfl)

theorem link_next_of_ne (h : p ≠ some j) : (m.link p n).next j = m.next j := by
  cases p with
  | none => cases n <;> rfl
  | some i =>
    have hne : j ≠ i := by
      rintro rfl
      exact h rfl
    cases n with
    | none | some => exact Links.setNext_next_ne _ _ _ _ hne

theorem link_prev_self : (m.link p (some k)).prev k = p := by
  cases p <;> exact Links.setPrev_prev_self _ _ _

theorem link_next_self : (m.link (some k) n).next k = n := by
  cases n <;> exact Links.setNext_next_self _ _ _

theorem link_frame (hp : p ≠ some j) (hn : n ≠ some j) :
    (m.link p n).next j = m.next j ∧ (m.link p n).prev j = m.prev j :=
  ⟨link_next_of_ne hp, link_prev_of_ne hn⟩

theorem Between.link_last (h : Between m p a x) (hne : a ≠ []) (nodup : a.Nodup)
    (hn : ∀ j ∈ n, j ∉ a) : Between (m.link a.getLast? n) p a n := by
  obtain ⟨l, i, rfl⟩ : ∃ l i, a = l ++ [i] := by
    rcases eq_nil_or_concat a with rfl | ⟨l, i, rfl⟩
    · exact absurd rfl hne
    · exact ⟨l, i, concat_eq_append⟩
  have hlast : (l ++ [i]).getLast? = some i := by simp
  have hnot : i ∉ l := by
    intro hmem
    have := nodup_append.mp nodup
    exact this.2.2 i hmem i (by simp) rfl
  rw [hlast]
  obtain ⟨hl, hprev, -, -⟩ := between_append.mp h
  apply between_append.mpr
  refine ⟨?_, ?_, ?_, trivial⟩
  · refine Between.congr hl ?_
    intro j hj
    apply link_frame
    · rintro ⟨⟩
      exact hnot hj
    · intro heq
      exact hn j heq (mem_append_left _ hj)
  · rw [link_prev_of_ne ?_, hprev]
    intro heq
    exact hn i heq (by simp)
  · exact link_next_self

theorem Between.link_first {o : Option ι} (h : Between m y b q) (hne : b ≠ [])
    (nodup : b.Nodup) (ho : ∀ j ∈ o, j ∉ b) : Between (m.link o b.head?) o b q := by
  cases b with
  | nil => exact absurd rfl hne
  | cons i l =>
    obtain ⟨-, hnext, htail⟩ := h
    have hnot : i ∉ l := (nodup_cons.mp nodup).1
    refine ⟨link_prev_self, ?_, Between.congr htail ?_⟩
    · rw [link_next_of_ne ?_, hnext]
      rintro rfl
      exact ho i rfl mem_cons_self
    intro j hj
    apply link_frame
    · rintro rfl
      exact ho j rfl (mem_cons_of_mem i hj)
    · rintro ⟨⟩
      exact hnot hj

/-- Linking the end of one list with the start of another one joins the two. -/
theorem Between.link_append (ha : Between m none a x) (hb : Between m y b none)
    (nodup : (a ++ b).Nodup) : Between (m.link a.getLast? b.head?) none (a ++ b) none := by
  obtain ⟨na, nb, hdisj⟩ := nodup_append.mp nodup
  apply between_append.mpr
  simp only [or_none]
  constructor
  · by_cases hne : a = []
    · subst hne
      trivial
    · apply ha.link_last hne na
      intro j hj hmem
      exact hdisj j hmem j (mem_of_mem_head? hj) rfl
  · by_cases hne : b = []
    · subst hne
      trivial
    · apply hb.link_first hne nb
      intro j hj hmem
      exact hdisj j (mem_of_getLast? hj) j hmem rfl

end Between

/-- A list of distinct nodes that hangs together and starts at `head`. -/
structure IsQueue (m : Links ι) (head : Option ι) (l : List ι) : Prop where
  head_eq : head = l.head?
  nodup : l.Nodup
  between : Between m none l none

/-- Go through a list to the first node with the property. Returns the node before
it, or `before` at the start, and the node. -/
def find (m : Links ι) (P : ι → Bool) : Nat → Option ι → Option ι → Option ι × Option ι
  | 0, before, cur => (before, cur)
  | _ + 1, before, none => (before, none)
  | fuel + 1, before, some i =>
    if P i then (before, some i) else find m P fuel (some i) (m.next i)

/-- The nodes from `cur` on, as the `next` pointers give them. -/
def nodes (m : Links ι) : Nat → Option ι → List ι
  | 0, _ => []
  | _ + 1, none => []
  | fuel + 1, some i => i :: nodes m fuel (m.next i)

section Queues
variable {m m' : Links ι} {head : Option ι} {a b l : List ι} {i : ι}

section
omit [DecidableEq ι]

theorem find_spec (P : ι → Bool) (h : Between m p l none) (hfuel : l.length ≤ fuel)
    (before : Option ι) :
    ∃ a b, l = a ++ b ∧ find m P fuel before l.head? = (a.getLast?.or before, b.head?) ∧
      (∀ i ∈ a, P i = false) ∧ ∀ i ∈ b.head?, P i = true := by
  induction l generalizing p fuel before with
  | nil =>
    refine ⟨[], [], rfl, ?_, by simp, by simp⟩
    cases fuel <;> rfl
  | cons i l ih =>
    cases fuel with
    | zero => simp at hfuel
    | succ fuel =>
      cases hP : P i with
      | true => exact ⟨[], i :: l, rfl, by simp [find, hP], by simp, by simpa using hP⟩
      | false =>
        obtain ⟨-, hnext, htail⟩ := h
        obtain ⟨a, b, hl, hfind, ha, hb⟩ := ih htail (by simpa using hfuel) (some i)
        refine ⟨i :: a, b, by rw [hl, cons_append], ?_, ?_, hb⟩
        · have hlast : (i :: a).getLast?.or before = a.getLast?.or (some i) := by
            cases a <;> simp [List.getLast?_cons]
          simp [find, hP, hnext, hfind, hlast]
        · simpa [hP] using ha

theorem nodes_eq (h : Between m p l none) (hfuel : l.length ≤ fuel) : nodes m fuel l.head? = l := by
  induction l generalizing p fuel with
  | nil => cases fuel <;> rfl
  | cons i l ih =>
    cases fuel with
    | zero => simp at hfuel
    | succ fuel =>
      obtain ⟨-, hnext, htail⟩ := h
      rw [or_none] at hnext
      simp only [List.head?_cons, nodes, hnext, ih htail (by simpa using hfuel)]

theorem IsQueue.congr (h : IsQueue m head l)
    (same : ∀ i ∈ l, m'.next i = m.next i ∧ m'.prev i = m.prev i) : IsQueue m' head l :=
  ⟨h.head_eq, h.nodup, h.between.congr same⟩

end

theorem IsQueue.unlink (h : IsQueue m head (a ++ i :: b)) :
    IsQueue (m.link (m.prev i) (m.next i)) (a ++ b).head? (a ++ b) := by
  obtain ⟨ha, hprev, hnext, hb⟩ := between_split.mp h.between
  have hnodup : (a ++ b).Nodup := h.nodup.sublist (by simp)
  rw [hprev, hnext]
  exact ⟨rfl, hnodup, ha.link_append hb hnodup⟩

theorem IsQueue.insert (h : IsQueue m head (a ++ b)) (hnew : i ∉ a ++ b) :
    IsQueue ((m.link (some i) b.head?).link a.getLast? (some i)) (a ++ i :: b).head?
      (a ++ i :: b) := by
  have hnodup : (a ++ i :: b).Nodup := by
    apply perm_middle.nodup_iff.mpr
    exact nodup_cons.mpr ⟨hnew, h.nodup⟩
  obtain ⟨na, nib, hdisj⟩ := nodup_append.mp hnodup
  obtain ⟨hib, nb⟩ := nodup_cons.mp nib
  obtain ⟨ha, hb⟩ := between_append.mp h.between
  -- The new node in front of `b`.
  have hright : Between (m.link (some i) b.head?) (m.prev i) (i :: b) none := by
    refine ⟨?_, ?_, ?_⟩
    · apply link_prev_of_ne
      intro heq
      exact hib (mem_of_mem_head? heq)
    · rw [link_next_self, or_none]
    by_cases hne : b = []
    · subst hne
      trivial
    · apply hb.link_first hne nb
      rintro j ⟨⟩
      exact hib
  have hleft : Between (m.link (some i) b.head?) none a (b.head?.or none) := by
    refine ha.congr ?_
    intro j hj
    apply link_frame
    · rintro ⟨⟩
      exact hnew (mem_append_left _ hj)
    · intro heq
      exact hdisj j hj j (mem_cons_of_mem i (mem_of_mem_head? heq)) rfl
  exact ⟨rfl, hnodup, hleft.link_append hright hnodup⟩

theorem IsQueue.append {head' : Option ι} (ha : IsQueue m head a) (hb : IsQueue m head' b)
    (disjoint : ∀ i ∈ a, i ∉ b) :
    IsQueue (m.link a.getLast? b.head?) (a ++ b).head? (a ++ b) := by
  have hnodup : (a ++ b).Nodup := by
    apply nodup_append.mpr
    refine ⟨ha.nodup, hb.nodup, ?_⟩
    rintro i hi j hj rfl
    exact disjoint i hi hj
  exact ⟨rfl, hnodup, ha.between.link_append hb.between hnodup⟩

end Queues

/-- No pointer leads out of `S`. -/
def Inside (m : Links ι) (S : ι → Prop) : Prop :=
  ∀ i, S i → (∀ j ∈ m.next i, S j) ∧ ∀ j ∈ m.prev i, S j

section Inside
variable {m : Links ι} {S : ι → Prop} {head v : Option ι} {l : List ι} {i : ι}

theorem Inside.setNext (h : Inside m S) (hv : ∀ j ∈ v, S j) : Inside (m.setNext i v) S := by
  intro k hk
  refine ⟨?_, (h k hk).2⟩
  rcases eq_or_ne k i with rfl | heq
  · rwa [Links.setNext_next_self]
  · rw [Links.setNext_next_ne _ _ _ _ heq]
    exact (h k hk).1

theorem Inside.setPrev (h : Inside m S) (hv : ∀ j ∈ v, S j) : Inside (m.setPrev i v) S := by
  intro k hk
  refine ⟨(h k hk).1, ?_⟩
  rcases eq_or_ne k i with rfl | heq
  · rwa [Links.setPrev_prev_self]
  · rw [Links.setPrev_prev_ne _ _ _ _ heq]
    exact (h k hk).2

section
omit [DecidableEq ι]

theorem Inside.find (h : Inside m S) (P : ι → Bool) (fuel : Nat) (before cur : Option ι)
    (hbefore : ∀ j ∈ before, S j) (hcur : ∀ j ∈ cur, S j) :
    (∀ j ∈ (find m P fuel before cur).1, S j) ∧ ∀ j ∈ (find m P fuel before cur).2, S j := by
  induction fuel generalizing before cur with
  | zero => exact ⟨hbefore, hcur⟩
  | succ fuel ih =>
    cases cur with
    | none => exact ⟨hbefore, hcur⟩
    | some i =>
      rw [Linked.find]
      split
      · exact ⟨hbefore, hcur⟩
      · apply ih
        · rintro j ⟨⟩
          exact hcur i rfl
        · exact (h i (hcur i rfl)).1

theorem Inside.of_between (h : Inside m S) (hl : Between m p l none) (hhead : ∀ j ∈ l.head?, S j) :
    ∀ j ∈ l, S j := by
  induction l generalizing p with
  | nil => simp
  | cons i l ih =>
    obtain ⟨-, hnext, htail⟩ := hl
    have hi : S i := hhead i rfl
    rw [or_none] at hnext
    have hrest := ih htail (by rw [← hnext]; exact (h i hi).1)
    intro j hj
    rcases mem_cons.mp hj with rfl | hj
    · exact hi
    · exact hrest j hj

theorem IsQueue.inside (h : IsQueue m head l) (hl : ∀ i ∈ l, S i) :
    (∀ i ∈ head, S i) ∧ ∀ i ∈ l, (∀ j ∈ m.next i, S j) ∧ ∀ j ∈ m.prev i, S j := by
  refine ⟨?_, ?_⟩
  · intro i hi
    rw [h.head_eq] at hi
    exact hl i (mem_of_mem_head? hi)
  intro i hi
  obtain ⟨a, b, rfl⟩ := append_of_mem hi
  obtain ⟨-, hprev, hnext, -⟩ := between_split.mp h.between
  rw [hprev, hnext]
  refine ⟨?_, ?_⟩
  · intro j hj
    exact hl j (by simp [mem_of_mem_head? hj])
  · intro j hj
    exact hl j (by simp [mem_of_getLast? hj])

end

end Inside

end Uzmq.Linked
