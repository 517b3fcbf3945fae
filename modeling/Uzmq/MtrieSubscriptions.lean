import Uzmq.Mtries

/-!
# The set of subscriptions

`mtrie_t` is compared with the set of the pairs of a prefix and a pipe that subscribes to it.
The removal of a pair that is not there goes wrong if there is a node for the prefix: if the
node has a set an assertion fails, and if it has none the pair is reported as removed.
-/

namespace Uzmq.Mtries

open List ByteTrie

variable {Pipe : Type} [DecidableEq Pipe]

inductive Op (Pipe : Type) where
  | add (key : List UInt8) (pipe : Pipe)
  | rm (key : List UInt8) (pipe : Pipe)
  | rmPipe (pipe : Pipe) (callOnUniq : Bool)

def step (n : Mtrie Pipe) : Op Pipe → Option (Mtrie Pipe)
  | .add key pipe => (add n key pipe).map Prod.fst
  | .rm key pipe => (rm n key pipe).map Prod.fst
  | .rmPipe pipe callOnUniq => (rmPipe n pipe callOnUniq).map Prod.fst

def run (n : Mtrie Pipe) : List (Op Pipe) → Option (Mtrie Pipe)
  | [] => some n
  | op :: ops =>
    match step n op with
    | none => none
    | some n' => run n' ops

/-- What an operation makes of the set of subscriptions. -/
def hold (held : Finset (List UInt8 × Pipe)) : Op Pipe → Finset (List UInt8 × Pipe)
  | .add key pipe => insert (key, pipe) held
  | .rm key pipe => held.erase (key, pipe)
  | .rmPipe pipe _ => held.filter fun x => x.2 ≠ pipe

/-- The pair is there, or no prefix that is held starts with this one. -/
def Removable (held : Finset (List UInt8 × Pipe)) (key : List UInt8) (pipe : Pipe) : Prop :=
  (key, pipe) ∈ held ∨ (key ≠ [] ∧ ∀ x ∈ held, ¬ key <+: x.1)

instance (held : Finset (List UInt8 × Pipe)) (key : List UInt8) (pipe : Pipe) :
    Decidable (Removable held key pipe) :=
  inferInstanceAs (Decidable ((key, pipe) ∈ held ∨ (key ≠ [] ∧ ∀ x ∈ held, ¬ key <+: x.1)))

def Allowed (held : Finset (List UInt8 × Pipe)) : List (Op Pipe) → Prop
  | [] => True
  | .rm key pipe :: ops => Removable held key pipe ∧ Allowed (hold held (.rm key pipe)) ops
  | op :: ops => Allowed (hold held op) ops

structure Keeps (pipes : Option (List Pipe)) (key : List UInt8)
    (held : Finset (List UInt8 × Pipe)) : Prop where
  nonempty : pipes ≠ some []
  nodup : (pipes.getD []).Nodup
  mem : ∀ pipe, pipe ∈ pipes.getD [] ↔ (key, pipe) ∈ held

structure Refines (n : Mtrie Pipe) (held : Finset (List UInt8 × Pipe)) : Prop where
  sound : Node.Sound subscribers n
  keeps : ∀ key, Keeps (n.get subscribers key) key held

variable {l : List Pipe}

section Keeps
variable {pipes : Option (List Pipe)} {key : List UInt8} {held : Finset (List UInt8 × Pipe)}
  {pipe : Pipe}
variable (h : Keeps pipes key held)
include h

omit [DecidableEq Pipe] in
theorem Keeps.eq_none_iff : pipes = none ↔ ∀ q, (key, q) ∉ held := by
  constructor
  · rintro rfl q hq
    have := (h.mem q).mpr hq
    simp at this
  intro hnone
  cases hpipes : pipes with
  | none => rfl
  | some l =>
    cases l with
    | nil => exact absurd hpipes h.nonempty
    | cons q l =>
      have hq : q ∈ pipes.getD [] := by simp [hpipes]
      exact absurd ((h.mem q).mp hq) (hnone q)

omit [DecidableEq Pipe] in
theorem Keeps.congr {held' : Finset (List UInt8 × Pipe)}
    (hiff : ∀ q, (key, q) ∈ held' ↔ (key, q) ∈ held) : Keeps pipes key held' := by
  refine { h with mem := ?_ }
  intro q
  rw [h.mem, hiff]

theorem Keeps.insert :
    Keeps (some ((pipes.getD []).insert pipe)) key (insert (key, pipe) held) := by
  constructor
  · intro heq
    have hmem : pipe ∈ (pipes.getD []).insert pipe := List.mem_insert_self
    rw [Option.some.inj heq] at hmem
    cases hmem
  · exact h.nodup.insert
  · intro q
    simp [List.mem_insert_iff, h.mem, eq_comm]

theorem Keeps.erase_isEmpty (pipe : Pipe) (hl : pipes = some l) :
    (l.erase pipe).isEmpty = true ↔ ∀ q, (key, q) ∈ held → q = pipe := by
  have hnodup : l.Nodup := by simpa [hl] using h.nodup
  rw [List.isEmpty_iff, List.eq_nil_iff_forall_not_mem]
  constructor
  · intro hnone q hq
    by_contra hne
    have hql : q ∈ l := by simpa [hl] using (h.mem q).mpr hq
    exact hnone q ((mem_erase_of_ne hne).mpr hql)
  · intro hall q hq
    rw [hnodup.mem_erase_iff] at hq
    have hqheld : (key, q) ∈ held := (h.mem q).mp (by simpa [hl] using hq.2)
    exact hq.1 (hall q hqheld)

theorem Keeps.erase (pipe : Pipe) (hl : pipes = some l) :
    Keeps (if (l.erase pipe).isEmpty then none else some (l.erase pipe)) key
      (held.erase (key, pipe)) := by
  have hnodup : l.Nodup := by simpa [hl] using h.nodup
  have hget : (if (l.erase pipe).isEmpty then none else some (l.erase pipe)).getD [] =
      l.erase pipe := by
    split
    · rename_i hempty
      simp [isEmpty_iff.mp hempty]
    · rfl
  constructor
  · split
    · simp
    · rename_i hne
      simpa using hne
  · rw [hget]
    exact hnodup.erase pipe
  · intro q
    have hq : q ∈ l ↔ (key, q) ∈ held := by simpa [hl] using h.mem q
    rw [hget, hnodup.mem_erase_iff, Finset.mem_erase, hq]
    simp

theorem Keeps.eraseOwn (callOnUniq : Bool) :
    Keeps (eraseOwn pipe callOnUniq pipes).1 key (held.filter fun x => x.2 ≠ pipe) ∧
      ((Mtries.eraseOwn pipe callOnUniq pipes).2 = true ↔
        (key, pipe) ∈ held ∧ (callOnUniq = true → ∀ q, (key, q) ∈ held → q = pipe)) := by
  have hstays (hnot : (key, pipe) ∉ held) (q : Pipe) :
      (key, q) ∈ held.filter (fun x => x.2 ≠ pipe) ↔ (key, q) ∈ held := by
    simp only [Finset.mem_filter, and_iff_left_iff_imp]
    rintro hq rfl
    exact hnot hq
  cases hpipes : pipes with
  | none =>
    have hnot := h.eq_none_iff.mp hpipes pipe
    rw [hpipes] at h
    exact ⟨h.congr (hstays hnot), by simp [Mtries.eraseOwn, hnot]⟩
  | some l =>
    have hiff : pipe ∈ l ↔ (key, pipe) ∈ held := by simpa [hpipes] using h.mem pipe
    by_cases hmem : pipe ∈ l
    · have herase := h.erase pipe hpipes
      have hempty := h.erase_isEmpty pipe hpipes
      simp only [Mtries.eraseOwn, if_pos hmem]
      refine ⟨herase.congr ?_, ?_⟩
      · intro q
        simp [and_comm]
      · rw [Bool.or_eq_true, hempty]
        simp only [hiff.mp hmem, true_and]
        cases callOnUniq <;> simp
    · have hnot : (key, pipe) ∉ held := fun hin => hmem (hiff.mpr hin)
      rw [hpipes] at h
      simp only [Mtries.eraseOwn, if_neg hmem]
      exact ⟨h.congr (hstays hnot), by simp [hnot]⟩

end Keeps

section Refines
variable {n : Mtrie Pipe} {held : Finset (List UInt8 × Pipe)}

omit [DecidableEq Pipe] in
theorem new_refines : Refines (.new subscribers : Mtrie Pipe) ∅ := by
  constructor
  · exact Node.new_sound subscribers
  intro key
  rw [Node.get_new]
  refine ⟨?_, nodup_nil, ?_⟩
  · intro h
    cases h
  · intro pipe
    simp [subscribers]

section
variable (h : Refines n held)
include h

theorem Refines.add (key : List UInt8) (pipe : Pipe) :
    ∃ n' b, add n key pipe = some (n', b) ∧ (b = true ↔ ∀ q, (key, q) ∉ held) ∧
      Refines n' (insert (key, pipe) held) := by
  obtain ⟨n', hn', hinserts⟩ := Node.insertAt_spec false
    (fun pipes => (some ((pipes.getD []).insert pipe), pipes.isNone)) key h.sound rfl
  refine ⟨n', _, hn', ?_, hinserts.sound, ?_⟩
  · rw [Option.isNone_iff_eq_none, (h.keeps key).eq_none_iff]
  intro k
  rw [hinserts.get]
  split
  · rename_i heq
    rw [heq]
    exact (h.keeps key).insert
  · rename_i hne
    refine (h.keeps k).congr ?_
    intro q
    simp [hne]

theorem Refines.rmPipe (pipe : Pipe) (callOnUniq : Bool) :
    ∃ n' calls, rmPipe n pipe callOnUniq = some (n', calls) ∧ calls.Nodup ∧
      (∀ key, key ∈ calls ↔
        (key, pipe) ∈ held ∧ (callOnUniq = true → ∀ q, (key, q) ∈ held → q = pipe)) ∧
      Refines n' (held.filter fun x => x.2 ≠ pipe) := by
  obtain ⟨n', calls, hn', hremoved⟩ := removes pipe callOnUniq h.sound []
  refine ⟨n', calls, hn', hremoved.calls.nodup, ?_, hremoved.sound, ?_⟩
  · intro key
    rw [hremoved.calls.mem]
    simp [((h.keeps _).eraseOwn callOnUniq).2]
  · intro key
    rw [hremoved.get]
    exact ((h.keeps key).eraseOwn callOnUniq).1

section
variable (key : List UInt8)

omit [DecidableEq Pipe] in
/-- There is no node for a prefix that no prefix of the set starts with. -/
theorem Refines.follow_eq_none_iff :
    n.follow key = none ↔ key ≠ [] ∧ ∀ x ∈ held, ¬ key <+: x.1 := by
  cases key with
  | nil => simp [Node.follow]
  | cons c rest =>
    rw [← Option.not_isSome_iff_eq_none, h.sound.follow_isSome_iff]
    simp only [ne_eq, reduceCtorEq, not_false_eq_true, true_and, not_exists, not_not]
    constructor
    · rintro hfresh ⟨k, q⟩ hx ⟨more, rfl⟩
      exact (h.keeps _).eq_none_iff.mp (hfresh more) q hx
    · intro hnone more
      refine (h.keeps _).eq_none_iff.mpr ?_
      intro q hq
      exact hnone _ hq (prefix_append _ _)

theorem Refines.rm_present (pipe : Pipe) (hin : (key, pipe) ∈ held) :
    ∃ n' b, rm n key pipe = some (n', b) ∧ (b = true ↔ ∀ q, (key, q) ∈ held → q = pipe) ∧
      Refines n' (held.erase (key, pipe)) := by
  cases hfollow : n.follow key with
  | none =>
    rw [h.follow_eq_none_iff] at hfollow
    exact absurd (prefix_refl key) (hfollow.2 _ hin)
  | some m =>
    have hget : n.get subscribers key = m.label := by
      rw [Node.get, hfollow]
    have hkeeps := h.keeps key
    rw [hget] at hkeeps
    cases hlabel : m.label with
    | none => exact absurd hin (hkeeps.eq_none_iff.mp hlabel pipe)
    | some l =>
      have hmem : pipe ∈ l := by simpa [hlabel] using (hkeeps.mem pipe).mpr hin
      have hmark : erasePipe pipe m.label =
          some (if (l.erase pipe).isEmpty then none else some (l.erase pipe),
            (l.erase pipe).isEmpty) := by
        rw [hlabel, erasePipe, if_pos hmem]
        cases (l.erase pipe).isEmpty <;> rfl
      obtain ⟨n', hn', hremoves⟩ :=
        Node.removeAt_spec firstFrom_finds (erasePipe pipe) false key h.sound hfollow hmark
      refine ⟨n', _, hn', hkeeps.erase_isEmpty pipe hlabel, hremoves.sound, ?_⟩
      intro k
      rw [hremoves.get]
      split
      · rename_i heq
        rw [heq]
        exact hkeeps.erase pipe hlabel
      · rename_i hne
        refine (h.keeps k).congr ?_
        intro q
        simp [hne]

theorem Refines.rm_removable (pipe : Pipe) (hremovable : Removable held key pipe) :
    ∃ n' b, rm n key pipe = some (n', b) ∧
      (b = true ↔ (key, pipe) ∈ held ∧ ∀ q, (key, q) ∈ held → q = pipe) ∧
      Refines n' (held.erase (key, pipe)) := by
  by_cases hin : (key, pipe) ∈ held
  · obtain ⟨n', b, hn', hb, hrefines⟩ := h.rm_present key pipe hin
    exact ⟨n', b, hn', by simp [hb, hin], hrefines⟩
  have hfollow := (h.follow_eq_none_iff key).mpr (hremovable.resolve_left hin)
  refine ⟨n, false, ?_, by simp [hin], ?_⟩
  · refine Node.removeAt_unchanged key h.sound ?_
    intro m hm
    rw [hfollow] at hm
    cases hm
  · rwa [Finset.erase_eq_of_notMem hin]

/-- If there is a node for a prefix the pipe does not subscribe to, the removal goes wrong. It
does not change the set, however. -/
theorem Refines.rm_wrong (pipe : Pipe) (hremovable : ¬ Removable held key pipe) :
    rm n key pipe = none ∨ ∃ n', rm n key pipe = some (n', true) ∧ Refines n' held := by
  have hout : (key, pipe) ∉ held := fun hin => hremovable (.inl hin)
  cases hfollow : n.follow key with
  | none => exact absurd (.inr ((h.follow_eq_none_iff key).mp hfollow)) hremovable
  | some m =>
    have hkeeps := h.keeps key
    rw [Node.get, hfollow] at hkeeps
    cases hlabel : m.label with
    | none =>
      right
      obtain ⟨n', hn', hremoves⟩ := Node.removeAt_spec firstFrom_finds (erasePipe pipe) false key
        h.sound hfollow (p := none) (r := true) (by rw [hlabel]; rfl)
      refine ⟨n', hn', hremoves.sound, ?_⟩
      intro k
      rw [hremoves.get]
      split
      · rename_i heq
        rw [heq, ← hlabel]
        exact hkeeps
      · exact h.keeps k
    | some l =>
      left
      have hmem : pipe ∉ l := by
        intro hl
        exact hout ((hkeeps.mem pipe).mp (by simpa [hlabel] using hl))
      exact Node.removeAt_fails key h.sound hfollow (by rw [hlabel, erasePipe, if_neg hmem])

end

theorem Refines.of_rm {key : List UInt8} {pipe : Pipe} {n' : Mtrie Pipe} {b : Bool}
    (hrm : rm n key pipe = some (n', b)) : Refines n' (held.erase (key, pipe)) := by
  by_cases hremovable : Removable held key pipe
  · obtain ⟨n'', b', hn'', -, hrefines⟩ := h.rm_removable key pipe hremovable
    rw [hn''] at hrm
    cases hrm
    exact hrefines
  · have hout : (key, pipe) ∉ held := fun hin => hremovable (.inl hin)
    rw [Finset.erase_eq_of_notMem hout]
    rcases h.rm_wrong key pipe hremovable with hnone | ⟨n'', hn'', hrefines⟩
    · rw [hnone] at hrm
      cases hrm
    · rw [hn''] at hrm
      cases hrm
      exact hrefines

end

theorem nodup_inits (data : List UInt8) : data.inits.Nodup := by
  induction data with
  | nil => simp
  | cons c rest ih =>
    rw [inits_cons, nodup_cons]
    exact ⟨by simp, ih.map fun a b hab => (cons.inj hab).2⟩

omit [DecidableEq Pipe] in
theorem Refines.matching (h : Refines n held) (data : List UInt8) :
    ∃ pairs : List (List UInt8 × Pipe), pairs.Nodup ∧
      (∀ x, x ∈ pairs ↔ x ∈ held ∧ x.1 <+: data) ∧
      matching n data = some (pairs.map Prod.snd) := by
  refine ⟨data.inits.flatMap fun key => ((n.get subscribers key).getD []).map (Prod.mk key),
    ?_, ?_, ?_⟩
  · rw [nodup_flatMap]
    constructor
    · intro key _
      exact (h.keeps key).nodup.map fun a b hab => (Prod.mk.inj hab).2
    have hinits : data.inits.Pairwise (· ≠ ·) := nodup_inits data
    refine hinits.imp ?_
    intro a b hab x hx hx'
    obtain ⟨_, _, rfl⟩ := mem_map.mp hx
    obtain ⟨_, _, heq⟩ := mem_map.mp hx'
    exact hab (Prod.mk.inj heq).1.symm
  · rintro ⟨key, pipe⟩
    rw [mem_flatMap]
    constructor
    · rintro ⟨k, hk, hx⟩
      obtain ⟨q, hq, heq⟩ := mem_map.mp hx
      cases heq
      exact ⟨((h.keeps key).mem pipe).mp hq, (mem_inits key data).mp hk⟩
    · rintro ⟨hin, hpre⟩
      refine ⟨key, (mem_inits key data).mpr hpre, ?_⟩
      exact mem_map.mpr ⟨pipe, ((h.keeps key).mem pipe).mpr hin, rfl⟩
  · rw [matching_eq data h.sound, map_flatMap]
    simp [map_map, Function.comp_def]

theorem Refines.step (h : Refines n held) (op : Op Pipe) (ops : List (Op Pipe))
    (hallowed : Allowed held (op :: ops)) :
    Allowed (hold held op) ops ∧ ∃ n', step n op = some n' ∧ Refines n' (hold held op) := by
  cases op with
  | add key pipe =>
    obtain ⟨n', b, hn', -, hrefines⟩ := h.add key pipe
    exact ⟨hallowed, n', by simp [Mtries.step, hn'], hrefines⟩
  | rm key pipe =>
    obtain ⟨n', b, hn', -, hrefines⟩ := h.rm_removable key pipe hallowed.1
    exact ⟨hallowed.2, n', by simp [Mtries.step, hn'], hrefines⟩
  | rmPipe pipe callOnUniq =>
    obtain ⟨n', calls, hn', -, -, hrefines⟩ := h.rmPipe pipe callOnUniq
    exact ⟨hallowed, n', by simp [Mtries.step, hn'], hrefines⟩

theorem Refines.run (h : Refines n held) (ops : List (Op Pipe)) (hallowed : Allowed held ops) :
    ∃ n', run n ops = some n' ∧ Refines n' (ops.foldl hold held) := by
  induction ops generalizing n held with
  | nil => exact ⟨n, rfl, h⟩
  | cons op ops ih =>
    obtain ⟨hrest, n₁, hn₁, hrefines⟩ := h.step op ops hallowed
    obtain ⟨n', hn', hfinal⟩ := ih hrefines hrest
    exact ⟨n', by simp [Mtries.run, hn₁, hn'], hfinal⟩

end Refines

/-- What the functions of the trie return for a set of subscriptions. The result of a removal is
right only for some pairs. -/
structure Serves (n : Mtrie Pipe) (held : Finset (List UInt8 × Pipe)) : Prop where
  add : ∀ key pipe, ∃ n' b, add n key pipe = some (n', b) ∧ (b = true ↔ ∀ q, (key, q) ∉ held)
  rm : ∀ key pipe,
    (∃ n' b, rm n key pipe = some (n', b) ∧
      (b = true ↔ (key, pipe) ∈ held ∧ ∀ q, (key, q) ∈ held → q = pipe)) ↔
      Removable held key pipe
  rmPipe : ∀ pipe callOnUniq, ∃ n' calls, rmPipe n pipe callOnUniq = some (n', calls) ∧
    calls.Nodup ∧ ∀ key, key ∈ calls ↔
      (key, pipe) ∈ held ∧ (callOnUniq = true → ∀ q, (key, q) ∈ held → q = pipe)
  matching : ∀ data, ∃ pairs : List (List UInt8 × Pipe), pairs.Nodup ∧
    (∀ x, x ∈ pairs ↔ x ∈ held ∧ x.1 <+: data) ∧ matching n data = some (pairs.map Prod.snd)

theorem Refines.serves {n : Mtrie Pipe} {held : Finset (List UInt8 × Pipe)} (h : Refines n held) :
    Serves n held := by
  constructor
  · intro key pipe
    obtain ⟨n', b, hn', hb, -⟩ := h.add key pipe
    exact ⟨n', b, hn', hb⟩
  · intro key pipe
    constructor
    · rintro ⟨n', b, hn', hb⟩
      by_contra hnot
      rcases h.rm_wrong key pipe hnot with hnone | ⟨n'', hn'', -⟩
      · rw [hnone] at hn'
        cases hn'
      · rw [hn''] at hn'
        cases hn'
        exact hnot (.inl (hb.mp rfl).1)
    · intro hremovable
      obtain ⟨n', b, hn', hb, -⟩ := h.rm_removable key pipe hremovable
      exact ⟨n', b, hn', hb⟩
  · intro pipe callOnUniq
    obtain ⟨n', calls, hn', hnodup, hmem, -⟩ := h.rmPipe pipe callOnUniq
    exact ⟨n', calls, hn', hnodup, hmem⟩
  · exact h.matching

/-- As long as pairs are removed only if they are there or no prefix of the set starts with the
one given, the trie behaves as the set of subscriptions, and it would not for any other removal. -/
theorem serves_of_allowed (ops : List (Op Pipe)) (hallowed : Allowed ∅ ops) :
    ∃ n, run (.new subscribers) ops = some n ∧ Serves n (ops.foldl hold ∅) := by
  obtain ⟨n, hn, hrefines⟩ := new_refines.run ops hallowed
  exact ⟨n, hn, hrefines.serves⟩

/-- Pipes share prefixes, one of them leaves, and tables are extended and compacted. -/
theorem serves_of_sharing_run :
    ∃ n, run (.new subscribers) [.add [7, 1] 0, .add [9] 1, .add [3] 0, .add [9] 0, .rm [3] 0,
        .rm [5] 1, .rmPipe 0 true, .add [] 2] = some n ∧
      Serves n (([.add [7, 1] 0, .add [9] 1, .add [3] 0, .add [9] 0, .rm [3] 0,
        .rm [5] 1, .rmPipe 0 true, .add [] 2] : List (Op Nat)).foldl hold ∅) :=
  serves_of_allowed _ ⟨by decide, by decide, trivial⟩

/-- The pipe with number 1 takes back a prefix only the other pipe has subscribed to, and a pipe
takes back the first byte of the prefix it has subscribed to. -/
theorem rm_of_absent_pair :
    run (.new subscribers) [.add [7] 0, .rm [7] 1] = none ∧
      ((run (.new subscribers) [.add [7, 1] 0]).bind fun n => (rm n [7] 0).map Prod.snd) =
        some true := by
  decide

end Uzmq.Mtries
