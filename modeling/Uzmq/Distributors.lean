import Uzmq.Message
import Uzmq.Slots

/-!
# The distributor of messages

`dist_t`: the pipes are in one array, first those that match the message being sent, then the
other active ones, then those that are eligible for the next message, and last the passive
ones. `size_t` does not overflow, and a counter that would go below zero is an access out of
bounds.

Whether the `k`-th write of a call succeeds is given from outside. The writes of a call are
returned in order. For long messages the reference count of the content is modelled too.

`View` is the distributor without the array: the sets of pipes the regions stand for.
-/

namespace Uzmq.Distributors

open Slots Message

variable {Pipe : Type} [DecidableEq Pipe]

structure Distributor (Pipe : Type) where
  pipes : Slots Pipe := {}
  matching : Nat := 0
  active : Nat := 0
  eligible : Nat := 0
  more : Bool := false

/-- The content of a long message. The counter of the code has 32 bits, and is exact below `2 ^ 32`
references. -/
structure Content where
  shared : Bool := false
  refcnt : Nat := 0
  freed : Bool := false
  deriving DecidableEq

def isLong (m : Msg) : Bool := m.type == .lmsg || m.type == .zclmsg

def Content.close (m : Msg) (c : Content) : Content :=
  if isLong m then
    if c.shared && c.refcnt != 1 then { c with refcnt := c.refcnt - 1 }
    else { c with freed := true }
  else c

def Content.addRefs (m : Msg) (c : Content) (refs : Nat) : Content :=
  if refs = 0 then c
  else if isLong m then
    if c.shared then { c with refcnt := c.refcnt + refs }
    else { c with refcnt := refs + 1, shared := true }
  else c

def Content.rmRefs (m : Msg) (c : Content) (refs : Nat) : Content :=
  if refs = 0 then c
  else if isLong m && c.shared then
    if c.refcnt - refs = 0 then { c with freed := true } else { c with refcnt := c.refcnt - refs }
  else c.close m

namespace Distributor

variable (d : Distributor Pipe)

/-- Swap with the last pipe of a region. -/
def swapLast (s : Slots Pipe) (i k : Nat) : Option (Slots Pipe) :=
  if k = 0 then none else s.swap i (k - 1)

def attach (pipe : Pipe) : Option (Distributor Pipe) :=
  match d.pipes.push pipe with
  | none => none
  | some pipes =>
    if d.more then
      match pipes.swap d.eligible (pipes.size - 1) with
      | none => none
      | some pipes => some { d with pipes := pipes, eligible := d.eligible + 1 }
    else
      match pipes.swap d.active (pipes.size - 1) with
      | none => none
      | some pipes =>
        some { d with pipes := pipes, active := d.active + 1, eligible := d.eligible + 1 }

/-- `match` -/
def matchPipe (pipe : Pipe) : Option (Distributor Pipe) :=
  if d.pipes.index pipe < d.matching then some d
  else if d.eligible ≤ d.pipes.index pipe then some d
  else
    match d.pipes.swap (d.pipes.index pipe) d.matching with
    | none => none
    | some pipes => some { d with pipes := pipes, matching := d.matching + 1 }

def unmatch : Distributor Pipe := { d with matching := 0 }

/-- `n` turns of the loop of `reverse_match`, from position `i` on. -/
def reverseLoop (d : Distributor Pipe) (i : Nat) : Nat → Option (Distributor Pipe)
  | 0 => some d
  | n + 1 =>
    match d.pipes.swap i d.matching with
    | none => none
    | some pipes => reverseLoop { d with pipes := pipes, matching := d.matching + 1 } (i + 1) n

def reverseMatch : Option (Distributor Pipe) :=
  reverseLoop d.unmatch d.matching (d.eligible - d.matching)

/-- The pipe moves to the end of the region of the first `k` pipes and leaves it. -/
def leave (s : Slots Pipe) (pipe : Pipe) (k : Nat) : Option (Slots Pipe × Nat) :=
  if s.index pipe < k then (swapLast s (s.index pipe) k).map fun s' => (s', k - 1)
  else some (s, k)

def pipeTerminated (pipe : Pipe) : Option (Distributor Pipe) :=
  match leave d.pipes pipe d.matching with
  | none => none
  | some (pipes, matching) =>
    match leave pipes pipe d.active with
    | none => none
    | some (pipes, active) =>
      match leave pipes pipe d.eligible with
      | none => none
      | some (pipes, eligible) =>
        match pipes.erase pipe with
        | none => none
        | some pipes =>
          some { d with
            pipes := pipes, matching := matching, active := active, eligible := eligible }

/-- `activated`: from the passive to the eligible pipes. -/
def enterEligible (pipe : Pipe) : Option (Distributor Pipe) :=
  if d.eligible < d.pipes.size then
    (d.pipes.swap (d.pipes.index pipe) d.eligible).map fun pipes =>
      { d with pipes := pipes, eligible := d.eligible + 1 }
  else some d

def activated (pipe : Pipe) : Option (Distributor Pipe) :=
  match d.enterEligible pipe with
  | none => none
  | some d =>
    if d.more = false ∧ d.active < d.pipes.size then
      if d.eligible = 0 then none
      else
        (d.pipes.swap (d.eligible - 1) d.active).map fun pipes =>
          { d with pipes := pipes, active := d.active + 1 }
    else some d

/-- `write` if the pipe does not take the message. -/
def writeFailed (pipe : Pipe) : Option (Distributor Pipe) :=
  match swapLast d.pipes (d.pipes.index pipe) d.matching with
  | none => none
  | some pipes =>
    match swapLast pipes (pipes.index pipe) d.active with
    | none => none
    | some pipes =>
      match swapLast pipes (d.active - 1) d.eligible with
      | none => none
      | some pipes =>
        some { d with
          pipes := pipes
          matching := d.matching - 1, active := d.active - 1, eligible := d.eligible - 1 }

/-- The loop of `distribute`, which writes to position `i`. `fuel` bounds the number of turns. -/
def writeLoop (ok : Nat → Pipe → Bool) :
    Nat → Nat → Distributor Pipe → List (Pipe × Bool) →
      Option (Distributor Pipe × List (Pipe × Bool))
  | fuel, i, d, log =>
    if i < d.matching then
      match fuel with
      | 0 => none
      | fuel + 1 =>
        match d.pipes.items[i]? with
        | none => none
        | some pipe =>
          if ok log.length pipe then writeLoop ok fuel (i + 1) d (log ++ [(pipe, true)])
          else
            match writeFailed d pipe with
            | none => none
            -- The position is tried again, since the pipe there is another one now.
            | some d => writeLoop ok fuel i d (log ++ [(pipe, false)])
    else some (d, log)

/-- What a call that sends a message returns. -/
structure Sent (Pipe : Type) where
  dist : Distributor Pipe
  log : List (Pipe × Bool)
  content : Content

def distribute (m : Msg) (c : Content) (ok : Nat → Pipe → Bool) : Option (Sent Pipe) :=
  if d.matching = 0 then some ⟨d, [], c.close m⟩
  else
    match writeLoop ok d.matching 0 d [] with
    | none => none
    | some (d', log) =>
      if m.type = .vsm then some ⟨d', log, c.close m⟩
      else
        some ⟨d', log, (c.addRefs m (d.matching - 1)).rmRefs m (log.countP fun x => !x.2)⟩

def sendToMatching (m : Msg) (c : Content) (ok : Nat → Pipe → Bool) : Option (Sent Pipe) :=
  match distribute d m c ok with
  | none => none
  | some r =>
    some { r with
      dist := { r.dist with
        active := if m.flags.more then r.dist.active else r.dist.eligible
        more := m.flags.more } }

def sendToAll (m : Msg) (c : Content) (ok : Nat → Pipe → Bool) : Option (Sent Pipe) :=
  sendToMatching { d with matching := d.active } m c ok

/-- Whether all the matching pipes have room. -/
def checkHwm (room : Pipe → Bool) : Bool :=
  (d.pipes.items.take d.matching).all room

end Distributor

/-- The pipes in the regions of a distributor. -/
structure View (Pipe : Type) where
  attached : Pipe → Prop := fun _ => False
  matching : Pipe → Prop := fun _ => False
  active : Pipe → Prop := fun _ => False
  eligible : Pipe → Prop := fun _ => False
  more : Bool := false

namespace View

variable (v : View Pipe) (pipe : Pipe)

/-- A pipe attached in the middle of a message waits for the next one. -/
def attach : View Pipe where
  attached q := v.attached q ∨ q = pipe
  matching := v.matching
  active q := v.active q ∨ (q = pipe ∧ v.more = false)
  eligible q := v.eligible q ∨ q = pipe
  more := v.more

def matchPipe : View Pipe :=
  { v with matching := fun q => v.matching q ∨ (q = pipe ∧ v.eligible pipe) }

def unmatch : View Pipe := { v with matching := fun _ => False }

def reverseMatch : View Pipe := { v with matching := fun q => v.eligible q ∧ ¬ v.matching q }

def pipeTerminated : View Pipe where
  attached q := v.attached q ∧ q ≠ pipe
  matching q := v.matching q ∧ q ≠ pipe
  active q := v.active q ∧ q ≠ pipe
  eligible q := v.eligible q ∧ q ≠ pipe
  more := v.more

def activated : View Pipe :=
  { v with
    active := fun q => v.active q ∨ (q = pipe ∧ v.more = false)
    eligible := fun q => v.eligible q ∨ q = pipe }

/-- Some of the matching pipes have not taken the message. -/
def without (failed : Pipe → Prop) : View Pipe :=
  { v with
    matching := fun q => v.matching q ∧ ¬ failed q
    active := fun q => v.active q ∧ ¬ failed q
    eligible := fun q => v.eligible q ∧ ¬ failed q }

/-- All eligible pipes become active at the end of a message. -/
def sent (more : Bool) : View Pipe :=
  { v with active := fun q => if more then v.active q else v.eligible q, more := more }

end View

/-- The counters are in order, and the regions are those of the view. -/
structure Shows (d : Distributor Pipe) (v : View Pipe) : Prop where
  matching_le : d.matching ≤ d.active
  active_le : d.active ≤ d.eligible
  eligible_le : d.eligible ≤ d.pipes.size
  between : d.more = false → d.active = d.eligible
  attached : ∀ q, q ∈ d.pipes.items ↔ v.attached q
  matching : ∀ q, d.pipes.index q < d.matching ↔ v.matching q
  active : ∀ q, d.pipes.index q < d.active ↔ v.active q
  eligible : ∀ q, d.pipes.index q < d.eligible ↔ v.eligible q
  more : d.more = v.more

variable {s : Slots Pipe} {k : Nat}

section Shows
variable {d : Distributor Pipe} {v : View Pipe} {pipe : Pipe}

theorem shows_new : Shows ({} : Distributor Pipe) {} := by
  constructor <;> simp [size]

theorem swapLast_left (hk : s.index pipe < k) (hsize : k ≤ s.size) :
    ∃ s', Distributor.swapLast s (s.index pipe) k = some s' ∧ s.Left pipe k s' := by
  obtain ⟨s', hs'⟩ := swap_isSome (s := s) (i := s.index pipe) (j := k - 1) (by omega) (by omega)
  refine ⟨s', ?_, (swapped_of_swap hs').left_region hk⟩
  rw [Distributor.swapLast, if_neg (by omega), hs']

/-- The pipe is out of the region of the first `k` pipes, which has `k'` pipes then. -/
structure Exits (s : Slots Pipe) (pipe : Pipe) (k : Nat) (s' : Slots Pipe) (k' : Nat) : Prop where
  size : s'.size = s.size
  mem : ∀ q, q ∈ s'.items ↔ q ∈ s.items
  own : (s.index pipe < k ∧ k' + 1 = k ∧ s'.index pipe = k') ∨
    (k ≤ s.index pipe ∧ k' = k ∧ s'.index pipe = s.index pipe)
  rest : ∀ q, q ≠ pipe → (s'.index q < k' ↔ s.index q < k)
  below : ∀ q, q ≠ pipe → ∀ j, j ≤ s.index pipe → (s'.index q < j ↔ s.index q < j)
  above : ∀ q, ∀ j, k ≤ j → (s'.index q < j ↔ s.index q < j)

theorem exits_of_left {s' : Slots Pipe} (hk : s.index pipe < k) (h : s.Left pipe k s') :
    Exits s pipe k s' (k - 1) := by
  have hown := h.own
  exact { h with own := .inl ⟨hk, by omega, hown⟩ }

theorem leave_exits (pipe : Pipe) (hsize : k ≤ s.size) :
    ∃ s' k', Distributor.leave s pipe k = some (s', k') ∧ Exits s pipe k s' k' := by
  by_cases hk : s.index pipe < k
  · obtain ⟨s', hs', hleft⟩ := swapLast_left hk hsize
    exact ⟨s', k - 1, by simp [Distributor.leave, hk, hs'], exits_of_left hk hleft⟩
  · exact ⟨s, k, by simp [Distributor.leave, hk], rfl, fun _ => Iff.rfl,
      .inr ⟨by omega, rfl, rfl⟩, fun _ _ => Iff.rfl, fun _ _ _ _ => Iff.rfl, fun _ _ _ => Iff.rfl⟩

/-- What is left of the regions after a pipe has left all of them. -/
structure Gone (d : Distributor Pipe) (pipe : Pipe) (s : Slots Pipe) (m a e : Nat) : Prop where
  size : s.size = d.pipes.size
  mem : ∀ q, q ∈ s.items ↔ q ∈ d.pipes.items
  matching_le : m ≤ a
  active_le : a ≤ e
  own : e ≤ s.index pipe
  between : d.active = d.eligible → a = e
  matching : ∀ q, q ≠ pipe → (s.index q < m ↔ d.pipes.index q < d.matching)
  active : ∀ q, q ≠ pipe → (s.index q < a ↔ d.pipes.index q < d.active)
  eligible : ∀ q, q ≠ pipe → (s.index q < e ↔ d.pipes.index q < d.eligible)

section
variable (h : Shows d v)
include h

theorem Shows.gone {s₁ s₂ s₃ : Slots Pipe} {m a e : Nat} (h₁ : Exits d.pipes pipe d.matching s₁ m)
    (h₂ : Exits s₁ pipe d.active s₂ a) (h₃ : Exits s₂ pipe d.eligible s₃ e) :
    Gone d pipe s₃ m a e := by
  have hma := h.matching_le
  have hae := h.active_le
  have ho₁ := h₁.own
  have ho₂ := h₂.own
  have ho₃ := h₃.own
  constructor
  · rw [h₃.size, h₂.size, h₁.size]
  · intro q
    rw [h₃.mem, h₂.mem, h₁.mem]
  · omega
  · omega
  · omega
  · omega
  · intro q hq
    rw [h₃.below q hq m (by omega), h₂.below q hq m (by omega), h₁.rest q hq]
  · intro q hq
    rw [h₃.below q hq a (by omega), h₂.rest q hq, h₁.above q _ hma]
  · intro q hq
    rw [h₃.rest q hq, h₂.above q _ hae, h₁.above q _ (by omega)]

theorem Shows.matching_le_size : d.matching ≤ d.pipes.size :=
  Nat.le_trans h.matching_le (Nat.le_trans h.active_le h.eligible_le)

theorem Shows.out (hout : ¬ v.eligible pipe) : ¬ v.matching pipe ∧ ¬ v.active pipe := by
  have hae := h.active_le
  have hma := h.matching_le
  rw [← h.eligible] at hout
  rw [← h.matching, ← h.active]
  omega

theorem Shows.eligible_attached (hin : v.eligible pipe) : v.attached pipe := by
  have hle := h.eligible_le
  rw [← h.eligible] at hin
  exact (h.attached pipe).mp (index_lt_size_iff.mp (by omega))

/-- A pipe that was passive or is new is placed after the eligible pipes. -/
theorem Shows.joins {s : Slots Pipe} {attached : Pipe → Prop} (hout : ¬ v.eligible pipe)
    (hsize : d.eligible < s.size) (hmem : ∀ q, q ∈ s.items ↔ attached q)
    (own : s.index pipe = d.eligible)
    (rest : ∀ q, q ≠ pipe → (s.index q < d.eligible + 1 ↔ d.pipes.index q < d.eligible))
    (below : ∀ q, q ≠ pipe → ∀ j, j ≤ d.eligible → (s.index q < j ↔ d.pipes.index q < j)) :
    Shows { d with
      pipes := s, active := if d.more then d.active else d.active + 1, eligible := d.eligible + 1 }
      { v.activated pipe with attached := attached } := by
  have hae := h.active_le
  have hma := h.matching_le
  obtain ⟨hmatch, hact⟩ := h.out hout
  refine ⟨?_, ?_, hsize, ?_, hmem, region_stays own below (Nat.le_trans hma hae) h.matching hmatch,
    ?_, region_enters own rest h.eligible, h.more⟩
  · dsimp only
    split <;> omega
  · dsimp only
    split <;> omega
  · intro hmore
    have heq := h.between hmore
    simp [show d.more = false from hmore, heq]
  · intro q
    dsimp only [View.activated]
    rw [← h.more]
    cases hmore : d.more with
    | true =>
      have hactive := region_stays own below hae h.active hact q
      simpa using hactive
    | false =>
      have heq := h.between hmore
      have hactive := region_enters own rest (heq ▸ h.active) q
      simpa [heq] using hactive

theorem Shows.attach (hnew : ¬ v.attached pipe) :
    ∃ d', d.attach pipe = some d' ∧ Shows d' (v.attach pipe) := by
  obtain ⟨s, hs⟩ := push_isSome (s := d.pipes) fun hin => hnew ((h.attached pipe).mp hin)
  obtain ⟨s', hs', hins⟩ := (pushed_of_push hs).inserted h.eligible_le
  have hsize := hins.size
  have hle := h.eligible_le
  refine ⟨_, ?_, h.joins (fun hin => hnew (h.eligible_attached hin)) (by omega)
    (fun q => (hins.mem q).trans (or_congr_left (h.attached q))) hins.own hins.rest hins.below⟩
  unfold Distributor.attach
  rw [hs]
  dsimp only
  cases hmore : d.more with
  | true => rw [if_pos rfl, hs', if_pos rfl]
  | false => rw [if_neg (by simp), h.between hmore, hs', if_neg (by simp)]

theorem Shows.unmatch : Shows d.unmatch v.unmatch := by
  refine { h with matching_le := Nat.zero_le _, matching := ?_ }
  intro q
  simp [Distributor.unmatch, View.unmatch]

theorem Shows.matchPipe (pipe : Pipe) (hmore : d.more = false) :
    ∃ d', d.matchPipe pipe = some d' ∧ Shows d' (v.matchPipe pipe) := by
  have hle := h.eligible_le
  have heq := h.between hmore
  unfold Distributor.matchPipe
  by_cases hin : d.pipes.index pipe < d.matching
  · rw [if_pos hin]
    refine ⟨d, rfl, h.matching_le, h.active_le, h.eligible_le, h.between, h.attached, ?_, h.active,
      h.eligible, h.more⟩
    intro q
    rw [h.matching]
    constructor
    · exact .inl
    · rintro (hq | ⟨rfl, -⟩)
      · exact hq
      · exact (h.matching q).mp hin
  · rw [if_neg hin]
    by_cases hout : d.eligible ≤ d.pipes.index pipe
    · rw [if_pos hout]
      have hnot : ¬ v.eligible pipe := by
        rw [← h.eligible]
        omega
      refine ⟨d, rfl, h.matching_le, h.active_le, h.eligible_le, h.between, h.attached, ?_,
        h.active, h.eligible, h.more⟩
      intro q
      rw [h.matching]
      simp [View.matchPipe, hnot]
    · rw [if_neg hout]
      obtain ⟨s', hs'⟩ := swap_isSome (s := d.pipes) (i := d.pipes.index pipe)
        (j := d.matching) (by omega) (by omega)
      have hent := (swapped_of_swap hs').entered (by omega)
      have helig : v.eligible pipe := (h.eligible pipe).mp (by omega)
      rw [hs']
      refine ⟨_, rfl, ?_, h.active_le, by rw [hent.size]; exact hle, h.between, ?_, ?_, ?_, ?_,
        h.more⟩
      · dsimp only
        omega
      · intro q
        rw [hent.mem]
        exact h.attached q
      · intro q
        have hmatching := region_enters hent.own hent.rest h.matching q
        simpa [View.matchPipe, helig] using hmatching
      · intro q
        exact (hent.above q d.active (by omega)).trans (h.active q)
      · intro q
        exact (hent.above q d.eligible (by omega)).trans (h.eligible q)

theorem Shows.pipeTerminated (hin : v.attached pipe) :
    ∃ d', d.pipeTerminated pipe = some d' ∧ Shows d' (v.pipeTerminated pipe) := by
  have hle := h.eligible_le
  have hae := h.active_le
  have hma := h.matching_le
  obtain ⟨s₁, m, hs₁, h₁⟩ := leave_exits pipe h.matching_le_size
  obtain ⟨s₂, a, hs₂, h₂⟩ :=
    leave_exits pipe (show d.active ≤ s₁.size by rw [h₁.size]; omega)
  obtain ⟨s₃, e, hs₃, h₃⟩ :=
    leave_exits pipe (show d.eligible ≤ s₂.size by rw [h₂.size, h₁.size]; omega)
  have hgone := h.gone h₁ h₂ h₃
  have hin₃ : pipe ∈ s₃.items := (hgone.mem pipe).mpr ((h.attached pipe).mpr hin)
  obtain ⟨s₄, hs₄⟩ := erase_isSome hin₃
  have herased := erased_of_erase hs₄
  have hlt := index_lt_size_iff.mpr hin₃
  have hown := hgone.own
  have hsize := herased.size
  have hgm := hgone.matching_le
  have hga := hgone.active_le
  have hself (j : Nat) (hj : j ≤ e) : ¬ s₄.index pipe < j := by
    have hnot : pipe ∉ s₄.items := fun hmem => ((herased.mem pipe).mp hmem).2 rfl
    have : ¬ s₄.index pipe < s₄.size := fun hlt' => hnot (index_lt_size_iff.mp hlt')
    omega
  refine ⟨{ d with pipes := s₄, matching := m, active := a, eligible := e }, ?_, hgm, hga,
    by dsimp only; omega, fun hmore => hgone.between (h.between hmore), ?_, ?_, ?_, ?_, h.more⟩
  · simp only [Distributor.pipeTerminated, hs₁, hs₂, hs₃, hs₄]
  · intro q
    rw [herased.mem, hgone.mem, h.attached]
    rfl
  · refine region_loses (hself m (by omega)) ?_ h.matching
    intro q hq
    rw [herased.below q hq m (by omega), hgone.matching q hq]
  · refine region_loses (hself a (by omega)) ?_ h.active
    intro q hq
    rw [herased.below q hq a (by omega), hgone.active q hq]
  · refine region_loses (hself e (by omega)) ?_ h.eligible
    intro q hq
    rw [herased.below q hq e (by omega), hgone.eligible q hq]

/-- A pipe that does not take the message is passive from then on, and the pipes before it stay
where they are. -/
theorem Shows.writeFailed (hin : v.matching pipe) :
    ∃ d', d.writeFailed pipe = some d' ∧ Shows d' (v.without (· = pipe)) ∧
      d'.matching + 1 = d.matching ∧
      ∀ q, q ≠ pipe → ∀ j, j ≤ d.pipes.index pipe →
        (d'.pipes.index q < j ↔ d.pipes.index q < j) := by
  have hle := h.eligible_le
  have hae := h.active_le
  have hma := h.matching_le
  rw [← h.matching] at hin
  obtain ⟨s₁, hs₁, hl₁⟩ := swapLast_left hin (by omega)
  have h₁ := exits_of_left hin hl₁
  have ho₁ := hl₁.own
  have hin₁ : s₁.index pipe < d.active := by omega
  obtain ⟨s₂, hs₂, hl₂⟩ := swapLast_left hin₁ (by rw [hl₁.size]; omega)
  have h₂ := exits_of_left hin₁ hl₂
  have ho₂ := hl₂.own
  have hin₂ : s₂.index pipe < d.eligible := by omega
  obtain ⟨s₃, hs₃, hl₃⟩ := swapLast_left hin₂ (by rw [hl₂.size, hl₁.size]; omega)
  have h₃ := exits_of_left hin₂ hl₃
  have hgone := h.gone h₁ h₂ h₃
  have hown := hgone.own
  rw [hl₂.own] at hs₃
  refine ⟨{ d with
      pipes := s₃
      matching := d.matching - 1, active := d.active - 1, eligible := d.eligible - 1 }, ?_,
    ⟨hgone.matching_le, hgone.active_le, ?_, fun hmore => hgone.between (h.between hmore), ?_, ?_,
      ?_, ?_, h.more⟩, by dsimp only; omega, ?_⟩
  · simp only [Distributor.writeFailed, hs₁, hs₂, hs₃]
  · rw [hgone.size]
    dsimp only
    omega
  · intro q
    rw [hgone.mem]
    exact h.attached q
  · exact region_loses (by dsimp only; omega) hgone.matching h.matching
  · exact region_loses (by dsimp only; omega) hgone.active h.active
  · exact region_loses (by dsimp only; omega) hgone.eligible h.eligible
  · intro q hq j hj
    rw [hl₃.below q hq j (by omega), hl₂.below q hq j (by omega), hl₁.below q hq j hj]

end

theorem reverseLoop_spec (n i : Nat) (d₁ : Distributor Pipe) (hend : i + n = d.eligible)
    (hi : d.matching ≤ i) (hle : d.eligible ≤ d.pipes.size)
    (hsize : d₁.pipes.size = d.pipes.size) (hcount : d₁.matching = i - d.matching)
    (hmem : ∀ q, q ∈ d₁.pipes.items ↔ q ∈ d.pipes.items)
    (hmoved : ∀ q, d₁.pipes.index q < d₁.matching ↔
      d.matching ≤ d.pipes.index q ∧ d.pipes.index q < i)
    (hlater : ∀ q, i ≤ d.pipes.index q → d₁.pipes.index q = d.pipes.index q)
    (hregion : ∀ q, d₁.pipes.index q < d.eligible ↔ d.pipes.index q < d.eligible) :
    ∃ s, d₁.reverseLoop i n = some { d₁ with pipes := s, matching := d.eligible - d.matching } ∧
      s.size = d.pipes.size ∧ (∀ q, q ∈ s.items ↔ q ∈ d.pipes.items) ∧
      (∀ q, s.index q < d.eligible - d.matching ↔
        d.matching ≤ d.pipes.index q ∧ d.pipes.index q < d.eligible) ∧
      ∀ q, s.index q < d.eligible ↔ d.pipes.index q < d.eligible := by
  induction n generalizing i d₁ with
  | zero =>
    subst hend
    rw [← hcount]
    exact ⟨d₁.pipes, rfl, hsize, hmem, hmoved, hregion⟩
  | succ n ih =>
    obtain ⟨s, hs⟩ := swap_isSome (s := d₁.pipes) (i := i) (j := d₁.matching) (by omega) (by omega)
    have hswap := swapped_of_swap hs
    have hmoved' (q : Pipe) : s.index q < d₁.matching + 1 ↔
        d.matching ≤ d.pipes.index q ∧ d.pipes.index q < i + 1 := by
      -- The pipe at position `i` has not been moved so far.
      obtain ⟨r, hrin, hri⟩ := exists_index (s := d.pipes) (i := i) (by omega)
      have hr₁ := hlater r (by omega)
      have hq := hmoved q
      have hq' := hlater q
      rw [hswap.index]
      rcases eq_or_ne q r with rfl | hqr
      · rw [if_pos (by omega)]
        omega
      have hne : d₁.pipes.index q ≠ i := by
        intro heq
        have hrmem : r ∈ d₁.pipes.items := (hmem r).mpr hrin
        exact hqr ((index_inj hrmem).mp (by omega)).symm
      rw [if_neg hne]
      split <;> omega
    have hlater' (q : Pipe) (hq : i + 1 ≤ d.pipes.index q) : s.index q = d.pipes.index q := by
      have hq' := hlater q (by omega)
      rw [hswap.index]
      split
      · omega
      · split <;> omega
    have hregion' (q : Pipe) : s.index q < d.eligible ↔ d.pipes.index q < d.eligible := by
      have hq := hregion q
      rw [hswap.index]
      split
      · omega
      · split <;> omega
    obtain ⟨r, hr, hrest⟩ := ih (i + 1) { d₁ with pipes := s, matching := d₁.matching + 1 }
      (by omega) (by omega) (by rw [← hsize]; exact hswap.size) (by dsimp only; omega)
      (fun q => (hswap.mem q).trans (hmem q)) hmoved' hlater' hregion'
    exact ⟨r, by simp only [Distributor.reverseLoop, hs, hr], hrest⟩

theorem Shows.reverseMatch (h : Shows d v) (hmore : d.more = false) :
    ∃ d', d.reverseMatch = some d' ∧ Shows d' v.reverseMatch := by
  have hle := h.eligible_le
  have hma := h.matching_le
  have heq := h.between hmore
  obtain ⟨s, hs, hsize, hmem, hmatching, hregion⟩ :=
    reverseLoop_spec (d := d) (d.eligible - d.matching) d.matching d.unmatch (by omega)
      (Nat.le_refl _) hle rfl (by simp [Distributor.unmatch]) (fun _ => Iff.rfl)
      (by simp [Distributor.unmatch]) (fun _ _ => rfl) (fun _ => Iff.rfl)
  refine ⟨_, hs, ?_, h.active_le, by rw [hsize]; exact hle, h.between, ?_, ?_, ?_, ?_, h.more⟩
  · change d.eligible - d.matching ≤ d.active
    omega
  · intro q
    rw [hmem]
    exact h.attached q
  · intro q
    dsimp only [View.reverseMatch]
    rw [hmatching, ← h.eligible, ← h.matching]
    omega
  · intro q
    change s.index q < d.active ↔ v.active q
    rw [heq, hregion, ← heq]
    exact h.active q
  · intro q
    change s.index q < d.eligible ↔ v.eligible q
    rw [hregion]
    exact h.eligible q

/-- A passive pipe becomes eligible, and active unless a message is being sent. -/
theorem Shows.activated (h : Shows d v) (hin : v.attached pipe) (hout : ¬ v.eligible pipe) :
    ∃ d', d.activated pipe = some d' ∧ Shows d' (v.activated pipe) := by
  have hlt : d.pipes.index pipe < d.pipes.size :=
    index_lt_size_iff.mpr ((h.attached pipe).mpr hin)
  have hge : d.eligible ≤ d.pipes.index pipe := by
    rw [← h.eligible] at hout
    omega
  obtain ⟨s, hs⟩ := swap_isSome (s := d.pipes) (i := d.pipes.index pipe) (j := d.eligible)
    hlt (by omega)
  have hent := (swapped_of_swap hs).entered hge
  have hsize := hent.size
  have hstep : d.enterEligible pipe = some { d with pipes := s, eligible := d.eligible + 1 } := by
    simp [Distributor.enterEligible, hs, show d.eligible < d.pipes.size by omega]
  have hjoin (s' : Slots Pipe) (h' : s'.size = s.size ∧ (∀ q, q ∈ s'.items ↔ q ∈ s.items) ∧
      s'.index = s.index) := h.joins (s := s') hout (by omega)
      (fun q => (h'.2.1 q).trans ((hent.mem q).trans (h.attached q))) (h'.2.2 ▸ hent.own)
      (h'.2.2 ▸ hent.rest) (h'.2.2 ▸ hent.below)
  unfold Distributor.activated
  rw [hstep]
  dsimp only
  cases hmore : d.more with
  | true =>
    have hshow := hjoin s ⟨rfl, fun _ => Iff.rfl, rfl⟩
    rw [hmore] at hshow
    exact ⟨_, rfl, hshow⟩
  | false =>
    -- The second swap is one of the pipe with itself.
    have heq := h.between hmore
    obtain ⟨s', hs'⟩ := swap_isSome (s := s) (i := d.eligible) (j := d.active) (by omega) (by omega)
    have hswap := swapped_of_swap hs'
    rw [heq] at hswap
    have hshow := hjoin s' ⟨hswap.size, hswap.mem, funext hswap.index_self⟩
    rw [hmore] at hshow
    rw [if_pos ⟨rfl, by omega⟩, if_neg (by omega), Nat.add_sub_cancel, hs']
    exact ⟨_, rfl, hshow⟩

theorem Shows.congr {v' : View Pipe} (h : Shows d v) (hattached : ∀ q, v'.attached q ↔ v.attached q)
    (hmatching : ∀ q, v'.matching q ↔ v.matching q) (hactive : ∀ q, v'.active q ↔ v.active q)
    (heligible : ∀ q, v'.eligible q ↔ v.eligible q) (hmore : v'.more = v.more) : Shows d v' := by
  refine ⟨h.matching_le, h.active_le, h.eligible_le, h.between, ?_, ?_, ?_, ?_, ?_⟩
  · intro q
    rw [hattached, h.attached]
  · intro q
    rw [hmatching, h.matching]
  · intro q
    rw [hactive, h.active]
  · intro q
    rw [heligible, h.eligible]
  · rw [hmore, h.more]

end Shows

end Uzmq.Distributors
