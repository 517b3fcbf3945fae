import Uzmq.ByteTrie

/-!
# The trie of subscribers

`mtrie_t`: a node has the set of the pipes that subscribe to its prefix, or no set. Memory
allocation does not fail, and the buffer of `rm`, which is enlarged on the way, is the list of
bytes passed so far. The order of a set, which is that of addresses, is the one of insertion
here. No result stands for a failed assertion or an access through a null pointer.
-/

namespace Uzmq.Mtries

open Finset List ByteTrie

variable {Pipe : Type}

def subscribers : Labels (Option (List Pipe)) where
  fresh := none
  blank := Option.isNone
  blank_iff := by simp

abbrev Mtrie (Pipe : Type) := Node (Option (List Pipe))

section Model
variable [DecidableEq Pipe]

def add (n : Mtrie Pipe) (key : List UInt8) (pipe : Pipe) : Option (Mtrie Pipe × Bool) :=
  n.insertAt subscribers false (fun pipes => (some ((pipes.getD []).insert pipe), pipes.isNone)) key

/-- `rm_helper` for a prefix at the node of the prefix. -/
def erasePipe (pipe : Pipe) : Option (List Pipe) → Option (Option (List Pipe) × Bool)
  | none => some (none, true)
  | some pipes =>
    if pipe ∈ pipes then
      if (pipes.erase pipe).isEmpty then some (none, true)
      else some (some (pipes.erase pipe), false)
    else none

def rm (n : Mtrie Pipe) (key : List UInt8) (pipe : Pipe) : Option (Mtrie Pipe × Bool) :=
  n.removeAt subscribers (fun t _ => t.firstFrom 0) (erasePipe pipe) false key

/-- `rm_helper` for a pipe at one node: the set that is left, and whether `func` is called. -/
def eraseOwn (pipe : Pipe) (callOnUniq : Bool) : Option (List Pipe) → Option (List Pipe) × Bool
  | none => (none, false)
  | some pipes =>
    if pipe ∈ pipes then
      (if (pipes.erase pipe).isEmpty then none else some (pipes.erase pipe),
        !callOnUniq || (pipes.erase pipe).isEmpty)
    else (some pipes, false)

/-- The loop over the table of a node: the table so far, the first and the last byte that have
kept their subnodes, and the prefixes `func` was called with. -/
structure Sweep (Pipe : Type) where
  table : RangeTable (Mtrie Pipe)
  newMin : Nat
  newMax : Nat
  calls : List (List UInt8) := []

/-- The table is freed or compacted after the loop. -/
def recompact (s : Sweep Pipe) : Option (RangeTable (Mtrie Pipe)) :=
  let t := s.table
  if t.liveNodes = 0 then some { t with count := 0, next := .null }
  else if t.liveNodes = 1 then
    if s.newMin = s.newMax ∧ t.min ≤ s.newMin ∧ s.newMin < t.min + t.count ∧
        (t.entry (s.newMin - t.min)).isSome then
      some (t.collapse (s.newMin - t.min))
    else none
  else if t.min < s.newMin ∨ s.newMax < t.min + t.count - 1 then
    if s.newMin < s.newMax ∧ t.min ≤ s.newMin ∧ s.newMax ≤ t.min + t.count - 1 ∧
        s.newMax - s.newMin + 1 < t.count then
      some (t.narrow (s.newMin - t.min) (s.newMax - s.newMin + 1))
    else none
  else some t

/-- A subnode has been visited in the loop. -/
def Sweep.visited (s : Sweep Pipe) (c : Nat) (m : Mtrie Pipe) (calls : List (List UInt8)) :
    Option (Sweep Pipe) :=
  if m.isRedundant subscribers then
    if s.table.liveNodes = 0 then none
    else
      some { s with
        table := { s.table.setSlot c none with liveNodes := s.table.liveNodes - 1 }
        calls := s.calls ++ calls }
  else
    some {
      table := s.table.setSlot c (some m)
      newMin := if c < s.newMin then c else s.newMin
      newMax := if s.newMax < c then c else s.newMax
      calls := s.calls ++ calls }

mutual

def rmHelper (pipe : Pipe) (callOnUniq : Bool) (buff : List UInt8) :
    Mtrie Pipe → Option (Mtrie Pipe × List (List UInt8))
  | .mk pipes table =>
    match rmTable pipe callOnUniq buff table with
    | none => none
    | some (table', calls) =>
      some (.mk (eraseOwn pipe callOnUniq pipes).1 table',
        if (eraseOwn pipe callOnUniq pipes).2 then buff :: calls else calls)

def rmTable (pipe : Pipe) (callOnUniq : Bool) (buff : List UInt8) :
    RangeTable (Mtrie Pipe) → Option (RangeTable (Mtrie Pipe) × List (List UInt8))
  | ⟨min, count, liveNodes, next⟩ =>
    if count = 0 then some (⟨min, count, liveNodes, next⟩, [])
    else rmNext pipe callOnUniq buff min count liveNodes next

def rmNext (pipe : Pipe) (callOnUniq : Bool) (buff : List UInt8) (min count liveNodes : Nat) :
    Next (Mtrie Pipe) → Option (RangeTable (Mtrie Pipe) × List (List UInt8))
  | .null => none
  | .node none => none
  | .node (some m) =>
    if count = 1 then
      match rmHelper pipe callOnUniq (buff ++ [UInt8.ofNat min]) m with
      | none => none
      | some (m', calls) =>
        if m'.isRedundant subscribers then
          if liveNodes = 1 then some (⟨min, 0, 0, .node none⟩, calls) else none
        else some (⟨min, count, liveNodes, .node (some m')⟩, calls)
    else none
  | .table l =>
    if count = 1 then none
    else
      match rmEntries pipe callOnUniq buff min count
          ⟨⟨min, count, liveNodes, .table l⟩, (min + count - 1) % 2 ^ 8, min, []⟩ l with
      | none => none
      | some s =>
        match recompact s with
        | none => none
        | some t => some (t, s.calls)

/-- The loop over the entries of the array, the first of which is for byte `c`. -/
def rmEntries (pipe : Pipe) (callOnUniq : Bool) (buff : List UInt8) (c count : Nat)
    (s : Sweep Pipe) : List (Option (Mtrie Pipe)) → Option (Sweep Pipe)
  | [] => if count = 0 then some s else none
  | none :: rest =>
    if count = 0 then some s else rmEntries pipe callOnUniq buff (c + 1) (count - 1) s rest
  | some m :: rest =>
    if count = 0 then some s
    else
      match rmHelper pipe callOnUniq (buff ++ [UInt8.ofNat c]) m with
      | none => none
      | some (m', calls) =>
        match s.visited c m' calls with
        | none => none
        | some s' => rmEntries pipe callOnUniq buff (c + 1) (count - 1) s' rest

end

/-- Remove all subscriptions of a pipe; the prefixes `func` is called with. -/
def rmPipe (n : Mtrie Pipe) (pipe : Pipe) (callOnUniq : Bool) :
    Option (Mtrie Pipe × List (List UInt8)) :=
  rmHelper pipe callOnUniq [] n

/-- `match`: the pipes `func` is called with. -/
def matching : Mtrie Pipe → List UInt8 → Option (List Pipe)
  | n, [] => some (n.label.getD [])
  | n, c :: rest =>
    if n.table.count = 0 then some (n.label.getD [])
    else if n.table.count = 1 then
      if c.toNat ≠ n.table.min then some (n.label.getD [])
      else
        match n.table.next with
        | .node (some m) => (matching m rest).map (n.label.getD [] ++ ·)
        | _ => none
    else if n.table.covers c.toNat = false then some (n.label.getD [])
    else
      match n.table.slot c.toNat with
      | none => none
      | some none => some (n.label.getD [])
      | some (some m) => (matching m rest).map (n.label.getD [] ++ ·)

end Model

open RangeTable

section Sweep
variable {s s' : Sweep Pipe} {c : Nat}

/-- The loop is about to visit byte `c`. -/
structure Sweeping (s : Sweep Pipe) (c : Nat) : Prop where
  shaped : s.table.Shaped
  many : 2 ≤ s.table.count
  liveNodes : s.table.liveNodes = s.table.live.card
  within : ∀ d < c, (s.table.find d).isSome → s.newMin ≤ d ∧ d ≤ s.newMax
  newMin : s.newMin = s.table.min + s.table.count - 1 ∨
    s.newMin < c ∧ (s.table.find s.newMin).isSome
  newMax : s.newMax = s.table.min ∨ s.newMax < c ∧ (s.table.find s.newMax).isSome

theorem Sweeping.skip (h : Sweeping s c) (hnone : s.table.find c = none) : Sweeping s (c + 1) := by
  refine { h with within := ?_, newMin := ?_, newMax := ?_ }
  · intro d hd hsome
    by_cases heq : d = c
    · simp [heq, hnone] at hsome
    · exact h.within d (by omega) hsome
  · rcases h.newMin with hlast | ⟨hlt, hsome⟩
    · exact .inl hlast
    · exact .inr ⟨by omega, hsome⟩
  · rcases h.newMax with hfirst | ⟨hlt, hsome⟩
    · exact .inl hfirst
    · exact .inr ⟨by omega, hsome⟩

/-- What visiting a subnode changes. -/
structure Visited (s : Sweep Pipe) (c : Nat) (m : Mtrie Pipe) (calls : List (List UInt8))
    (s' : Sweep Pipe) : Prop where
  sweeping : Sweeping s' (c + 1)
  min : s'.table.min = s.table.min
  count : s'.table.count = s.table.count
  find : ∀ d, s'.table.find d =
    if d = c then (if m.isRedundant subscribers then none else some m) else s.table.find d
  calls : s'.calls = s.calls ++ calls

/-- The entry of byte `c` has been changed. -/
theorem Sweeping.set {p : Option (Mtrie Pipe)} {n newMin newMax : Nat} {calls : List (List UInt8)}
    (h : Sweeping s c) (hc : (s.table.find c).isSome) (hn : n = (s.table.setSlot c p).live.card)
    (hown : p.isSome → newMin ≤ c ∧ c ≤ newMax)
    (hmin : newMin = s.newMin ∨ newMin = c ∧ c ≤ s.newMin ∧ p.isSome)
    (hmax : newMax = s.newMax ∨ newMax = c ∧ s.newMax ≤ c ∧ p.isSome) :
    Sweeping ⟨{ s.table.setSlot c p with liveNodes := n }, newMin, newMax, calls⟩ (c + 1) := by
  have hfind := h.shaped.find_setSlot (p := p) (covers_of_find hc)
  have hkeep {d : Nat} (hd : d < c) : (s.table.setSlot c p).find d = s.table.find d := by
    rw [hfind, if_neg (by omega)]
  have hshaped := h.shaped.setSlot (c := c) (p := p)
  constructor
  · exact { hshaped with }
  · rw [setSlot_count]
    exact h.many
  · exact hn
  · intro d hd hsome
    rw [find_liveNodes] at hsome
    by_cases heq : d = c
    · rw [heq, hfind, if_pos rfl] at hsome
      rw [heq]
      exact hown hsome
    · rw [hkeep (by omega)] at hsome
      have := h.within d (by omega) hsome
      dsimp only
      omega
  · rw [setSlot_min, setSlot_count, find_liveNodes]
    rcases hmin with rfl | ⟨rfl, -, hp⟩
    · rcases h.newMin with hlast | ⟨hlt, hsome⟩
      · exact .inl hlast
      · exact .inr ⟨Nat.lt_succ_of_lt hlt, by rwa [hkeep hlt]⟩
    · exact .inr ⟨Nat.lt_succ_self _, by rwa [hfind, if_pos rfl]⟩
  · rw [setSlot_min, find_liveNodes]
    rcases hmax with rfl | ⟨rfl, -, hp⟩
    · rcases h.newMax with hfirst | ⟨hlt, hsome⟩
      · exact .inl hfirst
      · exact .inr ⟨Nat.lt_succ_of_lt hlt, by rwa [hkeep hlt]⟩
    · exact .inr ⟨Nat.lt_succ_self _, by rwa [hfind, if_pos rfl]⟩

theorem Sweeping.visited (h : Sweeping s c) (hc : (s.table.find c).isSome) (m : Mtrie Pipe)
    (calls : List (List UInt8)) :
    ∃ s', s.visited c m calls = some s' ∧ Visited s c m calls s' := by
  have hcovers := covers_of_find hc
  have hmem : c ∈ s.table.live := (mem_live h.shaped.range).mpr hc
  by_cases hredundant : m.isRedundant subscribers = true
  · have hlive : s.table.liveNodes ≠ 0 := by
      rw [h.liveNodes]
      exact card_ne_zero_of_mem hmem
    refine ⟨_, by rw [Sweep.visited, if_pos hredundant, if_neg hlive], ?_, setSlot_min,
      setSlot_count, ?_, rfl⟩
    · refine h.set hc ?_ nofun (.inl rfl) (.inl rfl)
      rw [live_setSlot_none h.shaped hcovers, card_erase_of_mem hmem, h.liveNodes]
    · intro d
      rw [find_liveNodes, h.shaped.find_setSlot hcovers, if_pos hredundant]
  · refine ⟨_, by rw [Sweep.visited, if_neg hredundant], ?_, setSlot_min, setSlot_count, ?_, rfl⟩
    · refine h.set (p := some m) (n := (s.table.setSlot c (some m)).liveNodes) hc ?_ ?_ ?_ ?_
      · rw [setSlot_liveNodes, live_setSlot_some h.shaped hcovers, insert_eq_of_mem hmem]
        exact h.liveNodes
      · intro _
        constructor <;> split <;> omega
      · split
        · exact .inr ⟨rfl, by omega, rfl⟩
        · exact .inl rfl
      · split
        · exact .inr ⟨rfl, by omega, rfl⟩
        · exact .inl rfl
    · intro d
      rw [h.shaped.find_setSlot hcovers, if_neg hredundant]

theorem Sweeping.ends (h : Sweeping s (s.table.min + s.table.count))
    (hlive : s.table.liveNodes ≠ 0) :
    (s.table.find s.newMin).isSome ∧ (s.table.find s.newMax).isSome := by
  have hne : s.table.live.Nonempty := by
    rw [← card_pos, ← h.liveNodes]
    omega
  obtain ⟨d, hd⟩ := hne
  rw [mem_live h.shaped.range] at hd
  have hcovers := covers_iff.mp (covers_of_find hd)
  have hwithin := h.within d (by omega) hd
  constructor
  · rcases h.newMin with hlast | ⟨-, hsome⟩
    · rwa [show s.newMin = d by omega]
    · exact hsome
  · rcases h.newMax with hfirst | ⟨-, hsome⟩
    · rwa [show s.newMax = d by omega]
    · exact hsome

theorem recompact_spec (h : Sweeping s (s.table.min + s.table.count)) :
    ∃ t, recompact s = some t ∧ t.Compact ∧ ∀ d, t.find d = s.table.find d := by
  have hrange := h.shaped.range
  have hmany := h.many
  have hwithin {d : Nat} (hd : (s.table.find d).isSome) : s.newMin ≤ d ∧ d ≤ s.newMax := by
    have := covers_iff.mp (covers_of_find hd)
    exact h.within d (by omega) hd
  by_cases hzero : s.table.liveNodes = 0
  · have hnone (d : Nat) : s.table.find d = none := by
      by_contra hne
      have hmem := (mem_live hrange).mpr (Option.isSome_iff_ne_none.mpr hne)
      have hcard := h.liveNodes
      rw [hzero] at hcard
      exact card_ne_zero_of_mem hmem hcard.symm
    refine ⟨{ s.table with count := 0, next := .null }, by simp [recompact, hzero],
      compact_of_count_eq_zero rfl hzero (show s.table.min ≤ 2 ^ 8 by omega), ?_⟩
    intro d
    rw [find_of_count_eq_zero rfl, hnone]
  · obtain ⟨hmin, hmax⟩ := h.ends hzero
    have hcmin := covers_iff.mp (covers_of_find hmin)
    have hcmax := covers_iff.mp (covers_of_find hmax)
    by_cases hone : s.table.liveNodes = 1
    · have hcard : s.table.live.card ≤ 1 := by
        rw [← h.liveNodes, hone]
      have hunique {d : Nat} (hd : (s.table.find d).isSome) : d = s.newMin :=
        card_le_one.mp hcard d ((mem_live hrange).mpr hd) s.newMin ((mem_live hrange).mpr hmin)
      have hat : s.table.min + (s.newMin - s.table.min) = s.newMin := by omega
      refine ⟨s.table.collapse (s.newMin - s.table.min), ?_, ?_⟩
      · have hentry : (s.table.entry (s.newMin - s.table.min)).isSome := by
          rwa [entry_eq h.shaped hmany, hat]
        simp only [recompact]
        rw [if_neg hzero, if_pos hone, if_pos ⟨(hunique hmax).symm, hcmin.1, hcmin.2, hentry⟩]
      · refine collapse_compact h.shaped h.liveNodes hmany (by omega) ?_ ?_
        · intro d hd
          rw [hat]
          exact hunique hd
        · rwa [hat]
    · have htwo : 1 < s.table.live.card := by
        rw [← h.liveNodes]
        omega
      obtain ⟨d, hd, e, he, hne⟩ := one_lt_card.mp htwo
      have hd' := hwithin ((mem_live hrange).mp hd)
      have he' := hwithin ((mem_live hrange).mp he)
      by_cases hshrink : s.table.min < s.newMin ∨ s.newMax < s.table.min + s.table.count - 1
      · refine ⟨s.table.narrow (s.newMin - s.table.min) (s.newMax - s.newMin + 1), ?_, ?_⟩
        · simp only [recompact]
          rw [if_neg hzero, if_neg hone, if_pos hshrink, if_pos (by omega)]
        refine narrow_compact h.shaped h.liveNodes hmany (by omega) (by omega) ?_ ?_ ?_
        · intro x hx
          have := hwithin hx
          omega
        · rwa [show s.table.min + (s.newMin - s.table.min) = s.newMin by omega]
        · rwa [show s.table.min + (s.newMin - s.table.min) + (s.newMax - s.newMin + 1) - 1 =
            s.newMax by omega]
      · refine ⟨s.table, ?_, ⟨h.shaped, ?_, ?_, h.liveNodes⟩, fun _ => rfl⟩
        · simp only [recompact]
          rw [if_neg hzero, if_neg hone, if_neg hshrink]
        · intro _
          rwa [show s.table.min = s.newMin by omega]
        · intro _
          rwa [show s.table.min + s.table.count - 1 = s.newMax by omega]

end Sweep

def labelOf (p : Option (Mtrie Pipe)) (key : List UInt8) : Option (List Pipe) :=
  match p with
  | none => none
  | some m => m.get subscribers key

theorem get_cons_eq {n : Mtrie Pipe} (c : UInt8) (rest : List UInt8) :
    n.get subscribers (c :: rest) = labelOf (n.table.find c.toNat) rest := by
  rw [Node.get_cons]
  cases n.table.find c.toNat <;> rfl

section Walk
variable [DecidableEq Pipe] {n : Mtrie Pipe} {pipe : Pipe} {callOnUniq : Bool}

/-- The walk removes the pipe from the node and all nodes below. -/
structure Removed (pipe : Pipe) (callOnUniq : Bool) (n : Mtrie Pipe) (buff : List UInt8)
    (n' : Mtrie Pipe) (calls : List (List UInt8)) : Prop where
  sound : Node.Sound subscribers n'
  get : ∀ key, n'.get subscribers key = (eraseOwn pipe callOnUniq (n.get subscribers key)).1
  calls : Lists (fun key => (eraseOwn pipe callOnUniq (n.get subscribers key)).2 = true) buff calls

def Removes (pipe : Pipe) (callOnUniq : Bool) (n : Mtrie Pipe) : Prop :=
  ∀ buff, ∃ n' calls, rmHelper pipe callOnUniq buff n = some (n', calls) ∧
    Removed pipe callOnUniq n buff n' calls

/-- What the walk makes of the subnode of a byte. -/
structure Pruned (pipe : Pipe) (callOnUniq : Bool) (p p' : Option (Mtrie Pipe)) : Prop where
  get : ∀ key, labelOf p' key = (eraseOwn pipe callOnUniq (labelOf p key)).1
  sound : ∀ m, p' = some m → Node.Sound subscribers m ∧ m.isRedundant subscribers = false

theorem pruned_none : Pruned pipe callOnUniq none none := by
  constructor
  · intro key
    rfl
  · intro m hm
    cases hm

theorem Removed.pruned {buff : List UInt8} {n' : Mtrie Pipe} {calls : List (List UInt8)}
    (h : Removed pipe callOnUniq n buff n' calls) :
    Pruned pipe callOnUniq (some n) (if n'.isRedundant subscribers then none else some n') := by
  by_cases hredundant : n'.isRedundant subscribers = true
  · rw [if_pos hredundant]
    constructor
    · intro key
      exact (h.sound.get_redundant hredundant key).symm.trans (h.get key)
    · intro m hm
      cases hm
  · rw [if_neg hredundant]
    constructor
    · exact h.get
    · rintro m ⟨⟩
      exact ⟨h.sound, by simpa using hredundant⟩

/-- What the loop over the entries from byte `c` on does. -/
structure Swept (pipe : Pipe) (callOnUniq : Bool) (buff : List UInt8) (c : Nat)
    (l : List (Option (Mtrie Pipe))) (s s' : Sweep Pipe) : Prop where
  sweeping : Sweeping s' (c + l.length)
  min : s'.table.min = s.table.min
  count : s'.table.count = s.table.count
  before : ∀ d < c, s'.table.find d = s.table.find d
  pruned : ∀ d, c ≤ d → Pruned pipe callOnUniq (s.table.find d) (s'.table.find d)
  calls : ∃ calls, s'.calls = s.calls ++ calls ∧
    Lists (Below (fun m key => (eraseOwn pipe callOnUniq (m.get subscribers key)).2 = true) c l)
      buff calls

theorem rmEntries_spec (buff : List UInt8) (c : Nat) (l : List (Option (Mtrie Pipe)))
    (s : Sweep Pipe) (hs : Sweeping s c) (hrange : c + l.length = s.table.min + s.table.count)
    (hmin : s.table.min ≤ c) (hentries : ∀ i, (l[i]?).join = s.table.find (c + i))
    (hremoves : ∀ m, some m ∈ l → Removes pipe callOnUniq m) :
    ∃ s', rmEntries pipe callOnUniq buff c l.length s l = some s' ∧
      Swept pipe callOnUniq buff c l s s' := by
  have hbytes := hs.shaped.range
  induction l generalizing c s with
  | nil =>
    refine ⟨s, rfl, hs, rfl, rfl, fun _ _ => rfl, ?_, [], by simp, .nil fun _ => not_below_nil⟩
    intro d hd
    rw [length_nil] at hrange
    have hnone : s.table.find d = none := by
      refine find_eq_none ?_
      rw [← Bool.not_eq_true, covers_iff]
      omega
    rw [hnone]
    exact pruned_none
  | cons p rest ih =>
    simp only [length_cons] at hrange
    have hfirst : s.table.find c = p := by
      have := hentries 0
      simpa using this.symm
    have hlater (i : Nat) : (rest[i]?).join = s.table.find (c + 1 + i) := by
      have := hentries (i + 1)
      rw [getElem?_cons_succ] at this
      rw [this]
      congr 1
      omega
    have hrest (m : Mtrie Pipe) (hm : some m ∈ rest) : Removes pipe callOnUniq m :=
      hremoves m (mem_cons_of_mem _ hm)
    -- What becomes of the first entry.
    obtain ⟨s₁, first, hs₁, hnext, hmin₁, hcount₁, hkeep, hpruned, hcalls₁, hlists₁⟩ : ∃ s₁ first,
        rmEntries pipe callOnUniq buff c (rest.length + 1) s (p :: rest) =
            rmEntries pipe callOnUniq buff (c + 1) rest.length s₁ rest ∧
          Sweeping s₁ (c + 1) ∧ s₁.table.min = s.table.min ∧ s₁.table.count = s.table.count ∧
          (∀ d, d ≠ c → s₁.table.find d = s.table.find d) ∧
          Pruned pipe callOnUniq p (s₁.table.find c) ∧ s₁.calls = s.calls ++ first ∧
          Lists (fun key => ∃ rest, key = UInt8.ofNat c :: rest ∧ ∃ m, p = some m ∧
            (eraseOwn pipe callOnUniq (m.get subscribers rest)).2 = true) buff first := by
      cases p with
      | none =>
        refine ⟨s, [], by simp [rmEntries], hs.skip hfirst, rfl, rfl, fun _ _ => rfl, ?_, by simp,
          .nil (by simp)⟩
        rw [hfirst]
        exact pruned_none
      | some m =>
        obtain ⟨m', first, hm', hremoved⟩ :=
          hremoves m mem_cons_self (buff ++ [UInt8.ofNat c])
        obtain ⟨s₁, hs₁, hvisited⟩ := hs.visited (by simp [hfirst]) m' first
        refine ⟨s₁, first, by simp [rmEntries, hm', hs₁], hvisited.sweeping, hvisited.min,
          hvisited.count, ?_, ?_, hvisited.calls, hremoved.calls.byte.congr (by simp)⟩
        · intro d hd
          rw [hvisited.find, if_neg hd]
        · rw [hvisited.find, if_pos rfl]
          exact hremoved.pruned
    obtain ⟨s', hs', hswept⟩ := ih (c + 1) s₁ hnext (by rw [hmin₁, hcount₁]; omega)
      (by rw [hmin₁]; omega) (fun i => by rw [hlater, hkeep _ (by omega)]) hrest
      (by rw [hmin₁, hcount₁]; exact hbytes)
    obtain ⟨calls, hcalls, hlists⟩ := hswept.calls
    refine ⟨s', by rw [length_cons, hs₁, hs'], ?_, hswept.min.trans hmin₁,
      hswept.count.trans hcount₁, ?_, ?_, first ++ calls, by rw [hcalls, hcalls₁, append_assoc], ?_⟩
    · rw [length_cons, show c + (rest.length + 1) = c + 1 + rest.length by omega]
      exact hswept.sweeping
    · intro d hd
      rw [hswept.before d (by omega), hkeep d (by omega)]
    · intro d hd
      by_cases heq : d = c
      · rw [heq, hswept.before c (by omega), hfirst]
        exact hpruned
      · rw [← hkeep d heq]
        exact hswept.pruned d (by omega)
    · refine (hlists₁.append hlists ?_).congr fun key => below_cons
      rintro key ⟨rest', rfl, -⟩
      exact below_ne (by omega)

/-- What the walk does to the table of a node. -/
structure TableRemoved (pipe : Pipe) (callOnUniq : Bool) (t : RangeTable (Mtrie Pipe))
    (buff : List UInt8) (t' : RangeTable (Mtrie Pipe)) (calls : List (List UInt8)) : Prop where
  compact : t'.Compact
  pruned : ∀ d, Pruned pipe callOnUniq (t.find d) (t'.find d)
  calls : Lists (Under (fun m key => (eraseOwn pipe callOnUniq (m.get subscribers key)).2 = true) t)
    buff calls

theorem rmTable_eq (buff : List UInt8) (t : RangeTable (Mtrie Pipe)) :
    rmTable pipe callOnUniq buff t =
      if t.count = 0 then some (t, [])
      else rmNext pipe callOnUniq buff t.min t.count t.liveNodes t.next := by
  cases t
  rfl

variable {t : RangeTable (Mtrie Pipe)}

section
variable (buff : List UInt8) (h : t.Compact)
  (hremoves : ∀ d m, t.find d = some m → Removes pipe callOnUniq m)
include h hremoves

theorem rmTable_node (hone : t.count = 1) :
    ∃ t' calls, rmTable pipe callOnUniq buff t = some (t', calls) ∧
      TableRemoved pipe callOnUniq t buff t' calls := by
  have hrange := h.range
  obtain ⟨m, hp, hfind⟩ := h.single hone
  obtain ⟨m', calls, hm', hremoved⟩ :=
    hremoves t.min m (by rw [hfind, if_pos rfl]) (buff ++ [UInt8.ofNat t.min])
  have hlive := h.liveNodes_eq_one hone
  have hlists : Lists
      (Under (fun m key => (eraseOwn pipe callOnUniq (m.get subscribers key)).2 = true) t)
      buff calls := by
    refine hremoved.calls.byte.congr ?_
    intro key
    simp [under_node hone hp hrange]
  have hprune {t' : RangeTable (Mtrie Pipe)} (hfind' : ∀ d, t'.find d =
      if d = t.min then (if m'.isRedundant subscribers then none else some m') else none)
      (d : Nat) : Pruned pipe callOnUniq (t.find d) (t'.find d) := by
    rw [hfind, hfind']
    split
    · exact hremoved.pruned
    · exact pruned_none
  rw [rmTable_eq, if_neg (by omega), hp, hone, hlive, rmNext, if_pos rfl, hm']
  by_cases hredundant : m'.isRedundant subscribers = true
  · refine ⟨⟨t.min, 0, 0, .node none⟩, calls, by simp [hredundant], ?_, hprune ?_, hlists⟩
    · exact compact_of_count_eq_zero rfl rfl (show t.min ≤ 2 ^ 8 by omega)
    · intro d
      rw [find_of_count_eq_zero rfl, if_pos hredundant, ite_self]
  · have hset : t.setSlot t.min (some m') = ⟨t.min, 1, 1, .node (some m')⟩ := by
      obtain ⟨min, count, liveNodes, next⟩ := t
      subst hone hlive
      rfl
    have hsome := h.first (by omega)
    refine ⟨t.setSlot t.min (some m'), calls, by simp [hredundant, hset], h.replace hsome m',
      hprune ?_, hlists⟩
    intro d
    rw [h.toShaped.find_setSlot (covers_of_find hsome), hfind, if_neg hredundant]
    split <;> rfl

theorem rmTable_table (hmany : 2 ≤ t.count) :
    ∃ t' calls, rmTable pipe callOnUniq buff t = some (t', calls) ∧
      TableRemoved pipe callOnUniq t buff t' calls := by
  have hrange := h.range
  have hne : t.count ≠ 1 := by omega
  obtain ⟨l, hl, hlength⟩ := h.many hmany
  have hfind := find_table hne hl hlength
  have hentries (i : Nat) : (l[i]?).join = t.find (t.min + i) := by
    rw [hfind, if_pos (by omega), Nat.add_sub_cancel_left]
  have hsub (m : Mtrie Pipe) (hm : some m ∈ l) : Removes pipe callOnUniq m := by
    obtain ⟨d, hd⟩ := find_of_mem hne hl hlength hm
    exact hremoves d m hd
  let s : Sweep Pipe := ⟨t, (t.min + t.count - 1) % 2 ^ 8, t.min, []⟩
  have hs : Sweeping s t.min := by
    refine ⟨h.toShaped, hmany, h.liveNodes, ?_, .inl ?_, .inl rfl⟩
    · intro d hd hsome
      have := covers_iff.mp (covers_of_find hsome)
      change t.min ≤ d ∧ _ at this
      omega
    · change (t.min + t.count - 1) % 2 ^ 8 = t.min + t.count - 1
      omega
  obtain ⟨s', hs', hswept⟩ :=
    rmEntries_spec buff t.min l s hs (by rw [hlength]) (Nat.le_refl _) hentries hsub
  have hdone : Sweeping s' (s'.table.min + s'.table.count) := by
    have := hswept.sweeping
    rwa [hlength, ← show s.table.min = t.min from rfl, ← show s.table.count = t.count from rfl,
      ← hswept.min, ← hswept.count] at this
  obtain ⟨t', ht', hcompact, hsame⟩ := recompact_spec hdone
  obtain ⟨calls, hcalls, hlists⟩ := hswept.calls
  refine ⟨t', calls, ?_, hcompact, ?_, ?_⟩
  · have ht : ({ t with next := .table l } : RangeTable (Mtrie Pipe)) = t := by
      rw [← hl]
    rw [hlength] at hs'
    rw [rmTable_eq, if_neg (by omega), hl, rmNext, if_neg hne, ht, hs']
    simp only [ht', hcalls]
    rfl
  · intro d
    rw [hsame]
    by_cases hd : t.min ≤ d
    · exact hswept.pruned d hd
    · have hnone : t.find d = none := by
        rw [hfind, if_neg hd]
      rw [hswept.before d (by omega), hnone]
      exact pruned_none
  · exact hlists.congr fun key => under_table hne hl hlength hrange

theorem rmTable_spec : ∃ t' calls, rmTable pipe callOnUniq buff t = some (t', calls) ∧
      TableRemoved pipe callOnUniq t buff t' calls := by
  by_cases hzero : t.count = 0
  · refine ⟨t, [], by rw [rmTable_eq, if_pos hzero], h, ?_, .nil fun _ => not_under_empty hzero⟩
    intro d
    rw [find_of_count_eq_zero hzero]
    exact pruned_none
  · by_cases hone : t.count = 1
    · exact rmTable_node buff h hremoves hone
    · exact rmTable_table buff h hremoves (by omega)

end

/-- The walk never fails, whatever the subscriptions of the pipe are. -/
theorem removes (pipe : Pipe) (callOnUniq : Bool) (h : Node.Sound subscribers n) :
    Removes pipe callOnUniq n := by
  induction h with
  | @mk pipes t compact sound used ih =>
    intro buff
    obtain ⟨t', calls, ht', htable⟩ := rmTable_spec buff compact ih
    refine ⟨.mk (eraseOwn pipe callOnUniq pipes).1 t',
      if (eraseOwn pipe callOnUniq pipes).2 then buff :: calls else calls, ?_,
      ⟨htable.compact, ?_, ?_⟩, ?_, ?_⟩
    · simp [rmHelper, ht']
    · intro d m hm
      exact ((htable.pruned d).sound m hm).1
    · intro d m hm
      exact ((htable.pruned d).sound m hm).2
    · intro key
      cases key with
      | nil => rfl
      | cons c rest =>
        rw [get_cons_eq, get_cons_eq]
        exact (htable.pruned c.toNat).get rest
    · refine Lists.own (htable.calls.congr ?_) Iff.rfl
      intro key
      exact (under_get (n := .mk pipes t) (p := fun q => (eraseOwn pipe callOnUniq q).2 = true)
        (by simp [subscribers, eraseOwn])).symm

end Walk

section Matching
variable {n : Mtrie Pipe}

theorem matching_eq (data : List UInt8) (h : Node.Sound subscribers n) :
    matching n data = some (data.inits.flatMap fun key => (n.get subscribers key).getD []) := by
  induction data generalizing n with
  | nil => simp [matching]
  | cons c rest ih =>
    have hsplit : (c :: rest).inits.flatMap (fun key => (n.get subscribers key).getD []) =
        n.label.getD [] ++
          rest.inits.flatMap (fun key => (labelOf (n.table.find c.toNat) key).getD []) := by
      rw [inits_cons, flatMap_cons, flatMap_map]
      simp only [Node.get_nil, get_cons_eq]
    rw [hsplit]
    have hmissing (hnone : n.table.find c.toNat = none) :
        rest.inits.flatMap (fun key => (labelOf (n.table.find c.toNat) key).getD []) = [] := by
      simp [hnone, labelOf]
    have hfound {m : Mtrie Pipe} (hm : n.table.find c.toNat = some m) :
        matching m rest =
          some (rest.inits.flatMap fun key => (labelOf (n.table.find c.toNat) key).getD []) := by
      rw [ih (h.child hm).1, hm]
      rfl
    unfold matching
    by_cases hzero : n.table.count = 0
    · rw [if_pos hzero, hmissing (find_of_count_eq_zero hzero _), append_nil]
    rw [if_neg hzero]
    by_cases hone : n.table.count = 1
    · obtain ⟨m, hp, hfind⟩ := h.compact.single hone
      rw [if_pos hone]
      by_cases hc : c.toNat = n.table.min
      · have hm : n.table.find c.toNat = some m := by rw [hfind, if_pos hc]
        rw [if_neg (by simp [hc]), hp]
        simp [hfound hm]
      · have hnone : n.table.find c.toNat = none := by rw [hfind, if_neg hc]
        rw [if_pos hc, hmissing hnone, append_nil]
    · rw [if_neg hone]
      by_cases hcovers : n.table.covers c.toNat = true
      · obtain ⟨p, hp⟩ := h.compact.toShaped.slot_isSome hcovers
        have hat := find_of_slot hcovers hp
        rw [if_neg (by simp [hcovers]), hp]
        cases p with
        | none => simp [hmissing hat]
        | some m => simp [hfound hat]
      · have hout : n.table.covers c.toNat = false := by simpa using hcovers
        rw [if_pos hout, hmissing (find_eq_none hout), append_nil]

end Matching

theorem firstFrom_finds : Finds (fun (t : RangeTable (Mtrie Pipe)) (_ : Nat) => t.firstFrom 0) := by
  intro t c i h hnone hcount hone
  have hi := (hone (t.min + i)).mpr rfl
  have hcovers := covers_iff.mp (covers_of_find hi)
  obtain ⟨j, hj, -, -, hsome, -⟩ :=
    find?_entry (f := fun i => i) h.toShaped hcount (Nat.zero_le i) (by omega) hi
  obtain rfl : i = j := Nat.add_left_cancel ((hone _).mp hsome).symm
  exact hj

end Uzmq.Mtries
