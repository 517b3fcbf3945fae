import Uzmq.ByteTrie

/-!
# The trie of subscriptions

`trie_t`: a node counts how often its prefix has been added. Memory allocation does not fail,
and the buffer of `apply`, which is enlarged on the way, is the list of bytes passed so far. No
result stands for a failed assertion or an access through a null pointer.

The trie is compared with the multiset of the prefixes that are held.
-/

namespace Uzmq.Tries

open List ByteTrie

def refcnts : Labels Nat where
  fresh := 0
  blank refcnt := refcnt == 0
  blank_iff := by simp

abbrev Trie := Node Nat

def add (n : Trie) (key : List UInt8) : Option (Trie × Bool) :=
  n.insertAt refcnts true (fun refcnt => ((refcnt + 1) % 2 ^ 32, (refcnt + 1) % 2 ^ 32 == 1)) key

/-- The pruned node was the first or the last of the table, so the other end is kept. -/
def keptEnd (t : RangeTable Trie) (c : Nat) : Option Nat :=
  if c = t.min then some (t.count - 1)
  else if c = t.min + t.count - 1 then some 0
  else none

def rm (n : Trie) (key : List UInt8) : Option (Trie × Bool) :=
  n.removeAt refcnts keptEnd
    (fun refcnt => if refcnt = 0 then some (refcnt, false) else some (refcnt - 1, refcnt - 1 == 0))
    false key

def check : Trie → List UInt8 → Option Bool
  | n, [] => some (n.label != 0)
  | n, c :: rest =>
    if n.label ≠ 0 then some true
    else if n.table.covers c.toNat = false then some false
    else
      match n.table.slot c.toNat with
      | none => none
      -- The pointer to a single subnode is not compared with null.
      | some none => if n.table.count = 1 then none else some false
      | some (some m) => check m rest

mutual

def applyHelper (buff : List UInt8) : Trie → Option (List (List UInt8))
  | .mk refcnt table =>
    match applyTable buff table with
    | none => none
    | some calls => some (if refcnt ≠ 0 then buff :: calls else calls)

def applyTable (buff : List UInt8) : RangeTable Trie → Option (List (List UInt8))
  | ⟨min, count, _, next⟩ => if count = 0 then some [] else applyNext buff min count next

def applyNext (buff : List UInt8) (min count : Nat) : Next Trie → Option (List (List UInt8))
  | .null => none
  | .node none => none
  | .node (some m) => if count = 1 then applyHelper (buff ++ [UInt8.ofNat min]) m else none
  | .table l => if count = 1 then none else applyEntries buff min count l

/-- The loop over the entries of the array, the first of which is for byte `c`. -/
def applyEntries (buff : List UInt8) (c count : Nat) :
    List (Option Trie) → Option (List (List UInt8))
  | [] => if count = 0 then some [] else none
  | p :: rest =>
    if count = 0 then some []
    else
      match applyEntry (buff ++ [UInt8.ofNat c]) p, applyEntries buff (c + 1) (count - 1) rest with
      | some first, some calls => some (first ++ calls)
      | _, _ => none

def applyEntry (buff : List UInt8) : Option Trie → Option (List (List UInt8))
  | none => some []
  | some m => applyHelper buff m

end

/-- The prefixes `func` is called with. -/
def apply (n : Trie) : Option (List (List UInt8)) := applyHelper [] n

inductive Op where
  | add (key : List UInt8)
  | rm (key : List UInt8)

def step (n : Trie) : Op → Option Trie
  | .add key => (add n key).map Prod.fst
  | .rm key => (rm n key).map Prod.fst

def run (n : Trie) : List Op → Option Trie
  | [] => some n
  | op :: ops =>
    match step n op with
    | none => none
    | some n' => run n' ops

/-- What an operation makes of the prefixes that are held. -/
def hold (held : Multiset (List UInt8)) : Op → Multiset (List UInt8)
  | .add key => key ::ₘ held
  | .rm key => held.erase key

example : (run (.new refcnts) [.add [7], .add [7, 9], .rm [7], .add [3]]).bind apply =
    some [[3], [7, 9]] := by decide

section Spec
variable {n : Trie}

theorem keptEnd_finds : RangeTable.Finds keptEnd := by
  intro t c i h hnone hcount hone
  unfold keptEnd
  rcases h.first with hfirst | hfirst
  · rcases h.last with hlast | hlast
    · omega
    · have := (hone _).mp hlast
      rw [if_pos hfirst.symm]
      congr 1
      omega
  · have hi := (hone _).mp hfirst
    rcases h.last with hlast | hlast
    · rw [if_neg (by omega), if_pos hlast.symm]
      congr 1
      omega
    · have := (hone _).mp hlast
      omega

theorem check_spec (data : List UInt8) (h : Node.Sound refcnts n) :
    ∃ b, check n data = some b ∧ (b = true ↔ ∃ key, key <+: data ∧ n.get refcnts key ≠ 0) := by
  induction data generalizing n with
  | nil =>
    refine ⟨n.label != 0, rfl, ?_⟩
    simp
  | cons c rest ih =>
    by_cases hlabel : n.label = 0
    · have hsplit : (∃ key, key <+: c :: rest ∧ n.get refcnts key ≠ 0) ↔
          ∃ key, key <+: rest ∧ n.get refcnts (c :: key) ≠ 0 := by
        constructor
        · rintro ⟨key, hkey, hne⟩
          cases key with
          | nil => exact absurd hlabel hne
          | cons d key =>
            obtain ⟨rfl, hrest⟩ := cons_prefix_cons.mp hkey
            exact ⟨key, hrest, hne⟩
        · rintro ⟨key, hkey, hne⟩
          exact ⟨c :: key, cons_prefix_cons.mpr ⟨rfl, hkey⟩, hne⟩
      rw [hsplit, check, if_neg (by simp [hlabel])]
      have hmissing (hnone : n.table.find c.toNat = none) :
          (false = true ↔ ∃ key, key <+: rest ∧ n.get refcnts (c :: key) ≠ 0) := by
        simp [Node.get_cons, hnone, refcnts]
      by_cases hcovers : n.table.covers c.toNat = true
      · obtain ⟨p, hp⟩ := h.compact.toShaped.slot_isSome hcovers
        have hfound := RangeTable.find_of_slot hcovers hp
        rw [if_neg (by simp [hcovers]), hp]
        cases p with
        | none =>
          have hcount : n.table.count ≠ 1 := by
            intro hone
            have hfirst := h.compact.first (by omega)
            have hrange := RangeTable.covers_iff.mp hcovers
            rw [show n.table.min = c.toNat by omega, hfound] at hfirst
            cases hfirst
          exact ⟨false, by simp [hcount], hmissing hfound⟩
        | some m =>
          obtain ⟨b, hb, hiff⟩ := ih (h.child hfound).1
          refine ⟨b, hb, hiff.trans ?_⟩
          simp [Node.get_cons, hfound]
      · have hout : n.table.covers c.toNat = false := by simpa using hcovers
        exact ⟨false, by rw [if_pos hout], hmissing (RangeTable.find_eq_none hout)⟩
    · refine ⟨true, by simp [check, hlabel], ?_⟩
      exact ⟨fun _ => ⟨[], nil_prefix, hlabel⟩, fun _ => rfl⟩

/-- A walk from the node of `buff` finds the prefixes that are held. -/
def Applies (m : Trie) : Prop :=
  ∀ buff, ∃ calls, applyHelper buff m = some calls ∧
    Lists (fun key => m.get refcnts key ≠ 0) buff calls

theorem applyEntries_spec (buff : List UInt8) (c : Nat) (l : List (Option Trie))
    (hrange : c + l.length ≤ 2 ^ 8) (happlies : ∀ m, some m ∈ l → Applies m) :
    ∃ calls, applyEntries buff c l.length l = some calls ∧
      Lists (Below (fun m key => m.get refcnts key ≠ 0) c l) buff calls := by
  induction l generalizing c with
  | nil => exact ⟨[], rfl, .nil fun _ => not_below_nil⟩
  | cons p rest ih =>
    simp only [length_cons] at hrange
    obtain ⟨calls, hcalls, hlists⟩ := ih (c + 1) (by omega) fun m hm =>
      happlies m (mem_cons_of_mem _ hm)
    cases p with
    | none =>
      refine ⟨calls, by simp [applyEntries, applyEntry, hcalls], hlists.congr ?_⟩
      intro key
      simp [below_cons]
    | some m =>
      obtain ⟨first, hfirst, hlists'⟩ := happlies m mem_cons_self (buff ++ [UInt8.ofNat c])
      refine ⟨first ++ calls, by simp [applyEntries, applyEntry, hfirst, hcalls], ?_⟩
      refine (hlists'.byte.append hlists ?_).congr ?_
      · rintro key ⟨rest', rfl, -⟩
        exact below_ne (by omega)
      · intro key
        simp [below_cons]

theorem applyTable_eq (buff : List UInt8) (t : RangeTable Trie) :
    applyTable buff t = if t.count = 0 then some [] else applyNext buff t.min t.count t.next := by
  cases t
  rfl

theorem applyTable_spec {t : RangeTable Trie} (buff : List UInt8) (h : t.Compact)
    (happlies : ∀ d m, t.find d = some m → Applies m) :
    ∃ calls, applyTable buff t = some calls ∧
      Lists (Under (fun m key => m.get refcnts key ≠ 0) t) buff calls := by
  have hrange := h.range
  rw [applyTable_eq]
  by_cases hzero : t.count = 0
  · exact ⟨[], by rw [if_pos hzero], .nil fun _ => not_under_empty hzero⟩
  rw [if_neg hzero]
  by_cases hone : t.count = 1
  · obtain ⟨m, hp, hfind⟩ := h.single hone
    obtain ⟨calls, hcalls, hlists⟩ :=
      happlies t.min m (by rw [hfind, if_pos rfl]) (buff ++ [UInt8.ofNat t.min])
    refine ⟨calls, by simp [hp, hone, applyNext, hcalls], hlists.byte.congr ?_⟩
    intro key
    simp [under_node hone hp hrange]
  · obtain ⟨l, hl, hlength⟩ := h.many (by omega)
    have hentries (m : Trie) (hm : some m ∈ l) : Applies m := by
      obtain ⟨d, hd⟩ := RangeTable.find_of_mem hone hl hlength hm
      exact happlies d m hd
    obtain ⟨calls, hcalls, hlists⟩ := applyEntries_spec buff t.min l (by omega) hentries
    refine ⟨calls, ?_, hlists.congr fun key => under_table hone hl hlength hrange⟩
    rw [hlength] at hcalls
    simp [hl, hone, applyNext, hcalls]

theorem applies (h : Node.Sound refcnts n) : Applies n := by
  induction h with
  | @mk refcnt t compact sound used ih =>
    intro buff
    obtain ⟨calls, hcalls, hlists⟩ := applyTable_spec buff compact ih
    refine ⟨if (refcnt != 0) = true then buff :: calls else calls, ?_, ?_⟩
    · simp [applyHelper, hcalls]
    · refine Lists.own (hlists.congr ?_) (by simp [Node.label])
      intro key
      exact (under_get (n := .mk refcnt t) (p := (· ≠ 0)) (by simp [refcnts])).symm

end Spec

/-- The trie counts the prefixes that are held. -/
structure Refines (n : Trie) (held : Multiset (List UInt8)) : Prop where
  sound : Node.Sound refcnts n
  count : ∀ key, n.get refcnts key = held.count key

section Refines
variable {n : Trie} {held : Multiset (List UInt8)}

theorem new_refines : Refines (.new refcnts) 0 := by
  constructor
  · exact Node.new_sound refcnts
  · intro key
    rw [Node.get_new]
    rfl

section
variable (h : Refines n held)
include h

theorem Refines.add (key : List UInt8) (hkey : held.count key < 2 ^ 32 - 1) :
    ∃ n', add n key = some (n', held.count key == 0) ∧ Refines n' (key ::ₘ held) := by
  have hmod : (held.count key + 1) % 2 ^ 32 = held.count key + 1 := by omega
  have hnew : refcnts.blank ((n.get refcnts key + 1) % 2 ^ 32) = false := by
    rw [h.count, hmod]
    rfl
  obtain ⟨n', hn', hinserts⟩ := Node.insertAt_spec true
    (fun refcnt => ((refcnt + 1) % 2 ^ 32, (refcnt + 1) % 2 ^ 32 == 1)) key h.sound hnew
  refine ⟨n', ?_, hinserts.sound, ?_⟩
  · rw [Tries.add, hn', h.count, hmod]
    simp
  intro k
  rw [hinserts.get, h.count, h.count, hmod, Multiset.count_cons]
  split
  · rename_i heq
    rw [heq]
  · rfl

theorem Refines.rm_absent (key : List UInt8) (hkey : held.count key = 0) :
    rm n key = some (n, false) := by
  refine Node.removeAt_unchanged key h.sound ?_
  intro m hm
  have hlabel : m.label = 0 := by
    rw [← hkey, ← h.count, Node.get, hm]
  simp [hlabel]

theorem Refines.rm (key : List UInt8) :
    ∃ n', rm n key = some (n', held.count key == 1) ∧ Refines n' (held.erase key) := by
  by_cases hzero : held.count key = 0
  · refine ⟨n, ?_, ?_⟩
    · simp [h.rm_absent key hzero, hzero]
    · rwa [Multiset.erase_of_notMem (Multiset.count_eq_zero.mp hzero)]
  cases hfollow : n.follow key with
  | none =>
    rw [← h.count, Node.get, hfollow] at hzero
    exact absurd rfl hzero
  | some m =>
    have hlabel : m.label = held.count key := by
      rw [← h.count, Node.get, hfollow]
    have hunmark : (if m.label = 0 then some (m.label, false)
        else some (m.label - 1, m.label - 1 == 0)) =
        some (held.count key - 1, held.count key == 1) := by
      rw [hlabel, if_neg hzero]
      congr 2
      rw [Bool.eq_iff_iff]
      simp only [beq_iff_eq]
      omega
    obtain ⟨n', hn', hremoves⟩ := Node.removeAt_spec keptEnd_finds
      (fun refcnt => if refcnt = 0 then some (refcnt, false)
        else some (refcnt - 1, refcnt - 1 == 0)) false key h.sound hfollow hunmark
    refine ⟨n', hn', hremoves.sound, ?_⟩
    intro k
    rw [hremoves.get, h.count]
    split
    · rename_i heq
      rw [heq, Multiset.count_erase_self]
    · rename_i hne
      rw [Multiset.count_erase_of_ne hne]

theorem Refines.step (op : Op) (hbound : ∀ key, (hold held op).count key ≤ 2 ^ 32 - 1) :
    ∃ n', step n op = some n' ∧ Refines n' (hold held op) := by
  cases op with
  | add key =>
    have hkey : held.count key < 2 ^ 32 - 1 := by
      have := hbound key
      rw [hold, Multiset.count_cons_self] at this
      omega
    obtain ⟨n', hn', hrefines⟩ := h.add key hkey
    exact ⟨n', by simp [Tries.step, hn'], hrefines⟩
  | rm key =>
    obtain ⟨n', hn', hrefines⟩ := h.rm key
    exact ⟨n', by simp [Tries.step, hn'], hrefines⟩

theorem Refines.run (ops : List Op)
    (hbound : ∀ pre, pre <+: ops → ∀ key, (pre.foldl hold held).count key ≤ 2 ^ 32 - 1) :
    ∃ n', run n ops = some n' ∧ Refines n' (ops.foldl hold held) := by
  induction ops generalizing n held with
  | nil => exact ⟨n, rfl, h⟩
  | cons op ops ih =>
    have hfirst : ∀ key, (hold held op).count key ≤ 2 ^ 32 - 1 :=
      hbound [op] (cons_prefix_cons.mpr ⟨rfl, nil_prefix⟩)
    obtain ⟨n₁, hn₁, hrefines⟩ := h.step op hfirst
    obtain ⟨n', hn', hfinal⟩ := ih hrefines fun pre hpre =>
      hbound (op :: pre) (cons_prefix_cons.mpr ⟨rfl, hpre⟩)
    exact ⟨n', by simp [Tries.run, hn₁, hn'], hfinal⟩

end

end Refines

/-- What the functions of the trie return while some prefixes are held. -/
structure Serves (n : Trie) (held : Multiset (List UInt8)) : Prop where
  add : ∀ key, held.count key < 2 ^ 32 - 1 → ∃ n', add n key = some (n', held.count key == 0)
  rm : ∀ key, ∃ n', rm n key = some (n', held.count key == 1)
  rm_absent : ∀ key, held.count key = 0 → Tries.rm n key = some (n, false)
  check : ∀ data, ∃ b, check n data = some b ∧ (b = true ↔ ∃ key, key <+: data ∧ 0 < held.count key)
  apply : ∃ calls, apply n = some calls ∧ calls.Nodup ∧ ∀ key, key ∈ calls ↔ 0 < held.count key

theorem Refines.serves {n : Trie} {held : Multiset (List UInt8)} (h : Refines n held) :
    Serves n held := by
  have hpos (key : List UInt8) : n.get refcnts key ≠ 0 ↔ 0 < held.count key := by
    rw [h.count, Nat.pos_iff_ne_zero]
  constructor
  · intro key hkey
    obtain ⟨n', hn', -⟩ := h.add key hkey
    exact ⟨n', hn'⟩
  · intro key
    obtain ⟨n', hn', -⟩ := h.rm key
    exact ⟨n', hn'⟩
  · exact h.rm_absent
  · intro data
    obtain ⟨b, hb, hiff⟩ := check_spec data h.sound
    refine ⟨b, hb, hiff.trans ?_⟩
    simp only [hpos]
  · obtain ⟨calls, hcalls, hlists⟩ := applies h.sound []
    refine ⟨calls, hcalls, hlists.nodup, ?_⟩
    intro key
    simp [hlists.mem, hpos]

/-- After any operations with which no prefix is ever held more often than its counter can tell,
the trie behaves as the multiset of the prefixes that are held. -/
theorem serves_of_run (ops : List Op)
    (hbound : ∀ pre, pre <+: ops → ∀ key, (pre.foldl hold 0).count key ≤ 2 ^ 32 - 1) :
    ∃ n, run (.new refcnts) ops = some n ∧ Serves n (ops.foldl hold 0) := by
  obtain ⟨n, hn, hrefines⟩ := new_refines.run ops hbound
  exact ⟨n, hn, hrefines.serves⟩

theorem count_foldl_hold_le (ops : List Op) (held : Multiset (List UInt8)) (key : List UInt8) :
    (ops.foldl hold held).count key ≤ held.count key + ops.length := by
  induction ops generalizing held with
  | nil => simp
  | cons op ops ih =>
    refine (ih (hold held op)).trans ?_
    have hstep : (hold held op).count key ≤ held.count key + 1 := by
      cases op with
      | add k =>
        rw [hold, Multiset.count_cons]
        split <;> omega
      | rm k =>
        have := Multiset.count_le_of_le key (Multiset.erase_le k held)
        rw [hold]
        omega
    rw [length_cons]
    omega

/-- The tables are extended to both sides, compacted and replaced by a single subnode. -/
theorem serves_of_growing_run :
    ∃ n, run (.new refcnts) [.add [7, 1], .add [9], .add [3, 4], .add [9], .rm [3, 4], .rm [7],
        .rm [7, 1], .add []] = some n ∧
      Serves n (([.add [7, 1], .add [9], .add [3, 4], .add [9], .rm [3, 4], .rm [7],
        .rm [7, 1], .add []] : List Op).foldl hold 0) := by
  refine serves_of_run _ ?_
  intro pre hpre key
  have hcount := count_foldl_hold_le pre 0 key
  have hlength := hpre.length_le
  simp only [Multiset.count_zero, length_cons, length_nil] at hcount hlength
  omega

end Uzmq.Tries
