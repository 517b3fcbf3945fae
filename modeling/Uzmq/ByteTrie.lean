import Uzmq.RangeTable

/-!
# Tries over bytes

A node has a label and a table of subnodes. The node of a key is found by following the bytes
of the key from the root. A subnode that has no label and no subnodes is redundant and is
removed, so that each subnode lies on the way to a label.

Insertion and removal change the label of one key and leave the others as they are.
-/

namespace Uzmq.ByteTrie

open Option List
open RangeTable hiding next

inductive Node (P : Type) where
  | mk (label : P) (table : RangeTable (Node P))

/-- What a new node is labelled with, which is the same as no label. -/
structure Labels (P : Type) where
  fresh : P
  blank : P → Bool
  blank_iff : ∀ p, blank p = true ↔ p = fresh

variable {c : UInt8}

namespace Node

variable {P R : Type}

def label : Node P → P
  | .mk p _ => p

def table : Node P → RangeTable (Node P)
  | .mk _ t => t

def new (L : Labels P) : Node P := .mk L.fresh {}

def isRedundant (L : Labels P) (n : Node P) : Bool :=
  L.blank n.label && n.table.liveNodes == 0

/-- Follow a key and change the label there, making the nodes that are missing. With `strict`
the number of subnodes is checked. No result stands for a failed assertion. -/
def insertAt (L : Labels P) (strict : Bool) (mark : P → P × R) :
    Node P → List UInt8 → Option (Node P × R)
  | n, [] => some (.mk (mark n.label).1 n.table, (mark n.label).2)
  | n, c :: rest =>
    match n.table.makeRoom c.toNat with
    | none => none
    | some t =>
      match t.slot c.toNat with
      | none => none
      | some none =>
        let t' : RangeTable (Node P) := { t with liveNodes := (t.liveNodes + 1) % 2 ^ 16 }
        if strict && !(if t'.count = 1 then t'.liveNodes == 1 else decide (1 < t'.liveNodes)) then
          none
        else
          match insertAt L strict mark (new L) rest with
          | none => none
          | some (m, r) => some (.mk n.label (t'.setSlot c.toNat (some m)), r)
      | some (some next) =>
        match insertAt L strict mark next rest with
        | none => none
        | some (m, r) => some (.mk n.label (t.setSlot c.toNat (some m)), r)

/-- Follow a key, change the label there and remove nodes that have become redundant. If there
is no node for the key the result is `missing`. -/
def removeAt (L : Labels P) (single : RangeTable (Node P) → Nat → Option Nat)
    (unmark : P → Option (P × R)) (missing : R) : Node P → List UInt8 → Option (Node P × R)
  | n, [] =>
    match unmark n.label with
    | none => none
    | some (p, r) => some (.mk p n.table, r)
  | n, c :: rest =>
    if n.table.count = 0 ∨ n.table.covers c.toNat = false then some (n, missing)
    else
      match n.table.slot c.toNat with
      | none => none
      | some none => some (n, missing)
      | some (some next) =>
        match removeAt L single unmark missing next rest with
        | none => none
        | some (m, r) =>
          if m.isRedundant L then
            match n.table.prune single c.toNat with
            | none => none
            | some t => some (.mk n.label t, r)
          else some (.mk n.label (n.table.setSlot c.toNat (some m)), r)

def follow : Node P → List UInt8 → Option (Node P)
  | n, [] => some n
  | n, c :: rest =>
    match n.table.find c.toNat with
    | none => none
    | some m => follow m rest

def get (L : Labels P) (n : Node P) (key : List UInt8) : P :=
  match n.follow key with
  | none => L.fresh
  | some m => m.label

inductive Sound (L : Labels P) : Node P → Prop where
  | mk {p : P} {t : RangeTable (Node P)} (compact : t.Compact)
      (sound : ∀ d m, t.find d = some m → Sound L m)
      (used : ∀ d m, t.find d = some m → m.isRedundant L = false) : Sound L (.mk p t)

section Basic
variable {L : Labels P} {n : Node P}

theorem eta (n : Node P) : n = .mk n.label n.table := by
  cases n
  rfl

theorem Sound.compact (h : Sound L n) : n.table.Compact := by
  cases h with
  | mk compact _ _ => exact compact

theorem Sound.child (h : Sound L n) {d : Nat} {m : Node P} (hm : n.table.find d = some m) :
    Sound L m ∧ m.isRedundant L = false := by
  cases h with
  | mk _ sound used => exact ⟨sound d m hm, used d m hm⟩

theorem new_sound (L : Labels P) : Sound L (new L) := by
  refine ⟨compact_empty, ?_, ?_⟩
  · intro d m hm
    cases hm
  · intro d m hm
    cases hm

@[simp] theorem get_nil : n.get L [] = n.label := rfl

theorem get_cons (c : UInt8) (rest : List UInt8) :
    n.get L (c :: rest) =
      match n.table.find c.toNat with
      | none => L.fresh
      | some m => m.get L rest := by
  simp only [get, follow]
  cases n.table.find c.toNat <;> rfl

theorem get_new (key : List UInt8) : (new L).get L key = L.fresh := by
  cases key with
  | nil => rfl
  | cons c rest =>
    rw [get_cons]
    simp [new, table, find_empty]

theorem Sound.relabel (h : Sound L n) (p : P) :
    Sound L (Node.mk p n.table) ∧
      ∀ k, (Node.mk p n.table).get L k = if k = [] then p else n.get L k := by
  cases h with
  | mk compact sound used =>
    refine ⟨⟨compact, sound, used⟩, ?_⟩
    intro k
    cases k with
    | nil => rfl
    | cons c rest =>
      rw [if_neg (by simp), get_cons, get_cons]
      rfl

theorem isRedundant_eq_false_of_label (h : L.blank n.label = false) : n.isRedundant L = false := by
  simp [isRedundant, h]

theorem isRedundant_eq_false_of_child (h : n.table.Compact) {d : Nat}
    (hd : (n.table.find d).isSome) : n.isRedundant L = false := by
  have hmem : d ∈ n.table.live := (mem_live h.range).mpr hd
  have hne : n.table.liveNodes ≠ 0 := by
    rw [h.liveNodes]
    exact Finset.card_ne_zero_of_mem hmem
  simp [isRedundant, hne]

end Basic

section Insert
variable {L : Labels P} {n : Node P} {t : RangeTable (Node P)}

section Entry
variable {o : Option (Node P)}

theorem sound_put {c : Nat} {p : P} (hn : Sound L n) (ht : t.Compact)
    (hfind : ∀ d, t.find d = if d = c then o else n.table.find d)
    (ho : ∀ m, o = some m → Sound L m ∧ m.isRedundant L = false) : Sound L (.mk p t) := by
  have hchild (d : Nat) (x : Node P) (hx : t.find d = some x) :
      Sound L x ∧ x.isRedundant L = false := by
    rw [hfind] at hx
    split at hx
    · exact ho x hx
    · exact hn.child hx
  exact ⟨ht, fun d x hx => (hchild d x hx).1, fun d x hx => (hchild d x hx).2⟩

theorem get_put {rest : List UInt8} {q : P}
    (ho : ∀ k, (match o with | none => L.fresh | some m => m.get L k) =
      if k = rest then q else n.get L (c :: k))
    (hfind : ∀ d, t.find d = if d = c.toNat then o else n.table.find d) (k : List UInt8) :
    (mk n.label t).get L k = if k = c :: rest then q else n.get L k := by
  cases k with
  | nil => simp [label]
  | cons d k =>
    rw [get_cons]
    change (match t.find d.toNat with | none => L.fresh | some m => m.get L k) = _
    rw [hfind]
    rcases eq_or_ne d c with rfl | hd
    · rw [if_pos rfl, ho]
      simp
    · have hne : d.toNat ≠ c.toNat := fun h => hd (UInt8.toNat_inj.mp h)
      rw [if_neg hne, if_neg (by simp [hd]), get_cons]

end Entry

structure Inserts (L : Labels P) (mark : P → P × R) (n : Node P) (key : List UInt8)
    (n' : Node P) : Prop where
  sound : Sound L n'
  used : n'.isRedundant L = false
  get : ∀ k, n'.get L k = if k = key then (mark (n.get L key)).1 else n.get L k

/-- A node that has got a key below it. -/
theorem Inserts.put {next m : Node P} {mark : P → P × R} {rest : List UInt8} (hn : Sound L n)
    (ht : t.Compact) (hfind : ∀ d, t.find d = if d = c.toNat then some m else n.table.find d)
    (hget : ∀ k, n.get L (c :: k) = next.get L k) (h : Inserts L mark next rest m) :
    Inserts L mark n (c :: rest) (.mk n.label t) := by
  constructor
  · refine sound_put hn ht hfind ?_
    rintro _ ⟨⟩
    exact ⟨h.sound, h.used⟩
  · refine isRedundant_eq_false_of_child ht (d := c.toNat) ?_
    change (t.find c.toNat).isSome
    rw [hfind, if_pos rfl]
    rfl
  · intro k
    rw [hget]
    refine get_put ?_ hfind k
    intro j
    rw [hget]
    exact h.get j

theorem strict_holds {c : Nat} (h : t.Loose c) (hnone : t.find c = none) :
    (if t.count = 1 then (t.liveNodes + 1) % 2 ^ 16 == 1
      else decide (1 < (t.liveNodes + 1) % 2 ^ 16)) = true := by
  by_cases hone : t.count = 1
  · simp [hone, h.liveNodes_eq_zero hone hnone]
  have hcovers := covers_iff.mp h.covers
  have hpos := h.liveNodes_pos (by omega)
  have hle := card_live_le t
  rw [← h.liveNodes] at hle
  rw [if_neg hone, decide_eq_true_eq]
  omega

/-- Insertion never fails, and only the label of the key changes. -/
theorem insertAt_spec (strict : Bool) (mark : P → P × R) (key : List UInt8) (hn : Sound L n)
    (hmark : L.blank (mark (n.get L key)).1 = false) :
    ∃ n', n.insertAt L strict mark key = some (n', (mark (n.get L key)).2) ∧
      Inserts L mark n key n' := by
  induction key generalizing n with
  | nil =>
    obtain ⟨hsound, hget⟩ := hn.relabel (mark n.label).1
    exact ⟨_, rfl, hsound, isRedundant_eq_false_of_label hmark, hget⟩
  | cons c rest ih =>
    obtain ⟨t, ht, hloose, hsame⟩ := makeRoom_loose hn.compact c.toNat_lt
    obtain ⟨p, hp⟩ := hloose.toShaped.slot_isSome hloose.covers
    have hfound := find_of_slot hloose.covers hp
    cases p with
    | none =>
      have hget (k : List UInt8) : n.get L (c :: k) = (new L).get L k := by
        rw [get_cons, ← hsame, hfound, get_new]
      rw [hget] at hmark ⊢
      obtain ⟨m, hm, hinserts⟩ := ih (new_sound L) hmark
      let t' : RangeTable (Node P) := { t with liveNodes := (t.liveNodes + 1) % 2 ^ 16 }
      have hfind (d : Nat) : (t'.setSlot c.toNat (some m)).find d =
          if d = c.toNat then some m else n.table.find d := by
        rw [RangeTable.Shaped.find_setSlot (t := t') { hloose with }
          hloose.covers, find_liveNodes, hsame]
      refine ⟨.mk n.label (t'.setSlot c.toNat (some m)), ?_,
        .put hn (hloose.put hfound m) hfind hget hinserts⟩
      simp only [insertAt, ht, hp]
      rw [strict_holds hloose hfound]
      simp [hm, t']
    | some next =>
      have hnext : n.table.find c.toNat = some next := by rw [← hsame, hfound]
      have hget (k : List UInt8) : n.get L (c :: k) = next.get L k := by
        rw [get_cons, hnext]
      rw [hget] at hmark ⊢
      obtain ⟨m, hm, hinserts⟩ := ih (hn.child hnext).1 hmark
      have hsome : (t.find c.toNat).isSome := by simp [hfound]
      have hfind (d : Nat) : (t.setSlot c.toNat (some m)).find d =
          if d = c.toNat then some m else n.table.find d := by
        rw [hloose.toShaped.find_setSlot hloose.covers, hsame]
      refine ⟨.mk n.label (t.setSlot c.toNat (some m)), ?_,
        .put hn ((hloose.compact hsome).replace hsome m) hfind hget hinserts⟩
      simp [insertAt, ht, hp, hm]

end Insert

section Remove
variable {L : Labels P} {n : Node P} {single : RangeTable (Node P) → Nat → Option Nat}
  {unmark : P → Option (P × R)} {missing : R}

/-- A node that is not redundant is on the way to a label. -/
theorem Sound.exists_label (h : Sound L n) (hused : n.isRedundant L = false) :
    ∃ key, n.get L key ≠ L.fresh := by
  induction h with
  | @mk p t compact sound used ih =>
    by_cases hp : L.blank p = true
    · have hlive : t.live.Nonempty := by
        rw [← Finset.card_pos, ← compact.liveNodes, Nat.pos_iff_ne_zero]
        intro hzero
        simp [isRedundant, label, table, hp, hzero] at hused
      obtain ⟨d, hd⟩ := hlive
      have hlt : d < 2 ^ 8 := Finset.mem_range.mp (Finset.mem_of_mem_filter d hd)
      obtain ⟨m, hm⟩ := isSome_iff_exists.mp ((mem_live compact.range).mp hd)
      obtain ⟨key, hkey⟩ := ih d m hm (used d m hm)
      refine ⟨UInt8.ofNat d :: key, ?_⟩
      have hofNat : (UInt8.ofNat d).toNat = d := UInt8.toNat_ofNat_of_lt' hlt
      rw [get_cons, hofNat]
      change (match t.find d with | none => L.fresh | some m => m.get L key) ≠ L.fresh
      rw [hm]
      exact hkey
    · exact ⟨[], fun heq => hp ((L.blank_iff p).mpr heq)⟩

theorem Sound.get_redundant (h : Sound L n) (hredundant : n.isRedundant L = true)
    (key : List UInt8) : n.get L key = L.fresh := by
  simp only [isRedundant, Bool.and_eq_true, beq_iff_eq] at hredundant
  cases key with
  | nil => exact (L.blank_iff n.label).mp hredundant.1
  | cons c rest =>
    have hnone : n.table.find c.toNat = none := by
      by_contra hne
      have hmem := (mem_live h.compact.range).mpr (isSome_iff_ne_none.mpr hne)
      have hcard := h.compact.liveNodes
      rw [hredundant.2] at hcard
      exact Finset.card_ne_zero_of_mem hmem hcard.symm
    rw [get_cons, hnone]

theorem get_append (key more : List UInt8) :
    n.get L (key ++ more) =
      match n.follow key with
      | none => L.fresh
      | some m => m.get L more := by
  induction key generalizing n with
  | nil => rfl
  | cons c rest ih =>
    rw [cons_append, get_cons, follow]
    cases n.table.find c.toNat with
    | none => rfl
    | some m => exact ih

/-- There is a node for a key if and only if the key can be continued to one with a label. -/
theorem Sound.follow_isSome_iff (h : Sound L n) (c : UInt8) (rest : List UInt8) :
    (n.follow (c :: rest)).isSome ↔ ∃ more, n.get L (c :: rest ++ more) ≠ L.fresh := by
  constructor
  · intro hsome
    obtain ⟨m, hm⟩ := isSome_iff_exists.mp hsome
    have hchild : Sound L m ∧ m.isRedundant L = false := by
      clear hsome
      induction rest generalizing n c with
      | nil =>
        rw [follow] at hm
        cases hc : n.table.find c.toNat with
        | none => simp [hc] at hm
        | some x =>
          rw [hc] at hm
          cases hm
          exact h.child hc
      | cons c' rest ih =>
        rw [follow] at hm
        cases hc : n.table.find c.toNat with
        | none => simp [hc] at hm
        | some x =>
          rw [hc] at hm
          exact ih (h.child hc).1 c' hm
    obtain ⟨more, hmore⟩ := hchild.1.exists_label hchild.2
    refine ⟨more, ?_⟩
    rw [get_append, hm]
    exact hmore
  · rintro ⟨more, hmore⟩
    rw [get_append] at hmore
    cases hm : n.follow (c :: rest) with
    | none => simp [hm] at hmore
    | some m => rfl

theorem Sound.removeAt_missing {rest : List UInt8} (hn : Sound L n)
    (hc : n.table.find c.toNat = none) :
    n.removeAt L single unmark missing (c :: rest) = some (n, missing) := by
  unfold removeAt
  by_cases hrange : n.table.count = 0 ∨ n.table.covers c.toNat = false
  · rw [if_pos hrange]
  have hcovers : n.table.covers c.toNat = true := by
    by_contra h
    exact hrange (.inr (by simpa using h))
  obtain ⟨p, hp⟩ := hn.compact.toShaped.slot_isSome hcovers
  obtain rfl : p = none := by rw [← find_of_slot hcovers hp, hc]
  rw [if_neg hrange, hp]

theorem Sound.removeAt_next {rest : List UInt8} {next : Node P} (hn : Sound L n)
    (hc : n.table.find c.toNat = some next) :
    n.removeAt L single unmark missing (c :: rest) =
      match next.removeAt L single unmark missing rest with
      | none => none
      | some (m, r) =>
        if m.isRedundant L then
          match n.table.prune single c.toNat with
          | none => none
          | some t => some (.mk n.label t, r)
        else some (.mk n.label (n.table.setSlot c.toNat (some m)), r) := by
  obtain ⟨hcovers, hslot⟩ := hn.compact.toShaped.slot_of_find hc
  have hrange := covers_iff.mp hcovers
  rw [removeAt, if_neg (by simp only [hcovers, Bool.true_eq_false, or_false]; omega), hslot]

/-- Nothing changes if there is no node for the key or its label stays as it is. -/
theorem removeAt_unchanged (key : List UInt8) (hn : Sound L n)
    (hkey : ∀ m, n.follow key = some m → unmark m.label = some (m.label, missing)) :
    n.removeAt L single unmark missing key = some (n, missing) := by
  induction key generalizing n with
  | nil =>
    simp only [removeAt, hkey n rfl]
    rw [← eta n]
  | cons c rest ih =>
    cases hc : n.table.find c.toNat with
    | none => exact hn.removeAt_missing hc
    | some m =>
      have hm := hn.child hc
      have hrest (x : Node P) (hx : m.follow rest = some x) :
          unmark x.label = some (x.label, missing) := by
        refine hkey x ?_
        rw [follow, hc]
        exact hx
      have hslot := (hn.compact.toShaped.slot_of_find hc).2
      rw [hn.removeAt_next hc, ih hm.1 hrest]
      simp only [hm.2, Bool.false_eq_true, if_false, setSlot_self hslot]
      rw [← eta n]

/-- The assertion at the node of the key fails. -/
theorem removeAt_fails (key : List UInt8) {m : Node P} (hn : Sound L n)
    (hkey : n.follow key = some m) (hmark : unmark m.label = none) :
    n.removeAt L single unmark missing key = none := by
  induction key generalizing n with
  | nil =>
    obtain rfl : n = m := some.inj hkey
    simp [removeAt, hmark]
  | cons c rest ih =>
    rw [follow] at hkey
    cases hc : n.table.find c.toNat with
    | none => simp [hc] at hkey
    | some next =>
      rw [hc] at hkey
      rw [hn.removeAt_next hc, ih (hn.child hc).1 hkey]

structure Removes (L : Labels P) (n : Node P) (key : List UInt8) (p : P) (n' : Node P) : Prop where
  sound : Sound L n'
  get : ∀ k, n'.get L k = if k = key then p else n.get L k

theorem removeAt_spec (hsingle : RangeTable.Finds single) (unmark : P → Option (P × R))
    (missing : R) (key : List UInt8) {m : Node P} {p : P} {r : R}
    (hn : Sound L n) (hkey : n.follow key = some m) (hmark : unmark m.label = some (p, r)) :
    ∃ n', n.removeAt L single unmark missing key = some (n', r) ∧ Removes L n key p n' := by
  induction key generalizing n with
  | nil =>
    obtain rfl : n = m := some.inj hkey
    obtain ⟨hsound, hget⟩ := hn.relabel p
    exact ⟨.mk p n.table, by simp [removeAt, hmark], hsound, hget⟩
  | cons c rest ih =>
    rw [follow] at hkey
    cases hc : n.table.find c.toNat with
    | none => simp [hc] at hkey
    | some next =>
      rw [hc] at hkey
      have hsome : (n.table.find c.toNat).isSome := by simp [hc]
      obtain ⟨m', hm', hremoves⟩ := ih (hn.child hc).1 hkey
      have hget (k : List UInt8) : m'.get L k = if k = rest then p else n.get L (c :: k) := by
        rw [hremoves.get, get_cons, hc]
      rw [hn.removeAt_next hc, hm']
      dsimp only
      by_cases hredundant : m'.isRedundant L = true
      · obtain ⟨t, ht, hcompact, hfind⟩ := prune_compact hsingle hn.compact hsome
        rw [if_pos hredundant, ht]
        refine ⟨_, rfl, sound_put hn hcompact hfind nofun, get_put ?_ hfind⟩
        -- The labels below a redundant node are all blank.
        intro k
        rw [← hget, hremoves.sound.get_redundant hredundant]
      · rw [if_neg hredundant]
        have hfind := hn.compact.toShaped.find_setSlot (p := some m') (covers_of_find hsome)
        refine ⟨_, rfl, sound_put hn (hn.compact.replace hsome m') hfind ?_,
          get_put (o := some m') hget hfind⟩
        rintro _ ⟨⟩
        exact ⟨hremoves.sound, by simpa using hredundant⟩

end Remove

end Node

/-- A walk through a trie from the node of `buff` lists the keys with a property, each once. -/
structure Lists (S : List UInt8 → Prop) (buff : List UInt8) (calls : List (List UInt8)) : Prop where
  nodup : calls.Nodup
  mem : ∀ x, x ∈ calls ↔ ∃ key, S key ∧ x = buff ++ key

namespace Lists

variable {S S' : List UInt8 → Prop} {buff : List UInt8} {calls calls' : List (List UInt8)}

theorem congr (h : Lists S buff calls) (hiff : ∀ k, S' k ↔ S k) : Lists S' buff calls := by
  constructor
  · exact h.nodup
  · intro x
    simp only [h.mem, hiff]

theorem nil (h : ∀ k, ¬ S k) : Lists S buff [] := by
  constructor
  · exact nodup_nil
  · intro x
    simp [h]

theorem byte (h : Lists S (buff ++ [c]) calls) :
    Lists (fun k => ∃ rest, k = c :: rest ∧ S rest) buff calls := by
  constructor
  · exact h.nodup
  intro x
  rw [h.mem]
  constructor
  · rintro ⟨rest, hrest, rfl⟩
    exact ⟨c :: rest, ⟨rest, rfl, hrest⟩, by simp⟩
  · rintro ⟨_, ⟨rest, rfl, hrest⟩, rfl⟩
    exact ⟨rest, hrest, by simp⟩

theorem append (h : Lists S buff calls) (h' : Lists S' buff calls') (hdisj : ∀ k, S k → ¬ S' k) :
    Lists (fun k => S k ∨ S' k) buff (calls ++ calls') := by
  constructor
  · rw [nodup_append']
    refine ⟨h.nodup, h'.nodup, ?_⟩
    intro x hx hx'
    obtain ⟨k, hk, rfl⟩ := (h.mem x).mp hx
    obtain ⟨k', hk', heq⟩ := (h'.mem _).mp hx'
    obtain rfl : k = k' := append_cancel_left heq
    exact hdisj k hk hk'
  · intro x
    rw [mem_append, h.mem, h'.mem]
    constructor
    · rintro (⟨k, hk, rfl⟩ | ⟨k, hk, rfl⟩)
      · exact ⟨k, .inl hk, rfl⟩
      · exact ⟨k, .inr hk, rfl⟩
    · rintro ⟨k, hk | hk, rfl⟩
      · exact .inl ⟨k, hk, rfl⟩
      · exact .inr ⟨k, hk, rfl⟩

theorem own (h : Lists (fun k => k ≠ [] ∧ S k) buff calls) {b : Bool} (hb : b = true ↔ S []) :
    Lists S buff (if b = true then buff :: calls else calls) := by
  cases b with
  | false =>
    refine h.congr ?_
    intro k
    constructor
    · intro hk
      refine ⟨?_, hk⟩
      rintro rfl
      exact absurd (hb.mpr hk) (by simp)
    · exact fun hk => hk.2
  | true =>
    constructor
    · rw [if_pos rfl, nodup_cons, h.mem]
      refine ⟨?_, h.nodup⟩
      rintro ⟨k, ⟨hne, -⟩, heq⟩
      exact hne (self_eq_append_right.mp heq)
    · intro x
      rw [if_pos rfl, mem_cons, h.mem]
      constructor
      · rintro (rfl | ⟨k, hk, rfl⟩)
        · exact ⟨[], hb.mp rfl, by simp⟩
        · exact ⟨k, hk.2, rfl⟩
      rintro ⟨k, hk, rfl⟩
      by_cases hnil : k = []
      · left
        simp [hnil]
      · exact .inr ⟨k, ⟨hnil, hk⟩, rfl⟩

end Lists

/-- The keys below the entries of an array, the first of which is for byte `c`. -/
def Below {P : Type} (S : Node P → List UInt8 → Prop) (c : Nat) (l : List (Option (Node P)))
    (key : List UInt8) : Prop :=
  ∃ i m rest, l[i]? = some (some m) ∧ key = UInt8.ofNat (c + i) :: rest ∧ S m rest

section Below
variable {P : Type} {S : Node P → List UInt8 → Prop} {c : Nat} {l : List (Option (Node P))}
  {key : List UInt8}

theorem not_below_nil : ¬ Below S c [] key := by
  rintro ⟨i, m, rest, hi, -⟩
  simp at hi

theorem below_cons {p : Option (Node P)} :
    Below S c (p :: l) key ↔
      (∃ rest, key = UInt8.ofNat c :: rest ∧ ∃ m, p = some m ∧ S m rest) ∨
        Below S (c + 1) l key := by
  constructor
  · rintro ⟨i, m, rest, hi, rfl, hS⟩
    cases i with
    | zero => exact .inl ⟨rest, rfl, m, by simpa using hi, hS⟩
    | succ i =>
      right
      refine ⟨i, m, rest, by simpa using hi, ?_, hS⟩
      rw [show c + (i + 1) = c + 1 + i by omega]
  · rintro (⟨rest, rfl, m, rfl, hS⟩ | ⟨i, m, rest, hi, rfl, hS⟩)
    · exact ⟨0, m, rest, rfl, rfl, hS⟩
    · refine ⟨i + 1, m, rest, by simpa using hi, ?_, hS⟩
      rw [show c + (i + 1) = c + 1 + i by omega]

theorem below_ne {rest : List UInt8} (hrange : c + 1 + l.length ≤ 2 ^ 8) :
    ¬ Below S (c + 1) l (UInt8.ofNat c :: rest) := by
  rintro ⟨i, m, rest', hi, heq, -⟩
  have hlt : i < l.length := (List.getElem?_eq_some_iff.mp hi).1
  have hbyte := congrArg UInt8.toNat (List.cons.inj heq).1
  rw [UInt8.toNat_ofNat_of_lt' (show c < 2 ^ 8 by omega),
    UInt8.toNat_ofNat_of_lt' (show c + 1 + i < 2 ^ 8 by omega)] at hbyte
  omega

/-- The keys below a table. -/
def Under (S : Node P → List UInt8 → Prop) (t : RangeTable (Node P)) (key : List UInt8) : Prop :=
  ∃ c m rest, t.find (UInt8.toNat c) = some m ∧ key = c :: rest ∧ S m rest

theorem under_table {t : RangeTable (Node P)} (hcount : t.count ≠ 1) (hnext : t.next = .table l)
    (hlength : l.length = t.count) (hrange : t.min + t.count ≤ 2 ^ 8) :
    Under S t key ↔ Below S t.min l key := by
  constructor
  · rintro ⟨c, m, rest, hfind, rfl, hS⟩
    rw [find_table hcount hnext hlength] at hfind
    split at hfind
    · refine ⟨c.toNat - t.min, m, rest, join_eq_some_iff.mp hfind, ?_, hS⟩
      rw [show t.min + (c.toNat - t.min) = c.toNat by omega, UInt8.ofNat_toNat]
    · cases hfind
  · rintro ⟨i, m, rest, hi, rfl, hS⟩
    have hlt : i < l.length := (List.getElem?_eq_some_iff.mp hi).1
    refine ⟨_, m, rest, ?_, rfl, hS⟩
    rw [UInt8.toNat_ofNat_of_lt' (show t.min + i < 2 ^ 8 by omega),
      find_table hcount hnext hlength, if_pos (by omega), Nat.add_sub_cancel_left, hi]
    rfl

theorem under_node {t : RangeTable (Node P)} {p : Option (Node P)} (hcount : t.count = 1)
    (hnext : t.next = .node p) (hrange : t.min + t.count ≤ 2 ^ 8) :
    Under S t key ↔ ∃ rest, key = UInt8.ofNat t.min :: rest ∧ ∃ m, p = some m ∧ S m rest := by
  constructor
  · rintro ⟨c, m, rest, hfind, rfl, hS⟩
    rw [find_node hcount hnext] at hfind
    split at hfind
    · rename_i heq
      exact ⟨rest, by rw [← heq, UInt8.ofNat_toNat], m, hfind, hS⟩
    · cases hfind
  · rintro ⟨rest, rfl, m, rfl, hS⟩
    refine ⟨_, m, rest, ?_, rfl, hS⟩
    rw [UInt8.toNat_ofNat_of_lt' (show t.min < 2 ^ 8 by omega), find_node hcount hnext, if_pos rfl]

theorem not_under_empty {t : RangeTable (Node P)} (hcount : t.count = 0) : ¬ Under S t key := by
  rintro ⟨c, m, rest, hfind, -⟩
  have hsome : (t.find c.toNat).isSome := by simp [hfind]
  have := covers_iff.mp (covers_of_find hsome)
  omega

theorem under_get {L : Labels P} {n : Node P} {p : P → Prop} (hp : ¬ p L.fresh) :
    Under (fun m k => p (m.get L k)) n.table key ↔ key ≠ [] ∧ p (n.get L key) := by
  constructor
  · rintro ⟨c, m, rest, hfind, rfl, hS⟩
    refine ⟨by simp, ?_⟩
    rwa [Node.get_cons, hfind]
  rintro ⟨hne, hS⟩
  cases key with
  | nil => exact absurd rfl hne
  | cons c rest =>
    rw [Node.get_cons] at hS
    cases hfind : n.table.find c.toNat with
    | none =>
      rw [hfind] at hS
      exact absurd hS hp
    | some m =>
      rw [hfind] at hS
      exact ⟨c, m, rest, hfind, rfl, hS⟩

end Below

end Uzmq.ByteTrie
