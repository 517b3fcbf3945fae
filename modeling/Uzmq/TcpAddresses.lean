import Mathlib

/-!
# Accept filters

`tcp_address_mask_t` keeps an address and the number of its leading bits that a peer has to share.
The result of host resolution and `atoi` are given.
-/

namespace Uzmq.TcpAddresses

open List

section Model

inductive Errno where
  | einval
  | other (code : Nat)
  deriving DecidableEq

/-- `strrchr`: the text before and after the last occurrence of a character. -/
def splitLast (c : Char) : List Char → Option (List Char × List Char)
  | [] => none
  | x :: s =>
    match splitLast c s with
    | some (before, after) => some (x :: before, after)
    | none => if x = c then some ([], s) else none

inductive Family where
  | inet
  | inet6
  deriving DecidableEq

/-- The family of an address and the bytes of an IPv4 address, in network order. -/
structure SockAddr where
  family : Family
  bytes : List UInt8
  size : bytes.length = 4

/-- `tcp_address_mask_t`. -/
structure AddressMask where
  address : SockAddr
  addressMask : Int

variable (atoi : List Char → Int) (resolveHostname : List Char → Except Errno SockAddr)

/-- The number of a mask clause; without one all bits count. -/
def cidrMask (maskStr : Option (List Char)) (family : Family) : Except Errno Int :=
  match maskStr with
  | none => .ok 32
  | some maskStr =>
    if maskStr = ['0'] then .ok 0
    else if atoi maskStr < 1 ∨ (family ≠ .inet6 ∧ 32 < atoi maskStr) then .error .einval
    else .ok (atoi maskStr)

/-- The address and what stands after the last `/`. -/
def clauses (name : List Char) : List Char × Option (List Char) :=
  match splitLast '/' name with
  | none => (name, none)
  | some (addrStr, maskStr) => (addrStr, some maskStr)

/-- `tcp_address_mask_t::resolve`. -/
def resolve (name : List Char) : Except Errno AddressMask :=
  if (clauses name).2 = some [] then .error .einval
  else
    match resolveHostname (clauses name).1 with
    | .error e => .error e
    | .ok address =>
      match cidrMask atoi (clauses name).2 address.family with
      | .error e => .error e
      | .ok mask => .ok ⟨address, mask⟩

/-- `0xffU << (8 - mask % 8)`, cut to a byte. -/
def lastByteBits (mask : Nat) : UInt8 := (255 <<< (8 - mask % 8)).toUInt8

/-- `tcp_address_mask_t::match_address` for a peer address of the size of `sockaddr_in`; `none` is
the failed assertion on the mask. -/
def AddressMask.matchAddress (f : AddressMask) (ss : SockAddr) : Option Bool :=
  if f.addressMask = -1 then none
  else if ss.family ≠ f.address.family then some false
  else if 0 < f.addressMask then
    let mask := min 32 f.addressMask.toNat
    let fullBytes := mask / 8
    if f.address.bytes.take fullBytes ≠ ss.bytes.take fullBytes then some false
    else if lastByteBits mask ≠ 0 then
      some (ss.bytes[fullBytes]?.map (· &&& lastByteBits mask) =
        f.address.bytes[fullBytes]?.map (· &&& lastByteBits mask))
    else some true
  else some true

end Model

section Bits

/-- The bits of a byte, the most significant one first. -/
def byteBits (b : UInt8) : List Bool := (range 8).map b.toBitVec.getMsbD

def bits (bytes : List UInt8) : List Bool := bytes.flatMap byteBits

theorem getMsbD_lastByteBits :
    ∀ r < 8, ∀ i < 8, (lastByteBits r).toBitVec.getMsbD i = decide (i < r) := by
  decide

theorem byteBits_inj {x y : UInt8} : byteBits x = byteBits y ↔ x = y := by
  refine ⟨fun h => ?_, congrArg byteBits⟩
  rw [byteBits, byteBits, map_inj_left] at h
  refine UInt8.toBitVec_inj.mp (BitVec.eq_of_getMsbD_eq fun i hi => ?_)
  exact h i (mem_range.mpr hi)

theorem take_byteBits_iff {x y : UInt8} {r : Nat} (hr : r < 8) :
    (byteBits x).take r = (byteBits y).take r ↔ x &&& lastByteBits r = y &&& lastByteBits r := by
  rw [byteBits, byteBits, ← map_take, ← map_take, take_range, Nat.min_eq_left hr.le, map_inj_left,
    ← UInt8.toBitVec_inj, UInt8.toBitVec_and, UInt8.toBitVec_and]
  constructor
  · intro h
    refine BitVec.eq_of_getMsbD_eq fun i hi => ?_
    rw [BitVec.getMsbD_and, BitVec.getMsbD_and, getMsbD_lastByteBits r hr i hi]
    by_cases hlt : i < r
    · rw [h i (mem_range.mpr hlt)]
    · simp [hlt]
  · intro h i hi
    have hlt := mem_range.mp hi
    have hbit := congrArg (·.getMsbD i) h
    simpa [BitVec.getMsbD_and, getMsbD_lastByteBits r hr i (hlt.trans hr), hlt] using hbit

/-- The first bits agree if the whole bytes among them and the rest of the next byte do. -/
theorem take_bits_iff {xs ys : List UInt8} (hlength : xs.length = ys.length) (m : Nat) :
    (bits xs).take m = (bits ys).take m ↔ xs.take (m / 8) = ys.take (m / 8) ∧
      xs[m / 8]?.map (· &&& lastByteBits m) = ys[m / 8]?.map (· &&& lastByteBits m) := by
  induction xs generalizing ys m with
  | nil =>
    obtain rfl := length_eq_zero_iff.mp hlength.symm
    simp
  | cons x xs ih =>
    obtain ⟨y, ys, rfl⟩ := exists_cons_of_length_eq_add_one hlength.symm
    have hx : ∀ b, (byteBits b).length = 8 := fun _ => rfl
    simp only [bits, flatMap_cons]
    by_cases hm : m < 8
    · rw [take_append_of_le_length (by rw [hx]; exact hm.le),
        take_append_of_le_length (by rw [hx]; exact hm.le), take_byteBits_iff hm]
      simp [Nat.div_eq_of_lt hm]
    · obtain ⟨k, rfl⟩ := Nat.exists_eq_add_of_le' (Nat.not_lt.mp hm)
      have hlast : lastByteBits (k + 8) = lastByteBits k := by simp [lastByteBits]
      have hsplit : ∀ b l, (byteBits b ++ l).take (k + 8) = byteBits b ++ l.take k := fun b l => by
        rw [take_append, take_of_length_le (by rw [hx]; omega), hx, Nat.add_sub_cancel]
      rw [hsplit, hsplit, Nat.add_div_right k (by decide), hlast]
      simp only [take_succ_cons, cons.injEq, getElem?_cons_succ, and_assoc]
      rw [← ih (Nat.succ.inj hlength) k, ← byteBits_inj]
      exact ⟨fun h => append_inj h rfl, fun h => congrArg₂ _ h.1 h.2⟩

end Bits

section Results
variable {atoi : List Char → Int} {resolveHostname : List Char → Except Errno SockAddr}
  {name : List Char} {f f' : AddressMask} {ss : SockAddr}

theorem splitLast_eq_none {c : Char} {s : List Char} (h : c ∉ s) : splitLast c s = none := by
  induction s with
  | nil => rfl
  | cons x s ih =>
    obtain ⟨hx, hs⟩ := not_or.mp (mt mem_cons.mpr h)
    rw [splitLast, ih hs]
    exact if_neg (Ne.symm hx)

theorem cidrMask_le {maskStr : Option (List Char)} {mask : Int}
    (h : cidrMask atoi maskStr .inet = .ok mask) : 0 ≤ mask ∧ mask ≤ 32 := by
  unfold cidrMask at h
  split at h
  · cases h
    decide
  split at h
  · cases h
    decide
  split at h
  · cases h
  · rename_i hbad
    cases h
    simp only [ne_eq, reduceCtorEq, not_false_eq_true, true_and] at hbad
    omega

theorem resolve_mask (h : resolve atoi resolveHostname name = .ok f)
    (hinet : f.address.family = .inet) :
    (0 ≤ f.addressMask ∧ f.addressMask ≤ 32) ∧ ('/' ∉ name → f.addressMask = 32) := by
  unfold resolve at h
  split at h
  · cases h
  split at h
  · cases h
  split at h
  · cases h
  rename_i mask hmask
  cases h
  simp only at hinet
  rw [hinet] at hmask
  refine ⟨cidrMask_le hmask, fun hnone => ?_⟩
  rw [clauses, splitLast_eq_none hnone] at hmask
  exact (Except.ok.inj hmask).symm

theorem matchAddress_eq (hmask : 0 ≤ f.addressMask ∧ f.addressMask ≤ 32)
    (hfamily : ss.family = f.address.family) :
    f.matchAddress ss = some (decide ((bits f.address.bytes).take f.addressMask.toNat =
      (bits ss.bytes).take f.addressMask.toNat)) := by
  have hlength := f.address.size.trans ss.size.symm
  obtain ⟨m, hm⟩ := Int.eq_ofNat_of_zero_le hmask.1
  have hmin : min 32 m = m := by omega
  have hiff := take_bits_iff hlength m
  unfold AddressMask.matchAddress
  rw [if_neg (by omega), if_neg (not_not.mpr hfamily), hm, Int.toNat_natCast]
  dsimp only
  rw [hmin]
  by_cases hpos : (0 : Int) < m
  · rw [if_pos hpos]
    split
    · rename_i hbytes
      simp [hiff, hbytes]
    rename_i hbytes
    split
    · simp [hiff, not_not.mp hbytes, eq_comm]
    · rename_i hlast
      simp only [not_not.mp hlast] at hiff
      simp [hiff, not_not.mp hbytes, hlength, getElem?_def]
  · obtain rfl : m = 0 := by omega
    simp

/-- A filter accepts the peers that share the first bits of its address. -/
theorem filter_matches (h : resolve atoi resolveHostname name = .ok f)
    (hinet : f.address.family = .inet) :
    (0 ≤ f.addressMask ∧ f.addressMask ≤ 32) ∧ ('/' ∉ name → f.addressMask = 32) ∧
    (∀ ss : SockAddr, ss.family = .inet → f.matchAddress ss =
      some (decide ((bits f.address.bytes).take f.addressMask.toNat =
        (bits ss.bytes).take f.addressMask.toNat))) ∧
    ∀ name' f', resolve atoi resolveHostname name' = .ok f' → f'.address = f.address →
      f.addressMask ≤ f'.addressMask → ∀ ss : SockAddr, ss.family = .inet →
        f'.matchAddress ss = some true → f.matchAddress ss = some true := by
  obtain ⟨hmask, hnone⟩ := resolve_mask h hinet
  refine ⟨hmask, hnone, fun ss hss => matchAddress_eq hmask (hss.trans hinet.symm), ?_⟩
  intro name' f' h' haddress hle ss hss hmatch
  have hmask' := (resolve_mask h' (haddress ▸ hinet)).1
  rw [matchAddress_eq hmask' (haddress ▸ hss.trans hinet.symm), haddress] at hmatch
  rw [matchAddress_eq hmask (hss.trans hinet.symm)]
  have hbits := congrArg (take f.addressMask.toNat) (of_decide_eq_true (Option.some.inj hmatch))
  rw [take_take, take_take, Nat.min_eq_left (by omega)] at hbits
  exact congrArg some (decide_eq_true hbits)

end Results

/-- The filter `a/9`, with a host resolution that gives 10.128.0.1. -/
theorem filter_matches_nine : ∃ f : AddressMask, f.addressMask = 9 ∧
    f.matchAddress ⟨.inet, [10, 200, 3, 4], rfl⟩ = some true := by
  have hresolve : resolve (fun _ => 9) (fun _ => .ok ⟨.inet, [10, 128, 0, 1], rfl⟩) "a/9".toList =
      .ok ⟨⟨.inet, [10, 128, 0, 1], rfl⟩, 9⟩ := rfl
  exact ⟨_, rfl, ((filter_matches hresolve rfl).2.2.1 _ rfl).trans (by decide)⟩

end Uzmq.TcpAddresses
