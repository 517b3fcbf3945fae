import Mathlib

/-!
# The Z85 codec

`zmq_z85_encode` and `zmq_z85_decode`. A string is the list of the bytes before its terminator.
Lengths are below `2 ^ 31`, so that the counters of the code do not wrap.
-/

namespace Uzmq.Z85

open List

/-- Maps base 256 to base 85. -/
def encoder : List UInt8 :=
  ("0123456789" ++ "abcdefghij" ++ "klmnopqrst" ++ "uvwxyzABCD" ++ "EFGHIJKLMN" ++ "OPQRSTUVWX" ++
    "YZ.-:+=^!/" ++ "*?&<>()[]\x7b" ++ "\x7d@%$#").toList.map fun c => UInt8.ofNat c.toNat

/-- Maps base 85 to base 256. -/
def decoder : List UInt8 := [
  0xFF, 0x44, 0xFF, 0x54, 0x53, 0x52, 0x48, 0xFF, 0x4B, 0x4C, 0x46, 0x41, 0xFF, 0x3F, 0x3E, 0x45,
  0x00, 0x01, 0x02, 0x03, 0x04, 0x05, 0x06, 0x07, 0x08, 0x09, 0x40, 0xFF, 0x49, 0x42, 0x4A, 0x47,
  0x51, 0x24, 0x25, 0x26, 0x27, 0x28, 0x29, 0x2A, 0x2B, 0x2C, 0x2D, 0x2E, 0x2F, 0x30, 0x31, 0x32,
  0x33, 0x34, 0x35, 0x36, 0x37, 0x38, 0x39, 0x3A, 0x3B, 0x3C, 0x3D, 0x4D, 0xFF, 0x4E, 0x43, 0xFF,
  0xFF, 0x0A, 0x0B, 0x0C, 0x0D, 0x0E, 0x0F, 0x10, 0x11, 0x12, 0x13, 0x14, 0x15, 0x16, 0x17, 0x18,
  0x19, 0x1A, 0x1B, 0x1C, 0x1D, 0x1E, 0x1F, 0x20, 0x21, 0x22, 0x23, 0x4F, 0xFF, 0x50, 0xFF, 0xFF]

/-- Output a value in base 85. -/
def base85 (value : Nat) : List UInt8 :=
  [85 ^ 4, 85 ^ 3, 85 ^ 2, 85, 1].map fun divisor => encoder.getD (value / divisor % 85) 0

/-- Output a value in base 256. -/
def base256 (value : Nat) : List UInt8 :=
  [256 ^ 3, 256 ^ 2, 256, 1].map fun divisor => UInt8.ofNat (value / divisor % 256)

def encodeLoop : List UInt8 → Nat → Nat → List UInt8
  | [], _, _ => []
  | b :: data, byteNbr, value =>
    let value := (value * 256 + b.toNat) % 2 ^ 32
    if (byteNbr + 1) % 4 = 0 then base85 value ++ encodeLoop data (byteNbr + 1) 0
    else encodeLoop data (byteNbr + 1) value

/-- No result stands for `EINVAL`. -/
def encode (data : List UInt8) : Option (List UInt8) :=
  if data.length % 4 ≠ 0 then none else some (encodeLoop data 0 0)

/-- Add a character to a value, unless it is invalid or the value gets too large. -/
def accumulate (value : Nat) (c : UInt8) : Option Nat :=
  if (2 ^ 32 - 1) / 85 < value then none
  else
    match decoder[(c - 32).toNat]? with
    | none => none
    | some summand =>
      if summand = 0xFF ∨ 2 ^ 32 - 1 - value * 85 < summand.toNat then none
      else some (value * 85 + summand.toNat)

def decodeLoop : List UInt8 → Nat → Nat → Option (List UInt8)
  | [], charNbr, _ => if charNbr % 5 = 0 then some [] else none
  | c :: string, charNbr, value =>
    match accumulate value c with
    | none => none
    | some value =>
      if (charNbr + 1) % 5 = 0 then
        (decodeLoop string (charNbr + 1) 0).map (base256 value ++ ·)
      else decodeLoop string (charNbr + 1) value

def decode (string : List UInt8) : Option (List UInt8) := decodeLoop string 0 0

section Tables
variable {c : UInt8} {d value v : Nat}

theorem encoder_of_decoder {d : UInt8} (h : decoder[(c - 32).toNat]? = some d) (hd : d ≠ 0xFF) :
    encoder[d.toNat]? = some c := by
  have hall : (range 256).all fun n => (decoder[(UInt8.ofNat n - 32).toNat]?).all fun d =>
      d == 0xFF || encoder[d.toNat]? == some (UInt8.ofNat n) := by decide +kernel
  have hat := all_eq_true.mp hall c.toNat (mem_range.mpr c.toNat_lt)
  rw [UInt8.ofNat_toNat, h] at hat
  simpa [hd] using hat

theorem decoder_of_encoder (h : encoder[d]? = some c) :
    decoder[(c - 32).toNat]? = some (UInt8.ofNat d) := by
  have hall : encoder.zipIdx.all fun p =>
      decoder[(p.1 - 32).toNat]? == some (UInt8.ofNat p.2) := by decide +kernel
  exact eq_of_beq (all_eq_true.mp hall (c, d) (mem_zipIdx_iff_getElem?.mpr h))

/-- The decoder undoes a digit, and nothing else. -/
theorem accumulate_eq_some : accumulate value c = some v ↔
    ∃ d, encoder[d]? = some c ∧ d < 85 ∧ v = value * 85 + d ∧ v < 2 ^ 32 := by
  unfold accumulate
  constructor
  · intro h
    split at h
    · cases h
    split at h
    · cases h
    rename_i summand hsummand
    split at h
    · cases h
    rename_i hnot
    rw [not_or] at hnot
    cases h
    have hencoder := encoder_of_decoder hsummand hnot.1
    exact ⟨_, hencoder, (List.getElem?_eq_some_iff.mp hencoder).1, rfl, by omega⟩
  · rintro ⟨d, hc, hd, rfl, hlt⟩
    have hne : UInt8.ofNat d ≠ 0xFF := by
      intro heq
      have := congrArg UInt8.toNat heq
      simp at this
      omega
    have hnat : (UInt8.ofNat d).toNat = d := by simp; omega
    rw [if_neg (by omega), decoder_of_encoder hc]
    dsimp only
    rw [if_neg (not_or.mpr ⟨hne, by omega⟩), hnat]

end Tables

section Groups
variable {c c₁ c₂ c₃ c₄ c₅ : UInt8} {v n value : Nat} {string data rest : List UInt8}

theorem getD_encoder {d : Nat} (hd : d < 85) : encoder.getD d 0 = c ↔ encoder[d]? = some c := by
  have hsome : d < encoder.length := hd
  rw [getD_eq_getElem?_getD, List.getElem?_eq_getElem hsome]
  simp

/-- Five characters are those of the value they add up to. -/
theorem foldlM_accumulate : [c₁, c₂, c₃, c₄, c₅].foldlM accumulate 0 = some v ↔
    v < 2 ^ 32 ∧ base85 v = [c₁, c₂, c₃, c₄, c₅] := by
  have hlt (m : Nat) : m % 85 < 85 := Nat.mod_lt _ (by decide)
  simp only [foldlM_cons, foldlM_nil, Option.bind_eq_bind, Option.pure_def,
    Option.bind_eq_some_iff, accumulate_eq_some, base85, map_cons, map_nil, cons.injEq,
    getD_encoder (hlt _), and_true]
  constructor
  · rintro ⟨_, ⟨d₁, h₁, hd₁, rfl, -⟩, _, ⟨d₂, h₂, hd₂, rfl, -⟩, _, ⟨d₃, h₃, hd₃, rfl, -⟩, _,
      ⟨d₄, h₄, hd₄, rfl, -⟩, _, ⟨d₅, h₅, hd₅, rfl, hv⟩, ⟨⟩⟩
    generalize hsum : _ * 85 + d₅ = v at hv ⊢
    obtain ⟨hq₁, hq₂, hq₃, hq₄, hq₅⟩ : v / 85 ^ 4 % 85 = d₁ ∧ v / 85 ^ 3 % 85 = d₂ ∧
        v / 85 ^ 2 % 85 = d₃ ∧ v / 85 % 85 = d₄ ∧ v / 1 % 85 = d₅ := by omega
    rw [hq₁, hq₂, hq₃, hq₄, hq₅]
    exact ⟨hv, h₁, h₂, h₃, h₄, h₅⟩
  · rintro ⟨hv, h₁, h₂, h₃, h₄, h₅⟩
    exact ⟨_, ⟨_, h₁, hlt _, rfl, by omega⟩, _, ⟨_, h₂, hlt _, rfl, by omega⟩, _,
      ⟨_, h₃, hlt _, rfl, by omega⟩, _, ⟨_, h₄, hlt _, rfl, by omega⟩, _,
      ⟨_, h₅, hlt _, rfl, by omega⟩, by congr 1; omega⟩

theorem decodeLoop_cons : decodeLoop (c :: string) n value = (accumulate value c).bind fun v =>
    if (n + 1) % 5 = 0 then (decodeLoop string (n + 1) 0).map (base256 v ++ ·)
    else decodeLoop string (n + 1) v := by
  rw [decodeLoop]
  cases accumulate value c with
  | none | some => rfl

theorem decodeLoop_group (hn : n % 5 = 0) :
    decodeLoop (c₁ :: c₂ :: c₃ :: c₄ :: c₅ :: rest) n 0 =
      ([c₁, c₂, c₃, c₄, c₅].foldlM accumulate 0).bind fun v =>
        (decodeLoop rest (n + 5) 0).map (base256 v ++ ·) := by
  simp (disch := omega) only [foldlM_cons, foldlM_nil, Option.bind_eq_bind, Option.bind_assoc,
    Option.pure_def, Option.bind_some, decodeLoop_cons, if_neg, if_pos]

theorem decodeLoop_base85 (hv : v < 2 ^ 32) (hn : n % 5 = 0) :
    decodeLoop (base85 v ++ rest) n 0 = (decodeLoop rest (n + 5) 0).map (base256 v ++ ·) :=
  (decodeLoop_group hn).trans (by rw [foldlM_accumulate.mpr ⟨hv, rfl⟩]; rfl)

theorem length_of_decodeLoop (h : decodeLoop string n value = some data) :
    (n + string.length) % 5 = 0 := by
  induction string generalizing n value data with
  | nil => exact (Option.ite_none_right_eq_some.mp h).1
  | cons c string ih =>
    rw [decodeLoop_cons] at h
    obtain ⟨v, -, h⟩ := Option.bind_eq_some_iff.mp h
    rw [length_cons, Nat.add_comm string.length, ← Nat.add_assoc]
    split at h
    · obtain ⟨data', h, -⟩ := Option.map_eq_some_iff.mp h
      exact ih h
    · exact ih h

theorem exists_base256 (b₁ b₂ b₃ b₄ : UInt8) : ∃ v < 2 ^ 32, base256 v = [b₁, b₂, b₃, b₄] := by
  have h₁ := b₁.toNat_lt
  have h₂ := b₂.toNat_lt
  have h₃ := b₃.toNat_lt
  have h₄ := b₄.toNat_lt
  refine ⟨b₁.toNat * 256 ^ 3 + b₂.toNat * 256 ^ 2 + b₃.toNat * 256 + b₄.toNat, by omega, ?_⟩
  have hbyte {m : Nat} {b : UInt8} (h : m = b.toNat) : UInt8.ofNat m = b := by
    rw [h, UInt8.ofNat_toNat]
  simp only [base256, map_cons, map_nil, cons.injEq, and_true]
  refine ⟨hbyte ?_, hbyte ?_, hbyte ?_, hbyte ?_⟩ <;> omega

theorem encodeLoop_group (hv : v < 2 ^ 32) (hn : n % 4 = 0) :
    encodeLoop (base256 v ++ data) n 0 = base85 v ++ encodeLoop data (n + 4) 0 := by
  have hbyte (m : Nat) : (UInt8.ofNat (m % 256)).toNat = m % 256 := by simp
  simp only [base256, map_cons, map_nil, cons_append, nil_append, encodeLoop, hbyte]
  rw [if_neg (by omega), if_neg (by omega), if_neg (by omega), if_pos (by omega)]
  congr 2
  omega

end Groups

theorem decodeLoop_encodeLoop : ∀ (data : List UInt8) (n m : Nat), data.length % 4 = 0 →
    n % 4 = 0 → m % 5 = 0 → decodeLoop (encodeLoop data n 0) m 0 = some data
  | [], _, _, _, _, hm => if_pos hm
  | b₁ :: b₂ :: b₃ :: b₄ :: data, n, m, h, hn, hm => by
    obtain ⟨v, hv, hbytes⟩ := exists_base256 b₁ b₂ b₃ b₄
    have hsplit : b₁ :: b₂ :: b₃ :: b₄ :: data = base256 v ++ data := by rw [hbytes]; rfl
    simp only [length_cons] at h
    have hrest := decodeLoop_encodeLoop data (n + 4) (m + 5) (by omega) (by omega) (by omega)
    rw [hsplit, encodeLoop_group hv hn, decodeLoop_base85 hv hm, hrest, Option.map_some]
  | [_], _, _, h, _, _ | [_, _], _, _, h, _, _ | [_, _, _], _, _, h, _, _ => by simp at h

theorem encodeLoop_decodeLoop : ∀ (string data : List UInt8) (n m : Nat), n % 4 = 0 → m % 5 = 0 →
    decodeLoop string m 0 = some data →
      encodeLoop data n 0 = string ∧ data.length * 5 = string.length * 4
  | [], data, _, _, _, hm, h => by
    rw [decodeLoop, if_pos hm] at h
    cases h
    exact ⟨rfl, rfl⟩
  | c₁ :: c₂ :: c₃ :: c₄ :: c₅ :: string, data, n, m, hn, hm, h => by
    rw [decodeLoop_group hm] at h
    obtain ⟨v, hv, h⟩ := Option.bind_eq_some_iff.mp h
    obtain ⟨data, hdata, rfl⟩ := Option.map_eq_some_iff.mp h
    obtain ⟨hlt, hchars⟩ := foldlM_accumulate.mp hv
    obtain ⟨hsame, hlength⟩ :=
      encodeLoop_decodeLoop string data (n + 4) (m + 5) (by omega) (by omega) hdata
    rw [encodeLoop_group hlt hn, hchars, hsame]
    refine ⟨rfl, ?_⟩
    simp only [base256, length_append, length_map, length_cons, length_nil]
    omega
  | [_], _, _, _, _, _, h | [_, _], _, _, _, _, _, h | [_, _, _], _, _, _, _, _, h
  | [_, _, _, _], _, _, _, _, _, h => by
    have := length_of_decodeLoop h
    simp only [length_cons, length_nil] at this
    omega

/-- The decoder inverts the encoder, and what it accepts are the strings of the encoder. The
lengths are those that the code asserts. -/
theorem decode_iff_encode :
    (∀ data : List UInt8, data.length % 4 = 0 → ∃ string, encode data = some string ∧
      decode string = some data ∧ string.length = data.length * 5 / 4) ∧
    ∀ string data : List UInt8, decode string = some data →
      encode data = some string ∧ data.length = string.length * 4 / 5 := by
  constructor
  · intro data h
    have hdecode := decodeLoop_encodeLoop data 0 0 h rfl rfl
    have hlength := (encodeLoop_decodeLoop _ data 0 0 rfl rfl hdecode).2
    exact ⟨_, if_neg (not_not.mpr h), hdecode, by omega⟩
  · intro string data h
    obtain ⟨hsame, hlength⟩ := encodeLoop_decodeLoop string data 0 0 rfl rfl h
    have := length_of_decodeLoop h
    rw [encode, if_neg (by omega), hsame]
    exact ⟨rfl, by omega⟩

end Uzmq.Z85
