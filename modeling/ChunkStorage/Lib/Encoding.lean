import ChunkStorage.Lib.FileSystem

set_option autoImplicit false

/-! # Byte encodings

Lowercase hexadecimal, unsigned decimal and 64-bit little-endian, each with the facts that make
it decodable. -/

namespace Posix

/-- The bytes of an ASCII literal. -/
def ascii (s : String) : Bytes := s.toList.map fun c => UInt8.ofNat c.toNat

/-! ## Hexadecimal -/

/-- `"0123456789abcdef"`. -/
def kHex : Bytes :=
  [0x30, 0x31, 0x32, 0x33, 0x34, 0x35, 0x36, 0x37, 0x38, 0x39, 0x61, 0x62, 0x63, 0x64, 0x65, 0x66]

/-- The digit `kHex[n]`. -/
def hexDigit (n : UInt8) : UInt8 := kHex.getD n.toNat 0

/-- The two digits of a byte. -/
def hexByte (b : UInt8) : Bytes := [hexDigit (b >>> 4), hexDigit (b &&& 0x0f)]

def hexEncode (bs : Bytes) : Bytes := bs.flatMap hexByte

/-- `'0'..'9'` or `'a'..'f'`. -/
def isHexDigit (c : UInt8) : Bool := (0x30 ≤ c && c ≤ 0x39) || (0x61 ≤ c && c ≤ 0x66)

/-- A property of bytes holds of all of them if it holds of the 256 values. -/
theorem forall_byte {P : UInt8 → Prop} (h : ∀ n : Fin 256, P (UInt8.ofNat n)) (b : UInt8) : P b := by
  have := h ⟨b.toNat, b.toNat_lt⟩
  simpa using this

/-- The two digits of a byte determine it: `hexByte` has a left inverse. -/
def unhexByte (c d : UInt8) : UInt8 :=
  let value c := if c ≤ 0x39 then c - 0x30 else c - 0x57
  (value c <<< 4) ||| value d

theorem unhexByte_hexByte (b : UInt8) :
    unhexByte (hexDigit (b >>> 4)) (hexDigit (b &&& 0x0f)) = b := by
  refine forall_byte (P := fun b => unhexByte (hexDigit (b >>> 4)) (hexDigit (b &&& 0x0f)) = b) ?_ b
  decide +kernel

theorem isHexDigit_hexByte (b : UInt8) : ∀ c ∈ hexByte b, isHexDigit c = true := by
  refine forall_byte (P := fun b => ∀ c ∈ hexByte b, isHexDigit c = true) ?_ b
  decide +kernel

theorem hexByte_injective {a b : UInt8} (h : hexByte a = hexByte b) : a = b := by
  simp only [hexByte, List.cons.injEq, and_true] at h
  rw [← unhexByte_hexByte a, ← unhexByte_hexByte b, h.1, h.2]

@[simp] theorem hexEncode_nil : hexEncode [] = [] := rfl

@[simp] theorem hexEncode_cons (b : UInt8) (bs : Bytes) :
    hexEncode (b :: bs) = hexByte b ++ hexEncode bs := rfl

@[simp] theorem length_hexEncode (bs : Bytes) : (hexEncode bs).length = 2 * bs.length := by
  induction bs with
  | nil => rfl
  | cons b bs ih => simp only [hexEncode_cons, List.length_append, ih, List.length_cons, hexByte,
      List.length_nil]; omega

theorem isHexDigit_hexEncode (bs : Bytes) : ∀ c ∈ hexEncode bs, isHexDigit c = true := by
  intro c hc
  obtain ⟨b, -, hb⟩ := List.mem_flatMap.1 hc
  exact isHexDigit_hexByte b c hb

theorem hexEncode_injective {as bs : Bytes} (h : hexEncode as = hexEncode bs) : as = bs := by
  induction as generalizing bs with
  | nil =>
      cases bs with
      | nil => rfl
      | cons b bs => simp [hexByte] at h
  | cons a as ih =>
      cases bs with
      | nil => simp [hexByte] at h
      | cons b bs =>
          obtain ⟨hab, hrest⟩ := List.append_inj h rfl
          rw [hexByte_injective hab, ih hrest]

/-- Any two digits are those of a byte. -/
theorem exists_hexByte {c d : UInt8} (hc : isHexDigit c = true) (hd : isHexDigit d = true) :
    ∃ b, hexByte b = [c, d] := by
  have hdigit : ∀ c, isHexDigit c = true → ∃ n : Fin 16, hexDigit (UInt8.ofNat n) = c := by
    intro c
    refine forall_byte
      (P := fun c => isHexDigit c = true → ∃ n : Fin 16, hexDigit (UInt8.ofNat n) = c) ?_ c
    decide +kernel
  have hpair : ∀ n m : Fin 16, hexByte (UInt8.ofNat (16 * n + m))
      = [hexDigit (UInt8.ofNat n), hexDigit (UInt8.ofNat m)] := by
    decide +kernel
  obtain ⟨n, rfl⟩ := hdigit c hc
  obtain ⟨m, rfl⟩ := hdigit d hd
  exact ⟨_, hpair n m⟩

/-- An even number of digits encodes bytes. -/
theorem exists_hexEncode (n : ℕ) {value : Bytes} (hlen : value.length = 2 * n)
    (h : ∀ c ∈ value, isHexDigit c = true) : ∃ bs, bs.length = n ∧ hexEncode bs = value := by
  induction n generalizing value with
  | zero => exact ⟨[], rfl, (List.length_eq_zero_iff.1 hlen).symm⟩
  | succ n ih =>
      match value, hlen with
      | c :: d :: rest, hlen =>
          have hrest : rest.length = 2 * n := by
            simp only [List.length_cons] at hlen
            omega
          obtain ⟨b, hb⟩ := exists_hexByte (h c (by simp)) (h d (by simp))
          obtain ⟨bs, hbs, henc⟩ := ih hrest fun x hx => h x (by simp [hx])
          exact ⟨b :: bs, by rw [List.length_cons, hbs], by rw [hexEncode_cons, hb, henc]; rfl⟩

/-! ## Decimal -/

/-- `std::to_string` of an unsigned number. -/
def decimal (n : ℕ) : Bytes := (Nat.toDigits 10 n).map fun c => UInt8.ofNat c.toNat

theorem length_decimal_le_iff {n k : ℕ} (hk : 0 < k) : (decimal n).length ≤ k ↔ n < 10 ^ k := by
  rw [decimal, List.length_map]
  exact Nat.length_toDigits_le_iff (by decide) hk

/-! ## 64-bit little-endian -/

/-- The eight bytes of `size`, the lowest first. -/
def leEncode (size : UInt64) : Bytes :=
  (List.range 8).map fun index => (size >>> UInt64.ofNat (index * 8) &&& 0xff).toUInt8

/-- The number whose `index`-th byte is `bytes[index]`. -/
def leDecode (bytes : Bytes) : UInt64 :=
  (List.range 8).foldl
    (fun size index => size ||| (bytes.getD index 0).toUInt64 <<< UInt64.ofNat (index * 8)) 0

theorem length_leEncode (size : UInt64) : (leEncode size).length = 8 := rfl

/-- A shift by `k` bytes of a 64-bit number is not reduced. -/
theorem byte_shift {k : ℕ} (hk : k < 8) : (UInt64.ofNat (k * 8)).toNat % 64 = k * 8 := by
  rw [UInt64.toNat_ofNat']
  omega

theorem leEncode_digit (size : UInt64) {index : ℕ} (h : index < 8) :
    (size >>> UInt64.ofNat (index * 8) &&& 0xff).toUInt8.toNat
      = size.toNat / 256 ^ index % 256 := by
  simp only [UInt64.toNat_toUInt8, UInt64.toNat_and, UInt64.toNat_shiftRight, byte_shift h]
  rw [show (0xff : UInt64).toNat = 2 ^ 8 - 1 from rfl, Nat.and_two_pow_sub_one_eq_mod,
    Nat.shiftRight_eq_div_pow, Nat.mul_comm, Nat.pow_mul]
  norm_num

/-- The bytes of `size` are its digits in base 256. -/
theorem ofDigits_leEncode (size : UInt64) :
    Nat.ofDigits 256 ((leEncode size).map UInt8.toNat) = size.toNat := by
  have hdigits : (leEncode size).map UInt8.toNat
      = (List.range 8).map fun index => size.toNat / 256 ^ index % 256 := by
    rw [leEncode, List.map_map]
    exact List.map_congr_left fun index hi => leEncode_digit size (List.mem_range.1 hi)
  have hlt := size.toNat_lt
  rw [hdigits]
  simp only [List.range_succ, List.range_zero, List.nil_append, List.cons_append, List.map_cons,
    List.map_nil, Nat.ofDigits_cons, Nat.ofDigits_nil]
  omega

/-- One round of the decoder appends a digit. -/
theorem leDecode_round {size : UInt64} {b : UInt8} {k : ℕ} (hk : k < 8)
    (hsize : size.toNat < 256 ^ k) :
    (size ||| b.toUInt64 <<< UInt64.ofNat (k * 8)).toNat = size.toNat + 256 ^ k * b.toNat := by
  have hpow : (256 : ℕ) ^ k = 2 ^ (k * 8) := by rw [Nat.mul_comm, Nat.pow_mul]
  have hb := b.toNat_lt
  have hfit : b.toNat * 2 ^ (k * 8) < 2 ^ 64 := by
    calc b.toNat * 2 ^ (k * 8) < 2 ^ 8 * 2 ^ (k * 8) :=
          Nat.mul_lt_mul_of_pos_right hb (Nat.two_pow_pos _)
      _ = 2 ^ (8 + k * 8) := by rw [Nat.pow_add]
      _ ≤ 2 ^ 64 := Nat.pow_le_pow_right (by norm_num) (by omega)
  rw [hpow] at hsize ⊢
  simp only [UInt64.toNat_or, UInt64.toNat_shiftLeft, byte_shift hk, UInt8.toNat_toUInt64,
    Nat.shiftLeft_eq]
  rw [Nat.mod_eq_of_lt hfit, Nat.or_comm, Nat.mul_comm, ← Nat.two_pow_add_eq_or_of_lt hsize,
    Nat.add_comm]

/-- After `k` rounds the decoder holds the first `k` bytes. -/
theorem leDecode_rounds (bytes : Bytes) (hlen : bytes.length = 8) (k : ℕ) (hk : k ≤ 8) :
    ((List.range k).foldl
      (fun size index => size ||| (bytes.getD index 0).toUInt64 <<< UInt64.ofNat (index * 8))
      (0 : UInt64)).toNat = Nat.ofDigits 256 ((bytes.take k).map UInt8.toNat) := by
  induction k with
  | zero => simp
  | succ k ih =>
      have hget : bytes.take (k + 1) = bytes.take k ++ [bytes.getD k 0] := by
        rw [List.take_add_one, List.getElem?_eq_getElem (by omega)]
        simp [List.getD_eq_getElem?_getD, List.getElem?_eq_getElem (show k < bytes.length by omega)]
      have hlt : Nat.ofDigits 256 ((bytes.take k).map UInt8.toNat) < 256 ^ k := by
        have := Nat.ofDigits_lt_base_pow_length (b := 256) (l := (bytes.take k).map UInt8.toNat)
          (by norm_num) (fun x hx => by
            obtain ⟨b, -, rfl⟩ := List.mem_map.1 hx
            exact b.toNat_lt)
        simpa [hlen, show min k 8 = k by omega] using this
      rw [List.range_succ, List.foldl_append, List.foldl_cons, List.foldl_nil,
        leDecode_round (by omega) (by rw [ih (by omega)]; exact hlt), ih (by omega), hget,
        List.map_append, Nat.ofDigits_append]
      simp [hlen, show min k 8 = k by omega]

theorem toNat_leDecode {bytes : Bytes} (hlen : bytes.length = 8) :
    (leDecode bytes).toNat = Nat.ofDigits 256 (bytes.map UInt8.toNat) := by
  have := leDecode_rounds bytes hlen 8 le_rfl
  rwa [List.take_of_length_le (by omega)] at this

theorem leDecode_leEncode (size : UInt64) : leDecode (leEncode size) = size :=
  UInt64.toNat_inj.1 (by rw [toNat_leDecode (length_leEncode size), ofDigits_leEncode])

theorem leEncode_leDecode {bytes : Bytes} (hlen : bytes.length = 8) :
    leEncode (leDecode bytes) = bytes := by
  have hlt : ∀ bs : Bytes, ∀ x ∈ bs.map UInt8.toNat, x < 256 := by
    intro bs x hx
    obtain ⟨b, -, rfl⟩ := List.mem_map.1 hx
    exact b.toNat_lt
  have hvalue : Nat.ofDigits 256 ((leEncode (leDecode bytes)).map UInt8.toNat)
      = Nat.ofDigits 256 (bytes.map UInt8.toNat) := by
    rw [ofDigits_leEncode, toNat_leDecode hlen]
  have hdigits := Nat.ofDigits_inj_of_len_eq (by norm_num)
    (by simp [length_leEncode, hlen]) (hlt _) (hlt _) hvalue
  exact List.map_injective_iff.2 (fun a b h => UInt8.toNat_inj.1 h) hdigits

end Posix
