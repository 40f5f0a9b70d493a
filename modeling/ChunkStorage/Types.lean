import ChunkStorage.Status

set_option autoImplicit false

/-! # Ids, checksums, byte ranges and the data-plane requests

`types/ids.h`, `types/checksum.cpp`, `types/byte_range.cpp` and `worker/data_plane_types.h`. -/

namespace ChunkStorage

open Posix

structure ObjectId where
  value : Bytes
  deriving DecidableEq

structure ChunkId where
  value : Bytes
  deriving DecidableEq

def ObjectId.valid (id : ObjectId) : Bool := !id.value.isEmpty

def ChunkId.valid (id : ChunkId) : Bool := !id.value.isEmpty

/-! ## Checksums -/

inductive ChecksumAlgorithm where
  | kBlake3
  deriving DecidableEq

structure Checksum where
  algorithm : ChecksumAlgorithm
  value : Bytes
  deriving DecidableEq

/-- `ValidateChecksum`. The locale is `C`, so `std::isdigit` accepts `'0'..'9'` only. -/
def validateChecksum (checksum : Checksum) : Status :=
  if checksum.algorithm ≠ .kBlake3 then
    .of .kInvalidArgument (ascii "unsupported checksum algorithm")
  else if checksum.value.length ≠ 64 then
    .of .kInvalidArgument (ascii "BLAKE3 checksum must be 64 lowercase hex characters")
  else if checksum.value.all isHexDigit then .Ok
  else .of .kInvalidArgument (ascii "BLAKE3 checksum contains invalid characters")

/-- The checksums `validateChecksum` accepts: 64 lowercase hexadecimal digits. -/
def Checksum.WellFormed (checksum : Checksum) : Prop :=
  checksum.value.length = 64 ∧ ∀ c ∈ checksum.value, isHexDigit c = true

theorem validateChecksum_ok (checksum : Checksum) :
    (validateChecksum checksum).ok = true ↔ checksum.WellFormed := by
  obtain ⟨⟨⟩, value⟩ := checksum
  simp only [validateChecksum, Checksum.WellFormed, ne_eq, not_true_eq_false, if_false]
  by_cases hlen : value.length = 64
  · rw [if_neg (by simpa using hlen)]
    split
    · next hall => simpa [hlen] using hall
    · next hall => simpa [hlen] using hall
  · rw [if_pos hlen]
    simp [hlen]

/-- A rejected checksum is an invalid argument. -/
theorem validateChecksum_code {checksum : Checksum} (h : ¬ checksum.WellFormed) :
    (validateChecksum checksum).code = .kInvalidArgument := by
  have hok : (validateChecksum checksum).ok ≠ true := fun hok => h ((validateChecksum_ok _).1 hok)
  unfold validateChecksum at hok ⊢
  split_ifs at hok ⊢ <;> simp_all

/-! ## Byte ranges -/

/-- The half-open interval `[offset, offset + size)`. -/
structure ByteRange where
  offset : UInt64
  size : UInt64

def validateByteRange (range : ByteRange) (totalSize : UInt64) : Status :=
  if range.offset > totalSize then
    .of .kInvalidArgument (ascii "byte range offset exceeds object size")
  else if range.size > totalSize - range.offset then
    .of .kInvalidArgument (ascii "byte range size exceeds object boundary")
  else .Ok

/-- A range is accepted exactly when it ends inside the object, over the unbounded integers. -/
theorem validateByteRange_ok (range : ByteRange) (totalSize : UInt64) :
    (validateByteRange range totalSize).ok = true ↔
      range.offset.toNat + range.size.toNat ≤ totalSize.toNat := by
  unfold validateByteRange
  by_cases h : range.offset > totalSize
  · rw [if_pos h]
    have : totalSize.toNat < range.offset.toNat := h
    simp only [Status.ok_of, reduceCtorEq, decide_false, Bool.false_eq_true, false_iff]
    omega
  · have hle : range.offset.toNat ≤ totalSize.toNat := Nat.le_of_not_lt h
    have hsub : (totalSize - range.offset).toNat = totalSize.toNat - range.offset.toNat :=
      UInt64.toNat_sub_of_le totalSize range.offset hle
    rw [if_neg h]
    by_cases h' : range.size > totalSize - range.offset
    · rw [if_pos h']
      have : (totalSize - range.offset).toNat < range.size.toNat := h'
      simp only [Status.ok_of, reduceCtorEq, decide_false, Bool.false_eq_true, false_iff]
      omega
    · have : range.size.toNat ≤ (totalSize - range.offset).toNat := Nat.le_of_not_lt h'
      rw [if_neg h']
      simp only [Status.ok_Ok, true_iff]
      omega

theorem validateByteRange_code {range : ByteRange} {totalSize : UInt64}
    (h : totalSize.toNat < range.offset.toNat + range.size.toNat) :
    (validateByteRange range totalSize).code = .kInvalidArgument := by
  have hok : (validateByteRange range totalSize).ok ≠ true := fun hok => by
    have := (validateByteRange_ok _ _).1 hok
    omega
  unfold validateByteRange at hok ⊢
  split_ifs at hok ⊢ <;> simp_all

/-! ## Requests and responses -/

structure PutChunkRequest where
  chunkId : ChunkId
  expectedSize : UInt64
  expectedChecksum : Checksum

structure GetChunkRequest where
  chunkId : ChunkId
  range : ByteRange

structure HeadChunkRequest where
  chunkId : ChunkId

structure DeleteChunkRequest where
  chunkId : ChunkId

structure HeadChunkResponse where
  chunkId : ChunkId
  size : UInt64
  checksum : Checksum
  deriving DecidableEq

/-! ## BLAKE3

The hash is a library outside this repository. What the store and the client rely on is that it is
incremental, with a digest of 32 bytes. -/

structure Blake3 where
  Hasher : Type
  /-- `blake3_hasher_init`. -/
  init : Hasher
  /-- `blake3_hasher_update`. -/
  update : Hasher → Bytes → Hasher
  /-- `blake3_hasher_finalize` with `BLAKE3_OUT_LEN` bytes. -/
  finalize : Hasher → Bytes
  update_nil : ∀ h, update h [] = h
  /-- Feeding two pieces is feeding their concatenation. -/
  update_append : ∀ h a b, update (update h a) b = update h (a ++ b)
  length_finalize : ∀ h, (finalize h).length = 32

namespace Blake3

variable (B : Blake3)

/-- The digest of a byte string, in hexadecimal. -/
def hex (bytes : Bytes) : Bytes := hexEncode (B.finalize (B.update B.init bytes))

theorem length_hex (bytes : Bytes) : (B.hex bytes).length = 64 := by
  simp [hex, B.length_finalize]

/-- The checksum of a byte string. -/
def checksum (bytes : Bytes) : Checksum := ⟨.kBlake3, B.hex bytes⟩

/-- A computed checksum is always accepted. -/
theorem wellFormed_checksum (bytes : Bytes) : (B.checksum bytes).WellFormed :=
  ⟨B.length_hex bytes, isHexDigit_hexEncode _⟩

/-- The real digests of `""` and `"a"`. -/
def sampleDigest (bytes : Bytes) : Bytes :=
  if bytes = [] then
    [0xaf, 0x13, 0x49, 0xb9, 0xf5, 0xf9, 0xa1, 0xa6, 0xa0, 0x40, 0x4d, 0xea, 0x36, 0xdc, 0xc9, 0x49,
     0x9b, 0xcb, 0x25, 0xc9, 0xad, 0xc1, 0x12, 0xb7, 0xcc, 0x9a, 0x93, 0xca, 0xe4, 0x1f, 0x32, 0x62]
  else if bytes = [0x61] then
    [0x17, 0x76, 0x2f, 0xdd, 0xd9, 0x69, 0xa4, 0x53, 0x92, 0x5d, 0x65, 0x71, 0x7a, 0xc3, 0xee, 0xa2,
     0x13, 0x20, 0xb6, 0x6b, 0x54, 0x34, 0x2f, 0xde, 0x15, 0x12, 0x8d, 0x6c, 0xaf, 0x21, 0x21, 0x5f]
  else List.replicate 32 0

/-- An incremental hash that agrees with BLAKE3 on `""` and `"a"`, to run the store on. -/
def sample : Blake3 where
  Hasher := Bytes
  init := []
  update h bytes := h ++ bytes
  finalize := sampleDigest
  update_nil := List.append_nil
  update_append := List.append_assoc
  length_finalize h := by
    unfold sampleDigest
    split_ifs <;> rfl

end Blake3

/-- The request to put the payload as the chunk `"a"`. -/
def samplePut (p : Bytes) : PutChunkRequest :=
  ⟨⟨[0x61]⟩, UInt64.ofNat p.length, Blake3.sample.checksum p⟩

end ChunkStorage
