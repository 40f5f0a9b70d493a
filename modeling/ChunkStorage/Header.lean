import ChunkStorage.FileChunkStore

set_option autoImplicit false

/-! # The chunk file format

A chunk file is an 80-byte header and the payload. `ChunkFile c p file` says that `file` is the
file `Put` writes for the payload `p` and the checksum `c`; `headerSize` and `headerChecksum` are
what `ReadHeader` extracts from any file. `readable_iff` is the codec: the checks of `ReadHeader`
pass exactly on chunk files. -/

namespace ChunkStorage

open Posix

/-- `file` holds the header for `p` and `c`, and then `p`. -/
def ChunkFile (c : Checksum) (p file : Bytes) : Prop :=
  c.WellFormed ∧ file = makeHeader (UInt64.ofNat p.length) c ++ p

/-- The size field of the header of a file. -/
def headerSize (file : Bytes) : UInt64 := leDecode ((file.drop 8).take 8)

/-- The checksum field of the header of a file. -/
def headerChecksum (file : Bytes) : Checksum := ⟨.kBlake3, (file.drop 16).take 64⟩

/-- The checks of `ReadHeader` on a file. -/
structure Readable (file : Bytes) : Prop where
  complete : kHeaderSize ≤ file.length
  magic : file.take 8 = kMagic
  checksum : (headerChecksum file).WellFormed
  size_le : ¬ headerSize file > UInt64.ofNat (2 ^ 64 - 1) - UInt64.ofNat kHeaderSize
  size_eq : UInt64.ofNat file.length = headerSize file + UInt64.ofNat kHeaderSize

theorem kHeaderSize_eq : kHeaderSize = 80 := rfl

theorem length_makeHeader {size : UInt64} {c : Checksum} (h : c.WellFormed) :
    (makeHeader size c).length = 80 := by
  simp [makeHeader, kMagic, length_leEncode, kChecksumLength, h.1]

theorem ChunkFile.length {c : Checksum} {p file : Bytes} (h : ChunkFile c p file) :
    file.length = 80 + p.length := by
  rw [h.2, List.length_append, length_makeHeader h.1]

theorem ChunkFile.drop {c : Checksum} {p file : Bytes} (h : ChunkFile c p file) :
    file.drop 80 = p := by
  have hlen : (makeHeader (UInt64.ofNat p.length) c).length = 80 := length_makeHeader h.1
  rw [h.2, ← hlen, List.drop_left]

theorem ChunkFile.headerSize {c : Checksum} {p file : Bytes} (h : ChunkFile c p file) :
    ChunkStorage.headerSize file = UInt64.ofNat p.length := by
  rw [h.2, ChunkStorage.headerSize, makeHeader, List.append_assoc, List.append_assoc,
    show (8 : ℕ) = kMagic.length from rfl, List.drop_left,
    show kMagic.length = (leEncode (UInt64.ofNat p.length)).length from rfl, List.take_left,
    leDecode_leEncode]

theorem ChunkFile.headerChecksum {c : Checksum} {p file : Bytes} (h : ChunkFile c p file) :
    ChunkStorage.headerChecksum file = c := by
  obtain ⟨⟨⟩, value⟩ := c
  have hlen : value.length = 64 := h.1.1
  have hfield : value.take kChecksumLength = value :=
    List.take_of_length_le (by rw [kChecksumLength, hlen])
  rw [h.2, ChunkStorage.headerChecksum, makeHeader, hfield,
    show (16 : ℕ) = (kMagic ++ leEncode (UInt64.ofNat p.length)).length from rfl,
    List.append_assoc, List.drop_left, ← hlen, List.take_left]

theorem ChunkFile.unique {c c' : Checksum} {p p' file : Bytes} (h : ChunkFile c p file)
    (h' : ChunkFile c' p' file) : c = c' ∧ p = p' :=
  ⟨h.headerChecksum.symm.trans h'.headerChecksum, h.drop.symm.trans h'.drop⟩

theorem toNat_length {n : ℕ} (h : n ≤ offMax) : (UInt64.ofNat n).toNat = n := by
  simp only [offMax] at h
  rw [UInt64.toNat_ofNat']
  omega

/-- No file is long enough for its size field to wrap. -/
theorem toNat_header_add {n : ℕ} (h : n ≤ offMax) (size : UInt64)
    (hle : ¬ size > UInt64.ofNat (2 ^ 64 - 1) - UInt64.ofNat kHeaderSize) :
    UInt64.ofNat n = size + UInt64.ofNat kHeaderSize ↔ n = size.toNat + 80 := by
  have hle' : size.toNat ≤ 2 ^ 64 - 1 - 80 := Nat.le_of_not_lt hle
  rw [← UInt64.toNat_inj, UInt64.toNat_add, UInt64.toNat_ofNat', UInt64.toNat_ofNat',
    kHeaderSize_eq]
  simp only [offMax] at h
  omega

/-- **The checks of `ReadHeader` pass exactly on chunk files.** -/
theorem readable_iff {file : Bytes} (hlen : file.length ≤ offMax) :
    Readable file ↔ ∃ c p, ChunkFile c p file := by
  constructor
  · intro h
    refine ⟨headerChecksum file, file.drop 80, h.checksum, ?_⟩
    have hfull := (toNat_header_add hlen (headerSize file) h.size_le).1 h.size_eq
    have hsize : UInt64.ofNat (file.drop 80).length = headerSize file := by
      rw [List.length_drop, ← UInt64.toNat_inj, UInt64.toNat_ofNat']
      have := (headerSize file).toNat_lt
      omega
    have h8 : ((file.drop 8).take 8).length = 8 := by
      have := h.complete
      rw [kHeaderSize_eq] at this
      simp only [List.length_take, List.length_drop]
      omega
    have hchecksum : (headerChecksum file).value.take kChecksumLength = (file.drop 16).take 64 := by
      simp [headerChecksum, kChecksumLength]
    rw [makeHeader, hsize, headerSize, leEncode_leDecode h8, hchecksum, ← h.magic]
    -- the three fields and the payload are consecutive pieces of the file
    have h16 : file.take 8 ++ (file.drop 8).take 8 = file.take 16 := by
      rw [← List.take_add]
    have h80 : file.take 16 ++ (file.drop 16).take 64 = file.take 80 := by
      rw [← List.take_add]
    rw [h16, h80, List.take_append_drop]
  · rintro ⟨c, p, h⟩
    have hl := h.length
    have hp : (UInt64.ofNat p.length).toNat = p.length := by
      rw [UInt64.toNat_ofNat']
      simp only [offMax] at hlen
      omega
    have hle : ¬ headerSize file > UInt64.ofNat (2 ^ 64 - 1) - UInt64.ofNat kHeaderSize := by
      rw [h.headerSize]
      refine Nat.not_lt.2 ?_
      show (UInt64.ofNat p.length).toNat ≤ 2 ^ 64 - 1 - 80
      rw [hp]
      simp only [offMax] at hlen
      omega
    refine ⟨by rw [kHeaderSize_eq]; omega, ?_, by rw [h.headerChecksum]; exact h.1, hle, ?_⟩
    · rw [h.2, makeHeader, List.append_assoc, List.append_assoc,
        show (8 : ℕ) = kMagic.length from rfl, List.take_left]
    · rw [toNat_header_add hlen _ hle, h.headerSize, hp]
      omega

end ChunkStorage
