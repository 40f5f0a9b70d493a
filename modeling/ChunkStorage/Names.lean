import ChunkStorage.FileChunkStore

set_option autoImplicit false

/-! # File names of the store

A chunk is the entry `hex(id).chunk` of the root, and a `Put` under way has the entry
`hex(id).chunk.tmp.pid.address`. The hexadecimal part holds no dot and a temporary name ends in a
digit, which keeps the names of different calls apart. -/

namespace ChunkStorage

open Posix

variable {root : Bytes}

/-- An id is accepted when it is not empty and at most 1024 bytes long. -/
theorem validateId_ok (chunkId : ChunkId) :
    (validateId chunkId).ok = true ↔ chunkId.value ≠ [] ∧ chunkId.value.length ≤ 1024 := by
  unfold validateId ChunkId.valid
  by_cases hempty : chunkId.value = []
  · simp [hempty]
  · by_cases hlong : chunkId.value.length > 1024
    · simp [hempty, hlong]
    · simp only [hlong, if_false]
      simpa [hempty] using hlong

theorem validateId_valid {chunkId : ChunkId} (h : (validateId chunkId).ok = true) :
    chunkId.valid = true := by
  have hne := ((validateId_ok _).1 h).1
  simpa [ChunkId.valid] using hne

theorem validateId_code {chunkId : ChunkId} (h : (validateId chunkId).ok ≠ true) :
    (validateId chunkId).code = .kInvalidArgument := by
  unfold validateId at h ⊢
  split_ifs at h ⊢ <;> simp_all

/-- The entry is in the root and its name ends in `".chunk"`. -/
def IsChunkPath (root : Bytes) (p : Path) : Prop := p.dir = root ∧ dotChunk <:+ p.name

theorem isChunkPath_pathFor (chunkId : ChunkId) : IsChunkPath root (pathFor root chunkId) :=
  ⟨rfl, List.suffix_append _ _⟩

theorem pathFor_injective {a b : ChunkId} (h : pathFor root a = pathFor root b) : a = b := by
  obtain ⟨a⟩ := a
  obtain ⟨b⟩ := b
  have hname : hexEncode a ++ dotChunk = hexEncode b ++ dotChunk := congrArg Path.name h
  rw [hexEncode_injective (List.append_cancel_right hname)]

/-- `'0'..'9'`. -/
def isDigit (c : UInt8) : Bool := 0x30 ≤ c && c ≤ 0x39

theorem isDigit_decimal (n : ℕ) : ∀ c ∈ decimal n, isDigit c = true := by
  intro c hc
  obtain ⟨d, hd, rfl⟩ := List.mem_map.1 hc
  have hdigit := Nat.isDigit_of_mem_toDigits (by norm_num) (by norm_num) hd
  simp only [Char.isDigit, Bool.and_eq_true, decide_eq_true_eq] at hdigit
  have h1 : 48 ≤ d.toNat := hdigit.1
  have h2 : d.toNat ≤ 57 := hdigit.2
  simp only [isDigit, Bool.and_eq_true, decide_eq_true_eq, UInt8.le_iff_toNat_le,
    UInt8.toNat_ofNat', show (0x30 : UInt8).toNat = 48 from rfl,
    show (0x39 : UInt8).toNat = 57 from rfl]
  omega

theorem decimal_ne_nil (n : ℕ) : decimal n ≠ [] := by
  simp [decimal, Nat.toDigits_ne_nil]

theorem decimal_injective {m n : ℕ} (h : decimal m = decimal n) : m = n := by
  have hchars : Nat.toDigits 10 m = Nat.toDigits 10 n := by
    -- a digit is below 256, so its byte determines it
    have hinj : ∀ k, ∀ c ∈ Nat.toDigits 10 k, c.toNat < 256 := by
      intro k c hc
      have hdigit := Nat.isDigit_of_mem_toDigits (by norm_num) (by norm_num) hc
      simp only [Char.isDigit, Bool.and_eq_true, decide_eq_true_eq] at hdigit
      have : c.toNat ≤ 57 := hdigit.2
      omega
    have hback : ∀ k, (decimal k).map (fun b => Char.ofNat b.toNat) = Nat.toDigits 10 k := by
      intro k
      rw [decimal, List.map_map]
      conv_rhs => rw [← List.map_id (Nat.toDigits 10 k)]
      refine List.map_congr_left fun c hc => ?_
      have := hinj k c hc
      simp only [Function.comp_apply, id_eq, UInt8.toNat_ofNat']
      rw [Nat.mod_eq_of_lt (by simpa using this), Char.ofNat_toNat]
    rw [← hback m, ← hback n, h]
  rw [← Nat.ofDigitChars_ten_toDigits (n := m), ← Nat.ofDigitChars_ten_toDigits (n := n), hchars]

/-- Two strings of accepted bytes that are followed by a rejected one end at the same place. -/
theorem append_cons_inj {accept : UInt8 → Bool} {as bs us vs : Bytes} {u v : UInt8}
    (has : ∀ c ∈ as, accept c = true) (hbs : ∀ c ∈ bs, accept c = true) (hu : accept u = false)
    (hv : accept v = false) (h : as ++ u :: us = bs ++ v :: vs) : as = bs ∧ us = vs := by
  have hcut : ∀ {xs ys : Bytes} {y : UInt8}, (∀ c ∈ xs, accept c = true) → accept y = false →
      (xs ++ y :: ys).takeWhile accept = xs := by
    intro xs ys y hxs hy
    rw [List.takeWhile_append_of_pos hxs, List.takeWhile_cons_of_neg (by simp [hy]),
      List.append_nil]
  obtain rfl : as = bs := by rw [← hcut has hu, h, hcut hbs hv]
  exact ⟨rfl, (List.cons.inj (List.append_cancel_left h)).2⟩

theorem tempPath_name (chunkId : ChunkId) (pid address : ℕ) :
    (tempPath root chunkId pid address).name
      = hexEncode chunkId.value ++ 0x2e :: ([0x63, 0x68, 0x75, 0x6e, 0x6b, 0x2e, 0x74, 0x6d, 0x70,
        0x2e] ++ (decimal pid ++ 0x2e :: decimal address)) := by
  simp [tempPath, pathFor, dotChunk, dotTmp, dot]

/-- **Two temporary names are equal only if id, process and address are.** -/
theorem tempPath_injective {a b : ChunkId} {pid pid' address address' : ℕ}
    (h : tempPath root a pid address = tempPath root b pid' address') :
    a = b ∧ pid = pid' ∧ address = address' := by
  obtain ⟨a⟩ := a
  obtain ⟨b⟩ := b
  have hname := congrArg Path.name h
  rw [tempPath_name, tempPath_name] at hname
  obtain ⟨hid, hrest⟩ := append_cons_inj (isHexDigit_hexEncode _) (isHexDigit_hexEncode _) rfl rfl
    hname
  obtain ⟨hpid, haddress⟩ := append_cons_inj (isDigit_decimal _) (isDigit_decimal _) rfl rfl
    (List.append_cancel_left hrest)
  exact ⟨congrArg ChunkId.mk (hexEncode_injective hid), decimal_injective hpid, decimal_injective haddress⟩

/-- A temporary name ends in a digit, so it is no chunk's. -/
theorem not_isChunkPath_tempPath (chunkId : ChunkId) (pid address : ℕ) :
    ¬ IsChunkPath root (tempPath root chunkId pid address) := by
  rintro ⟨-, hsuffix⟩
  rw [tempPath_name] at hsuffix
  obtain ⟨pre, hpre⟩ := hsuffix
  have hlast := congrArg List.getLast? hpre
  rw [List.getLast?_append_of_ne_nil _ (by simp [dotChunk]),
    List.getLast?_append_of_ne_nil _ (by simp), List.getLast?_cons_of_ne_nil (by simp),
    List.getLast?_append_of_ne_nil _ (by simp), List.getLast?_append_of_ne_nil _ (by simp),
    List.getLast?_cons_of_ne_nil (decimal_ne_nil address)] at hlast
  have hmem : (0x6b : UInt8) ∈ decimal address := List.mem_of_getLast? hlast.symm
  exact absurd (isDigit_decimal address _ hmem) (by decide)

theorem tempPath_ne_pathFor (root : Bytes) (chunkId other : ChunkId) (pid address : ℕ) :
    tempPath root chunkId pid address ≠ pathFor root other := fun h =>
  not_isChunkPath_tempPath chunkId pid address (h ▸ isChunkPath_pathFor other)

/-! ## Confinement

`root_ / name` names an entry of the root itself when the name is a single component. -/

/-- `'/'`. -/
def slash : UInt8 := 0x2f

/-- A name that a path join keeps in the directory: one component, that the kernel reads whole. -/
structure PlainName (name : Bytes) : Prop where
  no_slash : slash ∉ name
  no_nul : (0 : UInt8) ∉ name
  ne_dot : name ≠ [0x2e]
  ne_dotdot : name ≠ [0x2e, 0x2e]

/-- A byte of the names the store makes: a letter, a digit or a dot. -/
def isNameByte (c : UInt8) : Bool := isHexDigit c || isDigit c || c ∈ dotChunk || c ∈ dotTmp

theorem isNameByte_pathFor (chunkId : ChunkId) :
    ∀ c ∈ (pathFor root chunkId).name, isNameByte c = true := by
  intro c hc
  rcases List.mem_append.1 hc with hhex | hext
  · simp [isNameByte, isHexDigit_hexEncode _ c hhex]
  · simp [isNameByte, hext]

theorem isNameByte_tempPath (chunkId : ChunkId) (pid address : ℕ) :
    ∀ c ∈ (tempPath root chunkId pid address).name, isNameByte c = true := by
  intro c hc
  simp only [tempPath, List.mem_append] at hc
  rcases hc with (((hname | htmp) | hpid) | hdot) | haddress
  · have hpath : c ∈ (pathFor root chunkId).name := hname
    exact isNameByte_pathFor chunkId c hpath
  · simp [isNameByte, htmp]
  · simp [isNameByte, isDigit_decimal pid c hpid]
  · obtain rfl : c = 0x2e := List.mem_singleton.1 hdot
    decide
  · simp [isNameByte, isDigit_decimal address c haddress]

/-- A name of such bytes that is longer than `".."` is a single component. -/
theorem plainName_of_isNameByte {name : Bytes} (hbytes : ∀ c ∈ name, isNameByte c = true)
    (hlen : 2 < name.length) : PlainName name where
  no_slash hmem := absurd (hbytes _ hmem) (by decide)
  no_nul hmem := absurd (hbytes _ hmem) (by decide)
  ne_dot hname := by simp [hname] at hlen
  ne_dotdot hname := by simp [hname] at hlen

theorem plainName_pathFor (chunkId : ChunkId) : PlainName (pathFor root chunkId).name := by
  refine plainName_of_isNameByte (isNameByte_pathFor chunkId) ?_
  simp only [pathFor, List.length_append, dotChunk, List.length_cons, List.length_nil]
  omega

theorem plainName_tempPath (chunkId : ChunkId) (pid address : ℕ) :
    PlainName (tempPath root chunkId pid address).name := by
  refine plainName_of_isNameByte (isNameByte_tempPath chunkId pid address) ?_
  simp only [tempPath, List.length_append, dotTmp, List.length_cons, List.length_nil]
  omega

/-- **The names of the store are confined to the root and never clash.** -/
theorem names_confined_and_unique (root : Bytes) :
    (∀ a b : ChunkId, pathFor root a = pathFor root b → a = b) ∧
      (∀ a : ChunkId, (pathFor root a).dir = root ∧ PlainName (pathFor root a).name) ∧
      (∀ (a : ChunkId) (pid address : ℕ), (tempPath root a pid address).dir = root ∧
        PlainName (tempPath root a pid address).name) ∧
      (∀ (a b : ChunkId) (pid address : ℕ), tempPath root a pid address ≠ pathFor root b) ∧
      ∀ (a b : ChunkId) (pid pid' address address' : ℕ),
        tempPath root a pid address = tempPath root b pid' address' →
          a = b ∧ pid = pid' ∧ address = address' := by
  refine ⟨fun a b => pathFor_injective, fun a => ⟨rfl, plainName_pathFor a⟩, ?_, ?_, ?_⟩
  · exact fun a pid address => ⟨rfl, plainName_tempPath a pid address⟩
  · exact fun a b pid address => tempPath_ne_pathFor root a b pid address
  · exact fun a b pid pid' address address' => tempPath_injective

end ChunkStorage
