import ChunkStorage.Writing
import ChunkStorage.Lookup

set_option autoImplicit false

/-! # Arithmetic that does not wrap

`Checked` has the read path of the store and the receive loop of `Put` once more, with every 64-bit
addition and subtraction compared with the same operation on the integers: where the two differ the
checked program stops and returns nothing. It also stops in place of the branch of `PreadSome` for an
offset beyond the platform's limit. A program whose checked version cannot be told from it evaluates
nothing that wraps.

What bounds the numbers is established far from where they are used, and the files may change in
between, so the comparison is made under every environment whose replies are `Sized`. -/

namespace ChunkStorage

open Effects Posix Program

namespace Checked

/-- `a + b`, if it is the sum of the integers. -/
def add (a b : UInt64) : Option UInt64 :=
  if ((a + b).toNat : ℤ) = a.toNat + b.toNat then some (a + b) else none

/-- `a - b`, if it is the difference of the integers. -/
def sub (a b : UInt64) : Option UInt64 :=
  if ((a - b).toNat : ℤ) = a.toNat - b.toNat then some (a - b) else none

theorem add_eq {a b : UInt64} (h : a.toNat + b.toNat < 2 ^ 64) : add a b = some (a + b) := by
  unfold add
  rw [UInt64.toNat_add, Nat.mod_eq_of_lt h, if_pos (by push_cast; rfl)]

theorem sub_eq {a b : UInt64} (h : b.toNat ≤ a.toNat) : sub a b = some (a - b) := by
  unfold sub
  rw [UInt64.toNat_sub_of_le _ _ (UInt64.le_iff_toNat_le.2 h), if_pos (by omega)]

def validateByteRange (range : ByteRange) (totalSize : UInt64) : Option Status :=
  if range.offset > totalSize then
    some (.of .kInvalidArgument (ascii "byte range offset exceeds object size"))
  else
    match sub totalSize range.offset with
    | none => none
    | some left =>
        if range.size > left then
          some (.of .kInvalidArgument (ascii "byte range size exceeds object boundary"))
        else some .Ok

def preadSome (fd count : ℕ) (offset : UInt64) : Program StoreSig (Option (StatusOr Bytes)) := do
  if offset.toNat > offMax then return none
  match ← transfer (.pread fd count offset.toNat) with
  | .error e => return some (.ofStatus (.of .kIoError (ascii "pread failed: " ++ ascii (strerror e))))
  | .ok bytes => return some (.ok bytes)

def readHeaderLoop (fd : ℕ) : ℕ → Bytes → Program StoreSig (Option (StatusOr Bytes))
  | 0, read => return some (.ok read)
  | rounds + 1, read => do
      if read.length < kHeaderSize then
        match ← preadSome fd (kHeaderSize - read.length) (UInt64.ofNat read.length) with
        | none => return none
        | some (.error s) => return some (.error s)
        | some (.ok bytes) =>
            if bytes.length = 0 then
              return some (.ofStatus (.of .kCorruption (ascii "truncated chunk header")))
            readHeaderLoop fd rounds (read ++ bytes)
      else return some (.ok read)

def readHeader (fd : ℕ) (chunkId : ChunkId) :
    Program StoreSig (Option (StatusOr HeadChunkResponse)) := do
  match ← readHeaderLoop fd kHeaderSize [] with
  | none => return none
  | some (.error s) => return some (.error s)
  | some (.ok header) =>
      if header.take kMagic.length ≠ kMagic then
        return some (.ofStatus (.of .kCorruption (ascii "invalid chunk file magic")))
      let size := leDecode ((header.drop kMagic.length).take 8)
      let checksum : Checksum :=
        ⟨.kBlake3, (header.drop (kMagic.length + 8)).take kChecksumLength⟩
      if !(validateChecksum checksum).ok then
        return some (.ofStatus (.of .kCorruption (ascii "invalid persisted checksum")))
      match ← sys (.fstat fd) with
      | .error e =>
          return some (.ofStatus (.of .kIoError (ascii "fstat failed: " ++ ascii (strerror e))))
      | .ok stSize =>
          if size > UInt64.ofNat (2 ^ 64 - 1) - UInt64.ofNat kHeaderSize then
            return some (.ofStatus (.of .kCorruption (ascii "chunk file size does not match header")))
          match add size (UInt64.ofNat kHeaderSize) with
          | none => return none
          | some total =>
              if UInt64.ofNat stSize ≠ total then
                return some (.ofStatus
                  (.of .kCorruption (ascii "chunk file size does not match header")))
              return some (.ok ⟨chunkId, size, checksum⟩)

def head (root : Bytes) (chunkId : ChunkId) :
    Program StoreSig (Option (StatusOr HeadChunkResponse)) := do
  let status := validateId chunkId
  if !status.ok then return some (.ofStatus status)
  match ← sys (.openRead (pathFor root chunkId)) with
  | .error e => return some (.ofStatus (openError root chunkId e))
  | .ok fd => readHeader fd chunkId

def getLoop (fd : ℕ) : ℕ → UInt64 → UInt64 → Program StoreSig (Option Status)
  | 0, _, _ => return some .Ok
  | rounds + 1, remaining, offset => do
      if remaining > 0 then
        let wanted := min remaining.toNat kBufferSize
        match ← preadSome fd wanted offset with
        | none => return none
        | some (.error s) => return some s.1
        | some (.ok bytes) =>
            if bytes.length = 0 then
              return some (.of .kCorruption (ascii "unexpected EOF while reading chunk"))
            let status ← outputWrite bytes
            if !status.ok then return some status
            match sub remaining (UInt64.ofNat bytes.length), add offset (UInt64.ofNat bytes.length) with
            | some remaining', some offset' => getLoop fd rounds remaining' offset'
            | _, _ => return none
      else return some .Ok

def get (root : Bytes) (request : GetChunkRequest) : Program StoreSig (Option Status) := do
  match ← head root request.chunkId with
  | none => return none
  | some (.error s) => return some s.1
  | some (.ok response) =>
      match validateByteRange request.range response.size with
      | none => return none
      | some status =>
          if !status.ok then return some status
          match ← sys (.openRead (pathFor root request.chunkId)) with
          | .error e => return some (openError root request.chunkId e)
          | .ok fd =>
              match add request.range.offset (UInt64.ofNat kHeaderSize) with
              | none => return none
              | some offset => getLoop fd request.range.size.toNat request.range.size offset

def receive (B : Blake3) (request : PutChunkRequest) (fd : ℕ) :
    ℕ → B.Hasher → UInt64 → Program StoreSig (Option (Except Status (B.Hasher × UInt64)))
  | 0, hasher, received => return some (.ok (hasher, received))
  | rounds + 1, hasher, received => do
      match ← inputRead kBufferSize with
      | .error s => return some (.error s.1)
      | .ok bytes =>
          if bytes.length = 0 then return some (.ok (hasher, received))
          if bytes.length > kBufferSize ∨ received > request.expectedSize then
            return some (.error (.of .kCorruption (ascii "received more bytes than expected")))
          match sub request.expectedSize received with
          | none => return none
          | some left =>
              if UInt64.ofNat bytes.length > left then
                return some (.error (.of .kCorruption (ascii "received more bytes than expected")))
              let hasher := B.update hasher bytes
              let status ← writeAll fd bytes
              if !status.ok then return some (.error status)
              match add received (UInt64.ofNat bytes.length) with
              | none => return none
              | some received' => receive B request fd rounds hasher received'

end Checked

/-! ## The checked programs agree -/

/-- A read brings at most what it was asked for, and no file is longer than the largest offset. -/
def Sized : (op : StoreSig.Op) → StoreSig.Ret op → Prop
  | .inl (.pread _ count _), r => ∀ bytes, r = .ok bytes → bytes.length ≤ count
  | .inl (.fstat _), r => ∀ n, r = .ok n → n ≤ offMax
  | _, _ => True

theorem validateByteRange_checked (range : ByteRange) (totalSize : UInt64) :
    Checked.validateByteRange range totalSize = some (validateByteRange range totalSize) := by
  unfold Checked.validateByteRange validateByteRange
  by_cases h : range.offset > totalSize
  · rw [if_pos h, if_pos h]
  · rw [if_neg h, if_neg h, Checked.sub_eq (Nat.le_of_not_lt h)]
    dsimp only
    split <;> rfl

theorem preadSome_agree {fd count : ℕ} {offset : UInt64} (h : offset.toNat ≤ offMax) :
    Agree Sized (fun x y => x = some y ∧ ∀ bytes, y = .ok bytes → bytes.length ≤ count)
      (Checked.preadSome fd count offset) (preadSome fd count offset) := by
  unfold Checked.preadSome preadSome
  rw [if_neg (Nat.not_lt.2 h), if_neg (Nat.not_lt.2 h)]
  refine Agree.retrying fun r hr => ?_
  cases r with
  | error e => exact .ret ⟨rfl, fun bytes hbytes => absurd hbytes (by simp [StatusOr.ofStatus])⟩
  | ok bytes =>
      refine .ret ⟨rfl, fun bytes' hbytes => ?_⟩
      obtain rfl := Except.ok.inj hbytes
      exact hr _ rfl

theorem readHeaderLoop_agree (fd rounds : ℕ) (read : Bytes) :
    Agree Sized (fun x y => x = some y) (Checked.readHeaderLoop fd rounds read)
      (readHeaderLoop fd rounds read) := by
  induction rounds generalizing read with
  | zero => exact .ret rfl
  | succ rounds ih =>
      unfold Checked.readHeaderLoop readHeaderLoop
      by_cases hlt : read.length < kHeaderSize
      · have hoffset : (UInt64.ofNat read.length).toNat ≤ offMax := by
          rw [UInt64.toNat_ofNat', offMax]
          rw [kHeaderSize_eq] at hlt
          omega
        rw [if_pos hlt, if_pos hlt]
        refine (preadSome_agree hoffset).bind ?_
        rintro x (s | bytes) ⟨rfl, -⟩
        · exact .ret rfl
        · dsimp only
          split_ifs
          · exact .ret rfl
          · exact ih _
      · rw [if_neg hlt, if_neg hlt]
        exact .ret rfl

/-- `Head` evaluated nothing that wraps, and the size it found is bounded by the length of a file. -/
def Checked.Bounded (x : Option (StatusOr HeadChunkResponse)) (y : StatusOr HeadChunkResponse) : Prop :=
  x = some y ∧ ∀ response, y = .ok response → response.size.toNat + 80 ≤ offMax

/-- The guard before `size + 80` is what keeps it from wrapping. -/
theorem header_size_fits {size : UInt64}
    (h : ¬ size > UInt64.ofNat (2 ^ 64 - 1) - UInt64.ofNat kHeaderSize) :
    (size + UInt64.ofNat kHeaderSize).toNat = size.toNat + 80 := by
  have hlimit : (UInt64.ofNat (2 ^ 64 - 1) - UInt64.ofNat kHeaderSize).toNat = 2 ^ 64 - 81 := by
    decide
  have hle : size.toNat ≤ 2 ^ 64 - 81 := by
    rw [← hlimit]
    exact Nat.le_of_not_lt h
  have h80 : (UInt64.ofNat kHeaderSize).toNat = 80 := rfl
  rw [UInt64.toNat_add, h80]
  omega

theorem readHeader_agree (fd : ℕ) (chunkId : ChunkId) :
    Agree Sized Checked.Bounded (Checked.readHeader fd chunkId) (readHeader fd chunkId) := by
  have failed : ∀ message, Agree Sized Checked.Bounded (.ret (some (.ofStatus message)))
      (.ret (.ofStatus message)) :=
    fun message => .ret ⟨rfl, fun response h => absurd h (by simp [StatusOr.ofStatus])⟩
  unfold Checked.readHeader readHeader
  refine (readHeaderLoop_agree fd kHeaderSize []).bind ?_
  rintro x (s | header) rfl
  · exact .ret ⟨rfl, fun response h => absurd h (by simp)⟩
  · dsimp only
    generalize leDecode ((header.drop kMagic.length).take 8) = size
    generalize (⟨.kBlake3, (header.drop (kMagic.length + 8)).take kChecksumLength⟩ : Checksum) = checksum
    by_cases hmagic : header.take kMagic.length ≠ kMagic
    · rw [if_pos hmagic, if_pos hmagic]
      exact failed _
    · rw [if_neg hmagic, if_neg hmagic]
      by_cases hchecksum : (!(validateChecksum checksum).ok) = true
      · rw [if_pos hchecksum, if_pos hchecksum]
        exact failed _
      · rw [if_neg hchecksum, if_neg hchecksum]
        refine Agree.perform fun r hr => ?_
        cases r with
        | error e => exact failed _
        | ok stSize =>
            have hstat : stSize ≤ offMax := hr stSize rfl
            dsimp only
            by_cases hbig : size > UInt64.ofNat (2 ^ 64 - 1) - UInt64.ofNat kHeaderSize
            · rw [if_pos hbig, if_pos (Or.inl hbig)]
              exact failed _
            · have hsum := header_size_fits hbig
              have h80 : (UInt64.ofNat kHeaderSize).toNat = 80 := rfl
              have hlt := (size + UInt64.ofNat kHeaderSize).toNat_lt
              rw [if_neg hbig, Checked.add_eq (by rw [h80, ← hsum]; exact hlt)]
              dsimp only
              by_cases hne : UInt64.ofNat stSize ≠ size + UInt64.ofNat kHeaderSize
              · rw [if_pos hne, if_pos (Or.inr hne)]
                exact failed _
              · rw [if_neg hne, if_neg (by rw [not_or]; exact ⟨hbig, hne⟩)]
                refine .ret ⟨rfl, fun response h => ?_⟩
                obtain rfl := Except.ok.inj h
                have heq := congrArg UInt64.toNat (not_not.1 hne)
                rw [hsum, UInt64.toNat_ofNat'] at heq
                simp only [offMax] at hstat ⊢
                omega

theorem head_agree (root : Bytes) (chunkId : ChunkId) :
    Agree Sized Checked.Bounded (Checked.head root chunkId) (head root chunkId) := by
  unfold Checked.head head
  dsimp only
  split_ifs
  · exact .ret ⟨rfl, fun response h => absurd h (by simp [StatusOr.ofStatus])⟩
  · refine Agree.perform fun r _ => ?_
    cases r with
    | error e => exact .ret ⟨rfl, fun response h => absurd h (by simp [StatusOr.ofStatus])⟩
    | ok fd => exact readHeader_agree fd chunkId

theorem getLoop_agree (fd rounds : ℕ) (remaining offset : UInt64)
    (h : offset.toNat + remaining.toNat ≤ offMax) :
    Agree Sized (fun x y => x = some y) (Checked.getLoop fd rounds remaining offset)
      (getLoop fd rounds remaining offset) := by
  induction rounds generalizing remaining offset with
  | zero => exact .ret rfl
  | succ rounds ih =>
      unfold Checked.getLoop getLoop
      by_cases hpos : remaining > 0
      · rw [if_pos hpos, if_pos hpos]
        refine (preadSome_agree (by omega)).bind ?_
        rintro x (s | bytes) ⟨rfl, hcount⟩
        · exact .ret rfl
        · have hle : bytes.length ≤ remaining.toNat := (hcount bytes rfl).trans (min_le_left _ _)
          have hlt := remaining.toNat_lt
          have hnat : (UInt64.ofNat bytes.length).toNat = bytes.length := by
            rw [UInt64.toNat_ofNat']
            omega
          dsimp only
          split_ifs
          · exact .ret rfl
          · refine Agree.perform fun status _ => ?_
            cases hok : status.ok with
            | false => exact .ret rfl
            | true =>
                simp only [Bool.not_true, Bool.false_eq_true, if_false]
                rw [Checked.sub_eq (by omega), Checked.add_eq (by simp only [offMax] at h; omega)]
                refine ih _ _ ?_
                rw [toNat_sub_block hle, toNat_add_block (by omega)]
                omega
      · rw [if_neg hpos, if_neg hpos]
        exact .ret rfl

theorem get_agree (root : Bytes) (request : GetChunkRequest) :
    Agree Sized (fun x y => x = some y) (Checked.get root request) (get root request) := by
  unfold Checked.get get
  refine (head_agree root request.chunkId).bind ?_
  rintro x (s | response) ⟨rfl, hsize⟩
  · exact .ret rfl
  · dsimp only
    rw [validateByteRange_checked]
    dsimp only
    split_ifs with hvalid
    · exact .ret rfl
    · refine Agree.perform fun r _ => ?_
      cases r with
      | error e => exact .ret rfl
      | ok fd =>
          have hin := (validateByteRange_ok request.range response.size).1 (by simpa using hvalid)
          have hbound := hsize response rfl
          have hoffset : (request.range.offset + UInt64.ofNat kHeaderSize).toNat
              = request.range.offset.toNat + 80 :=
            toNat_add_block (by rw [kHeaderSize_eq]; omega)
          have h80 : (UInt64.ofNat kHeaderSize).toNat = 80 := rfl
          dsimp only
          rw [Checked.add_eq (by rw [h80]; simp only [offMax] at hbound; omega)]
          exact getLoop_agree fd _ _ _ (by rw [hoffset]; omega)

theorem receive_agree (B : Blake3) (request : PutChunkRequest) (fd rounds : ℕ) (hasher : B.Hasher)
    (received : UInt64) :
    Agree Sized (fun x y => x = some y) (Checked.receive B request fd rounds hasher received)
      (receive B request fd rounds hasher received) := by
  have hwrite : ∀ (rounds : ℕ) (data : Bytes), Agree Sized (fun x y => x = y)
      (writeAllLoop (B := Streams) fd rounds data) (writeAllLoop fd rounds data) := by
    intro rounds
    induction rounds with
    | zero => exact fun _ => .ret rfl
    | succ rounds ih =>
        intro data
        unfold writeAllLoop
        split_ifs
        · exact .ret rfl
        · refine Agree.retrying fun r _ => ?_
          cases r with
          | wrote n => exact ih _
          | nothing e => exact .ret rfl
          | failed e => exact .ret rfl
  induction rounds generalizing hasher received with
  | zero => exact .ret rfl
  | succ rounds ih =>
      unfold Checked.receive receive
      refine Agree.perform fun r _ => ?_
      rcases r with s | bytes
      · exact .ret rfl
      · dsimp only
        by_cases h0 : bytes.length = 0
        · rw [if_pos h0, if_pos h0]
          exact .ret rfl
        · rw [if_neg h0, if_neg h0]
          by_cases hearly : bytes.length > kBufferSize ∨ received > request.expectedSize
          · rw [if_pos hearly, if_pos (by tauto)]
            exact .ret rfl
          · have hle : received.toNat ≤ request.expectedSize.toNat :=
              Nat.le_of_not_lt fun hlt => hearly (Or.inr hlt)
            rw [if_neg hearly, Checked.sub_eq hle]
            dsimp only
            by_cases hlong : UInt64.ofNat bytes.length > request.expectedSize - received
            · rw [if_pos hlong, if_pos (Or.inr (Or.inr hlong))]
              exact .ret rfl
            · have hall : ¬ (bytes.length > kBufferSize ∨ received > request.expectedSize ∨
                  UInt64.ofNat bytes.length > request.expectedSize - received) := by tauto
              rw [if_neg hlong, if_neg hall]
              refine (hwrite bytes.length bytes).bind ?_
              rintro status _ rfl
              cases hok : status.ok with
              | false => exact .ret rfl
              | true =>
                  rw [block_too_long_iff hle] at hall
                  have hlt := request.expectedSize.toNat_lt
                  have hnat : (UInt64.ofNat bytes.length).toNat = bytes.length := by
                    rw [UInt64.toNat_ofNat']
                    omega
                  simp only [Bool.not_true, Bool.false_eq_true, if_false]
                  rw [Checked.add_eq (by omega)]
                  exact ih _ _

/-! ## Every run -/

section Runs

variable {σ τ : Type}

/-- An environment in which anything may happen to the files before each operation. -/
def disturbed (h : Handler StoreSig (StoreWorld σ τ) Outcome) :
    Handler StoreSig (StoreWorld σ τ) ((FS → FS) × Outcome) :=
  fun op w x => h op { w with fs := x.1 w.fs } x.2

/-- Whatever the files hold, the replies are sized. -/
theorem sized_handler (me : ℕ) (input : ChunkInputStream σ) (output : ChunkOutputStream τ)
    (op : StoreSig.Op) (w : StoreWorld σ τ) (o : Outcome) :
    Sized op (World.handler me (streams input output) op w o).1 := by
  cases op with
  | inr t => cases t <;> trivial
  | inl s =>
      rcases hexec : s.exec me w.fds w.fs o with ⟨r, fds', fs'⟩
      rw [World.handler_sys hexec]
      cases s with
      | pread fd count offset =>
          intro bytes hbytes
          obtain rfl : r = .ok bytes := hbytes
          rcases orFails_cases hexec with ⟨e, -, -, hr, -⟩ | hread
          · exact absurd hr (by simp)
          · unfold sysPread at hread
            split at hread
            · exact absurd (Prod.mk.inj hread).1 (by simp)
            · obtain rfl := Except.ok.inj (Prod.mk.inj hread).1
              exact (List.length_take_le _ _).trans (o.amount_le count)
      | fstat fd =>
          intro n hn
          obtain rfl : r = .ok n := hn
          rcases orFails_cases hexec with ⟨e, -, -, hr, -⟩ | hstat
          · exact absurd hr (by simp)
          · unfold sysFstat at hstat
            split at hstat
            · exact absurd (Prod.mk.inj hstat).1 (by simp)
            · next i _ =>
                obtain rfl := Except.ok.inj (Prod.mk.inj hstat).1
                exact i.data_le
      | _ => trivial

/-- In every run the checked program goes through the same states as the program itself, and where one
    returns the other returns the same: nothing that was evaluated has wrapped. -/
def NeverWraps {α W O : Type} (h : Handler StoreSig W O) (w : W)
    (checked : Program StoreSig (Option α)) (p : Program StoreSig α) : Prop :=
  ∀ (ω : ℕ → O) (n : ℕ),
    (Config.exec h (checked, w) ω n).2 = (Config.exec h (p, w) ω n).2 ∧
    ∀ x, (Config.exec h (checked, w) ω n).1 = .ret x ↔
      ∃ a, x = some a ∧ (Config.exec h (p, w) ω n).1 = .ret a

theorem NeverWraps.of_agree {α : Type} {R : Option α → α → Prop} {checked : Program StoreSig (Option α)}
    {p : Program StoreSig α} (hagree : Agree Sized R checked p) (hR : ∀ x a, R x a → x = some a)
    (me : ℕ) (input : ChunkInputStream σ) (output : ChunkOutputStream τ) (w : StoreWorld σ τ) :
    NeverWraps (disturbed (World.handler me (streams input output))) w checked p := by
  intro ω n
  obtain ⟨hworld, hprog⟩ := hagree.exec
    (h := disturbed (World.handler me (streams input output)))
    (fun op w x => sized_handler me input output op _ x.2) w ω n
  refine ⟨hworld, fun x => ?_⟩
  generalize (Config.exec (disturbed (World.handler me (streams input output))) (checked, w) ω n).1
    = q at hprog ⊢
  generalize (Config.exec (disturbed (World.handler me (streams input output))) (p, w) ω n).1
    = q' at hprog ⊢
  cases hprog with
  | ret hab =>
      obtain rfl := hR _ _ hab
      constructor
      · intro hx
        exact ⟨_, (Program.ret.inj hx).symm, rfl⟩
      · rintro ⟨a, rfl, ha⟩
        rw [Program.ret.inj ha]
  | call _ =>
      constructor
      · intro hx
        exact absurd hx (by simp)
      · rintro ⟨a, -, ha⟩
        exact absurd ha (by simp)

/-- **No 64-bit arithmetic of the store wraps**, for every range, expected size, file contents and
    schedule of short transfers, and whatever happens to the files between two operations: `Get`,
    `Head` and the receive loop of `Put` cannot be told from their checked versions, which stop where
    an operation differs from the one on the integers or the offset of a `pread` exceeds the platform's
    limit. `ValidateByteRange` accepts exactly the ranges that end inside the object. -/
theorem arithmetic_never_wraps (B : Blake3) (root : Bytes) (me : ℕ) (input : ChunkInputStream σ)
    (output : ChunkOutputStream τ) (w : StoreWorld σ τ) :
    (∀ request, NeverWraps (disturbed (World.handler me (streams input output))) w
      (Checked.get root request) (get root request)) ∧
    (∀ chunkId, NeverWraps (disturbed (World.handler me (streams input output))) w
      (Checked.head root chunkId) (head root chunkId)) ∧
    (∀ request fd, NeverWraps (disturbed (World.handler me (streams input output))) w
      (Checked.receive B request fd (request.expectedSize.toNat + 1) B.init 0)
      (receive B request fd (request.expectedSize.toNat + 1) B.init 0)) ∧
    (∀ range totalSize,
      Checked.validateByteRange range totalSize = some (validateByteRange range totalSize) ∧
      ((validateByteRange range totalSize).ok = true ↔
        range.offset.toNat + range.size.toNat ≤ totalSize.toNat)) := by
  refine ⟨fun request => ?_, fun chunkId => ?_, fun request fd => ?_, fun range totalSize => ?_⟩
  · exact NeverWraps.of_agree (get_agree root request) (fun _ _ h => h) me input output w
  · exact NeverWraps.of_agree (head_agree root chunkId) (fun _ _ h => h.1) me input output w
  · exact NeverWraps.of_agree (receive_agree B request fd _ B.init 0) (fun _ _ h => h) me input output w
  · exact ⟨validateByteRange_checked range totalSize, validateByteRange_ok range totalSize⟩

end Runs

end ChunkStorage
