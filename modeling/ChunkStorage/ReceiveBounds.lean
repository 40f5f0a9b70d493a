import ChunkStorage.Calls

set_option autoImplicit false

/-! # How far a stream can drive `Put`

The input of `Put` is controlled by a remote client and need not end. What bounds `Put` is a measure
on its receive loop, `expected_size` minus what was received, so the statements here are about the
points of the program: before each `Read` it stands at an iteration of the loop, with a count that
agrees with what was written. -/

namespace ChunkStorage

open Effects Posix Program

variable {σ τ α : Type}

/-- What a call has used so far: the bytes it wrote to files and the reads of its input. -/
structure Usage where
  written : ℕ
  reads : ℕ

/-- The usage after one more operation. -/
def Usage.next : (op : StoreSig.Op) → StoreSig.Ret op → Usage → Usage
  | .inl (.write _ _), r, u =>
      match r with
      | .wrote n => ⟨u.written + n, u.reads⟩
      | _ => u
  | .inr (.read _), _, u => ⟨u.written, u.reads + 1⟩
  | _, _, u => u

/-- The usage of a trace. -/
def usage : List (Event StoreSig) → Usage
  | [] => ⟨0, 0⟩
  | e :: events => Usage.next e.1 e.2 (usage events)

/-- A `write` that succeeds moves at least one byte and at most all of them. -/
def Moves : (op : StoreSig.Op) → StoreSig.Ret op → Prop
  | .inl (.write _ data), r => ∀ n, r = .wrote n → 0 < n ∧ n ≤ data.length
  | _, _ => True

/-! ## `WriteAll` -/

/-- The points of `WriteAll`, which is to bring the bytes written to `total`. -/
def WritePoint (total reads : ℕ) (u : Usage) : Program StoreSig Status → Prop
  | .ret status => u.reads = reads ∧ u.written ≤ total ∧ (status.ok = true → u.written = total)
  | .call op _ _ => u.reads = reads ∧ ∃ fd data, op = .inl (.write fd data) ∧
      u.written + data.length = total

theorem writeAllLoop_tracks (fd rounds : ℕ) (data : Bytes) (hrounds : data.length ≤ rounds)
    (u : Usage) {total : ℕ} (htotal : u.written + data.length = total) :
    (writeAllLoop fd rounds data).Tracks Moves Usage.next (WritePoint total u.reads) u := by
  induction rounds generalizing data u with
  | zero => exact ⟨rfl, by omega, fun _ => by omega⟩
  | succ rounds ih =>
      unfold writeAllLoop
      by_cases hempty : data.isEmpty = true
      · rw [if_pos hempty]
        have hzero : data.length = 0 := by rw [List.isEmpty_iff.1 hempty]; rfl
        exact ⟨rfl, by omega, fun _ => by omega⟩
      · rw [if_neg hempty]
        refine tracks_retrying ⟨rfl, fd, data, rfl, htotal⟩ ?_ ?_
        · intro r hr
          cases r with
          | wrote n => exact absurd hr (by simp [Syscall.interrupted])
          | nothing e => rfl
          | failed e => rfl
        · intro r hr _
          cases r with
          | wrote n =>
              obtain ⟨hpos, hle⟩ := hr n rfl
              exact ih (data.drop n) (by rw [List.length_drop]; omega) ⟨u.written + n, u.reads⟩
                (by rw [List.length_drop]; show u.written + n + _ = _; omega)
          | nothing e =>
              refine ⟨rfl, ?_, fun hok => absurd hok (by simp)⟩
              show u.written ≤ total
              omega
          | failed e =>
              refine ⟨rfl, ?_, fun hok => absurd hok (by simp)⟩
              show u.written ≤ total
              omega

/-! ## The receive loop -/

/-- The answer to a block that is too long. -/
def tooLong : Status := .of .kCorruption (ascii "received more bytes than expected")

/-- What holds before an operation of `Put`, if `bad` is its rest after a block that is too long. -/
def CallPoint (B : Blake3) (request : PutChunkRequest) (temp : Path) (bad : Program StoreSig α)
    (u : Usage) : (op : StoreSig.Op) → (StoreSig.Ret op → Bool) →
    (StoreSig.Ret op → Program StoreSig α) → Prop
  | .inl (.write _ data), _, _ => u.written + data.length ≤ 80 + request.expectedSize.toNat
  | .inl (.link _ new), _, _ => new ≠ temp
  | .inl (.openRead _), _, _ | .inl (.pread _ _ _), _, _ | .inl (.read _ _), _, _
  | .inl (.fstat _), _, _ | .inl (.exists _), _, _ => False
  | .inr (.read size), again, k =>
      size = kBufferSize ∧ u.reads ≤ request.expectedSize.toNat ∧
      (∀ bytes : Bytes, kBufferSize < bytes.length → k (Except.ok bytes : StatusOr Bytes) = bad) ∧
      ∃ fd rounds hasher received f,
        Program.call (S := StoreSig) (.inr (.read size)) again k
          = receive B request fd (rounds + 1) hasher received >>= f ∧
        received.toNat ≤ request.expectedSize.toNat ∧ u.written = 80 + received.toNat
  | _, _, _ => True

/-- What holds at every point of `Put`. -/
structure PutPoint (B : Blake3) (request : PutChunkRequest) (temp : Path) (bad : Program StoreSig α)
    (u : Usage) (p : Program StoreSig α) : Prop where
  reads : u.reads ≤ request.expectedSize.toNat + 1
  written : u.written ≤ 80 + request.expectedSize.toNat
  call : ∀ op again k, p = .call op again k → CallPoint B request temp bad u op again k

section Points

variable {B : Blake3} {request : PutChunkRequest} {temp : Path} {u : Usage}

theorem PutPoint.ret {bad : Program StoreSig α} (a : α)
    (hreads : u.reads ≤ request.expectedSize.toNat + 1)
    (hwritten : u.written ≤ 80 + request.expectedSize.toNat) :
    PutPoint B request temp bad u (.ret a) :=
  ⟨hreads, hwritten, fun _ _ _ h => absurd h (by simp)⟩

theorem PutPoint.of_call {bad : Program StoreSig α} {op : StoreSig.Op} {again : StoreSig.Ret op → Bool}
    {k : StoreSig.Ret op → Program StoreSig α} (hreads : u.reads ≤ request.expectedSize.toNat + 1)
    (hwritten : u.written ≤ 80 + request.expectedSize.toNat)
    (hcall : CallPoint B request temp bad u op again k) :
    PutPoint B request temp bad u (.call op again k) := by
  refine ⟨hreads, hwritten, fun op' again' k' h => ?_⟩
  obtain ⟨rfl, hagain, hk⟩ := Program.call.inj h
  obtain rfl := eq_of_heq hagain
  obtain rfl := eq_of_heq hk
  exact hcall

/-- A point of a part of `Put`, followed by the rest. -/
theorem PutPoint.bind {β : Type} {bad : Program StoreSig β} {op : StoreSig.Op}
    {again : StoreSig.Ret op → Bool} {k : StoreSig.Ret op → Program StoreSig β}
    (h : PutPoint B request temp bad u (.call op again k)) {f : β → Program StoreSig α}
    {bad' : Program StoreSig α} (hbad' : bad >>= f = bad') :
    PutPoint B request temp bad' u (.call op again fun r => k r >>= f) := by
  subst hbad'
  refine .of_call h.reads h.written ?_
  have hcall := h.call op again k rfl
  cases op with
  | inl s => cases s <;> exact hcall
  | inr t =>
      cases t with
      | write data => trivial
      | read size =>
          obtain ⟨hsize, hreads, hbad, fd, rounds, hasher, received, g, hp, hreceived, hwritten⟩ :=
            hcall
          refine ⟨hsize, hreads, fun bytes hlong => congrArg (· >>= f) (hbad bytes hlong), fd, rounds,
            hasher, received, fun r => g r >>= f, ?_, hreceived, hwritten⟩
          rw [← Program.bind_assoc, ← hp]
          rfl

/-- The rest of the receive loop after a read. -/
theorem receive_succ (request : PutChunkRequest) (fd rounds : ℕ) (hasher : B.Hasher) (received : UInt64) :
    ∃ k, receive B request fd (rounds + 1) hasher received
        = .call (.inr (.read kBufferSize)) (fun _ => false) k ∧
      (∀ e : ErrorStatus, k (Except.error e : StatusOr Bytes) = .ret (.error e.1)) ∧
      (∀ bytes : Bytes, bytes.length = 0 →
        k (Except.ok bytes : StatusOr Bytes) = .ret (.ok (hasher, received))) ∧
      (∀ bytes : Bytes, bytes.length ≠ 0 → (bytes.length > kBufferSize ∨
          received > request.expectedSize ∨
          UInt64.ofNat bytes.length > request.expectedSize - received) →
        k (Except.ok bytes : StatusOr Bytes) = .ret (.error tooLong)) ∧
      ∀ bytes : Bytes, bytes.length ≠ 0 → ¬ (bytes.length > kBufferSize ∨
          received > request.expectedSize ∨
          UInt64.ofNat bytes.length > request.expectedSize - received) →
        k (Except.ok bytes : StatusOr Bytes) = (do
          let status ← writeAll fd bytes
          if !status.ok then return .error status
          receive B request fd rounds (B.update hasher bytes)
            (received + UInt64.ofNat bytes.length)) := by
  refine ⟨_, rfl, fun e => rfl, ?_, ?_, ?_⟩
  · intro bytes h0
    exact if_pos h0
  · intro bytes h0 hlong
    exact (if_neg h0).trans (if_pos hlong)
  · intro bytes h0 hfits
    exact (if_neg h0).trans (if_neg hfits)

/-- What `block_too_long_iff` lets through, over the unbounded integers. -/
theorem toNat_received {received expected : UInt64} {n : ℕ} (h : received.toNat ≤ expected.toNat)
    (hfits : ¬ (n > kBufferSize ∨ n > expected.toNat - received.toNat)) :
    (received + UInt64.ofNat n).toNat = received.toNat + n := by
  have hlt := expected.toNat_lt
  rw [UInt64.toNat_add, UInt64.toNat_ofNat']
  omega

/-- The bound on the rounds of the receive loop is never what ends it: with any larger one it is the
    same program. -/
theorem receive_rounds (fd : ℕ) (rounds rounds' : ℕ) (hasher : B.Hasher) (received : UInt64)
    (hreceived : received.toNat ≤ request.expectedSize.toNat)
    (h : request.expectedSize.toNat - received.toNat < rounds)
    (h' : request.expectedSize.toNat - received.toNat < rounds') :
    receive B request fd rounds hasher received = receive B request fd rounds' hasher received := by
  induction rounds generalizing rounds' hasher received with
  | zero => omega
  | succ rounds ih =>
      cases rounds' with
      | zero => omega
      | succ rounds' =>
          obtain ⟨k, hk, hfail, hend, hlong, hmore⟩ := receive_succ (B := B) request fd rounds
            hasher received
          obtain ⟨k', hk', hfail', hend', hlong', hmore'⟩ := receive_succ (B := B) request fd
            rounds' hasher received
          rw [hk, hk']
          refine congrArg _ (funext fun r => ?_)
          rcases r with e | bytes
          · rw [hfail, hfail']
          · by_cases h0 : bytes.length = 0
            · rw [hend bytes h0, hend' bytes h0]
            · by_cases hbig : bytes.length > kBufferSize ∨ received > request.expectedSize ∨
                  UInt64.ofNat bytes.length > request.expectedSize - received
              · rw [hlong bytes h0 hbig, hlong' bytes h0 hbig]
              · rw [hmore bytes h0 hbig, hmore' bytes h0 hbig]
                rw [block_too_long_iff hreceived] at hbig
                have hadd := toNat_received hreceived hbig
                rw [ih rounds' _ _ (by rw [hadd]; omega) (by rw [hadd]; omega) (by rw [hadd]; omega)]

theorem receive_tracks (fd rounds : ℕ) (hasher : B.Hasher) (received : UInt64)
    (hreceived : received.toNat ≤ request.expectedSize.toNat)
    (hrounds : request.expectedSize.toNat - received.toNat < rounds) (u : Usage)
    (hwritten : u.written = 80 + received.toNat) (hreads : u.reads ≤ received.toNat) :
    (receive B request fd rounds hasher received).Tracks Moves Usage.next
      (PutPoint B request temp (.ret (.error tooLong))) u := by
  induction rounds generalizing hasher received u with
  | zero => omega
  | succ rounds ih =>
      obtain ⟨k, hk, hfail, hend, hlong, hmore⟩ := receive_succ (B := B) request fd rounds
        hasher received
      rw [hk]
      refine ⟨.of_call (by omega) (by omega) ⟨rfl, by omega, fun bytes hbig => ?_, fd, rounds, hasher,
        received, .ret, ?_, hreceived, hwritten⟩, fun r _ => ?_⟩
      · have hpos : bytes.length ≠ 0 := by
          simp only [kBufferSize] at hbig
          omega
        exact hlong bytes hpos (Or.inl hbig)
      · rw [hk, bind_ret]
      · simp only [Bool.false_eq_true, if_false]
        have hreads' : (Usage.next (.inr (.read kBufferSize)) r u).reads = u.reads + 1 := rfl
        have hwritten' : (Usage.next (.inr (.read kBufferSize)) r u).written = u.written := rfl
        rcases r with e | bytes
        · rw [hfail]
          exact .ret _ (by omega) (by omega)
        · by_cases h0 : bytes.length = 0
          · rw [hend bytes h0]
            exact .ret _ (by omega) (by omega)
          · by_cases hbig : bytes.length > kBufferSize ∨ received > request.expectedSize ∨
                UInt64.ofNat bytes.length > request.expectedSize - received
            · rw [hlong bytes h0 hbig]
              exact .ret _ (by omega) (by omega)
            · rw [hmore bytes h0 hbig]
              rw [block_too_long_iff hreceived] at hbig
              have hadd := toNat_received hreceived hbig
              refine (writeAllLoop_tracks fd bytes.length bytes le_rfl
                ⟨u.written, u.reads + 1⟩ rfl).bind ?_ ?_
              · rintro v op again k' ⟨hr, fd', data, rfl, htotal⟩
                dsimp only at hr htotal
                exact .of_call (by omega) (by omega) (by show v.written + data.length ≤ _; omega)
              · rintro v status ⟨hr, hle, hall⟩
                dsimp only at hr hle hall
                cases hok : status.ok with
                | false => exact .ret _ (by omega) (by omega)
                | true =>
                    have hv := hall hok
                    exact ih _ _ (by rw [hadd]; omega) (by rw [hadd]; omega) v (by rw [hadd]; omega)
                      (by rw [hadd]; omega)

/-! ## The rest of `Put` -/

theorem fill_tracks (fd : ℕ) (hsum : request.expectedChecksum.WellFormed) :
    (fill B request temp fd).Tracks Moves Usage.next
      (PutPoint B request temp (.ret (.error tooLong))) ⟨0, 0⟩ := by
  have hheader : (makeHeader request.expectedSize request.expectedChecksum).length = 80 :=
    length_makeHeader hsum
  have hzero : (0 : UInt64).toNat = 0 := rfl
  unfold fill
  refine (writeAllLoop_tracks fd _ _ le_rfl ⟨0, 0⟩ rfl).bind ?_ ?_
  · rintro u op again k ⟨hr, fd', data, rfl, htotal⟩
    dsimp only at hr htotal
    exact .of_call (by omega) (by omega) (by show u.written + data.length ≤ _; omega)
  · rintro u status ⟨hr, hle, hall⟩
    dsimp only at hr hle hall
    cases hok : status.ok with
    | false => exact .ret _ (by omega) (by omega)
    | true =>
        have hu := hall hok
        simp only [Bool.not_true, Bool.false_eq_true, if_false]
        refine Tracks.bind (M := PutPoint B request temp (.ret (.error tooLong)))
          (receive_tracks fd _ B.init 0 (by omega) (by omega) u (by omega) (by omega)) ?_ ?_
        · intro v op again k hpoint
          exact hpoint.bind rfl
        · rintro v r ⟨hreads, hwritten, -⟩
          rcases r with status | ⟨hasher, received⟩
          · exact .ret _ hreads hwritten
          · dsimp only
            split_ifs
            · exact .ret _ hreads hwritten
            · exact .ret _ hreads hwritten
            · refine tracks_perform (.of_call hreads hwritten trivial) fun r _ => ?_
              cases r with
              | error e => exact .ret _ hreads hwritten
              | ok _ => exact .ret _ hreads hwritten

/-- What `Put` does after a block that is too long: it removes its temporary file and says so. -/
def giveUp (temp : Path) : Program StoreSig Status := do
  let _ ← sys (.unlink temp)
  return tooLong

theorem commit_tracks {root : Bytes} (hne : pathFor root request.chunkId ≠ temp)
    (hreads : u.reads ≤ request.expectedSize.toNat + 1)
    (hwritten : u.written ≤ 80 + request.expectedSize.toNat) :
    (commit root request temp).Tracks Moves Usage.next (PutPoint B request temp (giveUp temp)) u := by
  unfold commit
  refine tracks_perform (.of_call hreads hwritten hne) fun r _ => ?_
  cases r with
  | error e =>
      refine tracks_perform (.of_call hreads hwritten trivial) fun r _ => ?_
      split_ifs
      · exact .ret _ hreads hwritten
      · exact .ret _ hreads hwritten
  | ok _ =>
      refine tracks_perform (.of_call hreads hwritten trivial) fun r _ => ?_
      refine tracks_perform (.of_call hreads hwritten trivial) fun r _ => ?_
      cases r with
      | error e => exact .ret _ hreads hwritten
      | ok _ =>
          refine tracks_perform (.of_call hreads hwritten trivial) fun r _ => ?_
          cases r with
          | error e => exact .ret _ hreads hwritten
          | ok _ => exact .ret _ hreads hwritten

theorem put_tracks (request : PutChunkRequest) (root : Bytes) (pid address : ℕ) :
    (put B root request pid address).Tracks Moves Usage.next
      (PutPoint B request (tempPath root request.chunkId pid address)
        (giveUp (tempPath root request.chunkId pid address))) ⟨0, 0⟩ := by
  have hne := tempPath_ne_pathFor root request.chunkId request.chunkId pid address
  unfold put
  dsimp only
  split_ifs with hid hsum
  · exact .ret _ (Nat.zero_le _) (Nat.zero_le _)
  · exact .ret _ (Nat.zero_le _) (Nat.zero_le _)
  · have hwell : request.expectedChecksum.WellFormed := (validateChecksum_ok _).1 (by simpa using hsum)
    refine tracks_perform (.of_call (Nat.zero_le _) (Nat.zero_le _) trivial) fun r _ => ?_
    cases r with
    | error e => exact .ret _ (Nat.zero_le _) (Nat.zero_le _)
    | ok _ =>
        refine tracks_perform (.of_call (Nat.zero_le _) (Nat.zero_le _) trivial) fun r _ => ?_
        cases r with
        | error e => exact .ret _ (Nat.zero_le _) (Nat.zero_le _)
        | ok fd =>
            refine (fill_tracks fd hwell).bind ?_ ?_
            · intro v op again k hpoint
              exact hpoint.bind rfl
            · rintro v r ⟨hreads, hwritten, -⟩
              cases r with
              | error status =>
                  refine tracks_perform (.of_call hreads hwritten trivial) fun r _ => ?_
                  exact .ret _ hreads hwritten
              | ok _ => exact commit_tracks (Ne.symm hne) hreads hwritten

end Points

/-! ## The temporary file -/

/-- An operation adds its own usage, also where it was interrupted and is not in the trace. -/
theorem usage_answered (w : StoreWorld σ τ) (s : Syscall) (r : s.Ret) (fds : List OpenFile) (fs : FS) :
    usage (w.answered s r fds fs).trace = Usage.next (.inl s) r (usage w.trace) := by
  unfold World.answered
  dsimp only
  split
  · next hint =>
      cases s with
      | write fd data =>
          cases r with
          | wrote n => exact absurd hint (by simp [Syscall.interrupted])
          | nothing e => rfl
          | failed e => rfl
      | _ => rfl
  · rfl

/-- Files that `Put` created are no longer than what it wrote, and its temporary name leads to such a
    file, if anywhere. There were `base` files before. -/
structure Confined (base : ℕ) (temp : Path) (w : StoreWorld σ τ) : Prop where
  files : base ≤ w.fs.inodes.length
  offset : ∀ f ∈ w.fds, f.offset ≤ (usage w.trace).written
  length : ∀ (i : ℕ) n, base ≤ i → w.fs.inodes[i]? = some n →
    n.data.length ≤ (usage w.trace).written
  entry : ∀ i, w.fs.dir temp = some i → base ≤ i

section Confined

variable {B : Blake3} {request : PutChunkRequest} {temp : Path} {base : ℕ} {w : StoreWorld σ τ}

theorem Confined.contents_le (h : Confined base temp w) {d : Bytes}
    (hd : w.fs.contents temp = some d) : d.length ≤ (usage w.trace).written := by
  unfold FS.contents at hd
  cases hi : w.fs.dir temp with
  | none => simp [hi] at hd
  | some i =>
      obtain ⟨n, hn⟩ := w.fs.dir_eq_some hi
      simp only [hi, Option.bind_some, hn, Option.map_some, Option.some.injEq] at hd
      exact hd ▸ h.length i n (h.entry i hi) hn

/-- A call that changes nothing but the trace. -/
theorem Confined.same (h : Confined base temp w) {w' : StoreWorld σ τ} (hfds : w'.fds = w.fds)
    (hfs : w'.fs = w.fs) (husage : (usage w'.trace).written = (usage w.trace).written) :
    Confined base temp w' where
  files := hfs ▸ h.files
  offset f hf := by
    rw [husage]
    exact h.offset f (hfds ▸ hf)
  length i n hi hn := by
    rw [husage]
    exact h.length i n hi (hfs ▸ hn)
  entry i hi := h.entry i (hfs ▸ hi)

theorem Confined.created (h : Confined base temp w) (p : Path) (me : ℕ) {w' : StoreWorld σ τ}
    (hfds : w'.fds = w.fds ++ [⟨w.fs.inodes.length, 0⟩]) (hfs : w'.fs = w.fs.create p me)
    (husage : (usage w'.trace).written = (usage w.trace).written) : Confined base temp w' where
  files := by
    rw [hfs, FS.create_inodes, List.length_append]
    exact h.files.trans (Nat.le_add_right _ _)
  offset f hf := by
    rw [hfds, List.mem_append] at hf
    rcases hf with hf | hf
    · rw [husage]
      exact h.offset f hf
    · rw [List.mem_singleton.1 hf]
      exact Nat.zero_le _
  length i n hi hn := by
    rw [hfs, FS.create_inodes] at hn
    rw [husage]
    rcases Nat.lt_or_ge i w.fs.inodes.length with hlt | hge
    · rw [List.getElem?_append_left hlt] at hn
      exact h.length i n hi hn
    · rw [List.getElem?_append_right hge] at hn
      obtain ⟨-, rfl⟩ := List.getElem?_eq_some_iff.1 hn
      simp [Inode.fresh]
  entry i hi := by
    rw [hfs, FS.create_dir] at hi
    split at hi
    · rw [← Option.some.inj hi]
      exact h.files
    · exact h.entry i hi

/-- A `write` moves the position and the end of its file by what it wrote, at most. -/
theorem Confined.wrote (h : Confined base temp w) {fd n : ℕ} {f : OpenFile} {data : Bytes}
    (hf : w.fds[fd]? = some f) (hn : n ≤ data.length) {w' : StoreWorld σ τ}
    (hfds : w'.fds = w.fds.set fd ⟨f.ino, f.offset + n⟩)
    (hfs : w'.fs = w.fs.modify f.ino fun i => i.write f.offset (data.take n))
    (husage : (usage w'.trace).written = (usage w.trace).written + n) : Confined base temp w' where
  files := by
    rw [hfs]
    simpa [FS.modify] using h.files
  offset g hg := by
    have hoff := h.offset f (List.mem_of_getElem? hf)
    rw [husage]
    rw [hfds] at hg
    rcases List.mem_or_eq_of_mem_set hg with hmem | rfl
    · exact (h.offset g hmem).trans (Nat.le_add_right _ _)
    · exact Nat.add_le_add_right hoff n
  length i m hi hm := by
    have hoff := h.offset f (List.mem_of_getElem? hf)
    rw [hfs, FS.modify_inodes] at hm
    rw [husage]
    obtain ⟨m₀, hm₀, rfl⟩ := Option.map_eq_some_iff.1 hm
    have hold := h.length i m₀ hi hm₀
    split
    · unfold Inode.write
      split
      · refine (length_overwrite_le _ _ _).trans (max_le (by omega) ?_)
        rw [List.length_take]
        omega
      · omega
    · omega
  entry i hi := by
    rw [hfs, FS.modify_dir] at hi
    exact h.entry i hi

/-- What a `write` does, on any descriptor. -/
theorem write_moves {me fd : ℕ} {data : Bytes} {fds fds' : List OpenFile} {fs fs' : FS} {o : Outcome}
    {r : WriteReply} (h : (Syscall.write fd data).exec me fds fs o = (r, fds', fs')) :
    ((∀ n, r ≠ .wrote n) ∧ fds' = fds ∧ fs' = fs) ∨
      ∃ f n, fds[fd]? = some f ∧ 0 < n ∧ n ≤ data.length ∧ r = .wrote n ∧
        fds' = fds.set fd ⟨f.ino, f.offset + n⟩ ∧
        fs' = fs.modify f.ino fun i => i.write f.offset (data.take n) := by
  cases hf : fds[fd]? with
  | none =>
      simp only [Syscall.exec, sysWrite, hf] at h
      split at h
      · obtain ⟨rfl, rfl, rfl⟩ := by simpa using h
        exact Or.inl ⟨by simp, rfl, rfl⟩
      · obtain ⟨rfl, rfl, rfl⟩ := by simpa using h
        exact Or.inl ⟨by simp, rfl, rfl⟩
      · obtain ⟨rfl, rfl, rfl⟩ := by simpa using h
        exact Or.inl ⟨by simp, rfl, rfl⟩
  | some f =>
      rcases write_cases hf h with ⟨⟨e, he⟩, rfl, rfl, -⟩ | ⟨n, hpos, hle, -, rfl, rfl, rfl⟩
      · refine Or.inl ⟨fun n hn => ?_, rfl, rfl⟩
        rcases he with rfl | rfl
        · exact absurd hn (by simp)
        · exact absurd hn (by simp)
      · exact Or.inr ⟨f, n, rfl, hpos, hle, rfl, rfl, rfl⟩

/-- A step that keeps the files and leads the temporary name nowhere new. -/
theorem Confined.kept (h : Confined base temp w) {w' : StoreWorld σ τ} (hfds : w'.fds = w.fds)
    (hlen : w'.fs.inodes.length = w.fs.inodes.length)
    (hfiles : ∀ (i : ℕ) n, w'.fs.inodes[i]? = some n →
      ∃ n₀, w.fs.inodes[i]? = some n₀ ∧ n.data = n₀.data)
    (hentry : ∀ i, w'.fs.dir temp = some i → w.fs.dir temp = some i)
    (husage : (usage w'.trace).written = (usage w.trace).written) : Confined base temp w' where
  files := hlen ▸ h.files
  offset f hf := by
    rw [husage]
    exact h.offset f (hfds ▸ hf)
  length i n hi hn := by
    obtain ⟨n₀, hn₀, hdata⟩ := hfiles i n hn
    rw [husage, hdata]
    exact h.length i n₀ hi hn₀
  entry i hi := h.entry i (hentry i hi)

/-- Every operation of `Put` keeps its files confined, and answers as `Moves` says. -/
theorem Confined.step {input : ChunkInputStream σ} {output : ChunkOutputStream τ} {me : ℕ}
    {bad : Program StoreSig α} {op : StoreSig.Op} {again : StoreSig.Ret op → Bool}
    {k : StoreSig.Ret op → Program StoreSig α}
    (hpoint : PutPoint B request temp bad (usage w.trace) (.call op again k))
    (h : Confined base temp w) (o : Outcome) :
    Confined base temp (World.handler me (streams input output) op w o).2 := by
  have hcall := hpoint.call op again k rfl
  cases op with
  | inr t =>
      cases t with
      | read size => exact h.same rfl rfl rfl
      | write data => exact h.same rfl rfl rfl
  | inl s =>
      rcases hexec : s.exec me w.fds w.fs o with ⟨r, fds', fs'⟩
      rw [World.handler_sys hexec]
      have husage := congrArg Usage.written (usage_answered w s r fds' fs')
      cases s with
      | openRead _ | pread _ _ _ | read _ _ | fstat _ | «exists» _ => exact hcall.elim
      | createDirectories d =>
          obtain ⟨rfl, rfl, -⟩ := createDirectories_cases hexec
          exact h.same rfl rfl husage
      | openDirectory d =>
          obtain ⟨rfl, rfl, -⟩ := openDirectory_cases hexec
          exact h.same rfl rfl husage
      | openExcl p =>
          rcases openExcl_cases hexec with ⟨e, rfl, rfl, rfl, -⟩ | ⟨rfl, rfl, rfl, -, -⟩
          · exact h.same rfl rfl husage
          · exact h.created p me rfl rfl husage
      | write fd data =>
          rcases write_moves hexec with ⟨hno, rfl, rfl⟩ | ⟨f, n, hf, -, hn, rfl, rfl, rfl⟩
          · refine h.same rfl rfl (husage.trans ?_)
            cases r with
            | wrote n => exact absurd rfl (hno n)
            | nothing e => rfl
            | failed e => rfl
          · exact h.wrote hf hn rfl rfl husage
      | fdatasync fd =>
          cases hf : w.fds[fd]? with
          | none =>
              obtain ⟨rfl, rfl⟩ : fds' = w.fds ∧ fs' = w.fs := by
                rcases orFails_cases hexec with ⟨e, -, -, -, hfds, hfs⟩ | hnone
                · exact ⟨hfds, hfs⟩
                · simp only [sysFdatasync, hf, Prod.mk.injEq] at hnone
                  exact ⟨hnone.2.1.symm, hnone.2.2.symm⟩
              exact h.same rfl rfl husage
          | some f =>
              obtain ⟨rfl, ⟨e, rfl, rfl, -⟩ | ⟨rfl, rfl⟩⟩ := fdatasync_cases hf hexec
              · exact h.same rfl rfl husage
              · refine h.kept rfl (by simp [FS.modify]) ?_ (fun i hi => hi) husage
                intro i n hn
                simp only [World.answered_fs, FS.modify_inodes] at hn
                obtain ⟨n₀, hn₀, rfl⟩ := Option.map_eq_some_iff.1 hn
                refine ⟨n₀, hn₀, ?_⟩
                split <;> rfl
      | link old new =>
          obtain ⟨rfl, ⟨e, rfl, rfl, -⟩ | ⟨i, hi, -, -, rfl, rfl⟩⟩ := link_cases hexec
          · exact h.same rfl rfl husage
          · refine h.kept rfl (by simp [FS.bind]) ?_ ?_ husage
            · intro j n hn
              simp only [World.answered_fs, FS.bind_inodes] at hn
              obtain ⟨n₀, hn₀, rfl⟩ := Option.map_eq_some_iff.1 hn
              refine ⟨n₀, hn₀, ?_⟩
              split <;> rfl
            · intro j hj
              have hnew : new ≠ temp := hcall
              simpa [hnew] using hj
      | unlink p =>
          obtain ⟨rfl, ⟨e, rfl, rfl, -⟩ | ⟨i, -, rfl, rfl⟩⟩ := unlink_cases hexec
          · exact h.same rfl rfl husage
          · refine h.kept rfl rfl (fun i n hn => ⟨n, hn, rfl⟩) ?_ husage
            intro j hj
            rw [World.answered_fs, FS.remove_dir] at hj
            split at hj
            · exact absurd hj (by simp)
            · exact hj
      | fsync d =>
          obtain ⟨rfl, ⟨e, rfl, rfl, -⟩ | ⟨rfl, rfl⟩⟩ := fsync_cases hexec
          · exact h.same rfl rfl husage
          · exact h.kept rfl rfl (fun i n hn => ⟨n, hn, rfl⟩) (fun i hi => by simpa using hi) husage

end Confined

/-- A reply of the handler is one that `Moves` admits, and the trace adds up. -/
theorem handler_moves (me : ℕ) (input : ChunkInputStream σ) (output : ChunkOutputStream τ)
    (op : StoreSig.Op) (w : StoreWorld σ τ) (o : Outcome) :
    Moves op (World.handler me (streams input output) op w o).1 ∧
      usage (World.handler me (streams input output) op w o).2.trace
        = Usage.next op (World.handler me (streams input output) op w o).1 (usage w.trace) := by
  cases op with
  | inr t => exact ⟨by cases t <;> trivial, rfl⟩
  | inl s =>
      rcases hexec : s.exec me w.fds w.fs o with ⟨r, fds', fs'⟩
      rw [World.handler_sys hexec]
      refine ⟨?_, usage_answered w s r fds' fs'⟩
      cases s with
      | write fd data =>
          intro n hn
          rcases write_moves hexec with ⟨hno, -⟩ | ⟨f, m, -, hpos, hle, hr, -⟩
          · exact absurd hn (hno n)
          · obtain rfl := WriteReply.wrote.inj (hr.symm.trans hn)
            exact ⟨hpos, hle⟩
      | _ => trivial

/-- **`Put` is bounded on adversarial streams**, for every `expected_size` and every input stream. At
    every moment of every run (`PutPoint`), at most `expected_size + 1` reads were made; before a read
    the program is at an iteration of the receive loop whose count is at most `expected_size` and is
    the number of payload bytes written, and what follows a block longer than the buffer does not
    depend on that block; no write goes beyond `expected_size` bytes of payload, so a temporary file
    that `Put` created never holds more than the 80 bytes of the header and these. The bound on the
    rounds of the loop is not what ends it, and `Put` returns unless it is interrupted forever. -/
theorem put_bounded (B : Blake3) (root : Bytes) (request : PutChunkRequest) (pid address me : ℕ)
    (input : ChunkInputStream σ) (output : ChunkOutputStream τ) (fs : FS) (s : σ) (t : τ)
    (ω : ℕ → Outcome) :
    (∀ n, PutPoint B request (tempPath root request.chunkId pid address)
      (giveUp (tempPath root request.chunkId pid address))
      (usage (Config.exec (World.handler me (streams input output))
        (put B root request pid address, ⟨[], fs, [], (s, t)⟩) ω n).2.trace)
      (Config.exec (World.handler me (streams input output))
        (put B root request pid address, ⟨[], fs, [], (s, t)⟩) ω n).1) ∧
    (fs.dir (tempPath root request.chunkId pid address) = none → ∀ n d,
      (Config.exec (World.handler me (streams input output))
        (put B root request pid address, ⟨[], fs, [], (s, t)⟩) ω n).2.fs.contents
          (tempPath root request.chunkId pid address) = some d →
      d.length ≤ 80 + request.expectedSize.toNat) ∧
    (∀ fd rounds, request.expectedSize.toNat < rounds → receive B request fd rounds B.init 0
      = receive B request fd (request.expectedSize.toNat + 1) B.init 0) ∧
    (Config.Fair (World.handler me (streams input output))
        (put B root request pid address, (⟨[], fs, [], (s, t)⟩ : StoreWorld σ τ)) ω →
      ∃ status w', Config.Returns (World.handler me (streams input output))
        (put B root request pid address, ⟨[], fs, [], (s, t)⟩) ω status w') := by
  have htracks := put_tracks (B := B) request root pid address
  have hzero : (0 : UInt64).toNat = 0 := rfl
  refine ⟨fun n => ?_, fun hnone n d hd => ?_, fun fd rounds hrounds => ?_, fun hfair => ?_⟩
  · have hall := Tracks.exec (h := World.handler me (streams input output))
      (w := ⟨[], fs, [], (s, t)⟩) (fun w => usage w.trace) (fun _ => True)
      (fun {op} {_} {_} {w} {o} _ _ => ⟨(handler_moves me input output op w o).1,
        (handler_moves me input output op w o).2, trivial⟩) htracks trivial ω n
    exact hall.1.here
  · have hstart : Confined fs.inodes.length (tempPath root request.chunkId pid address)
        (⟨[], fs, [], (s, t)⟩ : StoreWorld σ τ) :=
      ⟨le_rfl, fun f hf => absurd hf (by simp), fun i m hi hm =>
        absurd (List.getElem?_eq_some_iff.1 hm).1 (by simpa using hi),
        fun i hi => absurd hi (by simp [hnone])⟩
    have hall := Tracks.exec (h := World.handler me (streams input output)) (fun w => usage w.trace)
      (Confined fs.inodes.length (tempPath root request.chunkId pid address))
      (fun {op} {_} {_} {w} {o} hpoint hw => ⟨(handler_moves me input output op w o).1,
        (handler_moves me input output op w o).2, hw.step hpoint o⟩) htracks hstart ω n
    exact (hall.2.contents_le hd).trans hall.1.here.written
  · exact receive_rounds fd rounds _ B.init 0 (by omega) (by omega) (by omega)
  · have halways : Always ((World.handler me (streams input output)).sem World.Any)
        (put B root request pid address) ⟨[], fs, [], (s, t)⟩ _ :=
      put_always request pid address ⟨rfl, rfl, rfl, rfl⟩
    obtain ⟨status, w', hret, -⟩ := halways.returns (fun _ _ _ _ _ => trivial) hfair
    exact ⟨status, w', hret⟩

end ChunkStorage
