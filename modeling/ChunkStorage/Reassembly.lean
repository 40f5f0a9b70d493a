import ChunkStorage.Grammar

set_option autoImplicit false

/-! # Frames and buffers

`RpcInputStream` cuts the frames of the transport anew for the buffers of its reader. The cuts have
nothing to do with each other, so the invariant speaks of the bytes only: what was returned, followed
by what is pending, is what the frames fetched so far hold. -/

namespace ChunkStorage

open Posix

/-- The data of a frame. -/
def PutChunkFrame.bytes : PutChunkFrame → Bytes
  | .data d => d
  | _ => []

/-- The bytes that frames deliver. -/
def delivered (frames : List PutChunkFrame) : Bytes := frames.flatMap PutChunkFrame.bytes

/-- The frame has no data payload, or an empty one. -/
def PutChunkFrame.Bad (frame : PutChunkFrame) : Prop := frame.bytes = []

/-- The bytes that reads returned. -/
def returned (replies : List (StatusOr Bytes)) : Bytes :=
  replies.flatMap fun reply => reply.toOption.getD []

/-- Successive calls of `Read` with buffers of the given sizes. -/
def RpcInputStream.reads (s : RpcInputStream) : List ℕ → List (StatusOr Bytes) × RpcInputStream
  | [] => ([], s)
  | size :: sizes =>
      let x := RpcInputStream.read s size
      let xs := RpcInputStream.reads x.2 sizes
      (x.1 :: xs.1, xs.2)

/-- What one `Read` does. -/
inductive ReadDone (s : RpcInputStream) (size : ℕ) : StatusOr Bytes → RpcInputStream → Prop
  /-- The buffer is empty. -/
  | empty {e : ErrorStatus} : size = 0 → e.1.code = .kInvalidArgument → ReadDone s size (.error e) s
  /-- There is something left of the last frame. -/
  | copied {s' : RpcInputStream} : 0 < size → s.pending ≠ [] → s'.reader = s.reader →
      s'.pending = s.pending.drop size → ReadDone s size (.ok (s.pending.take size)) s'
  /-- A frame is fetched. -/
  | fetched {data : Bytes} {reader : List PutChunkFrame} {s' : RpcInputStream} : 0 < size →
      s.pending = [] → s.reader = .data data :: reader → data ≠ [] → s'.reader = reader →
      s'.pending = data.drop size → ReadDone s size (.ok (data.take size)) s'
  /-- There is no further frame. -/
  | ended {s' : RpcInputStream} : 0 < size → s.pending = [] → s.reader = [] → s'.reader = [] →
      s'.pending = [] → ReadDone s size (.ok []) s'
  /-- The next frame is a bad one. -/
  | bad {frame : PutChunkFrame} {reader : List PutChunkFrame} {e : ErrorStatus} {s' : RpcInputStream} :
      0 < size → s.pending = [] → s.reader = frame :: reader → frame.Bad →
      e.1.code = .kInvalidArgument → ReadDone s size (.error e) s'

/-- What is copied and what is left of the last frame. -/
theorem RpcInputStream.copy_pending (s : RpcInputStream) (size : ℕ) :
    (s.copy size).1 = .ok (s.pending.take size) ∧ (s.copy size).2.pending = s.pending.drop size := by
  constructor
  · refine congrArg Except.ok ?_
    simp only [pending, List.take_eq_take_iff, List.length_drop]
    omega
  · simp only [pending, copy, List.drop_drop]
    by_cases hfull : size ≤ s.data.length - s.offset
    · rw [Nat.min_eq_left hfull]
    · rw [List.drop_of_length_le (by omega), List.drop_of_length_le (by omega)]

theorem RpcInputStream.read_done (s : RpcInputStream) (size : ℕ) :
    ReadDone s size (read s size).1 (read s size).2 := by
  by_cases hsize : size = 0
  · rw [read, if_pos hsize]
    exact .empty hsize rfl
  · have hpos : 0 < size := Nat.pos_of_ne_zero hsize
    by_cases hend : s.offset = s.data.length
    · have hpending : s.pending = [] := by rw [pending, hend, List.drop_length]
      rw [read, if_neg hsize, if_pos hend]
      cases hreader : s.reader with
      | nil =>
          simp only
          exact .ended hpos hpending hreader rfl hpending
      | cons frame reader =>
          cases frame with
          | data data =>
              by_cases hdata : data.isEmpty = true
              · simp only [hdata, if_true]
                exact .bad hpos hpending hreader (List.isEmpty_iff.1 hdata) rfl
              · have hne : data ≠ [] := fun hnil => hdata (List.isEmpty_iff.2 hnil)
                simp only [if_neg hdata]
                obtain ⟨hcopied, hleft⟩ :=
                  copy_pending ⟨reader, data, 0, s.ended, Nat.zero_le _⟩ size
                rw [hcopied]
                exact .fetched hpos hpending hreader hne rfl hleft
          | metadata m => exact .bad hpos hpending hreader rfl rfl
          | unset => exact .bad hpos hpending hreader rfl rfl
    · have hpending : s.pending ≠ [] := fun hnil => hend (s.offset_eq hnil)
      obtain ⟨hcopied, hleft⟩ := s.copy_pending size
      rw [read, if_neg hsize, if_neg hend, hcopied]
      exact .copied hpos hpending rfl hleft

/-- The bytes that were returned and are pending are those of the frames that were fetched. -/
theorem RpcInputStream.reads_done (s : RpcInputStream) (sizes : List ℕ)
    (hok : ∀ reply ∈ (s.reads sizes).1, reply.toBool = true) :
    ∃ k ≤ s.reader.length, (s.reads sizes).2.reader = s.reader.drop k ∧
      (∀ frame ∈ s.reader.take k, ¬ frame.Bad) ∧
      returned (s.reads sizes).1 ++ (s.reads sizes).2.pending
        = s.pending ++ delivered (s.reader.take k) := by
  induction sizes generalizing s with
  | nil => exact ⟨0, Nat.zero_le _, rfl, by simp, by simp [reads, returned, delivered]⟩
  | cons size sizes ih =>
      have hfirst : (read s size).1.toBool = true := hok _ List.mem_cons_self
      have hdone := s.read_done size
      obtain ⟨k, hk, hreader, hgood, hbytes⟩ :=
        ih (read s size).2 fun reply hmem => hok reply (List.mem_cons_of_mem _ hmem)
      simp only [reads]
      generalize (read s size).2 = s₁ at *
      generalize (read s size).1 = reply at *
      cases hdone with
      | empty _ _ => exact absurd hfirst (by simp [Except.toBool])
      | bad _ _ _ _ _ => exact absurd hfirst (by simp [Except.toBool])
      | copied _ _ hsame hleft =>
          rw [hsame] at hk hreader hgood hbytes
          refine ⟨k, hk, hreader, hgood, ?_⟩
          have hcut : s.pending.take size ++ (returned (s₁.reads sizes).1 ++ (s₁.reads sizes).2.pending)
              = s.pending ++ delivered (s.reader.take k) := by
            rw [hbytes, hleft, ← List.append_assoc, List.take_append_drop]
          simpa [returned, Except.toOption] using hcut
      | @fetched data reader _ _ hpending hframe hne hrest hleft =>
          rw [hrest] at hk hreader hgood hbytes
          refine ⟨k + 1, by rw [hframe]; exact Nat.succ_le_succ hk, ?_, ?_, ?_⟩
          · rw [hreader, hframe, List.drop_succ_cons]
          · rw [hframe, List.take_succ_cons]
            intro frame hmem
            rcases List.mem_cons.1 hmem with rfl | hmem'
            · exact hne
            · exact hgood frame hmem'
          · have hcut : data.take size ++ (returned (s₁.reads sizes).1 ++ (s₁.reads sizes).2.pending)
                = data ++ delivered (reader.take k) := by
              rw [hbytes, hleft, ← List.append_assoc, List.take_append_drop]
            rw [hframe, hpending]
            simpa [returned, Except.toOption, delivered, PutChunkFrame.bytes] using hcut
      | ended _ hpending hnone hrest hleft =>
          rw [hrest] at hk hreader hgood hbytes
          rw [hpending, hnone]
          refine ⟨k, hk, hreader, hgood, ?_⟩
          rw [hleft] at hbytes
          simpa [returned, Except.toOption] using hbytes

/-- Everything before was returned and the next frame is a bad one. -/
def ReachedBad (frames : List PutChunkFrame) (replies : List (StatusOr Bytes)) (k : ℕ) : Prop :=
  returned replies = delivered (frames.take k) ∧ ∃ frame, frames[k]? = some frame ∧ frame.Bad

/-- How a stream over `frames` stands after replies none of which failed: `k` frames were fetched. -/
structure Reassembled (frames : List PutChunkFrame) (replies : List (StatusOr Bytes))
    (s : RpcInputStream) (k : ℕ) : Prop where
  fetched : k ≤ frames.length ∧ s.reader = frames.drop k
  /-- No byte is skipped, repeated or out of order. -/
  lossless : returned replies <+: delivered (frames.take k)
  good : ∀ frame ∈ frames.take k, ¬ frame.Bad
  /-- The next read makes progress. -/
  progress : ∀ (size : ℕ) (bytes : Bytes), (RpcInputStream.read s size).1 = .ok bytes →
    0 < size ∧ bytes.length ≤ size ∧ returned replies ++ bytes <+: delivered frames ∧
      (bytes = [] ↔ k = frames.length ∧ returned replies = delivered frames)
  /-- The next read reports a bad frame, and only then. -/
  rejects : ∀ size : ℕ, (RpcInputStream.read s size).1.toBool = false ↔
    size = 0 ∨ ReachedBad frames replies k
  code : ∀ (size : ℕ) (e : ErrorStatus), (RpcInputStream.read s size).1 = .error e →
    e.1.code = .kInvalidArgument

/-- **`RpcInputStream` reassembles frames without loss**, for every list of frames and every sequence
    of buffers: while no read has failed, what was returned is a prefix of what the frames fetched so
    far hold. The next read returns at least one byte and at most what its buffer holds, or nothing
    if everything was returned and no frame is left. It fails exactly if its buffer is empty, or
    everything before was returned and the next frame has no data. -/
theorem rpcInputStream_reassembles (frames : List PutChunkFrame) (sizes : List ℕ)
    (hok : ∀ reply ∈ ((RpcInputStream.ofFrames frames).reads sizes).1, reply.toBool = true) :
    ∃ k, Reassembled frames ((RpcInputStream.ofFrames frames).reads sizes).1
      ((RpcInputStream.ofFrames frames).reads sizes).2 k := by
  obtain ⟨k, hk, hreader, hgood, hbytes⟩ := (RpcInputStream.ofFrames frames).reads_done sizes hok
  generalize ((RpcInputStream.ofFrames frames).reads sizes).1 = replies at hbytes ⊢
  generalize ((RpcInputStream.ofFrames frames).reads sizes).2 = s at hreader hbytes ⊢
  have hstart : (RpcInputStream.ofFrames frames).pending = [] := rfl
  have hframes : (RpcInputStream.ofFrames frames).reader = frames := rfl
  rw [hframes] at hk hreader hgood hbytes
  rw [hstart, List.nil_append] at hbytes
  have hsplit : delivered frames = delivered (frames.take k) ++ delivered (frames.drop k) := by
    rw [delivered, delivered, delivered, ← List.flatMap_append, List.take_append_drop]
  have hall : s.pending = [] ↔ returned replies = delivered (frames.take k) := by
    rw [← hbytes]
    exact List.self_eq_append_right.symm
  have hnext : frames[k]? = s.reader.head? := by rw [hreader, List.head?_drop]
  refine ⟨k, ⟨hk, hreader⟩, ⟨_, hbytes⟩, hgood, ?_, ?_, ?_⟩
  · intro size bytes hread
    have hdone := s.read_done size
    rw [hread] at hdone
    generalize (RpcInputStream.read s size).2 = s' at hdone
    cases hdone with
    | copied hpos hpending hsame hleft =>
        refine ⟨hpos, by simp, ?_, ?_, ?_⟩
        · rw [hsplit, ← hbytes]
          refine List.IsPrefix.trans ?_ (List.prefix_append _ _)
          exact (List.prefix_append_right_inj _).2 (List.take_prefix _ _)
        · intro hnil
          rcases List.take_eq_nil_iff.1 hnil with hzero | hempty
          · omega
          · exact absurd hempty hpending
        · rintro ⟨rfl, hreturned⟩
          rw [List.take_length] at hall
          exact absurd (hall.2 hreturned) hpending
    | @fetched data reader _ hpos hpending hframe hne hrest hleft =>
        refine ⟨hpos, by simp, ?_, ?_, ?_⟩
        · rw [hsplit, ← hall.1 hpending, ← hreader, hframe, List.prefix_append_right_inj]
          refine List.IsPrefix.trans (List.take_prefix _ _) ?_
          simp [delivered, PutChunkFrame.bytes]
        · intro hnil
          rcases List.take_eq_nil_iff.1 hnil with hzero | hempty
          · omega
          · exact absurd hempty hne
        · rintro ⟨rfl, -⟩
          rw [hframe, List.drop_length] at hreader
          exact absurd hreader (by simp)
    | ended hpos hpending hnomore hrest hleft =>
        have hlast : k = frames.length := by
          have hlen := congrArg List.length (hreader.symm.trans hnomore)
          rw [List.length_drop, List.length_nil] at hlen
          omega
        have hreturned := hall.1 hpending
        rw [hlast, List.take_length] at hreturned
        refine ⟨hpos, Nat.zero_le _, ?_, fun _ => ⟨hlast, hreturned⟩, fun _ => rfl⟩
        rw [List.append_nil, hreturned]
  · intro size
    have hdone := s.read_done size
    generalize (RpcInputStream.read s size).1 = reply at hdone ⊢
    generalize (RpcInputStream.read s size).2 = s' at hdone
    -- A read that succeeds has room, and either something pending or a good frame before it.
    cases hdone with
    | empty hzero hcode => exact ⟨fun _ => Or.inl hzero, fun _ => rfl⟩
    | bad hpos hpending hframe hbad hcode =>
        refine ⟨fun _ => Or.inr ⟨hall.1 hpending, _, ?_, hbad⟩, fun _ => rfl⟩
        rw [hnext, hframe]
        rfl
    | copied hpos hpending hsame hleft =>
        refine ⟨nofun, ?_⟩
        rintro (hzero | ⟨hreturned, -⟩)
        · omega
        · exact absurd (hall.2 hreturned) hpending
    | @fetched data reader _ hpos hpending hframe hne hrest hleft =>
        refine ⟨nofun, ?_⟩
        rintro (hzero | ⟨-, frame, hkth, hbad⟩)
        · omega
        · rw [hnext, hframe] at hkth
          obtain rfl := Option.some.inj hkth
          exact absurd hbad hne
    | ended hpos hpending hnomore hrest hleft =>
        refine ⟨nofun, ?_⟩
        rintro (hzero | ⟨-, frame, hkth, -⟩)
        · omega
        · rw [hnext, hnomore] at hkth
          exact absurd hkth nofun
  · intro size e hread
    have hdone := s.read_done size
    rw [hread] at hdone
    generalize (RpcInputStream.read s size).2 = s' at hdone
    cases hdone with
    | empty _ hcode => exact hcode
    | bad _ _ _ _ hcode => exact hcode

/-- Two frames read with buffers of other sizes, and a bad frame behind them. -/
theorem rpcInputStream_reassembles_sample :
    ((RpcInputStream.ofFrames [.data [1, 2, 3], .data [4], .unset]).reads [2, 2, 7]).1
      = [.ok [1, 2], .ok [3], .ok [4]] ∧
    ∃ k, Reassembled [.data [1, 2, 3], .data [4], .unset] [.ok [1, 2], .ok [3], .ok [4]]
      ((RpcInputStream.ofFrames [.data [1, 2, 3], .data [4], .unset]).reads [2, 2, 7]).2 k := by
  have hreplies : ((RpcInputStream.ofFrames [.data [1, 2, 3], .data [4], .unset]).reads [2, 2, 7]).1
      = [.ok [1, 2], .ok [3], .ok [4]] := rfl
  refine ⟨hreplies, ?_⟩
  have hdone := rpcInputStream_reassembles [.data [1, 2, 3], .data [4], .unset] [2, 2, 7]
    (by rw [hreplies]; decide)
  rwa [hreplies] at hdone

end ChunkStorage
