import ChunkStorage.FailedPut
import ChunkStorage.Service

set_option autoImplicit false

/-! # The frames that `PutChunk` accepts

The handler of `PutChunk` sees its stream through three layers: `RpcInputStream` cuts the frames to
the reader's buffer, the receive loop of `Put` counts and hashes them, and the checks at the end
compare. `received` says what all of them make of the frames after the first, frame by frame, and
`verdict` is the code of the first violation in stream order. `putChunk_verdict` compares the
handler with it, and `Grammar` is the set of streams without a violation. -/

namespace ChunkStorage

open Effects Posix Program

/-! ## Frame by frame -/

/-- What the frames after the metadata deliver to a reader that wants at most `limit` bytes. -/
def received : ℕ → List PutChunkFrame → Delivery
  | _, [] => .complete []
  | limit, .data data :: frames =>
      if data = [] then .failed (.of .kInvalidArgument (ascii "empty data frame"))
      else if data.length > limit then .excess
      else (received (limit - data.length) frames).after data
  | _, _ :: _ =>
      .failed (.of .kInvalidArgument (ascii "metadata must be the first frame only"))

/-- What is left to copy of the last frame. -/
def RpcInputStream.pending (s : RpcInputStream) : Bytes := s.data.drop s.offset

theorem RpcInputStream.offset_eq (s : RpcInputStream) (h : s.pending = []) :
    s.offset = s.data.length := by
  have hlen := congrArg List.length h
  rw [RpcInputStream.pending, List.length_drop, List.length_nil] at hlen
  have := s.offset_le
  omega

/-- A delivery depends on the stream only through its next read. -/
theorem deliver_congr {σ : Type} {input : ChunkInputStream σ} {s s' : σ} {limit : ℕ}
    (h : input s kBufferSize = input s' kBufferSize) :
    deliver input limit s = deliver input limit s' := by
  rw [deliver, h, ← deliver]

theorem Delivery.after_nil (d : Delivery) : d.after [] = d := by
  cases d <;> rfl

theorem Delivery.after_after (d : Delivery) (a b : Bytes) : (d.after b).after a = d.after (a ++ b) := by
  cases d with
  | complete p => simp [Delivery.after]
  | failed status => rfl
  | excess => rfl

/-- The stream copies from the last frame as long as there is some of it. -/
theorem RpcInputStream.read_pending {s : RpcInputStream} (h : s.pending ≠ []) :
    ∃ s', RpcInputStream.read s kBufferSize = (.ok (s.pending.take kBufferSize), s') ∧
      s'.pending = s.pending.drop kBufferSize ∧ s'.reader = s.reader := by
  have hne : s.offset ≠ s.data.length := by
    intro heq
    exact h (by rw [RpcInputStream.pending, heq, List.drop_length])
  have hcopy : RpcInputStream.read s kBufferSize = s.copy kBufferSize := by
    rw [RpcInputStream.read, if_neg (by decide), if_neg hne]
  refine ⟨(s.copy kBufferSize).2, ?_, ?_, rfl⟩
  · rw [hcopy]
    refine Prod.ext (congrArg Except.ok ?_) rfl
    simp only [RpcInputStream.pending, List.take_eq_take_iff, List.length_drop]
    omega
  · simp only [RpcInputStream.pending, RpcInputStream.copy, List.drop_drop]
    by_cases hfull : kBufferSize ≤ s.data.length - s.offset
    · rw [Nat.min_eq_left hfull]
    · rw [List.drop_of_length_le (by omega), List.drop_of_length_le (by omega)]

/-- A frame that is longer than the buffer is copied in blocks, and each block is tested. -/
theorem deliver_blocks {reader : List PutChunkFrame}
    (hreader : ∀ (s : RpcInputStream) (limit : ℕ), s.reader = reader → s.pending = [] →
      deliver RpcInputStream.read limit s = received limit reader)
    (n : ℕ) {s : RpcInputStream} (hn : s.pending.length = n) (hs : s.reader = reader) (limit : ℕ) :
    deliver RpcInputStream.read limit s =
      if s.pending.length > limit then .excess
      else (received (limit - s.pending.length) reader).after s.pending := by
  induction n using Nat.strong_induction_on generalizing s limit with
  | _ n ih =>
      by_cases hnil : s.pending = []
      · rw [hreader s limit hs hnil, hnil]
        simp [Delivery.after_nil]
      · obtain ⟨s', hread, hpending, hreader'⟩ := RpcInputStream.read_pending hnil
        have hpos : 0 < s.pending.length := List.length_pos_iff.2 hnil
        have hbuf : 0 < kBufferSize := by decide
        have hblock : (s.pending.take kBufferSize).length = min kBufferSize s.pending.length :=
          List.length_take
        by_cases hbig : (s.pending.take kBufferSize).length > limit
        · rw [deliver_excess hread (by omega) (Or.inr hbig), if_pos (by omega)]
        · have hrest : s'.pending.length = s.pending.length - kBufferSize := by
            rw [hpending, List.length_drop]
          rw [deliver_more hread (by omega) (by omega),
            ih s'.pending.length (by omega) rfl (hreader'.trans hs), hrest]
          by_cases hlong : s.pending.length > limit
          · rw [if_pos hlong, if_pos (by omega)]
            rfl
          · rw [if_neg hlong, if_neg (by omega), Delivery.after_after, hpending,
              List.take_append_drop]
            have hleft : limit - (s.pending.take kBufferSize).length
                - (s.pending.length - kBufferSize) = limit - s.pending.length := by
              omega
            rw [hleft]

/-- **The frames after the metadata, read through the stream**, at the end of a frame. -/
theorem deliver_frames (reader : List PutChunkFrame) (s : RpcInputStream) (limit : ℕ)
    (hs : s.reader = reader) (hpending : s.pending = []) :
    deliver RpcInputStream.read limit s = received limit reader := by
  induction reader generalizing s limit with
  | nil =>
      have hread : RpcInputStream.read s kBufferSize = (.ok [], { s with ended := true }) := by
        rw [RpcInputStream.read, if_neg (by decide), if_pos (s.offset_eq hpending), hs]
      exact deliver_ended hread rfl
  | cons frame reader ih =>
      have hend := s.offset_eq hpending
      cases frame with
      | data data =>
          by_cases hdata : data = []
          · have hread : RpcInputStream.read s kBufferSize
                = (.ofStatus (.of .kInvalidArgument (ascii "empty data frame")),
                  ⟨reader, data, 0, s.ended, Nat.zero_le _⟩) := by
              rw [RpcInputStream.read, if_neg (by decide), if_pos hend, hs]
              simp [hdata]
            rw [deliver_failed hread, received, if_pos hdata]
            rfl
          · -- the frame is read as if it had been there before
            let s₁ : RpcInputStream := ⟨reader, data, 0, s.ended, Nat.zero_le _⟩
            have hpos : 0 < data.length := List.length_pos_iff.2 hdata
            have hfull : s₁.pending = data := rfl
            have hrefill : RpcInputStream.read s kBufferSize = s₁.copy kBufferSize := by
              rw [RpcInputStream.read, if_neg (by decide), if_pos hend, hs]
              simp [hdata, s₁]
            have hcopy : RpcInputStream.read s₁ kBufferSize = s₁.copy kBufferSize := by
              have hne : s₁.offset ≠ s₁.data.length := hpos.ne
              rw [RpcInputStream.read, if_neg (by decide), if_neg hne]
            rw [deliver_congr (hrefill.trans hcopy.symm),
              deliver_blocks (fun s' limit' => ih s' limit') _ rfl rfl, received, if_neg hdata, hfull]
      | metadata metadata =>
          have hread : RpcInputStream.read s kBufferSize = (.ofStatus (.of .kInvalidArgument
              (ascii "metadata must be the first frame only")), { s with reader := reader }) := by
            rw [RpcInputStream.read, if_neg (by decide), if_pos hend, hs]
          exact deliver_failed hread
      | unset =>
          have hread : RpcInputStream.read s kBufferSize = (.ofStatus (.of .kInvalidArgument
              (ascii "metadata must be the first frame only")), { s with reader := reader }) := by
            rw [RpcInputStream.read, if_neg (by decide), if_pos hend, hs]
          exact deliver_failed hread

/-! ## The grammar and its violations -/

/-- A frame that is not a piece of the payload: metadata, nothing, or an empty piece. -/
def PutChunkFrame.Stray : PutChunkFrame → Prop
  | .data bytes => bytes = []
  | _ => True

/-- Pieces of at most `limit` bytes together, none of them empty. -/
def Pieces (limit : ℕ) (pieces : List Bytes) : Prop :=
  (∀ piece ∈ pieces, piece ≠ []) ∧ pieces.flatten.length ≤ limit

theorem Pieces.cons {limit : ℕ} {piece : Bytes} {pieces : List Bytes} (hne : piece ≠ [])
    (hle : piece.length ≤ limit) (h : Pieces (limit - piece.length) pieces) :
    Pieces limit (piece :: pieces) := by
  refine ⟨fun b hb => ?_, ?_⟩
  · rcases List.mem_cons.1 hb with rfl | hb'
    · exact hne
    · exact h.1 b hb'
  · have := h.2
    rw [List.flatten_cons, List.length_append]
    omega

/-- What the frames are, by what they deliver. -/
inductive Reception (limit : ℕ) (frames : List PutChunkFrame) : Delivery → Prop
  | complete {pieces : List Bytes} : Pieces limit pieces → frames = pieces.map .data →
      Reception limit frames (.complete pieces.flatten)
  | stray {pieces : List Bytes} {frame : PutChunkFrame} {rest : List PutChunkFrame}
      {status : Status} : Pieces limit pieces → frame.Stray →
      frames = pieces.map .data ++ frame :: rest → status.code = .kInvalidArgument →
      Reception limit frames (.failed status)
  | excess {pieces : List Bytes} {data : Bytes} {rest : List PutChunkFrame} :
      Pieces limit pieces → data ≠ [] → limit < pieces.flatten.length + data.length →
      frames = pieces.map .data ++ .data data :: rest → Reception limit frames .excess

theorem Reception.after {limit : ℕ} {frames : List PutChunkFrame} {delivery : Delivery}
    {data : Bytes} (hne : data ≠ []) (hle : data.length ≤ limit)
    (h : Reception (limit - data.length) frames delivery) :
    Reception limit (.data data :: frames) (delivery.after data) := by
  cases h with
  | @complete pieces hpieces hframes =>
      rw [hframes]
      exact .complete (hpieces.cons hne hle) rfl
  | @stray pieces frame rest status hpieces hstray hframes hcode =>
      rw [hframes]
      exact .stray (hpieces.cons hne hle) hstray rfl hcode
  | @excess pieces big rest hpieces hbig hlen hframes =>
      rw [hframes]
      refine .excess (hpieces.cons hne hle) hbig ?_ rfl
      rw [List.flatten_cons, List.length_append]
      omega

theorem received_spec (limit : ℕ) (frames : List PutChunkFrame) :
    Reception limit frames (received limit frames) := by
  have hnone : Pieces limit [] := ⟨by simp, by simp⟩
  induction frames generalizing limit with
  | nil => exact .complete hnone rfl
  | cons frame frames ih =>
      cases frame with
      | data data =>
          rw [received]
          by_cases hdata : data = []
          · have hstray : PutChunkFrame.Stray (.data data) := hdata
            rw [if_pos hdata]
            exact .stray hnone hstray rfl rfl
          · rw [if_neg hdata]
            by_cases hbig : data.length > limit
            · rw [if_pos hbig]
              exact .excess hnone hdata (by simpa using hbig) rfl
            · rw [if_neg hbig]
              refine (ih (limit - data.length) ⟨by simp, by simp⟩).after hdata (by omega)
      | metadata metadata =>
          have hstray : PutChunkFrame.Stray (.metadata metadata) := trivial
          exact .stray hnone hstray rfl rfl
      | unset =>
          have hstray : PutChunkFrame.Stray .unset := trivial
          exact .stray hnone hstray rfl rfl

theorem received_pieces {limit : ℕ} {pieces : List Bytes} (h : Pieces limit pieces) :
    received limit (pieces.map .data) = .complete pieces.flatten := by
  induction pieces generalizing limit with
  | nil => rfl
  | cons piece pieces ih =>
      have hne : piece ≠ [] := h.1 piece (by simp)
      have hlen : piece.length + pieces.flatten.length ≤ limit := by
        simpa using h.2
      have hrest : Pieces (limit - piece.length) pieces :=
        ⟨fun b hb => h.1 b (List.mem_cons_of_mem _ hb), by omega⟩
      rw [List.map_cons, received, if_neg hne, if_neg (by omega), ih hrest]
      rfl

/-- A stream the handler commits: metadata that passes the checks for an id that is not stored,
    then pieces of the payload it announces. -/
structure Grammar (B : Blake3) (root : Bytes) (fs : FS) (frames : List PutChunkFrame)
    (metadata : PutChunkMetadata) (p : Bytes) : Prop where
  frames_eq : ∃ pieces : List Bytes, (∀ piece ∈ pieces, piece ≠ []) ∧ p = pieces.flatten ∧
    frames = .metadata metadata :: pieces.map .data
  id_ne : metadata.chunkId ≠ []
  id_le : metadata.chunkId.length ≤ 1024
  checksum : metadata.request.expectedChecksum.WellFormed
  size : p.length = metadata.expectedSize.toNat
  hash : B.hex p = metadata.expectedChecksum
  absent : fs.dir (pathFor root ⟨metadata.chunkId⟩) = none

/-- The code of the first violation of the grammar in stream order. -/
inductive FirstViolation (B : Blake3) (root : Bytes) (fs : FS) (frames : List PutChunkFrame) :
    StatusCode → Prop
  | missing : (∀ metadata rest, frames ≠ .metadata metadata :: rest) →
      FirstViolation B root fs frames .kInvalidArgument
  | invalid {metadata : PutChunkMetadata} {rest : List PutChunkFrame} :
      frames = .metadata metadata :: rest →
      (metadata.chunkId = [] ∨ 1024 < metadata.chunkId.length ∨
        ¬ metadata.request.expectedChecksum.WellFormed) →
      FirstViolation B root fs frames .kInvalidArgument
  | stray {metadata : PutChunkMetadata} {pieces : List Bytes} {frame : PutChunkFrame}
      {rest : List PutChunkFrame} : metadata.request.Valid →
      Pieces metadata.expectedSize.toNat pieces → frame.Stray →
      frames = .metadata metadata :: (pieces.map .data ++ frame :: rest) →
      FirstViolation B root fs frames .kInvalidArgument
  | excess {metadata : PutChunkMetadata} {pieces : List Bytes} {data : Bytes}
      {rest : List PutChunkFrame} : metadata.request.Valid →
      Pieces metadata.expectedSize.toNat pieces → data ≠ [] →
      metadata.expectedSize.toNat < pieces.flatten.length + data.length →
      frames = .metadata metadata :: (pieces.map .data ++ .data data :: rest) →
      FirstViolation B root fs frames .kCorruption
  | mismatch {metadata : PutChunkMetadata} {pieces : List Bytes} : metadata.request.Valid →
      Pieces metadata.expectedSize.toNat pieces → ¬ Matches B metadata.request pieces.flatten →
      frames = .metadata metadata :: pieces.map .data →
      FirstViolation B root fs frames .kCorruption
  | stored {metadata : PutChunkMetadata} {pieces : List Bytes} : metadata.request.Valid →
      Pieces metadata.expectedSize.toNat pieces → Matches B metadata.request pieces.flatten →
      fs.dir (pathFor root ⟨metadata.chunkId⟩) ≠ none →
      frames = .metadata metadata :: pieces.map .data →
      FirstViolation B root fs frames .kAlreadyExists

/-! ## How `PutChunk` ends -/

/-- The chunk was absent, is now there with the payload, and no other chunk changed. -/
structure Commits (B : Blake3) (root : Bytes) (chunkId : ChunkId) (p : Bytes) (fs fs' : FS) :
    Prop where
  absent : fs.dir (pathFor root chunkId) = none
  present : fs'.contents (pathFor root chunkId) = some (chunkFile B p)
  others : ∀ path, IsChunkPath root path → path ≠ pathFor root chunkId →
    fs'.contents path = fs.contents path

variable {σ τ : Type} {B : Blake3} {root : Bytes}

/-- A commit tells the id and the payload. -/
theorem Commits.unique {chunkId chunkId' : ChunkId} {p p' : Bytes} {fs fs' : FS}
    (h : Commits B root chunkId p fs fs') (h' : Commits B root chunkId' p' fs fs') :
    chunkId = chunkId' ∧ p = p' := by
  by_cases hpath : pathFor root chunkId' = pathFor root chunkId
  · have hfile : chunkFile B p' = chunkFile B p := by
      have hboth := h'.present
      rw [hpath, h.present] at hboth
      exact (Option.some.inj hboth).symm
    have hspec := chunkFile_spec B p'
    rw [hfile] at hspec
    exact ⟨(pathFor_injective hpath).symm, ((chunkFile_spec B p).unique hspec).2⟩
  · have hother := h.others _ (isChunkPath_pathFor chunkId') hpath
    rw [h'.present, FS.contents_eq_none_iff.2 h'.absent] at hother
    exact absurd hother (by simp)

theorem ChunksUnchanged.not_commits {chunkId : ChunkId} {p : Bytes} {fs fs' : FS}
    (hsame : ChunksUnchanged root fs fs') : ¬ Commits B root chunkId p fs fs' := by
  intro h
  have hboth := hsame _ (isChunkPath_pathFor chunkId)
  rw [h.present, FS.contents_eq_none_iff.2 h.absent] at hboth
  exact absurd hboth (by simp)

/-- How a `Put` ends whose calls do not fail, with a temporary name that is free. -/
inductive PutOutcome (B : Blake3) (root : Bytes) (input : ChunkInputStream σ) (s : σ)
    (request : PutChunkRequest) (fs : FS) : Status → FS → Prop
  | invalid {status : Status} {fs' : FS} : ¬ request.Valid → status.code = .kInvalidArgument →
      ChunksUnchanged root fs fs' → PutOutcome B root input s request fs status fs'
  | rejected {status : Status} {fs' : FS} : request.Valid → Rejects B input s request status →
      ChunksUnchanged root fs fs' → PutOutcome B root input s request fs status fs'
  | exists {status : Status} {fs' : FS} {p : Bytes} : request.Valid →
      Accepts B input s request p → status.code = .kAlreadyExists →
      fs.dir (pathFor root request.chunkId) ≠ none → ChunksUnchanged root fs fs' →
      PutOutcome B root input s request fs status fs'
  | stored {fs' : FS} {p : Bytes} : request.Valid → Accepts B input s request p →
      Commits B root request.chunkId p fs fs' → PutOutcome B root input s request fs .Ok fs'

theorem Left.chunksUnchanged {fs fs' : FS} {chunkId : ChunkId} {pid address : ℕ} {leftover : Bool}
    (h : Left fs (tempPath root chunkId pid address) (pathFor root chunkId) leftover none fs') :
    ChunksUnchanged root fs fs' := by
  intro path hpath
  refine FS.contents_congr ?_ h.old
  by_cases hfinal : pathFor root chunkId = path
  · rw [← hfinal, h.final_eq]
    rfl
  · refine h.others path (fun htemp => ?_) hfinal
    exact not_isChunkPath_tempPath chunkId pid address (htemp ▸ hpath)

theorem Left.commits {fs fs' : FS} {request : PutChunkRequest} {pid address : ℕ} {leftover : Bool}
    {p : Bytes} (hfree : fs.dir (pathFor root request.chunkId) = none)
    (hmatches : Matches B request p)
    (h : Left fs (tempPath root request.chunkId pid address) (pathFor root request.chunkId) leftover
      (some (makeHeader request.expectedSize request.expectedChecksum ++ p)) fs') :
    Commits B root request.chunkId p fs fs' where
  absent := hfree
  present := by
    obtain ⟨n, hn, hdata⟩ := h.own _ rfl
    simp [FS.contents, h.final_eq, hn, hdata, hmatches.chunkFile_eq]
  others path hpath hne := by
    refine FS.contents_congr (h.others path (fun htemp => ?_) hne.symm) h.old
    exact not_isChunkPath_tempPath request.chunkId pid address (htemp ▸ hpath)

theorem PutDone.outcome {input : ChunkInputStream σ} {request : PutChunkRequest} {pid address : ℕ}
    {w w' : StoreWorld σ τ} {status : Status}
    (hd : PutDone World.NoFailure B root input request (tempPath root request.chunkId pid address) w
      status w')
    (hfree : w.fs.dir (tempPath root request.chunkId pid address) = none)
    (hfit : w.fs.Fits (tempPath root request.chunkId pid address)) :
    PutOutcome B root input w.rest.1 request w.fs status w'.fs := by
  have hnever : World.NeverFails (B := Streams) (β := σ × τ) World.NoFailure :=
    World.neverFails_noFailure
  cases hd with
  | invalid hvalid hcode => exact .invalid hvalid hcode fun _ _ => rfl
  | refused hvalid hfs _ hreason =>
      rcases hreason with ⟨-, htaken⟩ | ⟨-, hfail⟩
      · exact absurd hfree htaken
      · exact absurd ⟨hnever, hfit⟩ hfail
  | dropped hvalid _ _ hleft _ _ hreason =>
      rcases hreason with hrej | ⟨p, hacc, hcode, hexists⟩ | ⟨-, hfail⟩
      · exact .rejected hvalid hrej hleft.chunksUnchanged
      · exact .exists hvalid hacc hcode hexists hleft.chunksUnchanged
      · exact absurd hnever hfail
  | committed hvalid _ _ hnone hleft _ _ hacc hend =>
      rcases hend with ⟨hok, -⟩ | ⟨-, -, hfail⟩
      · rw [hok]
        exact .stored hvalid hacc (hleft.commits hnone hacc.2)
      · exact absurd hnever hfail

section Outcome

variable {input : ChunkInputStream σ} {s : σ} {request : PutChunkRequest} {fs fs' : FS}
  {status : Status} {p : Bytes}

/-- What matches the request is stored. -/
theorem PutOutcome.of_matches (h : PutOutcome B root input s request fs status fs')
    (hvalid : request.Valid) (hdelivers : Delivers input s p) (hmatches : Matches B request p)
    (habsent : fs.dir (pathFor root request.chunkId) = none) :
    status = .Ok ∧ Commits B root request.chunkId p fs fs' := by
  cases h with
  | invalid hno _ _ => exact absurd hvalid hno
  | rejected _ hrejects _ =>
      exact absurd hrejects (not_rejects_of_accepts ⟨hdelivers, hmatches⟩)
  | «exists» _ _ _ hthere _ => exact absurd habsent hthere
  | stored _ hacc hcommits =>
      obtain rfl := hdelivers.unique hacc.1
      exact ⟨rfl, hcommits⟩

/-- What does not match the request is turned down. -/
theorem PutOutcome.of_not_matches (h : PutOutcome B root input s request fs status fs')
    (hvalid : request.Valid) (hdelivers : Delivers input s p) (hdiffers : ¬ Matches B request p) :
    status.code = .kCorruption ∧ ChunksUnchanged root fs fs' := by
  cases h with
  | invalid hno _ _ => exact absurd hvalid hno
  | rejected _ hrejects hsame =>
      refine ⟨?_, hsame⟩
      unfold Rejects at hrejects
      split at hrejects
      · next own hfailed => exact absurd hfailed (hdelivers.not_failed own)
      · exact hrejects
      · exact hrejects.2
  | «exists» _ hacc _ _ _ =>
      obtain rfl := hdelivers.unique hacc.1
      exact absurd hacc.2 hdiffers
  | stored _ hacc _ =>
      obtain rfl := hdelivers.unique hacc.1
      exact absurd hacc.2 hdiffers

end Outcome

section Handler

variable {input : ChunkInputStream σ} {output : ChunkOutputStream τ} {me : ℕ}
  {ok : (op : StoreSig.Op) → StoreWorld σ τ → Outcome → Prop}

/-- The data plane makes two of the checks of `Put` before it calls it. -/
theorem dataPlanePut_always (request : PutChunkRequest) (pid address : ℕ) {w : StoreWorld σ τ}
    (hw : Preparing w.trace) :
    (DataPlaneService.putChunk (fileChunkStore B root pid address) request).Always
      ((World.handler me (streams input output)).sem ok) w
      (PutDone ok B root input request (tempPath root request.chunkId pid address) w) := by
  unfold DataPlaneService.putChunk
  by_cases hid : request.chunkId.valid = true
  · by_cases hsum : request.expectedChecksum.WellFormed
    · simp only [hid, (validateChecksum_ok _).2 hsum, Bool.not_true, Bool.false_eq_true, if_false]
      exact put_always request pid address hw
    · have hno : (validateChecksum request.expectedChecksum).ok = false := by
        simpa using fun h => hsum ((validateChecksum_ok _).1 h)
      simp only [hid, hno, Bool.not_true, Bool.not_false, Bool.false_eq_true, if_false, if_true]
      exact .invalid (fun h => hsum h.2) (validateChecksum_code hsum)
  · have hno : request.chunkId.valid = false := by simpa using hid
    have hbad : ¬ request.Valid := by
      intro hvalid
      exact hid (validateId_valid hvalid.1)
    simp only [hno, Bool.not_false, if_true]
    exact .invalid hbad rfl

/-- The code a reply reports, as the client reads it. -/
def reportedCode (reply : GrpcStatus × OperationResponse) : StatusCode :=
  if reply.1.ok then fromRpcCode reply.2.status.code else fromGrpcCode reply.1.code

theorem reportedCode_setStatus (status : Status) :
    reportedCode (.Ok, ⟨setStatus status⟩) = status.code :=
  fromRpcCode_toRpcStatusCode status.code

/-- The handler of `PutChunk` in the worker that stores chunks under `root`. -/
def handlePut (B : Blake3) (root : Bytes) (pid address : ℕ) (frames : List PutChunkFrame) :
    Program StoreSig (GrpcStatus × OperationResponse) :=
  WorkerService.putChunk (some (fileChunkStore B root pid address)) frames.head?

/-- The state in which the handler starts: its reader is past the first frame. -/
def handlerStart (frames : List PutChunkFrame) (sink : τ) (fs : FS) :
    StoreWorld RpcInputStream τ :=
  ⟨[], fs, [], (.ofFrames frames.tail, sink)⟩

/-- The handler turns the stream down at its first frame, or does what the data plane does. -/
theorem handlePut_always (pid address : ℕ) (frames : List PutChunkFrame) (sink : τ) (fs : FS)
    {ok : (op : StoreSig.Op) → StoreWorld RpcInputStream τ → Outcome → Prop} :
    (handlePut B root pid address frames).Always
      ((World.handler me (streams RpcInputStream.read output)).sem ok)
      (handlerStart frames sink fs)
      (fun reply w' =>
        ((∀ metadata rest, frames ≠ .metadata metadata :: rest) ∧
          reportedCode reply = .kInvalidArgument ∧ w'.fs = fs) ∨
        ∃ metadata rest status, frames = .metadata metadata :: rest ∧
          reply = (.Ok, ⟨setStatus status⟩) ∧
          PutDone ok B root RpcInputStream.read metadata.request
            (tempPath root metadata.request.chunkId pid address) (handlerStart frames sink fs)
            status w') := by
  unfold handlePut WorkerService.putChunk
  cases frames with
  | nil => exact Or.inl ⟨by simp, rfl, rfl⟩
  | cons frame rest =>
      cases frame with
      | metadata metadata =>
          refine safe_bind.2 ((dataPlanePut_always metadata.request pid address
            ⟨rfl, rfl, rfl, rfl⟩).imp ?_)
          intro status w' hd
          exact Or.inr ⟨metadata, rest, status, rfl, rfl, hd⟩
      | data data => exact Or.inl ⟨by simp, rfl, rfl⟩
      | unset => exact Or.inl ⟨by simp, rfl, rfl⟩

end Handler

/-! ## The handler and the grammar -/

theorem valid_request_iff (metadata : PutChunkMetadata) :
    metadata.request.Valid ↔ metadata.chunkId ≠ [] ∧ metadata.chunkId.length ≤ 1024 ∧
      metadata.request.expectedChecksum.WellFormed := by
  rw [PutChunkRequest.Valid, validateId_ok, and_assoc]
  rfl

theorem Grammar.valid {fs : FS} {frames : List PutChunkFrame} {metadata : PutChunkMetadata}
    {p : Bytes} (h : Grammar B root fs frames metadata p) : metadata.request.Valid :=
  (valid_request_iff metadata).2 ⟨h.id_ne, h.id_le, h.checksum⟩

/-- The pieces of a stream of the grammar are what the receive loop gets. -/
theorem Grammar.received {fs : FS} {rest : List PutChunkFrame} {metadata metadata' : PutChunkMetadata}
    {p : Bytes} (h : Grammar B root fs (.metadata metadata' :: rest) metadata p) :
    metadata' = metadata ∧ received metadata.expectedSize.toNat rest = .complete p := by
  obtain ⟨pieces, hne, hp, hframes⟩ := h.frames_eq
  obtain ⟨hmeta, hrest⟩ := List.cons.inj hframes
  have hpieces : Pieces metadata.expectedSize.toNat pieces := ⟨hne, by rw [← hp, h.size]⟩
  refine ⟨PutChunkFrame.metadata.inj hmeta, ?_⟩
  rw [hrest, received_pieces hpieces, ← hp]

theorem PutOutcome.of_grammar {fs fs' : FS} {rest : List PutChunkFrame}
    {metadata : PutChunkMetadata} {p : Bytes} {status : Status}
    (hg : Grammar B root fs (.metadata metadata :: rest) metadata p)
    (h : PutOutcome B root RpcInputStream.read (.ofFrames rest) metadata.request fs status fs') :
    status = .Ok ∧ Commits B root ⟨metadata.chunkId⟩ p fs fs' := by
  have hdel : deliver RpcInputStream.read metadata.expectedSize.toNat (.ofFrames rest)
      = .complete p := by
    rw [deliver_frames rest _ _ rfl rfl]
    exact hg.received.2
  have hmatches : Matches B metadata.request p := ⟨hg.size, hg.hash⟩
  cases h with
  | invalid hvalid _ _ => exact absurd hg.valid hvalid
  | rejected _ hrej _ =>
      unfold Rejects at hrej
      rw [show metadata.request.expectedSize = metadata.expectedSize from rfl, hdel] at hrej
      exact absurd hmatches hrej.1
  | «exists» _ _ _ hexists _ => exact absurd hg.absent hexists
  | @stored _ p' _ hacc hcommits =>
      have hdel' := deliver_complete_iff.2 ⟨hacc.1, le_of_eq hacc.2.1⟩
      have hp : p = p' := Delivery.complete.inj (hdel.symm.trans hdel')
      rw [hp]
      exact ⟨rfl, hcommits⟩

/-- What the checks of `Put` accept came in pieces. -/
theorem Accepts.pieces {request : PutChunkRequest} {rest : List PutChunkFrame} {p : Bytes}
    (h : Accepts B RpcInputStream.read (.ofFrames rest) request p) :
    ∃ pieces, Pieces request.expectedSize.toNat pieces ∧ p = pieces.flatten ∧
      rest = pieces.map .data := by
  have hcomplete := deliver_complete_iff.2 ⟨h.1, le_of_eq h.2.1⟩
  rw [deliver_frames rest _ _ rfl rfl] at hcomplete
  have hreception := received_spec request.expectedSize.toNat rest
  rw [hcomplete] at hreception
  generalize hd : Delivery.complete p = delivery at hreception
  cases hreception with
  | complete hpieces hframes => exact ⟨_, hpieces, Delivery.complete.inj hd, hframes⟩
  | stray _ _ _ _ => exact absurd hd (by simp)
  | excess _ _ _ _ => exact absurd hd (by simp)

theorem PutOutcome.of_not_grammar {fs fs' : FS} {rest : List PutChunkFrame}
    {metadata : PutChunkMetadata} {status : Status}
    (hg : ¬ ∃ p, Grammar B root fs (.metadata metadata :: rest) metadata p)
    (h : PutOutcome B root RpcInputStream.read (.ofFrames rest) metadata.request fs status fs') :
    ChunksUnchanged root fs fs' ∧
      FirstViolation B root fs (.metadata metadata :: rest) status.code := by
  have hdel : deliver RpcInputStream.read metadata.request.expectedSize.toNat (.ofFrames rest)
      = received metadata.expectedSize.toNat rest := deliver_frames rest _ _ rfl rfl
  have hreception := received_spec metadata.expectedSize.toNat rest
  cases h with
  | invalid hvalid hcode hsame =>
      refine ⟨hsame, hcode ▸ .invalid rfl ?_⟩
      rw [valid_request_iff, not_and_or, not_and_or, not_not, not_le] at hvalid
      exact hvalid
  | rejected hvalid hrej hsame =>
      refine ⟨hsame, ?_⟩
      unfold Rejects at hrej
      rw [hdel] at hrej
      generalize received metadata.expectedSize.toNat rest = delivery at hrej hreception
      cases hreception with
      | complete hpieces hframes =>
          rw [hrej.2, hframes]
          exact .mismatch hvalid hpieces hrej.1 rfl
      | stray hpieces hstray hframes hcode =>
          rw [hrej, hcode, hframes]
          exact .stray hvalid hpieces hstray rfl
      | excess hpieces hne hlong hframes =>
          have hcode : status.code = .kCorruption := hrej
          rw [hcode, hframes]
          exact .excess hvalid hpieces hne hlong rfl
  | «exists» hvalid hacc hcode hexists hsame =>
      obtain ⟨pieces, hpieces, hp, hframes⟩ := hacc.pieces
      rw [hcode, hframes]
      exact ⟨hsame, .stored hvalid hpieces (hp ▸ hacc.2) hexists rfl⟩
  | @stored _ p hvalid hacc hcommits =>
      obtain ⟨pieces, hpieces, hp, hframes⟩ := hacc.pieces
      obtain ⟨hne, hle, hsum⟩ := (valid_request_iff metadata).1 hvalid
      refine absurd ⟨p, ⟨pieces, hpieces.1, hp, ?_⟩, hne, hle, hsum, hacc.2.1, hacc.2.2,
        hcommits.absent⟩ hg
      rw [hframes]

/-- **`PutChunk` accepts exactly its grammar.** On every finite stream of frames, however it ended,
    the handler returns. It commits a chunk exactly if the stream is in the grammar, with the
    payload the pieces make; else no chunk changes and it reports the first violation. -/
theorem putChunk_accepts_grammar {τ : Type} (B : Blake3) (root : Bytes) (pid address me : ℕ)
    (frames : List PutChunkFrame) (output : ChunkOutputStream τ) (sink : τ) (fs : FS)
    (ω : ℕ → Outcome)
    (htemp : ∀ metadata rest, frames = .metadata metadata :: rest →
      fs.Fits (tempPath root ⟨metadata.chunkId⟩ pid address) ∧
        fs.dir (tempPath root ⟨metadata.chunkId⟩ pid address) = none)
    (hcalm : Config.Admits (World.handler me (streams RpcInputStream.read output)) World.NoFailure
      (handlePut B root pid address frames, handlerStart frames sink fs) ω)
    (hfair : Config.Fair (World.handler me (streams RpcInputStream.read output))
      (handlePut B root pid address frames, handlerStart frames sink fs) ω) :
    ∃ reply w', Config.Returns (World.handler me (streams RpcInputStream.read output))
        (handlePut B root pid address frames, handlerStart frames sink fs) ω reply w' ∧
      (∀ chunkId p, Commits B root chunkId p fs w'.fs ↔
        ∃ metadata, metadata.chunkId = chunkId.value ∧ Grammar B root fs frames metadata p) ∧
      ((∃ metadata p, Grammar B root fs frames metadata p) → reportedCode reply = .kOk) ∧
      ((¬ ∃ metadata p, Grammar B root fs frames metadata p) → ChunksUnchanged root fs w'.fs ∧
        FirstViolation B root fs frames (reportedCode reply)) := by
  obtain ⟨reply, w', hret, hdone⟩ :=
    Always.returns (handlePut_always pid address frames sink fs) hcalm hfair
  refine ⟨reply, w', hret, ?_⟩
  rcases hdone with ⟨hfirst, hcode, hfs⟩ | ⟨metadata, rest, status, hframes, hreply, hd⟩
  · have hsame : ChunksUnchanged root fs w'.fs := by
      intro path _
      rw [hfs]
    have hnone : ¬ ∃ metadata p, Grammar B root fs frames metadata p := by
      rintro ⟨metadata, p, hg⟩
      obtain ⟨pieces, -, -, hframes⟩ := hg.frames_eq
      exact hfirst _ _ hframes
    rw [hcode]
    refine ⟨fun chunkId p => ⟨fun h => absurd h hsame.not_commits, ?_⟩,
      fun hg => absurd hg hnone, fun _ => ⟨hsame, .missing hfirst⟩⟩
    rintro ⟨metadata, -, hg⟩
    exact absurd ⟨metadata, p, hg⟩ hnone
  · obtain ⟨hfit, hfree⟩ := htemp metadata rest hframes
    subst hframes hreply
    have hout : PutOutcome B root RpcInputStream.read (.ofFrames rest) metadata.request fs status
        w'.fs := hd.outcome hfree hfit
    rw [reportedCode_setStatus]
    by_cases hg : ∃ p, Grammar B root fs (.metadata metadata :: rest) metadata p
    · obtain ⟨p, hp⟩ := hg
      obtain ⟨hok, hcommit⟩ := hout.of_grammar hp
      refine ⟨fun chunkId q => ⟨fun h => ?_, ?_⟩, fun _ => by rw [hok]; rfl,
        fun hnone => absurd ⟨metadata, p, hp⟩ hnone⟩
      · obtain ⟨hid, hq⟩ := h.unique hcommit
        rw [hid, hq]
        exact ⟨metadata, rfl, hp⟩
      · rintro ⟨metadata', hid, hq⟩
        obtain ⟨hmeta, hrec⟩ := hq.received
        subst hmeta
        have hpq : p = q := Delivery.complete.inj (hp.received.2.symm.trans hrec)
        rw [← hpq, show chunkId = ⟨metadata.chunkId⟩ from (congrArg ChunkId.mk hid).symm]
        exact hcommit
    · obtain ⟨hsame, hfirst⟩ := hout.of_not_grammar hg
      have hnone : ¬ ∃ metadata' p, Grammar B root fs (.metadata metadata :: rest) metadata' p := by
        rintro ⟨metadata', p, hp⟩
        obtain ⟨hmeta, -⟩ := hp.received
        subst hmeta
        exact hg ⟨p, hp⟩
      refine ⟨fun chunkId p => ⟨fun h => absurd h hsame.not_commits, ?_⟩,
        fun h => absurd h hnone, fun _ => ⟨hsame, hfirst⟩⟩
      rintro ⟨metadata', -, hp⟩
      exact absurd ⟨metadata', p, hp⟩ hnone

/-- The metadata of the chunk `"a"` with the payload. -/
def sampleMetadata (p : Bytes) : PutChunkMetadata :=
  ⟨[0x61], UInt64.ofNat p.length, Blake3.sample.hex p⟩

/-- The stream of the chunk `"a"` with the payload `"a"`. -/
def sampleFrames : List PutChunkFrame := [.metadata (sampleMetadata [0x61]), .data [0x61]]

/-- How the handlers are run on samples. -/
abbrev sampleHandler : Handler StoreSig (StoreWorld RpcInputStream Unit) Outcome :=
  World.handler 0 (streams RpcInputStream.read fun t _ => (.Ok, t))

theorem sampleFrames_grammar :
    Grammar Blake3.sample [0x72] (FS.empty 255) sampleFrames (sampleMetadata [0x61]) [0x61] where
  frames_eq := ⟨[[0x61]], by decide, rfl, rfl⟩
  id_ne := by decide
  id_le := by decide
  checksum := ⟨by decide +kernel, by decide +kernel⟩
  size := rfl
  hash := rfl
  absent := rfl

/-- Every transfer moves one byte at a time. -/
theorem putChunk_accepts_grammar_sample :
    ∃ reply w', Config.Returns sampleHandler
        (handlePut Blake3.sample [0x72] 1 2 sampleFrames,
          handlerStart sampleFrames () (FS.empty 255)) (fun _ => .short 1) reply w' ∧
      reportedCode reply = .kOk ∧
      Commits Blake3.sample [0x72] ⟨[0x61]⟩ [0x61] (FS.empty 255) w'.fs := by
  obtain ⟨hcalm, hfair⟩ : Config.Admits sampleHandler World.NoFailure
        (handlePut Blake3.sample [0x72] 1 2 sampleFrames,
          handlerStart sampleFrames () (FS.empty 255)) (fun _ => .short 1) ∧
      Config.Fair sampleHandler
        (handlePut Blake3.sample [0x72] 1 2 sampleFrames,
          handlerStart sampleFrames () (FS.empty 255)) (fun _ => .short 1) :=
    Config.ends_spec (fun op w o => decide (World.NoFailure op w o)) of_decide_eq_true (n := 100)
      (by decide +kernel)
  have htemp : ∀ metadata rest, sampleFrames = .metadata metadata :: rest →
      (FS.empty 255).Fits (tempPath [0x72] ⟨metadata.chunkId⟩ 1 2) ∧
        (FS.empty 255).dir (tempPath [0x72] ⟨metadata.chunkId⟩ 1 2) = none := by
    intro metadata rest hframes
    obtain rfl := PutChunkFrame.metadata.inj (List.cons.inj hframes).1
    exact ⟨by decide +kernel, rfl⟩
  obtain ⟨reply, w', hret, hcommits, hcode, -⟩ := putChunk_accepts_grammar Blake3.sample [0x72] 1 2
    0 sampleFrames (fun t _ => (.Ok, t)) () (FS.empty 255) _ htemp hcalm hfair
  exact ⟨reply, w', hret, hcode ⟨_, _, sampleFrames_grammar⟩,
    (hcommits ⟨[0x61]⟩ [0x61]).2 ⟨_, rfl, sampleFrames_grammar⟩⟩

end ChunkStorage
