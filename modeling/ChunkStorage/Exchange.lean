import ChunkStorage.FileHost
import ChunkStorage.UploadReport

set_option autoImplicit false

/-! # An upload, step by step

`network` runs the handler of an upload when its client waits for the answer. Here the two run at the
same time, with the frames on their way between them: a frame that the client has sent arrives some
time later or never, and the source may change under the client's hands. To the handler the end of
the stream, a cancellation and a lost connection are the same, `reader->Read` returns false, so any
of them may meet it after any of the frames sent.

Whatever the order of these steps, the worker shows a chunk only if the frames that had arrived at
the end of the stream match the metadata (`Exchange.Inv.visible`). -/

namespace ChunkStorage

open Effects Posix Program

/-! ## The client's side of the connection -/

/-- The state of the one RPC of an upload, as the client's gRPC sees it. -/
structure Wire where
  /-- The frames that `Write` took. -/
  sent : List PutChunkFrame
  /-- `WritesDone` was called. -/
  closed : Bool
  cancelled : Bool
  /-- The connection is lost or the deadline is over. -/
  cut : Bool
  /-- What the handler has returned. -/
  reply : Option (GrpcStatus × OperationResponse)

def Wire.idle : Wire := ⟨[], false, false, false, none⟩

/-- How gRPC answers the calls of an upload. `Finish` gives up when the deadline is over before the
    reply is there. The other RPCs are not part of an upload. -/
def wire : Transport Wire
  | .putChunk, x => ((), x)
  | .write frame, x => if x.cut then (false, x) else (true, { x with sent := x.sent ++ [frame] })
  | .writesDone, x => ((), { x with closed := true })
  | .tryCancel, x => ((), { x with cancelled := true })
  | .finishPut, x =>
      if x.cancelled then ((cancelledStatus, .unset), x)
      else
        match x.reply with
        | some reply => (reply, x)
        | none => ((deadlineStatus, .unset), { x with cut := true })
  | .getChunk _, x => ((), x)
  | .read, x => (none, x)
  | .finishGet, x => (deadlineStatus, x)
  | .headChunk _, x => ((deadlineStatus, .unset), x)
  | .deleteChunk _, x => ((deadlineStatus, .unset), x)

/-! ## The exchange -/

/-- The handler of an upload in the middle of its program. -/
abbrev Handling :=
  Config StoreSig (GrpcStatus × OperationResponse) (StoreWorld RpcInputStream RpcOutputStream)

/-- A client and a worker during an upload. -/
structure Exchange where
  client : Config ClientSig Status (ClientWorld Wire)
  /-- The frames that have reached the handler. -/
  arrived : List PutChunkFrame
  /-- The end of the stream has reached the handler. -/
  ended : Bool
  /-- The file system of the worker before the upload. -/
  before : FS
  /-- The handler, once its first `Read` has returned. -/
  handling : Option Handling

inductive Move where
  /-- The client performs its next operation. -/
  | client (o : Outcome)
  /-- Somebody changes the files of the client. -/
  | touch (fs : FS)
  /-- The connection is lost, or the deadline is over. -/
  | cut
  /-- The next frame reaches the handler. -/
  | arrive
  /-- The end of the stream reaches the handler. -/
  | close
  /-- The handler performs its next operation. -/
  | handle (o : Outcome)
  /-- What the handler returned reaches the client. -/
  | answer

namespace Exchange

/-- The file system of the worker. -/
def files (x : Exchange) : FS :=
  match x.handling with
  | none => x.before
  | some c => c.2.fs

/-- The end of the stream can reach the handler: all frames have arrived and no more follow, or the
    RPC is given up. -/
def closing (x : Exchange) : Bool :=
  x.client.2.rest.cancelled || x.client.2.rest.cut ||
    (x.client.2.rest.closed && x.arrived.length = x.client.2.rest.sent.length)

variable (B : Blake3) (root : Bytes) (pid address server me : ℕ)

/-- The environment of the handler. -/
abbrev serving : Handler StoreSig (StoreWorld RpcInputStream RpcOutputStream) Outcome :=
  World.handler server (streams RpcInputStream.read RpcOutputStream.write)

/-- The handler of the upload when its first `Read` has returned. -/
def begin (fs : FS) (frames : List PutChunkFrame) : Handling :=
  (handlePut B root pid address frames, handlerStart frames .opened fs)

/-- One step. A descriptor that is open keeps its file, so a change of the client's files leaves them
    there. The handler waits in `Read` until a frame or the end of the stream is there. -/
def step (x : Exchange) : Move → Option Exchange
  | .client o => some { x with client := x.client.step (World.handler me wire) o }
  | .touch fs =>
      if x.client.2.fs.inodes.length ≤ fs.inodes.length then
        some { x with client := (x.client.1, { x.client.2 with fs := fs }) }
      else none
  | .cut => some { x with client := (x.client.1,
      { x.client.2 with rest := { x.client.2.rest with cut := true } }) }
  | .arrive =>
      if x.ended then none
      else
        match x.client.2.rest.sent[x.arrived.length]? with
        | none => none
        | some frame => some { x with
            arrived := x.arrived ++ [frame]
            handling := match x.handling with
              | none => some (begin B root pid address x.before [frame])
              | some c => some (c.1, (fileHost server).feed [frame] c.2) }
  | .close =>
      if x.closing then some { x with
        ended := true
        handling := match x.handling with
          | none => some (begin B root pid address x.before [])
          | some c => some c }
      else none
  | .handle o =>
      match x.handling with
      | none => none
      | some c =>
          let c' := c.step (serving server) o
          if c'.2.rest.1.ended && !x.ended then none else some { x with handling := some c' }
  | .answer =>
      match x.handling with
      | some (.ret reply, _) => some { x with client := (x.client.1,
          { x.client.2 with rest := { x.client.2.rest with reply := some reply } }) }
      | _ => none

/-- The state after the moves, if they are possible. -/
def run (x : Exchange) : List Move → Option Exchange
  | [] => some x
  | move :: moves => (x.step B root pid address server me move).bind fun y => y.run moves

/-- A client about to run the program, and a worker with the files. -/
def start (p : Program ClientSig Status) (fs before : FS) : Exchange :=
  ⟨(p, ⟨[], fs, [], .idle⟩), [], false, before, none⟩

end Exchange

/-! ## What the trace of a client says -/

/-- The trace after a reply. An interrupted call leaves nothing in it. -/
def record : (op : ClientSig.Op) → ClientSig.Ret op → List (Event ClientSig) → List (Event ClientSig)
  | .inl s, r, t => if s.interrupted r then t else ⟨.inl s, r⟩ :: t
  | .inr op, r, t => ⟨.inr op, r⟩ :: t

/-- The frames that `Write` took, in order. -/
def framesSent : List (Event ClientSig) → List PutChunkFrame
  | [] => []
  | ⟨.inr (.write frame), true⟩ :: t => framesSent t ++ [frame]
  | _ :: t => framesSent t

/-- The files that were opened to be read, the last one first, each with its descriptor and the blocks
    that were read of it, in order. -/
def passes : List (Event ClientSig) → List (ℕ × List Bytes)
  | [] => []
  | ⟨.inl (.openRead _), .ok fd⟩ :: t => (fd, []) :: passes t
  | ⟨.inl (.read _ _), .ok bytes⟩ :: t =>
      match passes t with
      | [] => []
      | (fd, blocks) :: more => (fd, blocks ++ [bytes]) :: more
  | _ :: t => passes t

/-- The next call, if it is one of the file system, opens a file to read it or reads the file that was
    opened last. -/
def ReadsOnly (t : List (Event ClientSig)) {α : Type} : Program ClientSig α → Prop
  | .call (.inl (.read fd _)) _ _ => ∃ blocks more, passes t = (fd, blocks) :: more
  | .call (.inl (.openRead _)) _ _ => True
  | .call (.inl _) _ _ => False
  | .call (.inr _) _ _ => True
  | .ret _ => True

/-- It does not matter how the program goes on. -/
theorem ReadsOnly.bind {t : List (Event ClientSig)} {α β : Type} {op : ClientSig.Op}
    {again : ClientSig.Ret op → Bool} {k : ClientSig.Ret op → Program ClientSig α}
    (h : ReadsOnly t (.call op again k)) (l : ClientSig.Ret op → Program ClientSig β) :
    ReadsOnly t (.call op again l) := by
  cases op with
  | inl s => cases s <;> exact h
  | inr op => trivial

/-- No file is read past the largest offset. -/
structure Bounded (fds : List OpenFile) (t : List (Event ClientSig)) : Prop where
  short : ∀ pass ∈ passes t, pass.2.flatten.length ≤ offMax
  position : ∀ {fd blocks more}, passes t = (fd, blocks) :: more →
    ∃ f, fds[fd]? = some f ∧ blocks.flatten.length ≤ f.offset

theorem Bounded.congr {fds : List OpenFile} {t t' : List (Event ClientSig)} (h : Bounded fds t)
    (hpasses : passes t' = passes t) : Bounded fds t' := by
  refine ⟨?_, ?_⟩
  · rw [hpasses]
    exact h.short
  · rw [hpasses]
    exact h.position

/-- The client is at a point of its program that meets `N`, and its trace tells what it sent. -/
structure Following (N : List (Event ClientSig) → Program ClientSig Status → Prop)
    (c : Config ClientSig Status (ClientWorld Wire)) : Prop where
  tracks : c.1.Tracks (fun _ _ => True) record N c.2.trace
  sent : c.2.rest.sent = framesSent c.2.trace
  bounded : Bounded c.2.fds c.2.trace

section Following

variable {N : List (Event ClientSig) → Program ClientSig Status → Prop} {me : ℕ}

theorem handler_trace {β : Type} {transport : Transport β} (op : ClientSig.Op) (w : ClientWorld β)
    (o : Outcome) : (World.handler me transport op w o).2.trace
      = record op (World.handler me transport op w o).1 w.trace := by
  cases op <;> rfl

theorem wire_sent (op : RpcOp) (x : Wire) (t : List (Event ClientSig)) (h : x.sent = framesSent t) :
    (wire op x).2.sent = framesSent (⟨.inr op, (wire op x).1⟩ :: t) := by
  cases op with
  | write frame =>
      unfold wire
      dsimp only
      split
      · exact h
      · show x.sent ++ [frame] = framesSent t ++ [frame]
        rw [h]
  | finishPut =>
      unfold wire
      dsimp only
      split
      · exact h
      · split <;> exact h
  | putChunk | writesDone | tryCancel | getChunk _ | read | finishGet | headChunk _ | deleteChunk _ =>
      exact h

/-- A call that opens or reads a file keeps the bounds. -/
theorem Bounded.answered {w : ClientWorld Wire} (h : Bounded w.fds w.trace) {s : Syscall} {α : Type}
    {again : s.Ret → Bool} {k : s.Ret → Program ClientSig α}
    (hreads : ReadsOnly w.trace (Program.call (.inl s) again k)) (o : Outcome) :
    Bounded (World.handler me wire (.inl s) w o).2.fds (World.handler me wire (.inl s) w o).2.trace := by
  rcases hexec : s.exec me w.fds w.fs o with ⟨r, fds', fs'⟩
  have hnext : World.handler me wire (.inl s) w o = (r, w.answered s r fds' fs') :=
    World.handler_sys hexec
  rw [hnext]
  show Bounded fds' (record (.inl s) r w.trace)
  cases s with
  | openRead path =>
      obtain ⟨-, ⟨e, rfl, rfl, -, -⟩ | ⟨i, -, rfl, rfl⟩⟩ := openRead_cases hexec
      · exact h.congr rfl
      · refine ⟨?_, ?_⟩
        · intro pass hpass
          rcases List.mem_cons.1 hpass with rfl | hold
          · exact Nat.zero_le _
          · exact h.short pass hold
        · intro fd blocks more hpasses
          obtain ⟨hpass, -⟩ := List.cons.inj hpasses
          obtain ⟨rfl, rfl⟩ := Prod.mk.inj hpass
          exact ⟨⟨i, 0⟩, by simp, le_rfl⟩
  | read fd count =>
      obtain ⟨blocks, more, hpasses⟩ := hreads
      obtain ⟨f, hf, hle⟩ := h.position hpasses
      obtain ⟨-, ⟨e, rfl, rfl⟩ | ⟨f', bytes, hf', rfl, rfl, hroom⟩⟩ := read_moves hexec
      · refine h.congr ?_
        show passes (if Syscall.interrupted (.read fd count) (.error e) then w.trace
          else ⟨.inl (.read fd count), .error e⟩ :: w.trace) = passes w.trace
        split <;> rfl
      · obtain rfl : f = f' := Option.some.inj (hf.symm.trans hf')
        have hnext : passes (record (.inl (.read fd count)) (.ok bytes) w.trace)
            = (fd, blocks ++ [bytes]) :: more := by
          simp [record, Syscall.interrupted, passes, hpasses]
        have hlength : (blocks ++ [bytes]).flatten.length = blocks.flatten.length + bytes.length := by
          simp
        have hshort := h.short (fd, blocks) (by simp [hpasses])
        refine ⟨?_, ?_⟩
        · intro pass hpass
          rw [hnext] at hpass
          rcases List.mem_cons.1 hpass with rfl | hold
          · rw [hlength]
            by_cases hnil : bytes = []
            · rw [hnil]
              exact hshort
            · have := hroom hnil
              omega
          · exact h.short pass (by rw [hpasses]; exact List.mem_cons_of_mem _ hold)
        · intro fd' blocks' more' hpasses'
          rw [hnext] at hpasses'
          obtain ⟨hpass, -⟩ := List.cons.inj hpasses'
          obtain ⟨rfl, rfl⟩ := Prod.mk.inj hpass
          have hlt := (List.getElem?_eq_some_iff.1 hf).1
          refine ⟨⟨f.ino, f.offset + bytes.length⟩, by simp [hlt], ?_⟩
          rw [hlength]
          show _ ≤ f.offset + bytes.length
          omega
  | createDirectories _ | openExcl _ | write _ _ | pread _ _ _ | fstat _ | fdatasync _ | link _ _
  | unlink _ | openDirectory _ | fsync _ | «exists» _ => exact hreads.elim

/-- A step of the client. -/
theorem Following.step {c : Config ClientSig Status (ClientWorld Wire)} (h : Following N c)
    (hN : ∀ {t p}, N t p → ReadsOnly t p) (o : Outcome) :
    Following N (c.step (World.handler me wire) o) := by
  have hnext := h.tracks.step (h := World.handler me wire) (o := o) World.trace
    (fun w => w.rest.sent = framesSent w.trace ∧ Bounded w.fds w.trace) ?_ ⟨h.sent, h.bounded⟩
  · exact ⟨hnext.1, hnext.2.1, hnext.2.2⟩
  · intro op again k w hpoint hw
    refine ⟨trivial, handler_trace op w o, ?_⟩
    cases op with
    | inl s =>
        refine ⟨?_, hw.2.answered (hN hpoint) o⟩
        show w.rest.sent = framesSent (if s.interrupted (s.exec me w.fds w.fs o).1 then w.trace
          else ⟨.inl s, (s.exec me w.fds w.fs o).1⟩ :: w.trace)
        rw [hw.1]
        split <;> rfl
    | inr op => exact ⟨wire_sent op w.rest w.trace hw.1, hw.2.congr rfl⟩

/-- What happens elsewhere changes neither the trace nor the descriptors of the client. -/
theorem Following.env {p : Program ClientSig Status} {w w' : ClientWorld Wire}
    (h : Following N (p, w)) (hfds : w'.fds = w.fds) (htrace : w'.trace = w.trace)
    (hsent : w'.rest.sent = w.rest.sent) : Following N (p, w') := by
  refine ⟨?_, ?_, ?_⟩
  · show p.Tracks _ _ _ w'.trace
    rw [htrace]
    exact h.tracks
  · show w'.rest.sent = framesSent w'.trace
    rw [hsent, htrace]
    exact h.sent
  · show Bounded w'.fds w'.trace
    rw [hfds, htrace]
    exact h.bounded

end Following

/-! ## What an upload reads and sends -/

/-- `PutChunk` with nothing sent, or with the metadata and the first of the blocks it has read. The
    files in `more` were read before. -/
def Uploading (request : PutChunkRequest) (more : List (ℕ × List Bytes)) (t : List (Event ClientSig))
    (p : Program ClientSig Status) : Prop :=
  ReadsOnly t p ∧ (framesSent t = [] ∨ ∃ fd reads, ∃ blocks : List FrameData,
    framesSent t = GrpcDataPlaneClient.metadataFrame request :: dataFrames blocks ∧
    passes t = (fd, reads) :: more ∧ blocks.map Subtype.val <+: reads)

/-- The send loop: all blocks but the last one read were sent. -/
def Sending (request : PutChunkRequest) (fd : ℕ) (more : List (ℕ × List Bytes)) {α : Type}
    (t : List (Event ClientSig)) (p : Program ClientSig α) : Prop :=
  ReadsOnly t p ∧ ∃ reads, ∃ blocks : List FrameData,
    framesSent t = GrpcDataPlaneClient.metadataFrame request :: dataFrames blocks ∧
    passes t = (fd, reads) :: more ∧ blocks.map Subtype.val <+: reads

section Programs

variable {request : PutChunkRequest} {more : List (ℕ × List Bytes)} {t : List (Event ClientSig)}

/-- A call of `read` that is retried leaves the trace. -/
theorem record_interrupted {s : Syscall} {r : s.Ret} (h : s.interrupted r = true) :
    record (.inl s) r t = t := by
  simp [record, h]

theorem record_transfer {s : Syscall} {r : s.Ret} (h : s.interrupted r = false) :
    record (.inl s) r t = ⟨.inl s, r⟩ :: t := by
  simp [record, h]

theorem send_tracks {fd : ℕ} (rounds : ℕ) {blocks : List FrameData}
    (hsent : framesSent t = GrpcDataPlaneClient.metadataFrame request :: dataFrames blocks)
    (hpasses : passes t = (fd, blocks.map Subtype.val) :: more) :
    (GrpcDataPlaneClient.send fd rounds).Tracks (fun _ _ => True) record (Sending request fd more) t := by
  induction rounds generalizing t blocks with
  | zero => exact ⟨trivial, _, blocks, hsent, hpasses, List.prefix_rfl⟩
  | succ rounds ih =>
      unfold GrpcDataPlaneClient.send
      refine tracks_retrying ⟨⟨_, _, hpasses⟩, _, blocks, hsent, hpasses, List.prefix_rfl⟩
        (fun r hr => record_interrupted hr) fun r _ hr => ?_
      rw [record_transfer hr]
      cases r with
      | error e => exact ⟨trivial, _, blocks, hsent, hpasses, List.prefix_rfl⟩
      | ok bytes =>
          have hread : passes (⟨.inl (.read fd GrpcDataPlaneClient.kBufferSize), .ok bytes⟩ :: t)
              = (fd, blocks.map Subtype.val ++ [bytes]) :: more := by
            simp [passes, hpasses]
          by_cases hend : bytes.length = 0
          · simp only [hend, if_true]
            exact ⟨trivial, _, blocks, hsent, hread, List.prefix_append _ _⟩
          · simp only [hend, if_false]
            refine tracks_perform ⟨trivial, _, blocks, hsent, hread, List.prefix_append _ _⟩
              fun accepted _ => ?_
            cases accepted with
            | false => exact ⟨trivial, _, blocks, hsent, hread, List.prefix_append _ _⟩
            | true =>
                have hne : bytes ≠ [] := fun hnil => hend (by rw [hnil]; rfl)
                have hnext : framesSent t ++ [.data bytes]
                    = GrpcDataPlaneClient.metadataFrame request ::
                      dataFrames (blocks ++ [⟨bytes, hne⟩]) := by
                  rw [hsent]
                  simp [dataFrames]
                refine ih hnext ?_
                rw [List.map_append]
                exact hread

theorem Sending.sent {fd : ℕ} {α : Type} {p : Program ClientSig α} (h : Sending request fd more t p) :
    framesSent t = [] ∨ ∃ fd reads, ∃ blocks : List FrameData,
      framesSent t = GrpcDataPlaneClient.metadataFrame request :: dataFrames blocks ∧
      passes t = (fd, reads) :: more ∧ blocks.map Subtype.val <+: reads :=
  Or.inr ⟨fd, h.2⟩

/-- **`PutChunk` sends its metadata and then what it reads**, whatever the replies are. -/
theorem putChunk_tracks (source : Path) (hsent : framesSent t = []) (hpasses : passes t = more) :
    (GrpcDataPlaneClient.putChunk request source).Tracks (fun _ _ => True) record
      (Uploading request more) t := by
  unfold GrpcDataPlaneClient.putChunk
  refine tracks_perform ⟨trivial, Or.inl hsent⟩ fun r _ => ?_
  cases r with
  | error e => exact ⟨trivial, Or.inl hsent⟩
  | ok fd =>
      refine tracks_perform ⟨trivial, Or.inl hsent⟩ fun _ _ => ?_
      refine tracks_perform ⟨trivial, Or.inl hsent⟩ fun accepted _ => ?_
      cases accepted with
      | false =>
          refine tracks_perform ⟨trivial, Or.inl hsent⟩ fun _ _ => ?_
          exact tracks_perform ⟨trivial, Or.inl hsent⟩ fun _ _ => ⟨trivial, Or.inl hsent⟩
      | true =>
          have hfirst : framesSent t ++ [GrpcDataPlaneClient.metadataFrame request]
              = GrpcDataPlaneClient.metadataFrame request :: dataFrames [] := by
            rw [hsent]
            rfl
          have hopened : (fd, []) :: passes t = (fd, ([] : List FrameData).map Subtype.val) :: more := by
            rw [hpasses]
            rfl
          refine Tracks.bind (send_tracks (offMax + 1) hfirst hopened) ?_ ?_
          · intro t' op again k h
            exact ⟨h.1.bind _, h.sent⟩
          · intro t' r h
            cases r with
            | error e =>
                refine tracks_perform ⟨trivial, h.sent⟩ fun _ _ => ?_
                refine tracks_perform ⟨trivial, h.sent⟩ fun _ _ => ?_
                exact tracks_perform ⟨trivial, h.sent⟩ fun _ _ => ⟨trivial, h.sent⟩
            | ok u =>
                refine tracks_perform ⟨trivial, h.sent⟩ fun _ _ => ?_
                refine tracks_perform ⟨trivial, h.sent⟩ fun reply _ => ?_
                split <;> exact ⟨trivial, h.sent⟩

/-- The loop of `HashFile`: nothing is sent, and what it returns is the hash of what it has read. -/
def Hashing (B : Blake3) (fd : ℕ) (t : List (Event ClientSig))
    (p : Program ClientSig (StatusOr (B.Hasher × UInt64))) : Prop :=
  ReadsOnly t p ∧ framesSent t = [] ∧ ∀ hasher size, p = .ret (.ok (hasher, size)) → ∃ blocks,
    passes t = [(fd, blocks)] ∧ hasher = B.update B.init blocks.flatten ∧
    size = UInt64.ofNat blocks.flatten.length

theorem hashLoop_tracks (B : Blake3) {fd : ℕ} (rounds : ℕ) {blocks : List Bytes}
    (hsent : framesSent t = []) (hpasses : passes t = [(fd, blocks)]) :
    (StorageClient.hashLoop B fd rounds (B.update B.init blocks.flatten)
      (UInt64.ofNat blocks.flatten.length)).Tracks (fun _ _ => True) record (Hashing B fd) t := by
  induction rounds generalizing t blocks with
  | zero =>
      refine ⟨trivial, hsent, ?_⟩
      rintro hasher size ⟨⟩
      exact ⟨blocks, hpasses, rfl, rfl⟩
  | succ rounds ih =>
      unfold StorageClient.hashLoop
      refine tracks_retrying ⟨⟨_, _, hpasses⟩, hsent, fun _ _ h => absurd h (by simp)⟩
        (fun r hr => record_interrupted hr) fun r _ hr => ?_
      rw [record_transfer hr]
      cases r with
      | error e => exact ⟨trivial, hsent, fun _ _ h => absurd h (by simp [StatusOr.ofStatus])⟩
      | ok bytes =>
          have hread : passes (⟨.inl (.read fd StorageClient.kBufferSize), .ok bytes⟩ :: t)
              = [(fd, blocks ++ [bytes])] := by
            simp [passes, hpasses]
          have hflatten : (blocks ++ [bytes]).flatten = blocks.flatten ++ bytes := by simp
          by_cases hend : bytes.length = 0
          · simp only [hend, if_true]
            refine ⟨trivial, hsent, ?_⟩
            rintro hasher size ⟨⟩
            refine ⟨_, hread, ?_, ?_⟩
            · rw [hflatten, List.length_eq_zero_iff.1 hend, List.append_nil]
            · rw [hflatten, List.length_eq_zero_iff.1 hend, List.append_nil]
          · simp only [hend, if_false]
            rw [B.update_append, ← UInt64.ofNat_add, ← List.length_append, ← hflatten]
            exact ih hsent hread

/-- `HashFile`: what it returns is the length and the hash of what it has read. -/
def Hashed (B : Blake3) (t : List (Event ClientSig))
    (p : Program ClientSig (StatusOr (UInt64 × Checksum))) : Prop :=
  ReadsOnly t p ∧ framesSent t = [] ∧ ∀ x, p = .ret (.ok x) → ∃ fd first,
    passes t = [(fd, first)] ∧ x = (UInt64.ofNat first.flatten.length, B.checksum first.flatten)

theorem hashFile_tracks (B : Blake3) (path : Path) :
    (StorageClient.hashFile B path).Tracks (fun _ _ => True) record (Hashed B) [] := by
  unfold StorageClient.hashFile
  refine tracks_perform ⟨trivial, rfl, fun _ h => absurd h (by simp)⟩ fun r _ => ?_
  cases r with
  | error e => exact ⟨trivial, rfl, fun _ h => absurd h (by simp [StatusOr.ofStatus])⟩
  | ok fd =>
      have hloop := hashLoop_tracks B (offMax + 1)
        (show framesSent [⟨.inl (.openRead path), .ok fd⟩] = [] from rfl)
        (show passes [⟨.inl (.openRead path), .ok fd⟩] = [(fd, [])] from rfl)
      rw [List.flatten_nil, B.update_nil] at hloop
      refine hloop.bind ?_ ?_
      · intro t op again k h
        exact ⟨h.1.bind _, h.2.1, fun _ h => absurd h (by simp)⟩
      · intro t r h
        cases r with
        | error s => exact ⟨trivial, h.2.1, fun _ h => absurd h (by simp)⟩
        | ok x =>
            obtain ⟨first, hpasses, hhasher, hsize⟩ := h.2.2 _ _ rfl
            refine ⟨trivial, h.2.1, ?_⟩
            rintro _ ⟨⟩
            exact ⟨fd, first, hpasses, by rw [hsize, hhasher]; rfl⟩

/-- `StorageClient::Put`: the metadata is the length and the hash of what the first pass over the source
    read, and the data is of the second pass. -/
def Storing (B : Blake3) (objectId : ObjectId) (t : List (Event ClientSig))
    (p : Program ClientSig Status) : Prop :=
  ReadsOnly t p ∧ (framesSent t = [] ∨ ∃ fd first fd' reads, ∃ blocks : List FrameData,
    framesSent t = GrpcDataPlaneClient.metadataFrame ⟨⟨objectId.value⟩,
      UInt64.ofNat first.flatten.length, B.checksum first.flatten⟩ :: dataFrames blocks ∧
    passes t = [(fd', reads), (fd, first)] ∧ blocks.map Subtype.val <+: reads)

/-- **`Put` announces what it read first and sends what it reads then**, whatever the replies are. -/
theorem clientPut_tracks (B : Blake3) (objectId : ObjectId) (source : Path) :
    (StorageClient.put B objectId source).Tracks (fun _ _ => True) record (Storing B objectId) [] := by
  unfold StorageClient.put StorageClient.toChunkId
  by_cases hid : objectId.valid = true
  · simp only [hid, Bool.not_true, Bool.false_eq_true, if_false]
    refine (hashFile_tracks B source).bind ?_ ?_
    · intro t op again k h
      exact ⟨h.1.bind _, Or.inl h.2.1⟩
    · intro t r h
      cases r with
      | error s => exact ⟨trivial, Or.inl h.2.1⟩
      | ok x =>
          obtain ⟨fd, first, hpasses, rfl⟩ := h.2.2 _ rfl
          refine (putChunk_tracks source h.2.1 hpasses).imp ?_
          rintro t p ⟨hreads, hnone | ⟨fd', reads, blocks, hsent, hpasses', hle⟩⟩
          · exact ⟨hreads, Or.inl hnone⟩
          · exact ⟨hreads, Or.inr ⟨fd, first, fd', reads, blocks, hsent, hpasses', hle⟩⟩
  · have hno : objectId.valid = false := by simpa using hid
    simp only [hno, Bool.not_false, if_true]
    exact ⟨trivial, Or.inl rfl⟩

end Programs

/-- Data frames tell their blocks. -/
theorem dataFrames_injective : Function.Injective dataFrames :=
  List.map_injective_iff.2 fun _ _ h => Subtype.ext (PutChunkFrame.data.inj h)

theorem dataFrames_first {xs ys : List FrameData} (h : dataFrames xs <+: dataFrames ys) :
    xs.map Subtype.val <+: ys.map Subtype.val := by
  obtain ⟨more, hmore⟩ := h
  obtain ⟨us, vs, rfl, hus, -⟩ := List.append_eq_map_iff.1 hmore
  obtain rfl := dataFrames_injective hus
  rw [List.map_append]
  exact List.prefix_append _ _

/-! ## What the worker shows -/

namespace Exchange

variable {B : Blake3} {root : Bytes} {pid address server me : ℕ}

/-- The handler of an upload shows nothing but what its stream delivers. -/
theorem begin_showing {fs : FS} {metadata : PutChunkMetadata} {rest : List PutChunkFrame} {c : Handling}
    (h : (begin B root pid address fs (.metadata metadata :: rest)).Reaches (serving server) c) :
    Showing B root RpcInputStream.read metadata.request
      (tempPath root metadata.request.chunkId pid address)
      (handlerStart (.metadata metadata :: rest) RpcOutputStream.opened fs) c.2 := by
  obtain ⟨ω, n, rfl⟩ := h
  have hsafe : (handlePut B root pid address (.metadata metadata :: rest)).Safe
      ((serving server).sem World.Any) Eq (fun _ => Showing B root RpcInputStream.read metadata.request
        (tempPath root metadata.request.chunkId pid address)
        (handlerStart (.metadata metadata :: rest) RpcOutputStream.opened fs)) (fun _ _ => True)
      (handlerStart (.metadata metadata :: rest) RpcOutputStream.opened fs) := by
    refine safe_bind.2 ?_
    rcases dataPlanePut_cases (fileChunkStore B root pid address) metadata.request with
      ⟨status, hret⟩ | hput
    · rw [hret]
      trivial
    · rw [hput]
      exact (put_showing metadata.request pid address ⟨rfl, rfl, rfl, rfl⟩).imp fun _ _ _ => trivial
  exact (hsafe.along (Or.inl rfl) (fun _ _ _ _ _ => trivial) n).2

/-- A handler that finds no first frame leaves the files alone. -/
theorem begin_nil {fs : FS} {c : Handling}
    (h : (begin B root pid address fs []).Reaches (serving server) c) : c.2.fs = fs := by
  obtain ⟨ω, n, rfl⟩ := h
  have hstays : Config.exec (serving server) (begin B root pid address fs []) ω n
      = begin B root pid address fs [] := Config.exec_ret rfl ω n
  rw [hstays]
  rfl

/-! ## The invariant -/

variable (B root pid address server) in
/-- The handler has done what it does on the frames that have arrived, and these are the first ones
    sent. It knows of the end of the stream only after it has arrived. -/
structure Inv (x : Exchange) : Prop where
  arrived : x.arrived <+: x.client.2.rest.sent
  waiting : x.handling = none → x.arrived = [] ∧ x.ended = false
  begun : ∀ {c}, x.handling = some c → x.ended = false → x.arrived ≠ []
  reached : ∀ {c}, x.handling = some c →
    (begin B root pid address x.before x.arrived).Reaches (serving server) c
  known : ∀ {c}, x.handling = some c → c.2.rest.1.ended = true → x.ended = true

theorem inv_start (p : Program ClientSig Status) (fs before : FS) :
    Inv B root pid address server (start p fs before) where
  arrived := List.nil_prefix
  waiting _ := ⟨rfl, rfl⟩
  begun h := absurd h (by simp [start])
  reached h := absurd h (by simp [start])
  known h := absurd h (by simp [start])

/-- What happens at the client keeps the invariant, if no frame is taken back. -/
theorem Inv.client {x : Exchange} (h : Inv B root pid address server x)
    {c : Config ClientSig Status (ClientWorld Wire)} (hsent : x.client.2.rest.sent <+: c.2.rest.sent) :
    Inv B root pid address server { x with client := c } where
  arrived := h.arrived.trans hsent
  waiting := h.waiting
  begun := h.begun
  reached := h.reached
  known := h.known

theorem wire_sent_prefix (op : RpcOp) (x : Wire) : x.sent <+: (wire op x).2.sent := by
  cases op with
  | write frame =>
      unfold wire
      dsimp only
      split
      · exact List.prefix_rfl
      · exact List.prefix_append _ _
  | finishPut =>
      unfold wire
      dsimp only
      split
      · exact List.prefix_rfl
      · split <;> exact List.prefix_rfl
  | putChunk | writesDone | tryCancel | getChunk _ | read | finishGet | headChunk _ | deleteChunk _ =>
      exact List.prefix_rfl

theorem client_sent_grows (c : Config ClientSig Status (ClientWorld Wire)) (o : Outcome) :
    c.2.rest.sent <+: (c.step (World.handler me wire) o).2.rest.sent := by
  obtain ⟨p, w⟩ := c
  cases p with
  | ret a => exact List.prefix_rfl
  | call op again k =>
      cases op with
      | inl s => exact List.prefix_rfl
      | inr op => exact wire_sent_prefix op w.rest

/-- A frame arrives. -/
theorem Inv.arrive {x : Exchange} (h : Inv B root pid address server x) (hopen : x.ended = false)
    {frame : PutChunkFrame} (hframe : x.client.2.rest.sent[x.arrived.length]? = some frame) :
    Inv B root pid address server { x with
      arrived := x.arrived ++ [frame]
      handling := match x.handling with
        | none => some (begin B root pid address x.before [frame])
        | some c => some (c.1, (fileHost server).feed [frame] c.2) } := by
  have hnext : x.arrived ++ [frame] <+: x.client.2.rest.sent := by
    obtain ⟨more, hmore⟩ := h.arrived
    rw [← hmore, List.getElem?_append_right le_rfl, Nat.sub_self] at hframe
    obtain ⟨more', rfl⟩ : ∃ more', more = frame :: more' := by
      cases more with
      | nil => exact absurd hframe (by simp)
      | cons f more' => exact ⟨more', by rw [Option.some.inj hframe]⟩
    exact ⟨more', by rw [← hmore]; simp⟩
  cases hx : x.handling with
  | none =>
      obtain ⟨hnil, -⟩ := h.waiting hx
      refine ⟨hnext, fun hnone => absurd hnone (by simp), fun _ _ => by simp, ?_, ?_⟩
      · rintro c ⟨⟩
        rw [hnil]
        exact .refl _ _ .done
      · rintro c ⟨⟩ hended
        exact absurd hended (by simp [begin, handlerStart, RpcInputStream.ofFrames])
  | some c =>
      have hquiet : c.2.rest.1.ended = false := by
        by_contra hyes
        have := h.known hx (by simpa using hyes)
        rw [hopen] at this
        exact absurd this (by simp)
      refine ⟨hnext, fun hnone => absurd hnone (by simp), fun _ _ => by simp, ?_, ?_⟩
      · rintro c' ⟨⟩
        have hcomm := (h.reached hx).comm ((fileHost server).feed [frame])
          (fun w => w.rest.1.ended = false) ?_ ?_ hquiet
        · obtain ⟨first, others, hfirst⟩ := List.exists_cons_of_ne_nil (h.begun hx hopen)
          rw [hfirst] at hcomm ⊢
          exact hcomm
        · intro op w o hopen
          cases op with
          | inl s => rfl
          | inr t => exact (fileHost server).feed_op (o := fun _ => o) hopen
        · intro op w o hopen
          cases op with
          | inl s => exact hopen
          | inr t => exact (fileHost server).ended_op (o := fun _ => o) hopen
      · rintro c' ⟨⟩ hended
        exact absurd hended (by
          show ¬ c.2.rest.1.ended = true
          simp [hquiet])

variable (B root pid address server me) in
/-- What a move can do. -/
inductive Step (x : Exchange) : Exchange → Prop
  /-- The client performs an operation. -/
  | client (o : Outcome) : Step x { x with client := x.client.step (World.handler me wire) o }
  /-- Something changes around the client. -/
  | around {w : ClientWorld Wire} : w.fds = x.client.2.fds → w.trace = x.client.2.trace →
      w.rest.sent = x.client.2.rest.sent → Step x { x with client := (x.client.1, w) }
  /-- A frame arrives. -/
  | arrive {frame : PutChunkFrame} : x.ended = false →
      x.client.2.rest.sent[x.arrived.length]? = some frame →
      Step x { x with
        arrived := x.arrived ++ [frame]
        handling := match x.handling with
          | none => some (begin B root pid address x.before [frame])
          | some c => some (c.1, (fileHost server).feed [frame] c.2) }
  /-- The end of the stream arrives. -/
  | close : Step x { x with
      ended := true
      handling := match x.handling with
        | none => some (begin B root pid address x.before [])
        | some c => some c }
  /-- The handler performs an operation. -/
  | handle {c : Handling} (o : Outcome) : x.handling = some c →
      ((c.step (serving server) o).2.rest.1.ended = true → x.ended = true) →
      Step x { x with handling := some (c.step (serving server) o) }

theorem step_cases {x y : Exchange} {move : Move}
    (hstep : x.step B root pid address server me move = some y) :
    Step B root pid address server me x y := by
  cases move with
  | client o =>
      obtain rfl := Option.some.inj hstep
      exact .client o
  | touch fs =>
      simp only [Exchange.step] at hstep
      split at hstep
      · obtain rfl := Option.some.inj hstep
        exact .around rfl rfl rfl
      · exact absurd hstep (by simp)
  | cut =>
      obtain rfl := Option.some.inj hstep
      exact .around rfl rfl rfl
  | arrive =>
      simp only [Exchange.step] at hstep
      split at hstep
      · exact absurd hstep (by simp)
      · next hopen =>
          split at hstep
          · exact absurd hstep (by simp)
          · next frame hframe =>
              obtain rfl := Option.some.inj hstep
              exact .arrive (by simpa using hopen) hframe
  | close =>
      simp only [Exchange.step] at hstep
      split at hstep
      · obtain rfl := Option.some.inj hstep
        exact .close
      · exact absurd hstep (by simp)
  | handle o =>
      simp only [Exchange.step] at hstep
      split at hstep
      · exact absurd hstep (by simp)
      · next c hx =>
          split at hstep
          · exact absurd hstep (by simp)
          · next hknown =>
              obtain rfl := Option.some.inj hstep
              refine .handle o hx fun hended => ?_
              simpa [hended] using hknown
  | answer =>
      simp only [Exchange.step] at hstep
      split at hstep
      · obtain rfl := Option.some.inj hstep
        exact .around rfl rfl rfl
      · exact absurd hstep (by simp)

/-- **Every step keeps the invariant.** -/
theorem Inv.step {x y : Exchange} (h : Inv B root pid address server x)
    (hstep : Step B root pid address server me x y) : Inv B root pid address server y := by
  cases hstep with
  | client o => exact h.client (client_sent_grows x.client o)
  | around _ _ hsent => exact h.client (by rw [hsent])
  | arrive hopen hframe => exact h.arrive hopen hframe
  | close =>
      cases hx : x.handling with
      | none =>
          obtain ⟨hnil, -⟩ := h.waiting hx
          refine ⟨h.arrived, fun hnone => absurd hnone (by simp), fun _ hno => absurd hno (by simp), ?_,
            fun _ _ => rfl⟩
          rintro c ⟨⟩
          show (begin B root pid address x.before x.arrived).Reaches (serving server) _
          rw [hnil]
          exact .refl _ _ .done
      | some c =>
          refine ⟨h.arrived, fun hnone => absurd hnone (by simp), fun _ hno => absurd hno (by simp), ?_,
            fun _ _ => rfl⟩
          rintro c' ⟨⟩
          exact h.reached hx
  | @handle c o hx hknown =>
      refine ⟨h.arrived, fun hnone => absurd hnone (by simp), fun _ => h.begun hx, ?_, ?_⟩
      · rintro c' ⟨⟩
        exact (h.reached hx).step o
      · rintro c' ⟨⟩ hended
        exact hknown hended

/-- What a run keeps: the frames that were sent stay sent, and the files before are those before. -/
structure Kept (x y : Exchange) : Prop where
  sent : x.client.2.rest.sent <+: y.client.2.rest.sent
  before : y.before = x.before

theorem Step.kept {x y : Exchange} (h : Step B root pid address server me x y) : Kept x y := by
  cases h with
  | client o => exact ⟨client_sent_grows x.client o, rfl⟩
  | around _ _ hsent => exact ⟨by rw [hsent], rfl⟩
  | arrive _ _ => exact ⟨List.prefix_rfl, rfl⟩
  | close => exact ⟨List.prefix_rfl, rfl⟩
  | handle o _ _ => exact ⟨List.prefix_rfl, rfl⟩

/-- A step keeps what the program of the client says of its trace. -/
theorem Step.following {N : List (Event ClientSig) → Program ClientSig Status → Prop} {x y : Exchange}
    (h : Step B root pid address server me x y) (hN : ∀ {t p}, N t p → ReadsOnly t p)
    (hx : Following N x.client) : Following N y.client := by
  cases h with
  | client o => exact hx.step hN o
  | around hfds htrace hsent => exact hx.env hfds htrace hsent
  | arrive _ _ => exact hx
  | close => exact hx
  | handle o _ _ => exact hx

theorem run_append (x : Exchange) (moves moves' : List Move) :
    x.run B root pid address server me (moves ++ moves')
      = (x.run B root pid address server me moves).bind fun y =>
        y.run B root pid address server me moves' := by
  induction moves generalizing x with
  | nil => rfl
  | cons move moves ih =>
      simp only [List.cons_append, Exchange.run, Option.bind_assoc]
      exact congrArg _ (funext ih)

/-- What every step keeps, a run keeps. -/
theorem run_induction {P : Exchange → Exchange → Prop} (hrefl : ∀ x, P x x)
    (hstep : ∀ {x y z}, Step B root pid address server me x y → P y z → P x z) {x y : Exchange}
    {moves : List Move} (hrun : x.run B root pid address server me moves = some y) : P x y := by
  induction moves generalizing x with
  | nil =>
      obtain rfl := Option.some.inj hrun
      exact hrefl x
  | cons move moves ih =>
      obtain ⟨z, hz, hrest⟩ := Option.bind_eq_some_iff.1 hrun
      exact hstep (step_cases hz) (ih hrest)

theorem run_kept {x y : Exchange} {moves : List Move}
    (hrun : x.run B root pid address server me moves = some y) : Kept x y := by
  refine run_induction (fun x => ⟨List.prefix_rfl, rfl⟩) (fun hstep hrest => ?_) hrun
  exact ⟨hstep.kept.sent.trans hrest.sent, hrest.before.trans hstep.kept.before⟩

/-- **The invariant holds in every state of every run.** -/
theorem run_inv {x y : Exchange} {moves : List Move}
    (hrun : x.run B root pid address server me moves = some y) (h : Inv B root pid address server x) :
    Inv B root pid address server y := by
  have hkeeps : Inv B root pid address server x → Inv B root pid address server y :=
    run_induction (P := fun x y => Inv B root pid address server x → Inv B root pid address server y)
      (fun _ h => h) (fun hstep hrest h => hrest (h.step hstep)) hrun
  exact hkeeps h

theorem run_following {N : List (Event ClientSig) → Program ClientSig Status → Prop} {x y : Exchange}
    {moves : List Move} (hrun : x.run B root pid address server me moves = some y)
    (hN : ∀ {t p}, N t p → ReadsOnly t p) (h : Following N x.client) : Following N y.client := by
  have hkeeps : Following N x.client → Following N y.client :=
    run_induction (P := fun x y => Following N x.client → Following N y.client) (fun _ h => h)
      (fun hstep hrest h => hrest (hstep.following hN h)) hrun
  exact hkeeps h

/-- A client that has not started follows its program. -/
theorem start_following {N : List (Event ClientSig) → Program ClientSig Status → Prop}
    {p : Program ClientSig Status} (hp : p.Tracks (fun _ _ => True) record N []) (fs before : FS) :
    Following N (start p fs before).client where
  tracks := hp
  sent := rfl
  bounded := ⟨fun pass h => absurd h (by simp [start, passes]),
    fun h => absurd h (by simp [start, passes])⟩

/-- **What is visible was announced and has arrived**: a chunk that was not there before the upload
    and is there now has the payload of the frames that have arrived, their metadata describes it, and
    the worker has not turned it down. -/
theorem Inv.visible {x : Exchange} (h : Inv B root pid address server x) {request : PutChunkRequest}
    (hsent : x.client.2.rest.sent = [] ∨ ∃ blocks : List FrameData, x.client.2.rest.sent
      = GrpcDataPlaneClient.metadataFrame request :: dataFrames blocks)
    (habsent : x.before.dir (pathFor root request.chunkId) = none) {file : Bytes}
    (hfile : x.files.contents (pathFor root request.chunkId) = some file) :
    ∃ blocks : List FrameData,
      x.arrived = GrpcDataPlaneClient.metadataFrame request :: dataFrames blocks ∧
      PutStarts request (tempPath root request.chunkId pid address) x.before ∧
      Matches B request (payload blocks) ∧ file = chunkFile B (payload blocks) := by
  have hnone : x.before.contents (pathFor root request.chunkId) = none :=
    FS.contents_eq_none_iff.2 habsent
  have hnot : x.files ≠ x.before := by
    intro hsame
    rw [hsame, hnone] at hfile
    exact absurd hfile (by simp)
  cases hx : x.handling with
  | none => exact absurd (by simp [files, hx]) hnot
  | some c =>
      have hfiles : x.files = c.2.fs := by simp [files, hx]
      have hreached := h.reached hx
      obtain ⟨more, hmore⟩ := h.arrived
      cases harrived : x.arrived with
      | nil =>
          rw [harrived] at hreached
          exact absurd (hfiles.trans (begin_nil hreached)) hnot
      | cons first rest =>
          rw [harrived] at hmore hreached
          -- the frames that have arrived are the first ones sent
          obtain ⟨blocks, hall⟩ : ∃ blocks : List FrameData, x.client.2.rest.sent
              = GrpcDataPlaneClient.metadataFrame request :: dataFrames blocks := by
            rcases hsent with hnil | hsome
            · rw [hnil] at hmore
              exact absurd hmore (by simp)
            · exact hsome
          rw [hall, List.cons_append] at hmore
          obtain ⟨rfl, hrest⟩ := List.cons.inj hmore
          obtain ⟨prior, left, -, rfl, -⟩ := List.append_eq_map_iff.1 hrest
          have hrequest : PutChunkMetadata.request ⟨request.chunkId.value, request.expectedSize,
              request.expectedChecksum.value⟩ = request := by
            obtain ⟨⟨id⟩, size, ⟨⟨⟩, value⟩⟩ := request
            rfl
          rcases begin_showing hreached with hsame | ⟨hstarts, -, p, haccepts, hcontents⟩
          · rw [hrequest] at hsame
            rw [hfiles, hsame] at hfile
            exact absurd (hfile.symm.trans hnone) (by simp)
          · rw [hrequest] at hstarts haccepts hcontents
            obtain rfl := haccepts.1.unique (dataFrames_deliver prior)
            refine ⟨prior, rfl, hstarts, haccepts.2, ?_⟩
            rw [hfiles, hcontents] at hfile
            rw [← Option.some.inj hfile]
            exact haccepts.2.chunkFile_eq

end Exchange

/-! ## Uploads that are aborted -/

open Exchange in
/-- **When an upload that is given up stays invisible.** In every run of `PutChunk`, wherever it is
    aborted and whatever the order in which the frames and the cancellation reach the worker: if the
    worker turns the request down, or no first part of the blocks that are read of the source up to
    `y` has the size and the checksum that were announced, the chunk is not visible in any state `x`
    before. -/
theorem aborted_upload_invisible (B : Blake3) (root : Bytes) (pid address server me : ℕ)
    (request : PutChunkRequest) (source : Path) (fs before : FS) (moves moves' : List Move)
    (x y : Exchange) (habsent : before.dir (pathFor root request.chunkId) = none)
    (hx : (start (GrpcDataPlaneClient.putChunk request source) fs before).run B root pid address server
      me moves = some x)
    (hy : x.run B root pid address server me moves' = some y) :
    (PutStarts request (tempPath root request.chunkId pid address) before →
      ∀ pass ∈ passes y.client.2.trace, ∀ blocks, blocks <+: pass.2 →
        ¬ Matches B request blocks.flatten) →
    x.files.dir (pathFor root request.chunkId) = none := by
  intro hno
  have hfollowing : ∀ {z : Exchange} {zs : List Move},
      (start (GrpcDataPlaneClient.putChunk request source) fs before).run B root pid address server me
        zs = some z → Following (Uploading request []) z.client := fun hz =>
    run_following hz (fun h => h.1) (start_following (putChunk_tracks source rfl rfl) fs before)
  have hreaches : (start (GrpcDataPlaneClient.putChunk request source) fs before).run B root pid address
      server me (moves ++ moves') = some y := by
    rw [run_append, hx]
    exact hy
  have hxsent := (hfollowing hx).tracks.here.2
  have hysent := (hfollowing hreaches).tracks.here.2
  rw [← (hfollowing hx).sent] at hxsent
  rw [← (hfollowing hreaches).sent] at hysent
  have hkept := run_kept hy
  by_contra hvisible
  obtain ⟨file, hfile⟩ := Option.ne_none_iff_exists'.1 fun h => hvisible (FS.contents_eq_none_iff.1 h)
  -- what the worker shows in `x` was sent in `x`, so it was sent in `y`
  obtain ⟨arrived, harrived, hstarts, hmatches, -⟩ := (run_inv hx (inv_start _ fs before)).visible
    (hxsent.imp_right fun ⟨_, _, blocks, hsent, _⟩ => ⟨blocks, hsent⟩)
    (by rw [(run_kept hx).before]; exact habsent) hfile
  rw [(run_kept hx).before] at hstarts
  have hprefix : GrpcDataPlaneClient.metadataFrame request :: dataFrames arrived
      <+: y.client.2.rest.sent := by
    rw [← harrived]
    exact (run_inv hx (inv_start _ fs before)).arrived.trans hkept.sent
  rcases hysent with hnil | ⟨fd, reads, blocks, hsent, hpasses, hread⟩
  · rw [hnil] at hprefix
    exact absurd (List.prefix_nil.1 hprefix) (by simp)
  · rw [hsent] at hprefix
    have hblocks : arrived.map Subtype.val <+: reads :=
      (dataFrames_first (List.cons_prefix_cons.1 hprefix).2).trans hread
    exact hno hstarts (fd, reads) (by rw [hpasses]; exact List.mem_singleton_self _) _ hblocks hmatches

/-- The file `"a"` in the directory `"c"` with the content. -/
def sourceOf (content : Bytes) : FS := sampleSource.modify 0 (·.write 0 content)

/-- An upload of it that reads one byte, sends it and then fails to read, is cancelled, and whose frames
    have all arrived when the cancellation does. The handler performs `n` operations. -/
def cancelledUpload (n : ℕ) : List Move :=
  [.client .done, .client .done, .client .done, .client (.short 1), .client .done,
    .client (.fails (.other 5)), .client .done, .arrive, .arrive, .close] ++
      List.replicate n (.handle .done)

/-- The state after it, for a source with the content. -/
def cancelledExchange (content : Bytes) (n : ℕ) : Option Exchange :=
  (Exchange.start (GrpcDataPlaneClient.putChunk (samplePut content) ⟨[0x63], [0x61]⟩)
    (sourceOf content) (FS.empty 255)).run Blake3.sample [0x72] 1 2 0 0 (cancelledUpload n)

/-- One byte of two is not enough. -/
theorem aborted_upload_invisible_short :
    ∃ x, cancelledExchange [0x61, 0x62] 8 = some x ∧ sourceFailed x.client.2.trace = true ∧
      x.files.dir (pathFor [0x72] ⟨[0x61]⟩) = none := by
  obtain ⟨x, hx⟩ := Option.isSome_iff_exists.1
    (show (cancelledExchange [0x61, 0x62] 8).isSome = true by decide +kernel)
  have hfailed : (cancelledExchange [0x61, 0x62] 8).map (fun x => sourceFailed x.client.2.trace)
      = some true := by decide +kernel
  have hpasses : (cancelledExchange [0x61, 0x62] 8).map (fun x => passes x.client.2.trace)
      = some [(0, [[0x61]])] := by decide +kernel
  rw [hx] at hfailed hpasses
  refine ⟨x, hx, Option.some.inj hfailed, ?_⟩
  refine aborted_upload_invisible Blake3.sample [0x72] 1 2 0 0 (samplePut [0x61, 0x62]) ⟨[0x63], [0x61]⟩
    (sourceOf [0x61, 0x62]) (FS.empty 255) (cancelledUpload 8) [] x x rfl hx rfl fun _ => ?_
  rw [show passes x.client.2.trace = [(0, [[0x61]])] from Option.some.inj hpasses]
  intro pass hpass blocks hblocks hmatches
  obtain rfl := List.mem_singleton.1 hpass
  have hlength : blocks.flatten.length ≤ 1 := by
    obtain ⟨more, hmore⟩ := hblocks
    have hall : blocks.flatten.length + more.flatten.length = 1 := by
      rw [← List.length_append, ← List.flatten_append, hmore]
      rfl
    omega
  have hsize : blocks.flatten.length = 2 := hmatches.1
  omega

/-- **An aborted upload that is committed**: the read that would have found the end of the source fails,
    and to the worker the cancellation is the end of a complete upload. -/
theorem aborted_upload_visible :
    ¬ ∀ (B : Blake3) (root : Bytes) (pid address server me : ℕ) (request : PutChunkRequest)
      (source : Path) (fs before : FS) (moves : List Move) (x : Exchange),
      before.dir (pathFor root request.chunkId) = none →
      (Exchange.start (GrpcDataPlaneClient.putChunk request source) fs before).run B root pid address
        server me moves = some x →
      sourceFailed x.client.2.trace = true → x.files.dir (pathFor root request.chunkId) = none := by
  intro hclaim
  obtain ⟨x, hx⟩ := Option.isSome_iff_exists.1
    (show (cancelledExchange [0x61] 12).isSome = true by decide +kernel)
  have hfailed : (cancelledExchange [0x61] 12).map (fun x => sourceFailed x.client.2.trace)
      = some true := by decide +kernel
  have hvisible : (cancelledExchange [0x61] 12).map (fun x =>
      (x.files.dir (pathFor [0x72] ⟨[0x61]⟩)).isSome) = some true := by decide +kernel
  rw [hx] at hfailed hvisible
  have hnone := hclaim Blake3.sample [0x72] 1 2 0 0 (samplePut [0x61]) ⟨[0x63], [0x61]⟩
    (sourceOf [0x61]) (FS.empty 255) (cancelledUpload 12) x rfl hx (Option.some.inj hfailed)
  have hsome : (x.files.dir (pathFor [0x72] ⟨[0x61]⟩)).isSome = true := Option.some.inj hvisible
  rw [show x.files.dir (pathFor [0x72] ⟨[0x61]⟩) = none from hnone] at hsome
  exact absurd hsome (by simp)

end ChunkStorage
