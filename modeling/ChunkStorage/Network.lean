import ChunkStorage.ClientFiles

set_option autoImplicit false

/-! # The network between a client and a worker

A `Host` is what the handlers of a worker run on, and `network` is the transport that leads to one:
gRPC that delivers every frame in order and every answer. The handler of an upload sees the frames
only through `reader->Read`, which waits for the next one, so it does not matter when it runs: here
it runs when the client waits for its answer. A frame may be refused, but only after the handler has
returned without reading the end of the stream (`Host.Answered`), and what it returned then is what
it would have returned with more frames to come (`Host.upload_extend`). -/

namespace ChunkStorage

open Effects Posix Program

/-! ## Frames that arrive later -/

namespace RpcInputStream

/-- The stream when more frames have arrived. -/
def feed (frames : List PutChunkFrame) (s : RpcInputStream) : RpcInputStream :=
  { s with reader := s.reader ++ frames }

/-- A read that does not meet the end of the stream does not notice the frames behind. -/
theorem read_feed {s : RpcInputStream} {size : ℕ} (frames : List PutChunkFrame)
    (h : (read s size).2.ended = false) :
    read (s.feed frames) size = ((read s size).1, (read s size).2.feed frames) := by
  obtain ⟨reader, data, offset, ended, hle⟩ := s
  unfold read feed at *
  by_cases h0 : size = 0
  · simp only [h0, if_true]
  · simp only [h0, if_false] at h ⊢
    by_cases hend : offset = data.length
    · simp only [hend, if_true] at h ⊢
      cases reader with
      | nil => exact absurd h (by simp)
      | cons frame reader =>
          cases frame with
          | data bytes =>
              simp only [List.cons_append]
              split <;> rfl
          | metadata m => rfl
          | unset => rfl
    · simp only [hend, if_false]
      rfl

/-- A stream that has ended stays ended. -/
theorem ended_of_read {s : RpcInputStream} {size : ℕ} (h : (read s size).2.ended = false) :
    s.ended = false := by
  unfold read at h
  by_cases h0 : size = 0
  · simpa only [h0, if_true] using h
  · simp only [h0, if_false] at h
    by_cases hend : s.offset = s.data.length
    · simp only [hend, if_true] at h
      split at h
      · exact absurd h (by simp)
      · split at h <;> exact h
      · exact h
    · simp only [hend, if_false] at h
      exact h

end RpcInputStream

/-- The stream of a download whose client takes every frame. -/
def RpcOutputStream.opened : RpcOutputStream := ⟨[], fun _ => true⟩

/-! ## Hosts -/

/-- What the handlers of a worker run on: how the operations of the store are answered, and how the
    state of the store (`θ`) and the streams of an RPC make up the state of a handler. Frames that
    arrive go unnoticed until the handler reads the end of its stream. -/
structure Host (S : Signature) (θ W O : Type) where
  handler : Handler S W O
  start : θ → RpcInputStream → RpcOutputStream → W
  store : W → θ
  input : W → RpcInputStream
  output : W → RpcOutputStream
  feed : List PutChunkFrame → W → W
  feed_start : ∀ frames x s t, feed frames (start x s t) = start x (s.feed frames) t
  store_feed : ∀ frames w, store (feed frames w) = store w
  feed_op : ∀ {frames op w o}, (input (handler op w o).2).ended = false →
    handler op (feed frames w) o = ((handler op w o).1, feed frames (handler op w o).2)
  ended_op : ∀ {op w o}, (input (handler op w o).2).ended = false → (input w).ended = false

section Uploading

variable {S : Signature} {θ W O : Type} (host : Host S θ W O)

/-- The handler of `PutChunk` with the frames that reach it. -/
def Host.upload (store : ChunkStore S) (x : θ) (frames : List PutChunkFrame) :
    Config S (GrpcStatus × OperationResponse) W :=
  (WorkerService.putChunk (some store) frames.head?,
    host.start x (.ofFrames frames.tail) .opened)

/-- With these frames the handler has returned, and it did not have to know that no more follow. -/
def Host.Answered (store : ChunkStore S) (x : θ) (frames : List PutChunkFrame) (ω : ℕ → O) : Prop :=
  frames ≠ [] ∧ ∃ reply w, (host.upload store x frames).Returns host.handler ω reply w ∧
    (host.input w).ended = false

variable {host}

/-- **A handler that has answered would have answered the same with more frames to come.** -/
theorem Host.upload_extend {store : ChunkStore S} {x : θ} {frames : List PutChunkFrame} {ω : ℕ → O}
    {reply : GrpcStatus × OperationResponse} {w : W} (hne : frames ≠ [])
    (hret : (host.upload store x frames).Returns host.handler ω reply w)
    (hopen : (host.input w).ended = false) (more : List PutChunkFrame) :
    (host.upload store x (frames ++ more)).Returns host.handler ω reply (host.feed more w) := by
  obtain ⟨frame, frames, rfl⟩ := List.exists_cons_of_ne_nil hne
  obtain ⟨n, hn⟩ := hret
  have hcomm := Config.exec_comm (h := host.handler) (host.feed more)
    (fun w => (host.input w).ended = false) host.feed_op host.ended_op
    (p := (host.upload store x (frame :: frames)).1) (w := (host.upload store x (frame :: frames)).2)
    (ω := ω) (n := n) (by rw [Prod.mk.eta, hn]; exact hopen)
  rw [Prod.mk.eta, hn] at hcomm
  refine ⟨n, Eq.trans ?_ hcomm⟩
  simp only [Host.upload, host.feed_start]
  rfl

end Uploading

/-! ## The network -/

/-- How one RPC is treated. -/
structure Plan (ι O : Type) where
  /-- What the call sees of the worker: for `FileChunkStore` the address of the stream. -/
  call : ι
  /-- How the operations of the handler are answered. -/
  schedule : ℕ → O
  /-- Which frames of an upload are refused, if they may be. -/
  refuses : ℕ → Bool
  /-- How many frames of an upload that is cancelled reach the handler. -/
  arrives : ℕ

/-- The state of the worker and of the RPC in progress. -/
structure Net (θ ι O : Type) where
  store : θ
  /-- The plans of the RPCs to come. -/
  plans : ℕ → Plan ι O
  /-- The frames of the upload. -/
  sent : List PutChunkFrame
  cancelled : Bool
  /-- The frames of the download that the client has not read. -/
  blocks : List Bytes
  /-- How the download ends. -/
  status : GrpcStatus

/-- The status of an RPC that its client gave up. -/
def cancelledStatus : GrpcStatus := ⟨.CANCELLED, ascii "CANCELLED"⟩

/-- The status of an RPC that takes too long. -/
def deadlineStatus : GrpcStatus := ⟨.DEADLINE_EXCEEDED, ascii "Deadline Exceeded"⟩

namespace Net

variable {θ ι O : Type}

/-- The plan of the RPC in progress. -/
def plan (net : Net θ ι O) : Plan ι O := net.plans 0

/-- The RPC in progress is over. -/
def next (net : Net θ ι O) : Net θ ι O := { net with plans := fun k => net.plans (k + 1) }

/-- The frames of the upload that reach the handler before it reads the end of the stream. -/
def arrived (net : Net θ ι O) : List PutChunkFrame :=
  if net.cancelled then net.sent.take net.plan.arrives else net.sent

/-- What `reader->Read` gives, over frames without data. -/
def read (net : Net θ ι O) : Option FrameData × Net θ ι O :=
  match h : net.blocks.dropWhile List.isEmpty with
  | [] => (none, { net with blocks := [] })
  | block :: blocks =>
      (some ⟨block, fun hnil => by
        have hne := List.head?_dropWhile_not List.isEmpty net.blocks
        rw [h] at hne
        simp [hnil] at hne⟩, { net with blocks := blocks })

end Net

open Classical in
/-- gRPC between a client and a worker, where nothing is lost and no deadline is hit. -/
noncomputable def network {S : Signature} {θ W O ι : Type} (host : Host S θ W O)
    (worker : ι → ChunkStore S) : Transport (Net θ ι O)
  | .putChunk, net => ((), { net with sent := [], cancelled := false })
  | .write frame, net =>
      if net.plan.refuses net.sent.length = true ∧
          host.Answered (worker net.plan.call) net.store net.sent net.plan.schedule then (false, net)
      else (true, { net with sent := net.sent ++ [frame] })
  | .writesDone, net => ((), net)
  | .tryCancel, net => ((), { net with cancelled := true, status := cancelledStatus })
  | .finishPut, net =>
      match (host.upload (worker net.plan.call) net.store net.arrived).final host.handler
          net.plan.schedule with
      | some (reply, w) => (if net.cancelled then (cancelledStatus, .unset) else reply,
          { net.next with store := host.store w })
      | none => ((deadlineStatus, .unset), net.next)
  | .getChunk request, net =>
      match Config.final host.handler (WorkerService.getChunk (some (worker net.plan.call)) request,
          host.start net.store (.ofFrames []) .opened) net.plan.schedule with
      | some (status, w) => ((), { net.next with
          store := host.store w
          blocks := (host.output w).sent
          status := status })
      | none => ((), { net.next with blocks := [], status := deadlineStatus })
  | .read, net => net.read
  | .finishGet, net => (net.status, net)
  | .headChunk chunkId, net =>
      match Config.final host.handler (WorkerService.headChunk (some (worker net.plan.call)) chunkId,
          host.start net.store (.ofFrames []) .opened) net.plan.schedule with
      | some (reply, w) => (reply, { net.next with store := host.store w })
      | none => ((deadlineStatus, .unset), net.next)
  | .deleteChunk chunkId, net =>
      match Config.final host.handler (WorkerService.deleteChunk (some (worker net.plan.call)) chunkId,
          host.start net.store (.ofFrames []) .opened) net.plan.schedule with
      | some (reply, w) => (reply, { net.next with store := host.store w })
      | none => ((deadlineStatus, .unset), net.next)

/-! ## Uploads over the network -/

section Calls

variable {S : Signature} {θ W O ι : Type} {host : Host S θ W O} {worker : ι → ChunkStore S}
  {net net' : Net θ ι O}

theorem network_write_true {frame : PutChunkFrame}
    (h : network host worker (.write frame) net = (true, net')) :
    net' = { net with sent := net.sent ++ [frame] } := by
  unfold network at h
  dsimp only at h
  split at h
  · exact absurd (congrArg Prod.fst h) (by simp)
  · exact (congrArg Prod.snd h).symm

theorem network_write_false {frame : PutChunkFrame}
    (h : network host worker (.write frame) net = (false, net')) :
    net' = net ∧ host.Answered (worker net.plan.call) net.store net.sent net.plan.schedule := by
  unfold network at h
  dsimp only at h
  split at h
  · next hrefused => exact ⟨(congrArg Prod.snd h).symm, hrefused.2⟩
  · exact absurd (congrArg Prod.fst h) (by simp)

theorem network_started {request : PutChunkRequest}
    (h : Started (network host worker) request net net') :
    net' = { net with
      sent := [GrpcDataPlaneClient.metadataFrame request]
      cancelled := false } := by
  obtain ⟨net₀, hput, hwrite⟩ := h
  obtain rfl : { net with sent := [], cancelled := false } = net₀ := congrArg Prod.snd hput
  exact network_write_true hwrite

theorem network_sent {blocks : List FrameData} (h : Sent (network host worker) net blocks net') :
    net' = { net with sent := net.sent ++ dataFrames blocks } := by
  induction h with
  | nil => simp [dataFrames]
  | cons hwrite _ ih =>
      rw [ih, network_write_true hwrite]
      simp [dataFrames]

/-- The answer to an upload is the one of its handler. -/
theorem network_finished {reply reply' : GrpcStatus × OperationResponse} {w : W}
    (h : Finished (network host worker) net reply net') (hkept : net.cancelled = false)
    (hret : (host.upload (worker net.plan.call) net.store net.sent).Returns host.handler
      net.plan.schedule reply' w) :
    reply = reply' ∧ net' = { net.next with store := host.store w } := by
  obtain ⟨net₀, hdone, hfinish⟩ := h
  obtain rfl : net = net₀ := congrArg Prod.snd hdone
  have harrived : net.arrived = net.sent := by simp [Net.arrived, hkept]
  simp only [network, harrived, Config.final_eq_some.2 hret, hkept] at hfinish
  exact ⟨(congrArg Prod.fst hfinish).symm, (congrArg Prod.snd hfinish).symm⟩

/-- **What `PutChunk` reports over the network** is the answer of the handler to the frames that were
    sent: all of the source, or the part of it after which the handler had answered. -/
theorem PutChunkDone.answer {ok : (op : ClientSig.Op) → ClientWorld (Net θ ι O) → Outcome → Prop}
    {request : PutChunkRequest} {source : Path} {A : ClientWorld (Net θ ι O) → Prop}
    {P E : ℕ → Bytes → ClientWorld (Net θ ι O) → Prop} {status : Status}
    {w' : ClientWorld (Net θ ι O)}
    (h : PutChunkDone (network host worker) ok request source A P E net status w')
    (hnever : World.NeverFails ok) (hA : ∀ w, A w → w.fs.Fits source ∧ w.fs.dir source ≠ none)
    (hreturns : ∀ {fd blocks}, E fd (payload blocks) w' → ∃ reply w,
      (host.upload (worker net.plan.call) net.store
        (GrpcDataPlaneClient.metadataFrame request :: dataFrames blocks)).Returns host.handler
        net.plan.schedule reply w) :
    ∃ fd blocks reply w, (host.upload (worker net.plan.call) net.store
        (GrpcDataPlaneClient.metadataFrame request :: dataFrames blocks)).Returns host.handler
        net.plan.schedule reply w ∧
      status = uploadStatus reply ∧ w'.rest.store = host.store w ∧
      w'.rest.plans = net.next.plans ∧
      (E fd (payload blocks) w' ∨
        ∃ block : FrameData, P fd (payload blocks ++ block.1) w' ∧ (host.input w).ended = false) := by
  cases h with
  | @ended fd blocks net₁ net₂ reply _ hstarted hsent hE hfinished =>
      obtain ⟨reply', w, hret⟩ := hreturns hE
      obtain rfl := network_started hstarted
      obtain rfl := network_sent hsent
      obtain ⟨rfl, hnet⟩ := network_finished hfinished rfl hret
      exact ⟨fd, blocks, reply, w, hret, rfl, by rw [hnet], by rw [hnet]; rfl, Or.inl hE⟩
  | @refused fd blocks block net₁ net₂ net₃ reply _ hstarted hsent hrefused hP hfinished =>
      obtain rfl := network_started hstarted
      obtain rfl := network_sent hsent
      obtain ⟨rfl, -, reply', w, hret, hopen⟩ := network_write_false hrefused
      obtain ⟨rfl, hnet⟩ := network_finished hfinished rfl hret
      exact ⟨fd, blocks, reply, w, hret, rfl, by rw [hnet], by rw [hnet]; rfl,
        Or.inr ⟨block, hP, hopen⟩⟩
  | unstarted hput hwrite =>
      -- the first frame is never refused: the handler waits for it
      obtain rfl : { net with sent := [], cancelled := false } = _ := congrArg Prod.snd hput
      obtain ⟨-, hne, -⟩ := network_write_false hwrite
      exact absurd rfl hne
  | failed _ hfail => exact absurd ⟨hnever, hA⟩ hfail

/-- Every byte string is the payload of some frames. -/
theorem exists_payload (d : Bytes) : ∃ blocks : List FrameData, payload blocks = d := by
  cases d with
  | nil => exact ⟨[], rfl⟩
  | cons c d => exact ⟨[⟨c :: d, by simp⟩], by simp [payload]⟩

/-- **The report is the answer to all of the source**, also where the handler did not wait for it. -/
theorem PutChunkDone.whole {ok : (op : ClientSig.Op) → ClientWorld (Net θ ι O) → Outcome → Prop}
    {request : PutChunkRequest} {source : Path} {A : ClientWorld (Net θ ι O) → Prop}
    {P E : ℕ → Bytes → ClientWorld (Net θ ι O) → Prop} {status : Status} {content : Bytes}
    {w' : ClientWorld (Net θ ι O)}
    (h : PutChunkDone (network host worker) ok request source A P E net status w')
    (hnever : World.NeverFails ok) (hA : ∀ w, A w → w.fs.Fits source ∧ w.fs.dir source ≠ none)
    (hE : ∀ {fd s}, E fd s w' → s = content) (hP : ∀ {fd s}, P fd s w' → s <+: content)
    (hreturns : ∀ blocks, payload blocks = content → ∃ reply w,
      (host.upload (worker net.plan.call) net.store
        (GrpcDataPlaneClient.metadataFrame request :: dataFrames blocks)).Returns host.handler
        net.plan.schedule reply w) :
    ∃ blocks reply w, payload blocks = content ∧ (host.upload (worker net.plan.call) net.store
        (GrpcDataPlaneClient.metadataFrame request :: dataFrames blocks)).Returns host.handler
        net.plan.schedule reply w ∧
      status = uploadStatus reply ∧ w'.rest.store = host.store w ∧
      w'.rest.plans = net.next.plans := by
  obtain ⟨fd, blocks, reply, w, hupload, hstatus, hstore, hplans, hcase⟩ :=
    h.answer hnever hA fun hall => hreturns _ (hE hall)
  rcases hcase with hall | ⟨block, hsofar, hopen⟩
  · exact ⟨blocks, reply, w, hE hall, hupload, hstatus, hstore, hplans⟩
  · obtain ⟨left, hleft⟩ := hP hsofar
    obtain ⟨rest, rfl⟩ := exists_payload left
    have hextend := Host.upload_extend (by simp) hupload hopen (dataFrames (block :: rest))
    rw [List.cons_append, dataFrames, dataFrames, ← List.map_append, ← dataFrames] at hextend
    refine ⟨blocks ++ block :: rest, reply, _, ?_, hextend, hstatus, ?_, hplans⟩
    · rw [payload_append, payload_cons, ← List.append_assoc]
      exact hleft
    · rw [host.store_feed]
      exact hstore

/-- The client reads the status of the store out of the answer. -/
theorem uploadStatus_setStatus (status : Status) :
    (uploadStatus (.Ok, ⟨setStatus status⟩)).code = status.code := by
  rw [uploadStatus, if_pos GrpcStatus.ok_Ok]
  exact fromRpcStatus_setStatus status

/-! ## The other RPCs over the network -/

theorem flatten_dropWhile_isEmpty (blocks : List Bytes) :
    (blocks.dropWhile List.isEmpty).flatten = blocks.flatten := by
  induction blocks with
  | nil => rfl
  | cons block blocks ih =>
      cases block with
      | nil => simpa using ih
      | cons c block => rfl

/-- A read of a download takes the next bytes, until there are none. -/
theorem Net.read_cases (net : Net θ ι O) :
    (net.read = (none, { net with blocks := [] }) ∧ net.blocks.flatten = []) ∨
      ∃ (block : FrameData) (blocks : List Bytes),
        net.read = (some block, { net with blocks := blocks }) ∧
          net.blocks.flatten = block.1 ++ blocks.flatten := by
  have hflat := flatten_dropWhile_isEmpty net.blocks
  unfold Net.read
  split
  · next hnil =>
      rw [hnil] at hflat
      exact Or.inl ⟨rfl, hflat.symm⟩
  · next block blocks hcons =>
      rw [hcons] at hflat
      exact Or.inr ⟨_, blocks, rfl, hflat.symm⟩

/-- A download delivers the bytes of its blocks. -/
theorem network_delivered {d : Bytes} (h : Delivered (network host worker) net d net') :
    d = net.blocks.flatten ∧ net' = { net with blocks := [] } := by
  induction h with
  | @ended net net' hread =>
      rcases net.read_cases with ⟨hnone, hflat⟩ | ⟨block, blocks, hsome, -⟩
      · exact ⟨hflat.symm, (congrArg Prod.snd (hread.symm.trans hnone))⟩
      · exact absurd (congrArg Prod.fst (hread.symm.trans hsome)) nofun
  | @more net net₁ net' frame d hread _ ih =>
      rcases net.read_cases with ⟨hnone, -⟩ | ⟨block, blocks, hsome, hflat⟩
      · exact absurd (congrArg Prod.fst (hread.symm.trans hnone)) nofun
      · obtain ⟨hframe, rfl⟩ := Prod.mk.inj (hread.symm.trans hsome)
        obtain rfl := Option.some.inj hframe
        exact ⟨by rw [ih.1, hflat], ih.2⟩

/-- The call that the handler of an RPC without frames makes returns `a` in the state `w`. -/
def Host.Handles {α : Type} (host : Host S θ W O) (net : Net θ ι O) (p : Program S α) (a : α) (w : W) :
    Prop :=
  Config.Returns host.handler (p, host.start net.store (.ofFrames []) .opened) net.plan.schedule a w

theorem network_getChunk {request : RpcGetChunkRequest} {status : GrpcStatus} {w : W}
    (h : host.Handles net (WorkerService.getChunk (some (worker net.plan.call)) request) status w) :
    network host worker (.getChunk request) net = ((), { net.next with
      store := host.store w
      blocks := (host.output w).sent
      status := status }) := by
  simp only [network, Config.final_eq_some.2 h]

theorem network_headChunk {id : Bytes} {reply : GrpcStatus × RpcHeadChunkResponse} {w : W}
    (h : host.Handles net (WorkerService.headChunk (some (worker net.plan.call)) id) reply w) :
    network host worker (.headChunk id) net = (reply, { net.next with store := host.store w }) := by
  simp only [network, Config.final_eq_some.2 h]

theorem network_deleteChunk {id : Bytes} {reply : GrpcStatus × OperationResponse} {w : W}
    (h : host.Handles net (WorkerService.deleteChunk (some (worker net.plan.call)) id) reply w) :
    network host worker (.deleteChunk id) net = (reply, { net.next with store := host.store w }) := by
  simp only [network, Config.final_eq_some.2 h]

end Calls

end ChunkStorage
