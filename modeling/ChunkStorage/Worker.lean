import ChunkStorage.Crash
import ChunkStorage.Grammar
import ChunkStorage.Linearizable
import ChunkStorage.Lib.Wrapping

set_option autoImplicit false

/-! # RPCs on one worker

A worker handles any number of RPCs at once, each in a thread of its own. The handler of an RPC makes
one call of the store and sends its answer on, so a run of the worker is a run of store calls
(`WorkerRpc.wraps`), and what is known of all those is known of what clients see on the wire. -/

namespace ChunkStorage

open Effects Posix Program Linearization

/-- An RPC that has reached the worker: its method and what its client sends. An upload has the address
    of its `RpcInputStream`, and the client of a download may stop taking frames. -/
inductive WorkerRpc where
  | putChunk (frames : List PutChunkFrame) (address : ℕ)
  | getChunk (request : RpcGetChunkRequest) (accepts : ℕ → Bool)
  | headChunk (chunkId : Bytes)
  | deleteChunk (chunkId : Bytes)

/-- What the handler of an RPC returns. -/
inductive WorkerReply where
  | operation (status : GrpcStatus) (response : OperationResponse)
  | get (status : GrpcStatus)
  | head (status : GrpcStatus) (response : RpcHeadChunkResponse)

/-- The request a `GetChunk` makes to the store. -/
def RpcGetChunkRequest.request (request : RpcGetChunkRequest) : GetChunkRequest :=
  ⟨⟨request.chunkId⟩, ⟨request.offset, request.size⟩⟩

namespace WorkerRpc

/-- The handler of an RPC in the process `pid`. Only `PutChunk` looks at the address. -/
def program (B : Blake3) (root : Bytes) (pid : ℕ) : WorkerRpc → Program StoreSig WorkerReply
  | .putChunk frames address => do
      let reply ← handlePut B root pid address frames
      return .operation reply.1 reply.2
  | .getChunk request _ =>
      return .get (← WorkerService.getChunk (some (fileChunkStore B root pid 0)) request)
  | .headChunk chunkId => do
      let reply ← WorkerService.headChunk (some (fileChunkStore B root pid 0)) chunkId
      return .head reply.1 reply.2
  | .deleteChunk chunkId => do
      let reply ← WorkerService.deleteChunk (some (fileChunkStore B root pid 0)) chunkId
      return .operation reply.1 reply.2

/-- The frames its `RpcInputStream` reads. -/
def source : WorkerRpc → RpcInputStream
  | .putChunk frames _ => .ofFrames frames.tail
  | _ => .ofFrames []

def sink : WorkerRpc → RpcOutputStream
  | .getChunk _ accepts => ⟨[], accepts⟩
  | _ => ⟨[], fun _ => true⟩

/-- What a thread of the worker runs for an RPC. -/
def job (B : Blake3) (root : Bytes) (pid : ℕ) (rpc : WorkerRpc) :
    Job Streams (RpcInputStream × RpcOutputStream) WorkerReply :=
  ⟨rpc.program B root pid, streams RpcInputStream.read RpcOutputStream.write, (rpc.source, rpc.sink)⟩

/-- The call of the store that a handler makes. One that makes none behaves as a `Head` of the empty id,
    which is turned down before its first system call. -/
def call (pid : ℕ) : WorkerRpc → Call
  | .putChunk (.metadata metadata :: _) address => .put metadata.request pid address
  | .putChunk _ _ => .head ⟨[]⟩
  | .getChunk request _ => .get request.request
  | .headChunk chunkId => .head ⟨chunkId⟩
  | .deleteChunk chunkId => .delete ⟨chunkId⟩

def invocation (pid : ℕ) (rpc : WorkerRpc) : Invocation RpcInputStream RpcOutputStream :=
  ⟨rpc.call pid, RpcInputStream.read, RpcOutputStream.write, rpc.source, rpc.sink⟩

/-- `DataPlaneService::PutChunk` tests the checksum before the store tests how long the id is, so it says
    something else of a request that fails both. -/
def putStatus (request : PutChunkRequest) (status : Status) : Status :=
  if request.chunkId.valid && !(validateChecksum request.expectedChecksum).ok then
    validateChecksum request.expectedChecksum
  else status

/-- What a handler makes of the answer of the store. -/
def reply : WorkerRpc → Answer → WorkerReply
  | .putChunk (.metadata metadata :: _) _, .status status =>
      .operation .Ok ⟨setStatus (putStatus metadata.request status)⟩
  | .putChunk _ _, _ =>
      .operation ⟨.INVALID_ARGUMENT, ascii "first put frame must contain metadata"⟩ .unset
  | .headChunk _, .head (.ok value) =>
      .head .Ok ⟨setStatus .Ok, value.chunkId.value, value.size, value.checksum.value⟩
  | .headChunk _, .head (.error s) => .head .Ok { RpcHeadChunkResponse.unset with status := setStatus s.1 }
  | .deleteChunk _, .status status => .operation .Ok ⟨setStatus status⟩
  | _, .status status => .get (toGrpcStatus status)
  | _, _ => .get .Ok -- no answer to its call

/-- A request the worker accepts has the status of the store. -/
theorem ok_of_putStatus {request : PutChunkRequest} {status : Status}
    (h : toRpcStatusCode (putStatus request status).code = .STATUS_CODE_OK) : status.ok = true := by
  have hcode : (putStatus request status).code = .kOk := by
    rw [← fromRpcCode_toRpcStatusCode (putStatus request status).code, h]
    rfl
  unfold putStatus at hcode
  split at hcode
  · next hbad =>
      rw [Bool.and_eq_true, Bool.not_eq_true'] at hbad
      rw [Status.ok, hcode] at hbad
      exact absurd hbad.2 (by simp)
  · exact (Status.ok_iff status).2 hcode

end WorkerRpc

/-! ## Its calls of the store -/

section Services

variable (B : Blake3) (root : Bytes) (pid address : ℕ)

theorem validateId_of_not_valid {chunkId : ChunkId} (h : chunkId.valid = false) :
    validateId chunkId = .of .kInvalidArgument (ascii "chunk_id cannot be empty") := by
  simp [validateId, h]

theorem dataPlanePut_eq (request : PutChunkRequest) :
    DataPlaneService.putChunk (fileChunkStore B root pid address) request
      = (put B root request pid address >>= fun status => pure (WorkerRpc.putStatus request status)) := by
  unfold DataPlaneService.putChunk WorkerRpc.putStatus
  cases hid : request.chunkId.valid with
  | false =>
      have hno := validateId_of_not_valid hid
      simp [put, hno]
  | true =>
      cases hsum : (validateChecksum request.expectedChecksum).ok with
      | true =>
          simp only [hsum, Bool.not_true, Bool.false_eq_true, if_false, Bool.and_false]
          exact (Program.bind_ret _).symm
      | false =>
          -- the store also returns at once, though perhaps because of the id
          cases hlong : (validateId request.chunkId).ok <;> simp [put, hsum, hlong]

theorem dataPlaneGet_eq (request : GetChunkRequest) :
    DataPlaneService.getChunk (fileChunkStore B root pid address) request = get root request := by
  unfold DataPlaneService.getChunk
  cases hid : request.chunkId.valid with
  | false =>
      simp [get, head, validateId_of_not_valid hid, StatusOr.ofStatus, StatusOr.normalizeError_of_not_ok]
  | true => rfl

theorem dataPlaneHead_eq (chunkId : ChunkId) :
    DataPlaneService.headChunk (fileChunkStore B root pid address) ⟨chunkId⟩ = head root chunkId := by
  unfold DataPlaneService.headChunk
  cases hid : chunkId.valid with
  | false => simp [head, validateId_of_not_valid hid]
  | true => rfl

theorem dataPlaneDelete_eq (chunkId : ChunkId) :
    DataPlaneService.deleteChunk (fileChunkStore B root pid address) ⟨chunkId⟩ = delete root chunkId := by
  unfold DataPlaneService.deleteChunk
  cases hid : chunkId.valid with
  | false => simp [delete, validateId_of_not_valid hid]
  | true => rfl

end Services

/-- **A handler makes one call of the store** and passes on its answer. -/
theorem WorkerRpc.wraps (B : Blake3) (root : Bytes) (pid : ℕ) :
    WrapsJobs (storeJob B root) (WorkerRpc.job B root pid) (WorkerRpc.invocation pid) WorkerRpc.reply := by
  intro rpc
  have hprog : rpc.program B root pid
      = ((rpc.call pid).program B root >>= fun a => pure (rpc.reply a)) := by
    cases rpc with
    | putChunk frames address =>
        unfold WorkerRpc.program handlePut WorkerService.putChunk
        cases frames with
        | nil => rfl
        | cons frame frames =>
            cases frame with
            | metadata metadata =>
                simp only [List.head?_cons, dataPlanePut_eq, WorkerRpc.call, Call.program,
                  Program.bind_assoc]
                rfl
            | data _ | unset => rfl
    | getChunk request accepts =>
        unfold WorkerRpc.program WorkerService.getChunk
        simp only [dataPlaneGet_eq, WorkerRpc.call, Call.program, Program.bind_assoc]
        rfl
    | headChunk chunkId =>
        unfold WorkerRpc.program WorkerService.headChunk
        simp only [dataPlaneHead_eq, WorkerRpc.call, Call.program, Program.bind_assoc]
        refine congrArg (head root ⟨chunkId⟩ >>= ·) (funext fun r => ?_)
        cases r <;> rfl
    | deleteChunk chunkId =>
        unfold WorkerRpc.program WorkerService.deleteChunk
        simp only [dataPlaneDelete_eq, WorkerRpc.call, Call.program, Program.bind_assoc]
        rfl
  unfold WorkerRpc.job
  rw [hprog]
  rfl

/-! ## The frames of a download -/

/-- The output stream took every block. -/
def Taken (t : List (Event StoreSig)) : Prop :=
  ∀ data status, (⟨.inr (.write data), status⟩ : Event StoreSig) ∈ t → status.ok = true

theorem taken_nil : Taken [] := fun _ _ hmem => absurd hmem (by simp)

theorem taken_cons {e : Event StoreSig} {t : List (Event StoreSig)} :
    Taken (e :: t) ↔ (∀ data status, (⟨.inr (.write data), status⟩ : Event StoreSig) = e →
      status.ok = true) ∧ Taken t := by
  constructor
  · intro h
    exact ⟨fun data status he => h data status (List.mem_cons.2 (Or.inl he)),
      fun data status hmem => h data status (List.mem_cons_of_mem _ hmem)⟩
  · rintro ⟨he, ht⟩ data status hmem
    exact (List.mem_cons.1 hmem).elim (he data status) (ht data status)

@[simp] theorem taken_sys (s : Syscall) (r : s.Ret) (t : List (Event StoreSig)) :
    Taken (⟨.inl s, r⟩ :: t) ↔ Taken t :=
  taken_cons.trans (and_iff_right fun _ _ he => by cases he)

@[simp] theorem taken_read (size : ℕ) (r : StatusOr Bytes) (t : List (Event StoreSig)) :
    Taken (⟨.inr (.read size), r⟩ :: t) ↔ Taken t :=
  taken_cons.trans (and_iff_right fun _ _ he => by cases he)

@[simp] theorem taken_write (data : Bytes) (status : Status) (t : List (Event StoreSig)) :
    Taken (⟨.inr (.write data), status⟩ :: t) ↔ status.ok = true ∧ Taken t := by
  rw [taken_cons]
  refine and_congr_left fun _ => ⟨fun h => h data status rfl, fun hok data' status' he => ?_⟩
  cases he
  exact hok

theorem Prepares.taken {op : StoreSig.Op} {again : StoreSig.Ret op → Bool} (h : Prepares op again)
    {r : StoreSig.Ret op} {t : List (Event StoreSig)} (ht : Taken t) : Taken (World.record op r t) := by
  cases op with
  | inl s =>
      show Taken (if s.interrupted r then t else ⟨.inl s, r⟩ :: t)
      split
      · exact ht
      · exact (taken_sys s r t).2 ht
  | inr op =>
      cases op with
      | write data => exact h.2.elim
      | read size => exact (taken_read size r t).2 ht

theorem tracks_taken {α : Type} {p : Program StoreSig α} (hp : p.Performs Prepares)
    {t : List (Event StoreSig)} (ht : Taken t) :
    p.Tracks (fun _ _ => True) World.record (fun t _ => Taken t) t :=
  hp.tracks (fun h ha => h.again ha _) (fun h ht => h.taken ht) ht

/-- The error is none an output stream of an RPC reports. -/
def OwnError {α : Type} (r : StatusOr α) : Prop := ∀ s, r = .error s → s.1.code ≠ .kUnavailable

theorem OwnError.ofStatus {α : Type} {status : Status} (hbad : status.ok = false)
    (hcode : status.code ≠ .kUnavailable) : OwnError (.ofStatus status : StatusOr α) := by
  intro s hs
  rw [StatusOr.ofStatus, StatusOr.normalizeError_of_not_ok hbad] at hs
  rw [← Except.error.inj hs]
  exact hcode

theorem OwnError.ok {α : Type} (a : α) : OwnError (.ok a : StatusOr α) := fun _ hs => absurd hs (by simp)

theorem preadSome_errors (fd count : ℕ) (offset : UInt64) :
    (preadSome fd count offset).Results OwnError := by
  unfold preadSome
  split
  · exact OwnError.ofStatus rfl (by simp)
  · intro r
    cases r with
    | error e => exact OwnError.ofStatus rfl (by simp)
    | ok bytes => exact OwnError.ok bytes

theorem readHeader_errors (fd : ℕ) (chunkId : ChunkId) : (readHeader fd chunkId).Results OwnError := by
  have hloop : ∀ rounds read, (readHeaderLoop fd rounds read).Results OwnError := by
    intro rounds
    induction rounds with
    | zero => exact fun read => OwnError.ok read
    | succ rounds ih =>
        intro read
        unfold readHeaderLoop
        split
        · refine (preadSome_errors _ _ _).bind fun r hr => ?_
          cases r with
          | error s => exact fun s' hs => hr s' (by rw [← Except.error.inj hs])
          | ok bytes =>
              dsimp only
              split
              · exact OwnError.ofStatus rfl (by simp)
              · exact ih _
        · exact OwnError.ok read
  unfold readHeader
  refine (hloop _ _).bind fun r hr => ?_
  cases r with
  | error s => exact fun s' hs => hr s' (by rw [← Except.error.inj hs])
  | ok header =>
      dsimp only
      split
      · exact OwnError.ofStatus rfl (by simp)
      · split
        · exact OwnError.ofStatus rfl (by simp)
        · refine results_perform.2 fun r => ?_
          cases r with
          | error e => exact OwnError.ofStatus rfl (by simp)
          | ok stSize =>
              dsimp only
              split
              · exact OwnError.ofStatus rfl (by simp)
              · exact OwnError.ok _

theorem openError_code (root : Bytes) (chunkId : ChunkId) (e : Errno) :
    (openError root chunkId e).ok = false ∧ (openError root chunkId e).code ≠ .kUnavailable := by
  unfold openError
  split <;> exact ⟨rfl, by simp [ioError]⟩

theorem head_errors (root : Bytes) (chunkId : ChunkId) : (head root chunkId).Results OwnError := by
  unfold head
  by_cases hid : (validateId chunkId).ok = true
  · simp only [hid, Bool.not_true, Bool.false_eq_true, if_false]
    intro r
    cases r with
    | error e =>
        obtain ⟨hbad, hcode⟩ := openError_code root chunkId e
        exact OwnError.ofStatus hbad hcode
    | ok fd => exact readHeader_errors fd chunkId
  · have hno : (validateId chunkId).ok = false := by simpa using hid
    simp only [hno, Bool.not_false, if_true]
    exact OwnError.ofStatus hno fun hcode => absurd ((validateId_code hid).symm.trans hcode) (by simp)

/-- A `Get` stops at the first block that is refused, with the status of the stream. -/
def StopsRefused (t : List (Event StoreSig)) (p : Program StoreSig Status) : Prop :=
  (Taken t ∧ ∀ status, p = .ret status → status.code ≠ .kUnavailable) ∨
    (¬ Taken t ∧ ∃ status, p = .ret status ∧ status.ok = false)

theorem StopsRefused.ret {t : List (Event StoreSig)} {status : Status} (ht : Taken t)
    (h : status.code ≠ .kUnavailable) : StopsRefused t (.ret status) :=
  Or.inl ⟨ht, fun _ hret => Program.ret.inj hret ▸ h⟩

theorem StopsRefused.call {t : List (Event StoreSig)} {op : StoreSig.Op}
    {again : StoreSig.Ret op → Bool} {k : StoreSig.Ret op → Program StoreSig Status} (ht : Taken t) :
    StopsRefused t (.call op again k) :=
  Or.inl ⟨ht, fun _ hret => absurd hret (by simp)⟩

theorem getLoop_stops (fd rounds : ℕ) (remaining offset : UInt64) {t : List (Event StoreSig)}
    (ht : Taken t) :
    (getLoop fd rounds remaining offset).Tracks (fun _ _ => True) World.record StopsRefused t := by
  induction rounds generalizing remaining offset t with
  | zero => exact StopsRefused.ret ht (by simp)
  | succ rounds ih =>
      unfold getLoop
      split
      · refine ((tracks_taken (preadSome_prepares _ _ _) ht).results (preadSome_errors _ _ _)).bind
          (fun _ _ _ _ h => StopsRefused.call h.1) fun t r h => ?_
        cases r with
        | error s => exact StopsRefused.ret h.1 (h.2 _ rfl s rfl)
        | ok bytes =>
            dsimp only
            split
            · exact StopsRefused.ret h.1 (by simp)
            · refine tracks_perform (StopsRefused.call h.1) fun status _ => ?_
              cases hok : Status.ok status with
              | false =>
                  simp only [Bool.not_false, if_true]
                  refine Or.inr ⟨fun htaken => ?_, status, rfl, hok⟩
                  have htook : status.ok = true := ((taken_write bytes status t).1 htaken).1
                  rw [hok] at htook
                  exact absurd htook (by simp)
              | true =>
                  simp only [Bool.not_true, Bool.false_eq_true, if_false]
                  exact ih _ _ ((taken_write bytes status t).2 ⟨hok, h.1⟩)
      · exact StopsRefused.ret ht (by simp)

theorem get_stops (root : Bytes) (request : GetChunkRequest) :
    (get root request).Tracks (fun _ _ => True) World.record StopsRefused [] := by
  unfold get
  refine ((tracks_taken (head_prepares request.chunkId) taken_nil).results (head_errors root _)).bind
    (fun _ _ _ _ h => StopsRefused.call h.1) fun t r h => ?_
  cases r with
  | error s => exact StopsRefused.ret h.1 (h.2 _ rfl s rfl)
  | ok response =>
      dsimp only
      split
      · next hrange =>
          have hout : ¬ request.range.offset.toNat + request.range.size.toNat ≤ response.size.toNat := by
            intro hin
            rw [(validateByteRange_ok _ _).2 hin] at hrange
            exact absurd hrange (by simp)
          refine StopsRefused.ret h.1 fun hcode => ?_
          rw [validateByteRange_code (Nat.lt_of_not_le hout)] at hcode
          exact absurd hcode (by simp)
      · refine tracks_perform (StopsRefused.call h.1) fun r _ => ?_
        have ht := (prepares_sys (s := .openRead (pathFor root request.chunkId)) (by simp)).taken
          (r := r) h.1
        cases r with
        | error e => exact StopsRefused.ret ht (openError_code root _ e).2
        | ok fd => exact getLoop_stops _ _ _ _ ht

/-- The frames an RPC has sent are the blocks its handler wrote, until the client refused one. -/
theorem sent_of_replays {s : RpcInputStream} {accepts : ℕ → Bool} {t : List (Event StoreSig)}
    {c : RpcInputStream × RpcOutputStream}
    (h : System.Replays (streams RpcInputStream.read RpcOutputStream.write) (s, ⟨[], accepts⟩) t c) :
    c.2.accepts = accepts ∧ ((Taken t ∧ c.2.sent.flatten = handed t) ∨
      (¬ Taken t ∧ accepts c.2.sent.length = false ∧ c.2.sent.flatten <+: handed t)) := by
  induction h with
  | nil => exact ⟨rfl, Or.inl ⟨taken_nil, rfl⟩⟩
  | @sys call r t c _ ih =>
      rw [taken_sys, handed_sys]
      exact ih
  | @other op r t c c' _ hreply ih =>
      obtain ⟨haccepts, hsent⟩ := ih
      cases op with
      | read size =>
          have hsame : c'.2 = c.2 := (congrArg (fun x => x.2.2) hreply).symm
          rw [taken_read, handed_read, hsame]
          exact ⟨haccepts, hsent⟩
      | write data =>
          simp only [streams, RpcOutputStream.write, haccepts] at hreply
          rw [taken_write, handed_write]
          by_cases htake : accepts c.2.sent.length = true
          · -- a client that has refused a frame refuses the same one again
            obtain ⟨htaken, hflat⟩ := hsent.resolve_right fun hrefused => by
              rw [htake] at hrefused
              exact absurd hrefused.2.1 (by simp)
            rw [if_pos htake] at hreply
            obtain ⟨rfl, rfl⟩ := Prod.mk.inj hreply
            exact ⟨rfl, Or.inl ⟨⟨rfl, htaken⟩, by simp [hflat]⟩⟩
          · have hno : accepts c.2.sent.length = false := by simpa using htake
            rw [if_neg htake] at hreply
            obtain ⟨rfl, rfl⟩ := Prod.mk.inj hreply
            refine ⟨haccepts, Or.inr ⟨fun htaken => ?_, hno, ?_⟩⟩
            · exact absurd htaken.1 (by simp)
            · rcases hsent with ⟨-, hflat⟩ | ⟨-, -, hflat⟩
              · rw [hflat]
                exact List.prefix_append _ _
              · exact hflat.trans (List.prefix_append _ _)

/-! ## Runs of the worker -/

abbrev WorkerSystem := System WorkerRpc Streams (RpcInputStream × RpcOutputStream) WorkerReply

abbrev WorkerProcess := Process WorkerRpc Streams (RpcInputStream × RpcOutputStream) WorkerReply

/-- The worker after the choices, from an empty root. -/
def workerAfter (B : Blake3) (root : Bytes) (pid nameMax : ℕ) (choices : List (Choice WorkerRpc)) :
    WorkerSystem := System.after (WorkerRpc.job B root pid) ⟨FS.empty nameMax, []⟩ choices

def workerMoment (B : Blake3) (root : Bytes) (pid nameMax : ℕ) (choices : List (Choice WorkerRpc))
    (n : ℕ) : WorkerSystem :=
  System.moment (WorkerRpc.job B root pid) ⟨FS.empty nameMax, []⟩ choices n

section Runs

variable {B : Blake3} {root : Bytes} {pid nameMax : ℕ} {choices : List (Choice WorkerRpc)}

/-- The calls of the store in a run of the worker. -/
abbrev storeChoices (pid : ℕ) (choices : List (Choice WorkerRpc)) :
    List (Choice (Invocation RpcInputStream RpcOutputStream)) :=
  choices.map (Choice.map (WorkerRpc.invocation pid))

theorem worker_wraps (B : Blake3) (root : Bytes) (pid nameMax : ℕ) (choices : List (Choice WorkerRpc))
    (n : ℕ) : Wraps (WorkerRpc.invocation pid) WorkerRpc.reply
      (storeMoment B root nameMax (storeChoices pid choices) n)
      (workerMoment B root pid nameMax choices n) :=
  Wraps.moment (WorkerRpc.wraps B root pid) _ _ _

theorem worker_wraps_after (B : Blake3) (root : Bytes) (pid nameMax : ℕ)
    (choices : List (Choice WorkerRpc)) : Wraps (WorkerRpc.invocation pid) WorkerRpc.reply
      (storeAfter B root nameMax (storeChoices pid choices))
      (workerAfter B root pid nameMax choices) := by
  have h := worker_wraps B root pid nameMax choices choices.length
  rwa [workerMoment, System.moment_length, storeMoment, System.moment_eq_after (by simp)] at h

/-- A call that puts a chunk comes from the upload of a client. -/
theorem WorkerRpc.call_put {rpc : WorkerRpc} {request : PutChunkRequest} {pid' address : ℕ}
    (h : rpc.call pid = .put request pid' address) :
    ∃ metadata frames, rpc = .putChunk (.metadata metadata :: frames) address ∧
      request = metadata.request ∧ pid' = pid := by
  unfold WorkerRpc.call at h
  split at h
  · next metadata frames address' =>
      obtain ⟨rfl, rfl, rfl⟩ := Call.put.inj h
      exact ⟨metadata, frames, rfl, rfl, rfl⟩
  all_goals exact absurd h (by simp)

theorem WorkerRpc.call_delete {rpc : WorkerRpc} {chunkId : ChunkId}
    (h : rpc.call pid = .delete chunkId) : rpc = .deleteChunk chunkId.value := by
  unfold WorkerRpc.call at h
  split at h
  case h_5 => rw [← Call.delete.inj h]
  all_goals exact absurd h (by simp)

end Runs

/-! ## What the worker keeps -/

/-- The frames behind the metadata carry the payload it announces. -/
structure Uploaded (B : Blake3) (metadata : PutChunkMetadata) (frames : List PutChunkFrame) (p : Bytes) :
    Prop where
  frames : ∃ pieces : List Bytes, frames = pieces.map .data ∧ p = pieces.flatten
  size : p.length = metadata.expectedSize.toNat
  checksum : metadata.expectedChecksum = B.hex p

theorem Accepts.uploaded {B : Blake3} {metadata : PutChunkMetadata} {frames : List PutChunkFrame}
    {p : Bytes} (h : Accepts B RpcInputStream.read (.ofFrames frames) metadata.request p) :
    Uploaded B metadata frames p := by
  obtain ⟨pieces, -, hp, hframes⟩ := h.pieces
  exact ⟨⟨pieces, hframes, hp⟩, h.2.1, congrArg Checksum.value h.2.checksum_eq⟩

section Keeps

variable {σ τ : Type} {B : Blake3} {root : Bytes}

/-- A chunk that is visible, also after a power failure, is a version of it. -/
theorem Tidy.contents_kept {T : ℕ → Invocation σ τ → Prop} {fs fs' : FS} (h : Tidy B root T fs)
    (hfs : fs' = fs ∨ fs.Crash fs') {path : Path} (hpath : IsChunkPath root path) {file : Bytes}
    (hfile : fs'.contents path = some file) : ∃ k p, Version B root T k path p ∧ file = chunkFile B p := by
  rcases hfs with rfl | hcrash
  · exact h.contents hpath hfile
  · obtain ⟨i, hi⟩ := Option.ne_none_iff_exists'.1
      (fun hnone => by simp [FS.contents_eq_none_iff.2 hnone] at hfile : fs'.dir path ≠ none)
    obtain ⟨n, -, hpub, -, hcontents⟩ := h.crash hcrash hpath hi
    obtain ⟨p, hversion, hdata⟩ := hpub.version
    rw [hcontents, hdata] at hfile
    exact ⟨n.owner, p, hversion, (Option.some.inj hfile).symm⟩

/-- The chunk of a `Put` that has returned OK and that nobody deletes, also after a power failure. -/
theorem put_kept {nameMax : ℕ} {choices : List (Choice (Invocation σ τ))} {fs' : FS}
    (hfs : fs' = (storeAfter B root nameMax choices).fs ∨ (storeAfter B root nameMax choices).fs.Crash fs')
    {j : ℕ} {c : StoreProcess σ τ} {request : PutChunkRequest} {pid address : ℕ} {status : Status}
    (hc : (storeAfter B root nameMax choices).procs[j]? = some c)
    (hput : c.job.call = .put request pid address) (hret : c.prog = .ret (.status status))
    (hok : status.ok = true) (hfree : DeleteFree (storeAfter B root nameMax choices) request.chunkId) :
    ∃ p, Accepts B c.job.input c.job.source request p ∧
      fs'.contents (pathFor root request.chunkId) = some (chunkFile B p) := by
  have hholds := store_holds_after B root anything nameMax choices (admits_anything B root nameMax choices)
  obtain ⟨i, n, hsettled, hn, howner⟩ := (hholds.put_end hc hput hret).kept hok hfree.undeleted
  obtain ⟨p, hacc, hcontents⟩ :=
    hholds.inv.bytes ⟨i, n, FS.Settled.dir hsettled, hn, howner⟩ ⟨c, hc, rfl⟩ hput
  refine ⟨p, hacc, ?_⟩
  rcases hfs with rfl | hcrash
  · exact hcontents
  · obtain ⟨m, hm, -, -, hcontents'⟩ := hholds.inv.tidy.crash hcrash
      (isChunkPath_pathFor request.chunkId) (hsettled.crash hcrash)
    have hdir : (storeAfter B root nameMax choices).fs.dir (pathFor root request.chunkId) = some i :=
      hsettled.dir
    rw [hcontents', ← hcontents]
    simp [FS.contents, hdir, hm]

end Keeps

/-- **The worker keeps what clients have uploaded, and nothing else.** Take any number of RPCs at once,
    stop them anywhere, with any outcomes of their system calls, and cut the power or not. Every visible
    chunk is the payload of one upload, as its metadata says, from the data frames of that one RPC; and
    the chunk of an upload that was answered with OK and that nobody deletes is visible. -/
theorem worker_keeps_uploads (B : Blake3) (root : Bytes) (pid nameMax : ℕ)
    (choices : List (Choice WorkerRpc)) (fs' : FS)
    (hfs : fs' = (workerAfter B root pid nameMax choices).fs ∨
      (workerAfter B root pid nameMax choices).fs.Crash fs') :
    (∀ path file, IsChunkPath root path → fs'.contents path = some file →
      ∃ (j : ℕ) (c : WorkerProcess) (metadata : PutChunkMetadata) (frames : List PutChunkFrame)
        (address : ℕ) (p : Bytes), (workerAfter B root pid nameMax choices).procs[j]? = some c ∧
        c.job = .putChunk (.metadata metadata :: frames) address ∧ Uploaded B metadata frames p ∧
        path = pathFor root ⟨metadata.chunkId⟩ ∧ file = chunkFile B p) ∧
    (∀ (j : ℕ) (c : WorkerProcess) (metadata : PutChunkMetadata) (frames : List PutChunkFrame)
      (address : ℕ) (status : GrpcStatus) (response : OperationResponse),
      (workerAfter B root pid nameMax choices).procs[j]? = some c →
      c.job = .putChunk (.metadata metadata :: frames) address →
      c.prog = .ret (.operation status response) → status.ok = true →
      response.status.code = .STATUS_CODE_OK →
      (∀ (i : ℕ) (d : WorkerProcess), (workerAfter B root pid nameMax choices).procs[i]? = some d →
        d.job ≠ .deleteChunk metadata.chunkId) →
      ∃ p, Uploaded B metadata frames p ∧
        fs'.contents (pathFor root ⟨metadata.chunkId⟩) = some (chunkFile B p)) := by
  have hwraps := worker_wraps_after B root pid nameMax choices
  rw [hwraps.fs] at hfs
  refine ⟨fun path file hpath hfile => ?_, ?_⟩
  · have htidy := (store_holds_after B root anything nameMax (storeChoices pid choices)
      (admits_anything B root nameMax _)).inv.tidy
    obtain ⟨k, p, ⟨v, request, pid', address, ⟨c, hc, rfl⟩, hcall, -, rfl, hacc⟩, rfl⟩ :=
      htidy.contents_kept hfs hpath hfile
    obtain ⟨c', hc', hwrapped⟩ := hwraps.exists hc
    rw [hwrapped.job] at hcall hacc
    obtain ⟨metadata, frames, hrpc, rfl, -⟩ := WorkerRpc.call_put hcall
    rw [hrpc] at hacc
    exact ⟨k, c', metadata, frames, address, p, hc', hrpc, hacc.uploaded, rfl, rfl⟩
  · intro j c metadata frames address status response hc hrpc hret hok hcode hfree
    obtain ⟨d, hd, hwrapped⟩ := hwraps.exists_inner hc
    obtain ⟨a, ha, hreply⟩ := hwrapped.ret hret
    have hcall : d.job.call = .put metadata.request pid address := by
      rw [hwrapped.job, hrpc]
      rfl
    have hdeletes : DeleteFree (storeAfter B root nameMax (storeChoices pid choices))
        metadata.request.chunkId := by
      intro i e he hdelete
      obtain ⟨e', he', hwrapped'⟩ := hwraps.exists he
      rw [hwrapped'.job] at hdelete
      exact hfree i e' he' (WorkerRpc.call_delete hdelete)
    rw [hrpc] at hreply
    cases a with
    | status status' =>
        obtain ⟨rfl, rfl⟩ := WorkerReply.operation.inj hreply
        have hstatus : status'.ok = true := WorkerRpc.ok_of_putStatus hcode
        obtain ⟨p, hacc, hfile⟩ := put_kept hfs hd hcall ha hstatus hdeletes
        rw [hwrapped.job, hrpc] at hacc
        exact ⟨p, hacc.uploaded, hfile⟩
    | head _ | size _ | «exists» _ =>
        obtain ⟨rfl, -⟩ := WorkerReply.operation.inj hreply
        exact absurd hok (by decide)

/-- The worker has stored the upload. -/
def WorkerReply.acknowledges : WorkerReply → Bool
  | .operation status response => status.ok && decide (response.status.code = .STATUS_CODE_OK)
  | _ => false

theorem exists_acknowledged {s : WorkerSystem} {j : ℕ}
    (h : (s.procs.map fun c => c.prog.result.map WorkerReply.acknowledges)[j]? = some (some true)) :
    ∃ c status response, s.procs[j]? = some c ∧ c.prog = .ret (.operation status response) ∧
      status.ok = true ∧ response.status.code = .STATUS_CODE_OK := by
  rw [List.getElem?_map, Option.map_eq_some_iff] at h
  obtain ⟨c, hc, hreply⟩ := h
  obtain ⟨reply, hresult, hack⟩ := Option.map_eq_some_iff.1 hreply
  cases reply with
  | operation status response =>
      unfold WorkerReply.acknowledges at hack
      rw [Bool.and_eq_true, decide_eq_true_eq] at hack
      exact ⟨c, status, response, hc, eq_ret_of_result hresult, hack.1, hack.2⟩
  | get _ | head _ _ => exact absurd hack (by simp [WorkerReply.acknowledges])

/-- The upload of one byte as the chunk `"a"`. -/
def oneUpload : List (Choice WorkerRpc) :=
  .start (.putChunk [.metadata (sampleMetadata [0x61]), .data [0x61]] 2) :: List.replicate 12 (.act 0 .done)

theorem worker_keeps_uploads_one_byte :
    ∃ p, Uploaded Blake3.sample (sampleMetadata [0x61]) [.data [0x61]] p ∧
      (workerAfter Blake3.sample [0x72] 1 255 oneUpload).fs.lose.contents (pathFor [0x72] ⟨[0x61]⟩)
        = some (chunkFile Blake3.sample p) := by
  have hreply : ((workerAfter Blake3.sample [0x72] 1 255 oneUpload).procs.map
      fun c => c.prog.result.map WorkerReply.acknowledges)[0]? = some (some true) := by decide +kernel
  obtain ⟨c, status, response, hc, hret, hok, hcode⟩ := exists_acknowledged hreply
  have hjobs : ∀ {i : ℕ} {d : WorkerProcess},
      (workerAfter Blake3.sample [0x72] 1 255 oneUpload).procs[i]? = some d →
      d.job = .putChunk [.metadata (sampleMetadata [0x61]), .data [0x61]] 2 := by
    intro i d hd
    have hall : (workerAfter Blake3.sample [0x72] 1 255 oneUpload).procs.map Process.job
        = [.putChunk [.metadata (sampleMetadata [0x61]), .data [0x61]] 2] := System.jobs_after _ _ _
    have hmem := List.mem_map_of_mem (f := Process.job) (List.mem_of_getElem? hd)
    rw [hall] at hmem
    exact List.mem_singleton.1 hmem
  refine (worker_keeps_uploads Blake3.sample [0x72] 1 255 oneUpload _ (Or.inr (FS.crash_lose _))).2 0 c
    (sampleMetadata [0x61]) [.data [0x61]] 2 status response hc (hjobs hc) hret hok hcode
    fun i d hd hdelete => ?_
  rw [hjobs hd] at hdelete
  exact absurd hdelete (by simp)

/-! ## The worker as a map -/

/-- What an RPC may do to the map, with the frames it has sent and its reply as a client reads it. The
    client of a download that stops taking frames gets a part of the range. -/
def WorkerRpc.ActsOn (B : Blake3) (m m' : MapStore.Map) (sent : List Bytes) :
    WorkerRpc → WorkerReply → Prop
  | .putChunk (.metadata metadata :: frames) _, .operation status response => status.ok = true ∧
      (fromRpcCode response.status.code, m') = MapStore.put B m metadata.request
        (received metadata.expectedSize.toNat frames)
  | .putChunk _ _, .operation status _ => status.code = .INVALID_ARGUMENT ∧ m' = m
  | .getChunk request accepts, .get status => m' = m ∧
      match MapStore.get m request.request with
      | .error code => (fromGrpcStatus status).code = code ∧ sent.flatten = []
      | .ok bytes => (status.ok = true ∧ sent.flatten = bytes) ∨
          (status.code = .UNAVAILABLE ∧ accepts sent.length = false ∧ sent.flatten <+: bytes)
  | .headChunk chunkId, .head status response => status.ok = true ∧ m' = m ∧
      match MapStore.find m ⟨chunkId⟩ with
      | .error code => fromRpcCode response.status.code = code
      | .ok p => response.status.code = .STATUS_CODE_OK ∧ response.chunkId = chunkId ∧
          response.size.toNat = p.length ∧ response.checksum = B.hex p
  | .deleteChunk chunkId, .operation status response => status.ok = true ∧
      (fromRpcCode response.status.code, m') = MapStore.delete m ⟨chunkId⟩
  | _, _ => False

section Acts

variable {B : Blake3} {root : Bytes} {pid nameMax : ℕ} {m m' : MapStore.Map}

theorem WorkerRpc.putStatus_code {request : PutChunkRequest} {status : Status} {delivery : Delivery}
    (h : (status.code, m') = MapStore.put B m request delivery) :
    (putStatus request status).code = status.code := by
  unfold putStatus
  split
  · next hbad =>
      rw [Bool.and_eq_true, Bool.not_eq_true'] at hbad
      have hmalformed : ¬ request.expectedChecksum.WellFormed := by
        intro hsum
        rw [(validateChecksum_ok _).2 hsum] at hbad
        exact absurd hbad.2 (by simp)
      have hinvalid : ¬ request.Valid := fun hvalid => hmalformed hvalid.2
      unfold MapStore.put at h
      rw [if_pos hinvalid] at h
      rw [(Prod.mk.inj h).1]
      exact validateChecksum_code hmalformed
  · rfl

/-- An output stream of an RPC refuses with one status only. -/
theorem refused_code {t : List (Event StoreSig)} {status : Status}
    (h : Refused RpcOutputStream.write t status) : status.code = .kUnavailable := by
  obtain ⟨hbad, state, data, rfl, -⟩ := h
  unfold RpcOutputStream.write at hbad ⊢
  split at hbad
  · exact absurd hbad (by simp)
  · next hno => rw [if_neg hno]; rfl

/-- What the store does for a download, on the wire. -/
theorem WorkerRpc.get_actsOn {request : RpcGetChunkRequest} {accepts : ℕ → Bool} {status : Status}
    {t : List (Event StoreSig)} {sent : List Bytes}
    (hagrees : Agrees B ((WorkerRpc.getChunk request accepts).invocation pid) m t (.status status) m')
    (hsent : (Taken t ∧ sent.flatten = handed t) ∨
      (¬ Taken t ∧ accepts sent.length = false ∧ sent.flatten <+: handed t))
    (htaken : status.ok = true → Taken t) (hrefused : status.code = .kUnavailable → ¬ Taken t) :
    (WorkerRpc.getChunk request accepts).ActsOn B m m' sent (.get (toGrpcStatus status)) := by
  have hpart : sent.flatten <+: handed t := by
    rcases hsent with ⟨-, hall⟩ | ⟨-, -, hpart⟩
    · rw [hall]
    · exact hpart
  simp only [Agrees, invocation, call] at hagrees
  refine ⟨hagrees.1, ?_⟩
  have hanswer := hagrees.2
  cases hget : MapStore.get m request.request with
  | error code =>
      rw [hget] at hanswer
      refine ⟨(fromGrpcStatus_toGrpcStatus status).trans hanswer.1, ?_⟩
      rw [hanswer.2] at hpart
      exact List.prefix_nil.1 hpart
  | ok bytes =>
      rw [hget] at hanswer
      rcases hanswer with ⟨hok, hhanded⟩ | ⟨hno, hprefix⟩
      · have hstatus : status.ok = true := (Status.ok_iff status).2 hok
        refine Or.inl ⟨(toGrpcStatus_ok status).trans hstatus, ?_⟩
        rcases hsent with ⟨-, hall⟩ | ⟨hnot, -⟩
        · rw [hall, hhanded]
        · exact absurd (htaken hstatus) hnot
      · have hcode := refused_code hno
        rcases hsent with ⟨hall, -⟩ | ⟨-, hstopped, hpart⟩
        · exact absurd hall (hrefused hcode)
        · refine Or.inr ⟨?_, hstopped, hpart.trans hprefix⟩
          simp [toGrpcStatus, hcode]

theorem WorkerRpc.actsOn {rpc : WorkerRpc} {t : List (Event StoreSig)} {a : Answer} {sent : List Bytes}
    (hagrees : Agrees B (rpc.invocation pid) m t a m')
    (hget : ∀ {request accepts status}, rpc = .getChunk request accepts → a = .status status →
      ((Taken t ∧ sent.flatten = handed t) ∨
        (¬ Taken t ∧ accepts sent.length = false ∧ sent.flatten <+: handed t)) ∧
      (status.ok = true → Taken t) ∧ (status.code = .kUnavailable → ¬ Taken t)) :
    rpc.ActsOn B m m' sent (rpc.reply a) := by
  cases rpc with
  | putChunk frames address =>
      have hother : (WorkerRpc.putChunk frames address).call pid = .head ⟨[]⟩ → m' = m := by
        intro hcall
        cases a with
        | head response => exact hagrees.1
        | size _ | «exists» _ => exact hagrees.1
        | status _ => simp only [Agrees, invocation, hcall] at hagrees
      cases frames with
      | nil => exact ⟨rfl, hother rfl⟩
      | cons frame frames =>
          cases frame with
          | data _ | unset => exact ⟨rfl, hother rfl⟩
          | metadata metadata =>
              cases a with
              | status status =>
                  simp only [Agrees, invocation, call, source, List.tail_cons] at hagrees
                  have hput := hagrees.1
                  rw [deliver_frames frames _ _ rfl rfl] at hput
                  refine ⟨rfl, ?_⟩
                  show (fromRpcCode (toRpcStatusCode (putStatus metadata.request status).code), m') = _
                  rw [fromRpcCode_toRpcStatusCode, putStatus_code hput, hput]
                  rfl
              | head _ | size _ | «exists» _ => exact absurd hagrees.2.2 id
  | getChunk request accepts =>
      cases a with
      | status status =>
          obtain ⟨hsent, htaken, hrefused⟩ := hget rfl rfl
          exact get_actsOn hagrees hsent htaken hrefused
      | head _ | size _ | «exists» _ => exact absurd hagrees.2.2 id
  | headChunk chunkId =>
      cases a with
      | head response =>
          obtain ⟨hm, -, hhead⟩ := hagrees
          cases response with
          | error s =>
              have hfind : MapStore.find m ⟨chunkId⟩ = .error s.1.code := hhead
              refine ⟨rfl, hm, ?_⟩
              rw [hfind]
              exact fromRpcCode_toRpcStatusCode s.1.code
          | ok value =>
              obtain ⟨p, hfind, hid, hsize, hsum⟩ := hhead
              refine ⟨rfl, hm, ?_⟩
              rw [hfind]
              exact ⟨rfl, congrArg ChunkId.value hid, hsize, congrArg Checksum.value hsum⟩
      | status _ => exact absurd hagrees id
      | size _ | «exists» _ => exact absurd hagrees.2.2 id
  | deleteChunk chunkId =>
      cases a with
      | status status =>
          refine ⟨rfl, ?_⟩
          show (fromRpcCode (toRpcStatusCode status.code), m') = _
          rw [fromRpcCode_toRpcStatusCode]
          exact hagrees.1
      | head _ | size _ | «exists» _ => exact absurd hagrees.2.2 id

end Acts

/-! ## Linearizability on the wire -/

/-- A `Get` call stops at the first block that is refused. -/
theorem getCall_stops {σ τ : Type} {B : Blake3} {root : Bytes} {nameMax : ℕ}
    {choices : List (Choice (Invocation σ τ))} {j : ℕ} {c : StoreProcess σ τ}
    (hc : (storeAfter B root nameMax choices).procs[j]? = some c) {request : GetChunkRequest}
    (hcall : c.job.call = .get request) :
    (Taken c.trace ∧ ∀ status, c.prog = .ret (.status status) → status.code ≠ .kUnavailable) ∨
      (¬ Taken c.trace ∧ ∃ status, c.prog = .ret (.status status) ∧ status.ok = false) := by
  let N : Invocation σ τ → List (Event StoreSig) → Program StoreSig Answer → Prop := fun v t p =>
    ∀ request, v.call = .get request →
      (Taken t ∧ ∀ status, p = .ret (.status status) → status.code ≠ .kUnavailable) ∨
        (¬ Taken t ∧ ∃ status, p = .ret (.status status) ∧ status.ok = false)
  have htracks : ∀ v : Invocation σ τ,
      (v.call.program B root).Tracks (fun _ _ => True) World.record (N v) [] := by
    intro v
    by_cases hget : ∃ request, v.call = .get request
    · obtain ⟨request, hget⟩ := hget
      rw [hget]
      refine (get_stops root request).bind (fun t op again k ht request' _ => ?_)
        fun t status ht request' _ => ?_
      · rcases ht with ⟨htaken, -⟩ | ⟨-, status, hret, -⟩
        · exact Or.inl ⟨htaken, fun _ hret => absurd hret (by simp)⟩
        · exact absurd hret (by simp)
      · rcases ht with ⟨htaken, hcode⟩ | ⟨hno, status', hret, hbad⟩
        · refine Or.inl ⟨htaken, fun status' hret => ?_⟩
          rw [← Answer.status.inj (Program.ret.inj hret)]
          exact hcode status rfl
        · exact Or.inr ⟨hno, status', by rw [Program.ret.inj hret], hbad⟩
    · exact (call_traces v).imp fun _ _ _ request h => absurd ⟨request, h⟩ hget
  rw [storeAfter, ← System.moment_length] at hc
  exact (System.tracks_moment (N := N) htracks _ _ _ hc).here request hcall

/-- The status of a download tells whether its client took every block. -/
theorem download_status {σ τ : Type} {B : Blake3} {root : Bytes} {nameMax : ℕ}
    {choices : List (Choice (Invocation σ τ))} {j : ℕ} {d : StoreProcess σ τ} {request : GetChunkRequest}
    {status : Status} (hd : (storeAfter B root nameMax choices).procs[j]? = some d)
    (hcall : d.job.call = .get request)
    (hanswer : d.prog = .ret (.status status) ∨
      ¬ d.prog.Returned ∧ Answer.status status = .status .Ok) :
    (status.ok = true → Taken d.trace) ∧ (status.code = .kUnavailable → ¬ Taken d.trace) := by
  rcases getCall_stops hd hcall with ⟨htaken, hcodes⟩ | ⟨hno, status', hret', hbad⟩
  · refine ⟨fun _ => htaken, fun hcode => ?_⟩
    rcases hanswer with hret | ⟨-, hstatus⟩
    · exact absurd hcode (hcodes status hret)
    · rw [Answer.status.inj hstatus] at hcode
      exact absurd hcode (by simp)
  · refine ⟨fun hok => ?_, fun _ => hno⟩
    rcases hanswer with hret | ⟨hway, -⟩
    · obtain rfl := Answer.status.inj (Program.ret.inj (hret.symm.trans hret'))
      rw [hok] at hbad
      exact absurd hbad (by simp)
    · rw [hret'] at hway
      exact absurd trivial hway

/-- The frames a download has sent, next to the blocks its call of the store wrote. -/
theorem download_sent {B : Blake3} {root : Bytes} {pid nameMax : ℕ} {choices : List (Choice WorkerRpc)}
    {j : ℕ} {c : WorkerProcess} {d : StoreProcess RpcInputStream RpcOutputStream}
    {request : RpcGetChunkRequest} {accepts : ℕ → Bool}
    (hc : (workerAfter B root pid nameMax choices).procs[j]? = some c)
    (hrpc : c.job = .getChunk request accepts)
    (hwrapped : Wrapped (WorkerRpc.invocation pid) WorkerRpc.reply d c) :
    (Taken d.trace ∧ c.rest.2.sent.flatten = handed d.trace) ∨
      (¬ Taken d.trace ∧ accepts c.rest.2.sent.length = false ∧
        c.rest.2.sent.flatten <+: handed d.trace) := by
  have hreplays := System.replays_moment (WorkerRpc.job B root pid) (FS.empty nameMax) choices
    choices.length (j := j) (p := c) (by rw [System.moment_length]; exact hc)
  rw [hrpc, hwrapped.trace] at hreplays
  exact (sent_of_replays hreplays).2

/-- No system call fails, the names of the files fit, no download has the chunk replaced by a shorter
    one between its two `open`s, and the streams of uploads that overlap have different addresses. -/
structure WorkerOrderly (B : Blake3) (root : Bytes) (pid nameMax : ℕ)
    (choices : List (Choice WorkerRpc)) : Prop where
  calm : System.Admits (WorkerRpc.job B root pid) (fun j rpc => calmAndCovered j (rpc.invocation pid))
    ⟨FS.empty nameMax, []⟩ choices
  names : ∀ {j : ℕ} {c : WorkerProcess}, (workerAfter B root pid nameMax choices).procs[j]? = some c →
    (validateId (c.job.call pid).chunkId).ok = true →
    (FS.empty nameMax).Fits ((c.job.call pid).longest root)
  distinct : ∀ {n i j : ℕ} {c d : WorkerProcess} {frames frames' : List PutChunkFrame} {address : ℕ},
    (workerMoment B root pid nameMax choices n).procs[i]? = some c →
    (workerMoment B root pid nameMax choices n).procs[j]? = some d → ¬ c.prog.Returned →
    ¬ d.prog.Returned → c.job = .putChunk frames address → d.job = .putChunk frames' address → i = j

/-- The calls of the store that the RPCs of such a run make. -/
theorem WorkerOrderly.store {B : Blake3} {root : Bytes} {pid nameMax : ℕ}
    {choices : List (Choice WorkerRpc)} (h : WorkerOrderly B root pid nameMax choices) :
    Orderly B root nameMax (storeChoices pid choices) where
  calm := Wraps.admits (WorkerRpc.wraps B root pid) h.calm
  names {j c} hc hid := by
    obtain ⟨c', hc', hwrapped⟩ := (worker_wraps_after B root pid nameMax choices).exists hc
    rw [hwrapped.job] at hid ⊢
    exact h.names hc' hid
  distinct {n i j c d request request' pid' address} hc hd hway hway' hput hput' _ := by
    have hwraps := worker_wraps B root pid nameMax choices n
    obtain ⟨c', hc', hwrapped⟩ := hwraps.exists hc
    obtain ⟨d', hd', hwrapped'⟩ := hwraps.exists hd
    rw [hwrapped.job] at hput
    rw [hwrapped'.job] at hput'
    obtain ⟨_, _, hrpc, -, -⟩ := WorkerRpc.call_put hput
    obtain ⟨_, _, hrpc', -, -⟩ := WorkerRpc.call_put hput'
    exact h.distinct hc' hd' (fun hret => hway (hwrapped.returned.1 hret))
      (fun hret => hway' (hwrapped'.returned.1 hret)) hrpc hrpc'

/-- The RPCs of the list, one after another on a map that is empty at first, send the frames they sent,
    give the replies they gave and leave the map the root shows. Every RPC that has been answered is
    among them, and nobody comes before an RPC that had been answered when it was made. -/
structure WorkerLinearizes (B : Blake3) (root : Bytes) (pid nameMax : ℕ)
    (choices : List (Choice WorkerRpc)) (order : List ℕ) : Prop where
  nodup : order.Nodup
  returned : ∀ {j : ℕ} {c : WorkerProcess}, (workerAfter B root pid nameMax choices).procs[j]? = some c →
    c.prog.Returned → j ∈ order
  serial : Serial (fun j m m' => ∃ (c : WorkerProcess) (reply : WorkerReply),
      (workerAfter B root pid nameMax choices).procs[j]? = some c ∧
      (c.prog = .ret reply ∨ ¬ c.prog.Returned) ∧ c.job.ActsOn B m m' c.rest.2.sent reply)
    (fun _ => none) order (shown root (workerAfter B root pid nameMax choices).fs)
  realTime : order.Pairwise fun i j =>
    ¬ System.Precedes (WorkerRpc.job B root pid) ⟨FS.empty nameMax, []⟩ choices j i

/-- **What the clients of a worker see could have happened one RPC after another**, on a map, however
    their RPCs overlap. -/
theorem worker_linearizable (B : Blake3) (root : Bytes) (pid nameMax : ℕ)
    (choices : List (Choice WorkerRpc)) (h : WorkerOrderly B root pid nameMax choices) :
    ∃ order, WorkerLinearizes B root pid nameMax choices order := by
  have hwraps := worker_wraps_after B root pid nameMax choices
  obtain ⟨order, hlin⟩ := h.store.linearizes
  refine ⟨order, hlin.nodup, fun {j c} hc hret => ?_, ?_, hlin.realTime.imp fun hnot hpre => ?_⟩
  · obtain ⟨d, hd, hwrapped⟩ := hwraps.exists_inner hc
    exact hlin.returned hd (hwrapped.returned.1 hret)
  · rw [hwraps.fs]
    refine hlin.serial.imp fun {j m m'} hacts => ?_
    obtain ⟨d, a, hd, hanswer, hagrees⟩ := hacts
    obtain ⟨c, hc, hwrapped⟩ := hwraps.exists hd
    rw [hwrapped.job] at hagrees
    refine ⟨c, c.job.reply a, hc, ?_, WorkerRpc.actsOn hagrees fun {request accepts status} hrpc ha => ?_⟩
    · rcases hanswer with hret | ⟨hway, -⟩
      · exact Or.inl (by rw [hwrapped.prog, hret]; rfl)
      · exact Or.inr fun hret => hway (hwrapped.returned.1 hret)
    · subst ha
      exact ⟨download_sent hc hrpc hwrapped, download_status hd (by rw [hwrapped.job, hrpc]; rfl) hanswer⟩
  · exact hnot (Wraps.precedes (WorkerRpc.wraps B root pid) hpre)

/-- The upload, and then a download and a deletion of the chunk at the same time: the chunk is gone when
    the download reads the payload. -/
def overlappingRpcs : List (Choice WorkerRpc) :=
  oneUpload ++ [.start (.getChunk ⟨[0x61], 0, 1⟩ fun _ => true), .start (.deleteChunk [0x61])] ++
    List.replicate 4 (.act 1 .done) ++ .act 2 .done :: List.replicate 3 (.act 1 .done)

theorem overlappingRpcs_jobs {j : ℕ} {c : WorkerProcess}
    (h : (workerAfter Blake3.sample [0x72] 1 255 overlappingRpcs).procs[j]? = some c) :
    (j = 0 ∧ c.job = .putChunk [.metadata (sampleMetadata [0x61]), .data [0x61]] 2) ∨
      (j = 1 ∧ c.job = .getChunk ⟨[0x61], 0, 1⟩ fun _ => true) ∨
      (j = 2 ∧ c.job = .deleteChunk [0x61]) := by
  have hjob : ((workerAfter Blake3.sample [0x72] 1 255 overlappingRpcs).procs.map Process.job)[j]?
      = some c.job := by
    rw [List.getElem?_map, h]
    rfl
  have hjobs : (workerAfter Blake3.sample [0x72] 1 255 overlappingRpcs).procs.map Process.job
      = [.putChunk [.metadata (sampleMetadata [0x61]), .data [0x61]] 2,
        .getChunk ⟨[0x61], 0, 1⟩ fun _ => true, .deleteChunk [0x61]] :=
    System.jobs_after _ _ _
  rw [hjobs] at hjob
  rcases j with _ | _ | _ | j
  · exact Or.inl ⟨rfl, (Option.some.inj hjob).symm⟩
  · exact Or.inr (Or.inl ⟨rfl, (Option.some.inj hjob).symm⟩)
  · exact Or.inr (Or.inr ⟨rfl, (Option.some.inj hjob).symm⟩)
  · simp at hjob

theorem worker_linearizable_overlap :
    ∃ order, WorkerLinearizes Blake3.sample [0x72] 1 255 overlappingRpcs order := by
  refine worker_linearizable Blake3.sample [0x72] 1 255 _ ⟨?_, fun {j c} hc _ => ?_, ?_⟩
  · refine System.admits_of_admitted
      (fun _ rpc op w o => decide (World.NoFailure op w o) && reopenCovers (rpc.invocation 1) op w) ?_
      (by decide +kernel)
    intro j rpc op w o h
    rw [Bool.and_eq_true, decide_eq_true_eq] at h
    exact ⟨h.1, reopenCovers_spec h.2⟩
  · rcases overlappingRpcs_jobs hc with ⟨-, hjob⟩ | ⟨-, hjob⟩ | ⟨-, hjob⟩ <;> rw [hjob] <;> decide +kernel
  · intro n i j c d frames frames' address hc hd _ _ hput hput'
    -- there is only one upload
    have hfirst : ∀ {k : ℕ} {p : WorkerProcess} {frames : List PutChunkFrame},
        (workerMoment Blake3.sample [0x72] 1 255 overlappingRpcs n).procs[k]? = some p →
        p.job = .putChunk frames address → k = 0 := by
      intro k p frames hp hupload
      obtain ⟨q, hq, hjob⟩ := System.Started.last ⟨p, hp, rfl⟩
      rw [← hjob] at hupload
      rcases overlappingRpcs_jobs hq with ⟨rfl, -⟩ | ⟨-, hother⟩ | ⟨-, hother⟩
      · rfl
      · rw [hother] at hupload
        exact absurd hupload (by simp)
      · rw [hother] at hupload
        exact absurd hupload (by simp)
    rw [hfirst hc hput, hfirst hd hput']

end ChunkStorage
