import ChunkStorage.Service

set_option autoImplicit false

/-! # The client

`client/storage_client.cpp` and `client/data_plane_client.cpp`. A call of the client performs system
calls on its own file system and operations of gRPC. What gRPC and the worker behind it reply is a
`Transport`: a state machine that may do anything, until a result assumes something of it.

The loops carry a bound on their rounds, as in `FileChunkStore`. A file descriptor moves forward with
every block it reads, so no file takes more than `offMax` of them, and each frame of a download
makes the destination longer.

The endpoint, the deadline and the channel of an RPC are part of the transport. -/

namespace ChunkStorage

open Effects Posix Program

/-! ## The RPCs -/

/-- What the client calls of gRPC. -/
inductive RpcOp where
  /-- `stub->PutChunk`. -/
  | putChunk
  /-- `writer->Write`. -/
  | write (frame : PutChunkFrame)
  | writesDone
  /-- `context.TryCancel`. -/
  | tryCancel
  /-- `writer->Finish`, which also fills in the response. -/
  | finishPut
  /-- `stub->GetChunk`. -/
  | getChunk (request : RpcGetChunkRequest)
  /-- `reader->Read`, repeated over frames without data: the client does nothing with them. -/
  | read
  /-- `reader->Finish`. -/
  | finishGet
  /-- `stub->HeadChunk`. -/
  | headChunk (chunkId : Bytes)
  /-- `stub->DeleteChunk`. -/
  | deleteChunk (chunkId : Bytes)

/-- The data of a frame that has some. -/
abbrev FrameData := { data : Bytes // data ≠ [] }

abbrev RpcOp.Ret : RpcOp → Type
  | .write _ => Bool
  | .finishPut | .deleteChunk _ => GrpcStatus × OperationResponse
  | .read => Option FrameData
  | .finishGet => GrpcStatus
  | .headChunk _ => GrpcStatus × RpcHeadChunkResponse
  | .putChunk | .writesDone | .tryCancel | .getChunk _ => Unit

abbrev Rpc : Signature := ⟨RpcOp, RpcOp.Ret⟩

/-- What the client performs: system calls and RPCs. -/
abbrev ClientSig : Signature := Sys.sum Rpc

/-- A call of the client, with the state of the transport. -/
abbrev ClientWorld (β : Type) := World Rpc β

/-- How gRPC and the worker behind it answer. -/
abbrev Transport (β : Type) := (op : Rpc.Op) → β → Rpc.Ret op × β

abbrev rpc (op : RpcOp) : Program ClientSig op.Ret :=
  Program.perform (S := ClientSig) (.inr op)

/-! ## `GrpcDataPlaneClient` -/

namespace GrpcDataPlaneClient

def kBufferSize : ℕ := 3 * 1024 * 1024

/-- The first frame of an upload. -/
def metadataFrame (request : PutChunkRequest) : PutChunkFrame :=
  .metadata ⟨request.chunkId.value, request.expectedSize, request.expectedChecksum.value⟩

/-- The send loop of `PutChunk`: the source ended or a frame was refused, or a read failed. -/
def send (fd : ℕ) : ℕ → Program ClientSig (Except Errno Unit)
  | 0 => return .ok ()
  | rounds + 1 => do
      match ← transfer (.read fd kBufferSize) with
      | .error e => return .error e
      | .ok bytes =>
          if bytes.length = 0 then return .ok ()
          if !(← rpc (.write (.data bytes))) then return .ok ()
          send fd rounds

/-- `PutChunk`. The RPCs after a failed read are taken to leave `errno` alone. -/
def putChunk (request : PutChunkRequest) (source : Path) : Program ClientSig Status := do
  match ← sys (.openRead source) with
  | .error e =>
      return .of .kIoError (ascii "open source failed: " ++ ascii (strerror e))
  | .ok fd => do
      let _ ← rpc .putChunk
      if !(← rpc (.write (metadataFrame request))) then
        let _ ← rpc .writesDone
        let reply ← rpc .finishPut
        return fromGrpcStatus reply.1
      match ← send fd (offMax + 1) with
      | .error e => do
          let _ ← rpc .tryCancel
          let _ ← rpc .writesDone
          let _ ← rpc .finishPut
          return .of .kIoError (ascii "read source failed: " ++ ascii (strerror e))
      | .ok () => do
          let _ ← rpc .writesDone
          let reply ← rpc .finishPut
          if !reply.1.ok then return fromGrpcStatus reply.1
          return fromRpcStatus reply.2.status

/-- The receive loop of `GetChunk`, with its `write_status`. -/
def receive (fd : ℕ) : ℕ → Program ClientSig Status
  | 0 => return .Ok
  | rounds + 1 => do
      match ← rpc .read with
      | none => return .Ok
      | some frame =>
          let status ← writeAll fd frame.1
          if !status.ok then
            let _ ← rpc .tryCancel
            return status
          receive fd rounds

/-- The closure `fail` of `GetChunk`. -/
def fail (destination : Path) (status : Status) : Program ClientSig Status := do
  let _ ← sys (.unlink destination)
  return status

def getChunk (request : GetChunkRequest) (destination : Path) : Program ClientSig Status := do
  match ← sys (.openExcl destination) with
  | .error e =>
      return .of (if e = .EEXIST then .kAlreadyExists else .kIoError)
        (ascii "create destination failed: " ++ ascii (strerror e))
  | .ok fd => do
      let _ ← rpc (.getChunk ⟨request.chunkId.value, request.range.offset, request.range.size⟩)
      let writeStatus ← receive fd (offMax + 1)
      let grpcStatus ← rpc .finishGet
      if !writeStatus.ok then return ← fail destination writeStatus
      if !grpcStatus.ok then return ← fail destination (fromGrpcStatus grpcStatus)
      match ← sys (.fdatasync fd) with
      | .error e =>
          fail destination (.of .kIoError
            (ascii "fdatasync destination failed: " ++ ascii (strerror e)))
      | .ok () => return .Ok

/-- What the client makes of the reply to `HeadChunk`. -/
def headReply (reply : GrpcStatus × RpcHeadChunkResponse) : StatusOr HeadChunkResponse :=
  if !reply.1.ok then .ofStatus (fromGrpcStatus reply.1)
  else if !(fromRpcStatus reply.2.status).ok then .ofStatus (fromRpcStatus reply.2.status)
  else .ok ⟨⟨reply.2.chunkId⟩, reply.2.size, ⟨.kBlake3, reply.2.checksum⟩⟩

def headChunk (request : HeadChunkRequest) : Program ClientSig (StatusOr HeadChunkResponse) := do
  return headReply (← rpc (.headChunk request.chunkId.value))

/-- What the client makes of the reply to `DeleteChunk`. -/
def deleteReply (reply : GrpcStatus × OperationResponse) : Status :=
  if reply.1.ok then fromRpcStatus reply.2.status else fromGrpcStatus reply.1

def deleteChunk (request : DeleteChunkRequest) : Program ClientSig Status := do
  return deleteReply (← rpc (.deleteChunk request.chunkId.value))

end GrpcDataPlaneClient

/-! ## `StorageClient` -/

namespace StorageClient

variable (B : Blake3)

def kBufferSize : ℕ := 1024 * 1024

/-- The loop of `HashFile`. -/
def hashLoop (fd : ℕ) : ℕ → B.Hasher → UInt64 → Program ClientSig (StatusOr (B.Hasher × UInt64))
  | 0, hasher, size => return .ok (hasher, size)
  | rounds + 1, hasher, size => do
      match ← transfer (.read fd kBufferSize) with
      | .error e =>
          return .ofStatus (.of .kIoError (ascii "read file failed: " ++ ascii (strerror e)))
      | .ok bytes =>
          if bytes.length = 0 then return .ok (hasher, size)
          hashLoop fd rounds (B.update hasher bytes) (size + UInt64.ofNat bytes.length)

def hashFile (path : Path) : Program ClientSig (StatusOr (UInt64 × Checksum)) := do
  match ← sys (.openRead path) with
  | .error e =>
      return .ofStatus (.of .kIoError (ascii "open file failed: " ++ ascii (strerror e)))
  | .ok fd =>
      match ← hashLoop B fd (offMax + 1) B.init 0 with
      | .error s => return .error s
      | .ok (hasher, size) => return .ok (size, ⟨.kBlake3, finalizeHex B hasher⟩)

def toChunkId (objectId : ObjectId) : StatusOr ChunkId :=
  if !objectId.valid then .ofStatus (.of .kInvalidArgument (ascii "object_id cannot be empty"))
  else .ok ⟨objectId.value⟩

def put (objectId : ObjectId) (source : Path) : Program ClientSig Status := do
  match toChunkId objectId with
  | .error s => return s.1
  | .ok chunkId =>
      match ← hashFile B source with
      | .error s => return s.1
      | .ok (size, checksum) =>
          GrpcDataPlaneClient.putChunk ⟨chunkId, size, checksum⟩ source

/-- The temporary path of `Get`, from the process id and the value of `next_temp_id`. -/
def tempFor (destination : Path) (pid tempId : ℕ) : Path :=
  ⟨destination.dir, destination.name ++ dotTmp ++ decimal pid ++ dot ++ decimal tempId⟩

/-- The rest of `Get` once the temporary file is complete and verified. -/
def commit (temp destination : Path) : Program ClientSig Status := do
  match ← sys (.link temp destination) with
  | .error e => do
      let _ ← sys (.unlink temp)
      return .of (if e = .EEXIST then .kAlreadyExists else .kIoError)
        (ascii "commit destination failed: " ++ ascii (strerror e))
  | .ok () => do
      let _ ← sys (.unlink temp)
      return .Ok

/-- The part of `Get` that downloads to the temporary path, verifies and commits. -/
def fetch (chunkId : ChunkId) (response : HeadChunkResponse) (temp destination : Path) :
    Program ClientSig Status := do
  let status ← GrpcDataPlaneClient.getChunk ⟨chunkId, ⟨0, response.size⟩⟩ temp
  if !status.ok then
    let _ ← sys (.unlink temp)
    return status
  match ← hashFile B temp with
  | .error s => do
      let _ ← sys (.unlink temp)
      return s.1
  | .ok (size, checksum) =>
      if size ≠ response.size ∨ checksum ≠ response.checksum then
        let _ ← sys (.unlink temp)
        return .of .kCorruption (ascii "download checksum mismatch")
      commit temp destination

/-- `Get`. An error stands for the exception that `std::filesystem::exists` throws. -/
def get (objectId : ObjectId) (destination : Path) (pid tempId : ℕ) :
    Program ClientSig (Except Errno Status) := do
  match toChunkId objectId with
  | .error s => return .ok s.1
  | .ok chunkId =>
      match ← sys (.exists destination) with
      | .error e => return .error e
      | .ok true =>
          return .ok (.of .kAlreadyExists
            (ascii "destination already exists: " ++ pathString destination))
      | .ok false =>
          match ← GrpcDataPlaneClient.headChunk ⟨chunkId⟩ with
          | .error s => return .ok s.1
          | .ok response =>
              let temp := tempFor destination pid tempId
              match ← sys (.exists temp) with
              | .error e => return .error e
              | .ok true =>
                  return .ok (.of .kAlreadyExists
                    (ascii "temporary destination already exists: " ++ pathString temp))
              | .ok false => return .ok (← fetch B chunkId response temp destination)

def head (objectId : ObjectId) : Program ClientSig (StatusOr HeadChunkResponse) := do
  match toChunkId objectId with
  | .error s => return .error s
  | .ok chunkId => GrpcDataPlaneClient.headChunk ⟨chunkId⟩

def delete (objectId : ObjectId) : Program ClientSig Status := do
  match toChunkId objectId with
  | .error s => return s.1
  | .ok chunkId => GrpcDataPlaneClient.deleteChunk ⟨chunkId⟩

end StorageClient

/-! ## The reply to `HeadChunk` -/

/-- What the handler of the worker makes of the answer of the store. -/
def headChunkReply : StatusOr HeadChunkResponse → GrpcStatus × RpcHeadChunkResponse
  | .error s => (.Ok, { RpcHeadChunkResponse.unset with status := setStatus s.1 })
  | .ok value =>
      (.Ok, ⟨setStatus .Ok, value.chunkId.value, value.size, value.checksum.value⟩)

/-- `WorkerService::HeadChunk` asks the store once, and replies what it answers. -/
theorem headChunk_eq {S : Signature} (store : ChunkStore S) {id : Bytes}
    (hid : (⟨id⟩ : ChunkId).valid = true) :
    WorkerService.headChunk (some store) id = (return headChunkReply (← store.head ⟨id⟩)) := by
  unfold WorkerService.headChunk DataPlaneService.headChunk
  simp only [hid, Bool.not_true, Bool.false_eq_true, if_false]
  refine congrArg (store.head ⟨id⟩ >>= ·) (funext fun r => ?_)
  cases r with
  | error s => rfl
  | ok value => rfl

/-- The client reads the answer of the store out of the reply. -/
theorem headReply_ok (value : HeadChunkResponse) :
    GrpcDataPlaneClient.headReply (headChunkReply (.ok value)) = .ok value := by
  obtain ⟨chunkId, size, ⟨⟨⟩, checksum⟩⟩ := value
  rfl

theorem headReply_error (s : ErrorStatus) :
    ∃ s' : ErrorStatus, GrpcDataPlaneClient.headReply (headChunkReply (.error s)) = .error s' ∧
      s'.1.code = s.1.code := by
  have hcode := fromRpcStatus_setStatus s.1
  have hno : (fromRpcStatus (setStatus s.1)).ok = false := by
    rw [Status.ok, hcode, ← Status.ok]
    exact s.2
  refine ⟨normalizeError (fromRpcStatus (setStatus s.1)), ?_, ?_⟩
  · simp [GrpcDataPlaneClient.headReply, headChunkReply, hno, StatusOr.ofStatus]
  · rw [StatusOr.normalizeError_of_not_ok hno]
    exact hcode

end ChunkStorage
