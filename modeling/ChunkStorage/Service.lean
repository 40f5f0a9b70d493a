import ChunkStorage.FileChunkStore
import ChunkStorage.Rpc

set_option autoImplicit false

/-! # `DataPlaneService` and `WorkerService`

`worker/chunk_store.h`, `worker/data_plane_service.cpp` and the data plane part of
`rpc/services.cpp`. The services are written against the interface `ChunkStore`, so here they are
generic in the operations of the store behind them; `fileChunkStore` is the store the worker runs.

The handler of `PutChunk` reads its first frame itself and leaves the others to `RpcInputStream`.
A finished stream and a broken one look the same to it: `Read` returns false. -/

namespace ChunkStorage

open Effects Posix Program

/-- The methods of `ChunkStore` that the data plane calls, for a store that performs the operations
    `S`. -/
structure ChunkStore (S : Signature) where
  put : PutChunkRequest → Program S Status
  get : GetChunkRequest → Program S Status
  head : ChunkId → Program S (StatusOr HeadChunkResponse)
  delete : ChunkId → Program S Status

/-- The store of the worker. Its process and the address of the stream go into temporary names. -/
def fileChunkStore (B : Blake3) (root : Bytes) (pid address : ℕ) : ChunkStore StoreSig where
  put request := put B root request pid address
  get := get root
  head := head root
  delete := delete root

section Services

variable {S : Signature}

/-! ## `DataPlaneService` -/

namespace DataPlaneService

def putChunk (store : ChunkStore S) (request : PutChunkRequest) : Program S Status := do
  if !request.chunkId.valid then
    return .of .kInvalidArgument (ascii "chunk_id cannot be empty")
  let status := validateChecksum request.expectedChecksum
  if !status.ok then return status
  store.put request

def getChunk (store : ChunkStore S) (request : GetChunkRequest) : Program S Status := do
  if !request.chunkId.valid then
    return .of .kInvalidArgument (ascii "chunk_id cannot be empty")
  store.get request

def headChunk (store : ChunkStore S) (request : HeadChunkRequest) :
    Program S (StatusOr HeadChunkResponse) := do
  if !request.chunkId.valid then
    return .ofStatus (.of .kInvalidArgument (ascii "chunk_id cannot be empty"))
  store.head request.chunkId

def deleteChunk (store : ChunkStore S) (request : DeleteChunkRequest) : Program S Status := do
  if !request.chunkId.valid then
    return .of .kInvalidArgument (ascii "chunk_id cannot be empty")
  store.delete request.chunkId

end DataPlaneService

/-- The checks of `DataPlaneService` come before the call of the store. -/
theorem dataPlanePut_cases (store : ChunkStore S) (request : PutChunkRequest) :
    (∃ status, DataPlaneService.putChunk store request = .ret status) ∨
      DataPlaneService.putChunk store request = store.put request := by
  unfold DataPlaneService.putChunk
  by_cases hid : request.chunkId.valid = true
  · by_cases hsum : (validateChecksum request.expectedChecksum).ok = true
    · simp [hid, hsum]
    · have hno : (validateChecksum request.expectedChecksum).ok = false := by simpa using hsum
      exact Or.inl ⟨validateChecksum request.expectedChecksum, by simp [hid, hno]⟩
  · have hno : request.chunkId.valid = false := by simpa using hid
    exact Or.inl ⟨.of .kInvalidArgument (ascii "chunk_id cannot be empty"), by simp [hno]⟩

/-! ## `WorkerService` -/

/-- The reply of a handler whose `data_plane_` is null. -/
def notConfigured : GrpcStatus :=
  ⟨.FAILED_PRECONDITION, ascii "data plane is not configured"⟩

/-- The request the metadata of a `Put` announces. -/
def PutChunkMetadata.request (metadata : PutChunkMetadata) : PutChunkRequest :=
  ⟨⟨metadata.chunkId⟩, metadata.expectedSize, ⟨.kBlake3, metadata.expectedChecksum⟩⟩

namespace WorkerService

/-- `PutChunk`, where `first` is what the first `Read` of the handler gave. -/
def putChunk (dataPlane : Option (ChunkStore S)) (first : Option PutChunkFrame) :
    Program S (GrpcStatus × OperationResponse) := do
  match dataPlane with
  | none => return (notConfigured, .unset)
  | some store =>
      match first with
      | some (.metadata metadata) =>
          let status ← DataPlaneService.putChunk store metadata.request
          return (.Ok, ⟨setStatus status⟩)
      | _ =>
          return (⟨.INVALID_ARGUMENT, ascii "first put frame must contain metadata"⟩, .unset)

def getChunk (dataPlane : Option (ChunkStore S)) (request : RpcGetChunkRequest) :
    Program S GrpcStatus := do
  match dataPlane with
  | none => return notConfigured
  | some store =>
      let status ← DataPlaneService.getChunk store
        ⟨⟨request.chunkId⟩, ⟨request.offset, request.size⟩⟩
      return toGrpcStatus status

def headChunk (dataPlane : Option (ChunkStore S)) (chunkId : Bytes) :
    Program S (GrpcStatus × RpcHeadChunkResponse) := do
  match dataPlane with
  | none => return (notConfigured, .unset)
  | some store =>
      match ← DataPlaneService.headChunk store ⟨⟨chunkId⟩⟩ with
      | .error s => return (.Ok, { RpcHeadChunkResponse.unset with status := setStatus s.1 })
      | .ok value =>
          return (.Ok, ⟨setStatus .Ok, value.chunkId.value, value.size, value.checksum.value⟩)

def deleteChunk (dataPlane : Option (ChunkStore S)) (chunkId : Bytes) :
    Program S (GrpcStatus × OperationResponse) := do
  match dataPlane with
  | none => return (notConfigured, .unset)
  | some store =>
      let status ← DataPlaneService.deleteChunk store ⟨⟨chunkId⟩⟩
      return (.Ok, ⟨setStatus status⟩)

end WorkerService

end Services

/-! ## The streams of the handlers -/

/-- The state of an `RpcInputStream` with the frames that its reader has not read. -/
structure RpcInputStream where
  reader : List PutChunkFrame
  data : Bytes
  offset : ℕ
  /-- Ghost: the reader has reported the end of the stream. -/
  ended : Bool
  offset_le : offset ≤ data.length

namespace RpcInputStream

/-- The stream over the frames that follow the first one. -/
def ofFrames (frames : List PutChunkFrame) : RpcInputStream := ⟨frames, [], 0, false, le_rfl⟩

/-- The end of `Read`: copy from `data_` what fits the buffer. -/
def copy (s : RpcInputStream) (size : ℕ) : StatusOr Bytes × RpcInputStream :=
  let count := min size (s.data.length - s.offset)
  (.ok ((s.data.drop s.offset).take count),
    { s with
      offset := s.offset + count
      offset_le := by have := s.offset_le; omega })

/-- `RpcInputStream::Read`. -/
def read : ChunkInputStream RpcInputStream := fun s size =>
  if size = 0 then
    (.ofStatus (.of .kInvalidArgument (ascii "input buffer cannot be empty")), s)
  else if s.offset = s.data.length then
    match s.reader with
    | [] => (.ok [], { s with ended := true })
    | .data data :: reader =>
        let s : RpcInputStream := ⟨reader, data, 0, s.ended, Nat.zero_le _⟩
        if data.isEmpty then (.ofStatus (.of .kInvalidArgument (ascii "empty data frame")), s)
        else s.copy size
    | _ :: reader =>
        (.ofStatus (.of .kInvalidArgument (ascii "metadata must be the first frame only")),
          { s with reader := reader })
  else s.copy size

end RpcInputStream

/-- The state of an `RpcOutputStream`: the frames written, and which of them the RPC takes. -/
structure RpcOutputStream where
  sent : List Bytes
  accepts : ℕ → Bool

namespace RpcOutputStream

/-- `RpcOutputStream::Write`. -/
def write : ChunkOutputStream RpcOutputStream := fun s data =>
  if s.accepts s.sent.length then (.Ok, { s with sent := s.sent ++ [data] })
  else (.of .kUnavailable (ascii "client closed get stream"), s)

end RpcOutputStream

end ChunkStorage
