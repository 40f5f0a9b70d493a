import ChunkStorage.Types

set_option autoImplicit false

/-! # Messages and status codes of the worker's RPC interface

`proto/common.proto`, `proto/worker.proto`, and the code tables on the two sides of the wire
(`rpc/services.cpp` and `client/data_plane_client.cpp`). A status travels on one of two channels:
as a field of the response (`Put`, `Head`, `Delete`) or as the status of the RPC itself (`Get`).
`fromRpcStatus_setStatus` and `fromGrpcStatus_toGrpcStatus` say that neither channel loses a
code. -/

namespace ChunkStorage

open Posix

/-! ## Messages -/

/-- `rpc::StatusCode`. The enumeration is open: a field may hold a number that has no name. -/
inductive RpcStatusCode where
  | STATUS_CODE_OK
  | STATUS_CODE_INVALID_ARGUMENT
  | STATUS_CODE_NOT_FOUND
  | STATUS_CODE_ALREADY_EXISTS
  | STATUS_CODE_UNAVAILABLE
  | STATUS_CODE_TIMEOUT
  | STATUS_CODE_IO_ERROR
  | STATUS_CODE_CORRUPTION
  | STATUS_CODE_RESOURCE_EXHAUSTED
  | STATUS_CODE_INTERNAL
  | other (n : ℤ)
  deriving DecidableEq

/-- `rpc::Status`. -/
structure RpcStatus where
  code : RpcStatusCode
  message : Bytes

/-- A message whose fields were never set. -/
def RpcStatus.unset : RpcStatus := ⟨.STATUS_CODE_OK, []⟩

structure PutChunkMetadata where
  chunkId : Bytes
  expectedSize : UInt64
  expectedChecksum : Bytes

/-- `rpc::PutChunkFrame`, by what its `oneof` holds. -/
inductive PutChunkFrame where
  | metadata (metadata : PutChunkMetadata)
  | data (data : Bytes)
  | unset

/-- `rpc::GetChunkRequest`. -/
structure RpcGetChunkRequest where
  chunkId : Bytes
  offset : UInt64
  size : UInt64

/-- `rpc::HeadChunkResponse`. -/
structure RpcHeadChunkResponse where
  status : RpcStatus
  chunkId : Bytes
  size : UInt64
  checksum : Bytes

def RpcHeadChunkResponse.unset : RpcHeadChunkResponse := ⟨.unset, [], 0, []⟩

structure OperationResponse where
  status : RpcStatus

def OperationResponse.unset : OperationResponse := ⟨.unset⟩

/-! ## The status of an RPC -/

/-- `grpc::StatusCode`. -/
inductive GrpcStatusCode where
  | OK
  | CANCELLED
  | UNKNOWN
  | INVALID_ARGUMENT
  | DEADLINE_EXCEEDED
  | NOT_FOUND
  | ALREADY_EXISTS
  | PERMISSION_DENIED
  | RESOURCE_EXHAUSTED
  | FAILED_PRECONDITION
  | ABORTED
  | OUT_OF_RANGE
  | UNIMPLEMENTED
  | INTERNAL
  | UNAVAILABLE
  | DATA_LOSS
  | UNAUTHENTICATED
  deriving DecidableEq

/-- `grpc::Status`. -/
structure GrpcStatus where
  code : GrpcStatusCode
  message : Bytes

namespace GrpcStatus

/-- `grpc::Status::OK`. -/
def Ok : GrpcStatus := ⟨.OK, []⟩

def ok (status : GrpcStatus) : Bool := status.code = .OK

@[simp] theorem ok_Ok : Ok.ok = true := rfl

end GrpcStatus

/-! ## The worker's tables -/

def toRpcStatusCode : StatusCode → RpcStatusCode
  | .kOk => .STATUS_CODE_OK
  | .kInvalidArgument => .STATUS_CODE_INVALID_ARGUMENT
  | .kNotFound => .STATUS_CODE_NOT_FOUND
  | .kAlreadyExists => .STATUS_CODE_ALREADY_EXISTS
  | .kUnavailable => .STATUS_CODE_UNAVAILABLE
  | .kTimeout => .STATUS_CODE_TIMEOUT
  | .kIoError => .STATUS_CODE_IO_ERROR
  | .kCorruption => .STATUS_CODE_CORRUPTION
  | .kResourceExhausted => .STATUS_CODE_RESOURCE_EXHAUSTED
  | .kInternal => .STATUS_CODE_INTERNAL

/-- `SetStatus`: the field the worker fills in. -/
def setStatus (status : Status) : RpcStatus := ⟨toRpcStatusCode status.code, status.message⟩

def toGrpcStatus (status : Status) : GrpcStatus :=
  match status.code with
  | .kOk => .Ok
  | .kInvalidArgument => ⟨.INVALID_ARGUMENT, status.message⟩
  | .kNotFound => ⟨.NOT_FOUND, status.message⟩
  | .kAlreadyExists => ⟨.ALREADY_EXISTS, status.message⟩
  | .kUnavailable => ⟨.UNAVAILABLE, status.message⟩
  | .kTimeout => ⟨.DEADLINE_EXCEEDED, status.message⟩
  | .kResourceExhausted => ⟨.RESOURCE_EXHAUSTED, status.message⟩
  | .kCorruption => ⟨.DATA_LOSS, status.message⟩
  | .kIoError => ⟨.UNKNOWN, status.message⟩
  | .kInternal => ⟨.INTERNAL, status.message⟩

/-! ## The client's tables -/

def fromRpcCode : RpcStatusCode → StatusCode
  | .STATUS_CODE_OK => .kOk
  | .STATUS_CODE_INVALID_ARGUMENT => .kInvalidArgument
  | .STATUS_CODE_NOT_FOUND => .kNotFound
  | .STATUS_CODE_ALREADY_EXISTS => .kAlreadyExists
  | .STATUS_CODE_UNAVAILABLE => .kUnavailable
  | .STATUS_CODE_TIMEOUT => .kTimeout
  | .STATUS_CODE_IO_ERROR => .kIoError
  | .STATUS_CODE_CORRUPTION => .kCorruption
  | .STATUS_CODE_RESOURCE_EXHAUSTED => .kResourceExhausted
  | .STATUS_CODE_INTERNAL => .kInternal
  | .other _ => .kInternal

def fromRpcStatus (status : RpcStatus) : Status :=
  if status.code = .STATUS_CODE_OK then .Ok else .of (fromRpcCode status.code) status.message

/-- The table of `FromGrpcStatus` for a status that is not OK. -/
def fromGrpcCode : GrpcStatusCode → StatusCode
  | .INVALID_ARGUMENT => .kInvalidArgument
  | .NOT_FOUND => .kNotFound
  | .ALREADY_EXISTS => .kAlreadyExists
  | .DEADLINE_EXCEEDED => .kTimeout
  | .RESOURCE_EXHAUSTED => .kResourceExhausted
  | .DATA_LOSS => .kCorruption
  | .UNKNOWN => .kIoError
  | .INTERNAL => .kInternal
  | _ => .kUnavailable

def fromGrpcStatus (status : GrpcStatus) : Status :=
  if status.ok then .Ok else .of (fromGrpcCode status.code) status.message

/-! ## What survives the way back -/

/-- An error code is never read as a success. -/
theorem fromRpcCode_eq_ok (code : RpcStatusCode) :
    fromRpcCode code = .kOk ↔ code = .STATUS_CODE_OK := by
  cases code <;> simp [fromRpcCode]

theorem fromGrpcCode_ne_ok (code : GrpcStatusCode) : fromGrpcCode code ≠ .kOk := by
  cases code <;> simp [fromGrpcCode]

theorem fromRpcStatus_code (status : RpcStatus) :
    (fromRpcStatus status).code = fromRpcCode status.code := by
  unfold fromRpcStatus
  split
  · next h => rw [h]; rfl
  · rfl

theorem fromRpcStatus_ok (status : RpcStatus) :
    (fromRpcStatus status).ok = true ↔ status.code = .STATUS_CODE_OK := by
  rw [Status.ok_iff, fromRpcStatus_code, fromRpcCode_eq_ok]

theorem fromGrpcStatus_ok (status : GrpcStatus) : (fromGrpcStatus status).ok = status.ok := by
  unfold fromGrpcStatus
  split
  · next h => simp [h]
  · next h =>
      have hno : status.ok = false := by simpa using h
      simp [hno, fromGrpcCode_ne_ok]

theorem fromRpcCode_toRpcStatusCode (code : StatusCode) :
    fromRpcCode (toRpcStatusCode code) = code := by
  cases code <;> rfl

/-- **The response field keeps every code.** -/
theorem fromRpcStatus_setStatus (status : Status) :
    (fromRpcStatus (setStatus status)).code = status.code := by
  rw [fromRpcStatus_code, setStatus, fromRpcCode_toRpcStatusCode]

/-- **The status of the RPC keeps every code.** -/
theorem fromGrpcStatus_toGrpcStatus (status : Status) :
    (fromGrpcStatus (toGrpcStatus status)).code = status.code := by
  obtain ⟨code, message, hmessage⟩ := status
  cases code <;> rfl

theorem toGrpcStatus_ok (status : Status) : (toGrpcStatus status).ok = status.ok := by
  rw [← fromGrpcStatus_ok, Status.ok, fromGrpcStatus_toGrpcStatus, Status.ok]

end ChunkStorage
