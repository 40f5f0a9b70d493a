import ChunkStorage.Streams

set_option autoImplicit false

/-! # `FileChunkStore`

`worker/file_chunk_store.cpp`. Each function is the program of the system calls and stream calls
the source makes, in the source's order. The loops carry a bound on their rounds: every round of
`WriteAll`, `ReadHeader` and `Get` moves at least one byte, and every round of the receive loop
of `Put` but the last does.

Closing a descriptor has no effect on files, so the destructor of `UniqueFd` does not appear. -/

namespace ChunkStorage

open Effects Posix Program

/-- `{'S', 'T', 'C', 'H', 'V', '1', '\0', '\0'}`. -/
def kMagic : Bytes := [0x53, 0x54, 0x43, 0x48, 0x56, 0x31, 0x00, 0x00]

def kChecksumLength : ℕ := 64

/-- The magic, a 64-bit size and the checksum. -/
def kHeaderSize : ℕ := kMagic.length + 8 + kChecksumLength

def kBufferSize : ℕ := 3 * 1024 * 1024

/-- `path.string()`. -/
def pathString (path : Path) : Bytes := path.dir ++ ascii "/" ++ path.name

/-- `IoError(operation, path)` with the `errno` it reads. -/
def ioError (operation : String) (path : Bytes) (errno : Errno) : Status :=
  .of .kIoError (ascii operation ++ ascii " " ++ path ++ ascii ": " ++ ascii (strerror errno))

/-- The loop of `WriteAll` over what is not yet written. -/
def writeAllLoop {B : Signature} (fd : ℕ) : ℕ → Bytes → Program (Sys.sum B) Status
  | 0, _ => return .Ok
  | rounds + 1, data => do
      if data.isEmpty then return .Ok
      match ← transfer (.write fd data) with
      | .wrote n => writeAllLoop fd rounds (data.drop n)
      | .nothing e | .failed e =>
          return .of .kIoError (ascii "write failed: " ++ ascii (strerror e))

/-- `WriteAll`. The client has a copy of it (`data_plane_client.cpp`). -/
def writeAll {B : Signature} (fd : ℕ) (data : Bytes) : Program (Sys.sum B) Status :=
  writeAllLoop fd data.length data

/-- `PreadSome`, with the bytes it puts into the buffer. -/
def preadSome (fd count : ℕ) (offset : UInt64) : Program StoreSig (StatusOr Bytes) := do
  if offset.toNat > offMax then
    return .ofStatus (.of .kInvalidArgument (ascii "file offset exceeds platform limit"))
  match ← transfer (.pread fd count offset.toNat) with
  | .error e => return .ofStatus (.of .kIoError (ascii "pread failed: " ++ ascii (strerror e)))
  | .ok bytes => return .ok bytes

def makeHeader (size : UInt64) (checksum : Checksum) : Bytes :=
  kMagic ++ leEncode size ++ checksum.value.take kChecksumLength

/-- The loop of `ReadHeader` that fills the header, with what is `read` so far. -/
def readHeaderLoop (fd : ℕ) : ℕ → Bytes → Program StoreSig (StatusOr Bytes)
  | 0, read => return .ok read
  | rounds + 1, read => do
      if read.length < kHeaderSize then
        match ← preadSome fd (kHeaderSize - read.length) (UInt64.ofNat read.length) with
        | .error s => return .error s
        | .ok bytes =>
            if bytes.length = 0 then
              return .ofStatus (.of .kCorruption (ascii "truncated chunk header"))
            readHeaderLoop fd rounds (read ++ bytes)
      else return .ok read

/-- The checks of `ReadHeader` on the bytes of the header and the length of the file. -/
def readHeader (fd : ℕ) (chunkId : ChunkId) : Program StoreSig (StatusOr HeadChunkResponse) := do
  match ← readHeaderLoop fd kHeaderSize [] with
  | .error s => return .error s
  | .ok header =>
      if header.take kMagic.length ≠ kMagic then
        return .ofStatus (.of .kCorruption (ascii "invalid chunk file magic"))
      let size := leDecode ((header.drop kMagic.length).take 8)
      let checksum : Checksum :=
        ⟨.kBlake3, (header.drop (kMagic.length + 8)).take kChecksumLength⟩
      if !(validateChecksum checksum).ok then
        return .ofStatus (.of .kCorruption (ascii "invalid persisted checksum"))
      match ← sys (.fstat fd) with
      | .error e => return .ofStatus (.of .kIoError (ascii "fstat failed: " ++ ascii (strerror e)))
      | .ok stSize =>
          -- `st_size` is never negative: it is the length of a file
          if size > UInt64.ofNat (2 ^ 64 - 1) - UInt64.ofNat kHeaderSize ∨
              UInt64.ofNat stSize ≠ size + UInt64.ofNat kHeaderSize then
            return .ofStatus (.of .kCorruption (ascii "chunk file size does not match header"))
          return .ok ⟨chunkId, size, checksum⟩

/-- `FinalizeHex`. -/
def finalizeHex (B : Blake3) (hasher : B.Hasher) : Bytes := hexEncode (B.finalize hasher)

def validateId (chunkId : ChunkId) : Status :=
  if !chunkId.valid then .of .kInvalidArgument (ascii "chunk_id cannot be empty")
  else if chunkId.value.length > 1024 then .of .kInvalidArgument (ascii "chunk_id is too long")
  else .Ok

/-- `".chunk"`. -/
def dotChunk : Bytes := [0x2e, 0x63, 0x68, 0x75, 0x6e, 0x6b]

/-- `".tmp."`. -/
def dotTmp : Bytes := [0x2e, 0x74, 0x6d, 0x70, 0x2e]

/-- `"."`. -/
def dot : Bytes := [0x2e]

section Store

variable (B : Blake3) (root : Bytes)

/-- `PathFor`. -/
def pathFor (chunkId : ChunkId) : Path := ⟨root, hexEncode chunkId.value ++ dotChunk⟩

/-- The temporary path of `Put`, from the process id and the address of the input stream. -/
def tempPath (chunkId : ChunkId) (pid address : ℕ) : Path :=
  ⟨root, (pathFor root chunkId).name ++ dotTmp ++ decimal pid ++ dot ++ decimal address⟩

/-- The receive loop of `Put`: the hasher and the count at the end of the stream, or the status to
    return after the cleanup. -/
def receive (request : PutChunkRequest) (fd : ℕ) :
    ℕ → B.Hasher → UInt64 → Program StoreSig (Except Status (B.Hasher × UInt64))
  | 0, hasher, received => return .ok (hasher, received)
  | rounds + 1, hasher, received => do
      match ← inputRead kBufferSize with
      | .error s => return .error s.1
      | .ok bytes =>
          if bytes.length = 0 then return .ok (hasher, received)
          if bytes.length > kBufferSize ∨ received > request.expectedSize ∨
              UInt64.ofNat bytes.length > request.expectedSize - received then
            return .error (.of .kCorruption (ascii "received more bytes than expected"))
          let hasher := B.update hasher bytes
          let status ← writeAll fd bytes
          if !status.ok then return .error status
          receive request fd rounds hasher (received + UInt64.ofNat bytes.length)

/-- The rest of `Put` once the temporary file is synced: link it, unlink the temporary name and
    sync the directory. -/
def commit (request : PutChunkRequest) (temp : Path) : Program StoreSig Status := do
  let finalPath := pathFor root request.chunkId
  match ← sys (.link temp finalPath) with
  | .error e => do
      let _ ← sys (.unlink temp)
      if e = .EEXIST then
        return .of .kAlreadyExists (ascii "chunk already exists: " ++ request.chunkId.value)
      return ioError "commit" (pathString finalPath) e
  | .ok () => do
      let _ ← sys (.unlink temp)
      match ← sys (.openDirectory root) with
      | .error e => return ioError "fsync directory" root e
      | .ok () =>
          match ← sys (.fsync root) with
          | .error e => return ioError "fsync directory" root e
          | .ok () => return .Ok

/-- The part of `Put` that fills the temporary file: the header, the payload, the two checks and
    the sync. An error is returned before the cleanup. -/
def fill (request : PutChunkRequest) (temp : Path) (fd : ℕ) :
    Program StoreSig (Except Status Unit) := do
  let status ← writeAll fd (makeHeader request.expectedSize request.expectedChecksum)
  if !status.ok then return .error status
  match ← receive B request fd (request.expectedSize.toNat + 1) B.init 0 with
  | .error status => return .error status
  | .ok (hasher, received) =>
      if received ≠ request.expectedSize then
        return .error (.of .kCorruption
          (ascii "received byte count does not match expected_size"))
      if finalizeHex B hasher ≠ request.expectedChecksum.value then
        return .error (.of .kCorruption (ascii "BLAKE3 checksum mismatch"))
      match ← sys (.fdatasync fd) with
      | .error e => return .error (ioError "fdatasync" (pathString temp) e)
      | .ok () => return .ok ()

def put (request : PutChunkRequest) (pid address : ℕ) : Program StoreSig Status := do
  let status := validateId request.chunkId
  if !status.ok then return status
  let status := validateChecksum request.expectedChecksum
  if !status.ok then return status
  match ← sys (.createDirectories root) with
  | .error e =>
      return .of .kIoError (ascii "create storage root failed: " ++ ascii (strerror e))
  | .ok () =>
      let temp := tempPath root request.chunkId pid address
      match ← sys (.openExcl temp) with
      | .error e =>
          return if e = .EEXIST then .of .kUnavailable (ascii "temporary file collision")
            else ioError "create" (pathString temp) e
      | .ok fd =>
          match ← fill B request temp fd with
          | .error status => do
              let _ ← sys (.unlink temp)
              return status
          | .ok () => commit root request temp

/-- The reply to a failed `open` of a chunk file. -/
def openError (chunkId : ChunkId) (errno : Errno) : Status :=
  if errno = .ENOENT then .of .kNotFound (ascii "chunk not found: " ++ chunkId.value)
  else ioError "open" (pathString (pathFor root chunkId)) errno

def head (chunkId : ChunkId) : Program StoreSig (StatusOr HeadChunkResponse) := do
  let status := validateId chunkId
  if !status.ok then return .ofStatus status
  match ← sys (.openRead (pathFor root chunkId)) with
  | .error e => return .ofStatus (openError root chunkId e)
  | .ok fd => readHeader fd chunkId

/-- The loop of `Get` over the descriptor of its second `open`. -/
def getLoop (fd : ℕ) : ℕ → UInt64 → UInt64 → Program StoreSig Status
  | 0, _, _ => return .Ok
  | rounds + 1, remaining, offset => do
      if remaining > 0 then
        let wanted := min remaining.toNat kBufferSize
        match ← preadSome fd wanted offset with
        | .error s => return s.1
        | .ok bytes =>
            if bytes.length = 0 then
              return .of .kCorruption (ascii "unexpected EOF while reading chunk")
            let status ← outputWrite bytes
            if !status.ok then return status
            getLoop fd rounds (remaining - UInt64.ofNat bytes.length)
              (offset + UInt64.ofNat bytes.length)
      else return .Ok

def get (request : GetChunkRequest) : Program StoreSig Status := do
  match ← head root request.chunkId with
  | .error s => return s.1
  | .ok response =>
      let status := validateByteRange request.range response.size
      if !status.ok then return status
      match ← sys (.openRead (pathFor root request.chunkId)) with
      | .error e => return openError root request.chunkId e
      | .ok fd =>
          getLoop fd request.range.size.toNat request.range.size
            (request.range.offset + UInt64.ofNat kHeaderSize)

def delete (chunkId : ChunkId) : Program StoreSig Status := do
  let status := validateId chunkId
  if !status.ok then return status
  match ← sys (.unlink (pathFor root chunkId)) with
  | .error e =>
      return if e = .ENOENT then .of .kNotFound (ascii "chunk not found: " ++ chunkId.value)
        else ioError "delete" (pathString (pathFor root chunkId)) e
  | .ok () => return .Ok

def size (chunkId : ChunkId) : Program StoreSig (StatusOr UInt64) := do
  match ← head root chunkId with
  | .ok response => return .ok response.size
  | .error s => return .error s

def existsChunk (chunkId : ChunkId) : Program StoreSig Bool := do
  return (← head root chunkId).isOk

end Store

end ChunkStorage
