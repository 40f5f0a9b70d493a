import ChunkStorage.Worker

set_option autoImplicit false

/-! # What replies say when system calls fail

`worker_linearizable` is about runs in which nothing fails. Here anything may fail, and a reply still says
what its RPC did: every change of the visible chunks is one step of one upload or deletion under way, no
RPC makes two of them, one that was answered with OK has made it, and one that was answered with an error
other than `kIoError` has made none. After a `kIoError` the client cannot know. -/

namespace ChunkStorage

open Effects Posix Program

/-! ## The calls of the store -/

section Store

variable {σ τ : Type} {B : Blake3} {root : Bytes} {nameMax : ℕ}
  {choices : List (Choice (Invocation σ τ))} {n j : ℕ} {c : StoreProcess σ τ}

/-- A step that changes the map leaves another one. -/
theorem WritesAt.changes (h : WritesAt B root nameMax choices n j) :
    shown root (storeMoment B root nameMax choices (n + 1)).fs
      ≠ shown root (storeMoment B root nameMax choices n).fs := by
  obtain ⟨c, -, hstep⟩ := h.mapStep
  generalize shown root (storeMoment B root nameMax choices (n + 1)).fs = m' at hstep ⊢
  cases hstep with
  | @put request _ _ p _ _ _ hnone =>
      intro hsame
      have hhere := congrFun hsame request.chunkId
      rw [Function.update_self, hnone] at hhere
      exact absurd hhere (by simp)
  | @delete chunkId p _ _ hsome =>
      intro hsame
      have hhere := congrFun hsame chunkId
      rw [Function.update_self, hsome] at hhere
      exact absurd hhere (by simp)

theorem exists_writesAt (h : shown root (storeMoment B root nameMax choices (n + 1)).fs
      ≠ shown root (storeMoment B root nameMax choices n).fs) :
    ∃ j, WritesAt B root nameMax choices n j := by
  by_contra hno
  exact h (shown_still (not_exists.1 hno))

/-- A `Put` that has returned: OK if it has committed, `kIoError` perhaps, and anything else if not. -/
theorem put_replies (hc : (storeAfter B root nameMax choices).procs[j]? = some c)
    {request : PutChunkRequest} {pid address : ℕ} (hput : c.job.call = .put request pid address)
    {a : Answer} (hret : c.prog = .ret a) :
    (∀ status, a = .status status → status.ok = true → ∃ n, WritesAt B root nameMax choices n j) ∧
      (WritesAt B root nameMax choices n j → request.Valid ∧
        ∃ status, a = .status status ∧ (status = .Ok ∨ status.code = .kIoError)) := by
  refine ⟨fun status ha hok => ?_, fun hwrites => ⟨?_, ?_⟩⟩
  · rw [ha] at hret
    exact writesAt_of_stored hc hput hret hok
  · have hstep := hwrites.mapStep_of hc
    generalize shown root (storeMoment B root nameMax choices (n + 1)).fs = m' at hstep
    cases hstep with
    | put hcall hvalid _ _ =>
        obtain ⟨rfl, -, -⟩ := Call.put.inj (hcall.symm.trans hput)
        exact hvalid
    | delete hcall _ _ => exact absurd (hcall.symm.trans hput) (by simp)
  · obtain ⟨e, he, heffects⟩ := hwrites.mem_trace hc
    rw [effects, hput] at heffects
    have htrace := traceOf_after hc
    simp only [TraceOf, hput] at htrace
    rcases htrace.2 with hzero | ⟨-, hone⟩
    · exact absurd (linked_of_linksTo heffects) (List.countP_eq_zero.1 hzero.2 e he)
    · exact hone a hret

/-- A `Delete` that has returned has removed the chunk if it says OK, and nothing otherwise. -/
theorem delete_replies (hc : (storeAfter B root nameMax choices).procs[j]? = some c)
    {chunkId : ChunkId} (hdelete : c.job.call = .delete chunkId) {a : Answer} (hret : c.prog = .ret a) :
    (∀ status, a = .status status → status.ok = true → ∃ n, WritesAt B root nameMax choices n j) ∧
      (WritesAt B root nameMax choices n j → a = .status .Ok) := by
  have hholds := answers_hold (admits_anything B root nameMax choices) choices.length
  rw [storeMoment, System.moment_length] at hholds
  have hanswer := hholds.answer hc hret
  simp only [CallAnswer, hdelete] at hanswer
  obtain ⟨status, rfl, hreason⟩ := hanswer
  have hfailed : status.code ≠ .kOk → ∀ status', Answer.status status = .status status' →
      status'.ok = true → ∃ n, WritesAt B root nameMax choices n j := by
    intro hcode status' ha hok
    rw [← Answer.status.inj ha, Status.ok_iff] at hok
    exact absurd hok hcode
  have hunlinked : ∀ {e : Event StoreSig}, c.trace = [e] →
      WritesAt B root nameMax choices n j → unlinks (pathFor root chunkId) e = true := by
    intro e ht hwrites
    obtain ⟨e', he', heffects⟩ := hwrites.mem_trace hc
    rw [ht, List.mem_singleton] at he'
    rwa [he', effects, hdelete] at heffects
  cases hreason with
  | invalid _ hcode ht =>
      refine ⟨hfailed (by simp [hcode]), fun hwrites => ?_⟩
      obtain ⟨e, he, -⟩ := hwrites.mem_trace hc
      have hnil : c.trace = [] := ht
      rw [hnil] at he
      exact absurd he (by simp)
  | absent _ _ _ hcode ht =>
      refine ⟨hfailed (by simp [hcode]), fun hwrites => ?_⟩
      exact absurd (hunlinked ht hwrites) (by simp [unlinks])
  | faulty _ _ hcode _ ht =>
      refine ⟨hfailed (by simp [hcode]), fun hwrites => ?_⟩
      exact absurd (hunlinked ht hwrites) (by simp [unlinks])
  | deleted _ hok ht =>
      exact ⟨fun _ _ _ => writesAt_of_deleted hc hdelete ht, fun _ => by rw [hok]⟩

end Store

/-! ## The RPCs -/

/-- The payloads of the visible chunks after the first `n` choices. -/
def visible (B : Blake3) (root : Bytes) (pid nameMax : ℕ) (choices : List (Choice WorkerRpc)) (n : ℕ) :
    MapStore.Map := shown root (workerMoment B root pid nameMax choices n).fs

/-- Step `n` is one of RPC `j`, and it changes the visible chunks. -/
def ChangedBy (B : Blake3) (root : Bytes) (pid nameMax : ℕ) (choices : List (Choice WorkerRpc))
    (n j : ℕ) : Prop :=
  (∃ o, choices[n]? = some (.act j o)) ∧
    visible B root pid nameMax choices (n + 1) ≠ visible B root pid nameMax choices n

/-- How an RPC may change the visible chunks. -/
inductive Update (B : Blake3) (m m' : MapStore.Map) : WorkerRpc → Prop
  | put {metadata : PutChunkMetadata} {frames : List PutChunkFrame} {address : ℕ} {p : Bytes} :
      Uploaded B metadata frames p → m ⟨metadata.chunkId⟩ = none →
      m' = Function.update m ⟨metadata.chunkId⟩ (some p) →
      Update B m m' (.putChunk (.metadata metadata :: frames) address)
  | delete {chunkId : Bytes} : m ⟨chunkId⟩ ≠ none → m' = Function.update m ⟨chunkId⟩ none →
      Update B m m' (.deleteChunk chunkId)

theorem WorkerRpc.putStatus_of_valid {request : PutChunkRequest} (h : request.Valid) (status : Status) :
    putStatus request status = status := by
  unfold putStatus
  rw [(validateChecksum_ok _).2 h.2]
  simp

theorem WorkerRpc.call_of_no_metadata {pid : ℕ} {frames : List PutChunkFrame} {address : ℕ}
    (h : ∀ metadata rest, frames ≠ .metadata metadata :: rest) :
    (WorkerRpc.putChunk frames address).call pid = .head ⟨[]⟩ := by
  cases frames with
  | nil => rfl
  | cons frame rest =>
      cases frame with
      | metadata metadata => exact absurd rfl (h metadata rest)
      | data _ | unset => rfl

theorem WorkerRpc.reply_of_no_metadata {frames : List PutChunkFrame} {address : ℕ}
    (h : ∀ metadata rest, frames ≠ .metadata metadata :: rest) (a : Answer) :
    (WorkerRpc.putChunk frames address).reply a
      = .operation ⟨.INVALID_ARGUMENT, ascii "first put frame must contain metadata"⟩ .unset := by
  cases frames with
  | nil => cases a <;> rfl
  | cons frame rest =>
      cases frame with
      | metadata metadata => exact absurd rfl (h metadata rest)
      | data _ | unset => cases a <;> rfl

section Rpcs

variable {B : Blake3} {root : Bytes} {pid nameMax : ℕ} {choices : List (Choice WorkerRpc)} {n j : ℕ}

theorem visible_eq (n : ℕ) : visible B root pid nameMax choices n
    = shown root (storeMoment B root nameMax (storeChoices pid choices) n).fs :=
  congrArg (shown root) (worker_wraps B root pid nameMax choices n).fs

theorem changedBy_iff : ChangedBy B root pid nameMax choices n j ↔
    WritesAt B root nameMax (storeChoices pid choices) n j := by
  have hchosen : ∀ {k : ℕ}, WritesAt B root nameMax (storeChoices pid choices) n k →
      ∃ o, choices[n]? = some (.act k o) := by
    intro k hwrites
    obtain ⟨o, ho⟩ := hwrites.chosen
    rw [List.getElem?_map, Option.map_eq_some_iff] at ho
    obtain ⟨choice, hchoice, hmap⟩ := ho
    cases choice with
    | start rpc => exact absurd hmap (by simp [Choice.map])
    | act k' o' =>
        obtain ⟨rfl, rfl⟩ := Choice.act.inj hmap
        exact ⟨_, hchoice⟩
  unfold ChangedBy
  rw [visible_eq, visible_eq]
  constructor
  · rintro ⟨⟨o, ho⟩, hchange⟩
    obtain ⟨k, hwrites⟩ := exists_writesAt hchange
    obtain ⟨o', ho'⟩ := hchosen hwrites
    rwa [(Choice.act.inj (Option.some.inj (ho.symm.trans ho'))).1]
  · intro hwrites
    exact ⟨hchosen hwrites, hwrites.changes⟩

theorem MapStep.update {rpc : WorkerRpc} {m m' : MapStore.Map}
    (h : MapStep B (rpc.invocation pid) m m') : Update B m m' rpc := by
  cases h with
  | put hcall _ hacc hnone =>
      obtain ⟨metadata, frames, rfl, rfl, -⟩ := WorkerRpc.call_put hcall
      exact .put hacc.uploaded hnone rfl
  | @delete chunkId p hcall _ hsome =>
      obtain rfl := WorkerRpc.call_delete hcall
      exact .delete (by rw [hsome]; simp) rfl

/-- What a status code says of the change of call `j`. -/
def CodeTells (B : Blake3) (root : Bytes) (nameMax : ℕ)
    (choices : List (Choice (Invocation RpcInputStream RpcOutputStream))) (j : ℕ) (code : StatusCode) :
    Prop :=
  (code = .kOk → ∃ n, WritesAt B root nameMax choices n j) ∧
    (code ≠ .kOk → code ≠ .kIoError → ∀ n, ¬ WritesAt B root nameMax choices n j)

section Replies

variable {d : StoreProcess RpcInputStream RpcOutputStream} {a : Answer} {status : GrpcStatus}
  {response : OperationResponse}

theorem reportedCode_no_metadata (response : OperationResponse) :
    reportedCode (⟨.INVALID_ARGUMENT, ascii "first put frame must contain metadata"⟩, response)
      ≠ .kOk := by
  simp [reportedCode, GrpcStatus.ok, fromGrpcCode]

theorem upload_tells {metadata : PutChunkMetadata} {frames : List PutChunkFrame} {address : ℕ}
    (hd : (storeAfter B root nameMax (storeChoices pid choices)).procs[j]? = some d)
    (hcall : d.job.call = .put metadata.request pid address) (ha : d.prog = .ret a)
    (hreply : (WorkerRpc.putChunk (.metadata metadata :: frames) address).reply a
      = .operation status response) :
    CodeTells B root nameMax (storeChoices pid choices) j (reportedCode (status, response)) := by
  refine ⟨fun hcode => ?_, fun hbad hio n hwrites => ?_⟩
  · cases a with
    | status s =>
        obtain ⟨rfl, rfl⟩ := WorkerReply.operation.inj hreply
        rw [reportedCode_setStatus] at hcode
        exact (put_replies (n := 0) hd hcall ha).1 s rfl (WorkerRpc.ok_of_putStatus (by rw [hcode]; rfl))
    | head _ | size _ | «exists» _ =>
        obtain ⟨rfl, rfl⟩ := WorkerReply.operation.inj hreply
        exact absurd hcode (reportedCode_no_metadata _)
  · obtain ⟨hvalid, s, rfl, hs⟩ := (put_replies hd hcall ha).2 hwrites
    obtain ⟨rfl, rfl⟩ := WorkerReply.operation.inj hreply
    rw [reportedCode_setStatus, WorkerRpc.putStatus_of_valid hvalid] at hbad hio
    rcases hs with rfl | hcode
    · exact hbad rfl
    · exact hio hcode

/-- An upload whose first frame is no metadata is turned down, and changes nothing. -/
theorem no_metadata_tells {frames : List PutChunkFrame} {address : ℕ}
    (hframes : ∀ metadata rest, frames ≠ .metadata metadata :: rest)
    (hd : (storeAfter B root nameMax (storeChoices pid choices)).procs[j]? = some d)
    (hcall : d.job.call = (WorkerRpc.putChunk frames address).call pid)
    (hreply : (WorkerRpc.putChunk frames address).reply a = .operation status response) :
    CodeTells B root nameMax (storeChoices pid choices) j (reportedCode (status, response)) := by
  rw [WorkerRpc.call_of_no_metadata hframes] at hcall
  rw [WorkerRpc.reply_of_no_metadata hframes] at hreply
  refine ⟨fun hcode => ?_, fun _ _ n hwrites => ?_⟩
  · obtain ⟨rfl, rfl⟩ := WorkerReply.operation.inj hreply
    exact absurd hcode (reportedCode_no_metadata _)
  · obtain ⟨e, -, heffects⟩ := hwrites.mem_trace hd
    rw [effects, hcall] at heffects
    exact absurd heffects (by simp)

theorem deletion_tells {chunkId : Bytes}
    (hd : (storeAfter B root nameMax (storeChoices pid choices)).procs[j]? = some d)
    (hcall : d.job.call = .delete ⟨chunkId⟩) (ha : d.prog = .ret a)
    (hreply : (WorkerRpc.deleteChunk chunkId).reply a = .operation status response) :
    CodeTells B root nameMax (storeChoices pid choices) j (reportedCode (status, response)) := by
  cases a with
  | status s =>
      obtain ⟨rfl, rfl⟩ := WorkerReply.operation.inj hreply
      rw [reportedCode_setStatus]
      refine ⟨fun hcode => ?_, fun hbad _ n hwrites => ?_⟩
      · exact (delete_replies (n := 0) hd hcall ha).1 s rfl ((Status.ok_iff s).2 hcode)
      · rw [Answer.status.inj ((delete_replies hd hcall ha).2 hwrites)] at hbad
        exact hbad rfl
  | head _ | size _ | «exists» _ => exact absurd hreply (by simp [WorkerRpc.reply])

/-- What the reply to an upload or a deletion says of its change. -/
theorem replies_truthful {c : WorkerProcess}
    (hc : (workerAfter B root pid nameMax choices).procs[j]? = some c)
    (hret : c.prog = .ret (.operation status response)) :
    (reportedCode (status, response) = .kOk → ∃ n, ChangedBy B root pid nameMax choices n j) ∧
      (reportedCode (status, response) ≠ .kOk → reportedCode (status, response) ≠ .kIoError →
        ∀ n, ¬ ChangedBy B root pid nameMax choices n j) := by
  obtain ⟨d, hd, hwrapped⟩ := (worker_wraps_after B root pid nameMax choices).exists_inner hc
  obtain ⟨a, ha, hreply⟩ := hwrapped.ret hret
  have hcall : d.job.call = c.job.call pid := by
    rw [hwrapped.job]
    rfl
  simp only [changedBy_iff]
  cases hrpc : c.job with
  | putChunk frames address =>
      rw [hrpc] at hreply hcall
      by_cases hmetadata : ∃ metadata rest, frames = .metadata metadata :: rest
      · obtain ⟨metadata, rest, rfl⟩ := hmetadata
        exact upload_tells hd hcall ha hreply.symm
      · exact no_metadata_tells (fun metadata rest h => hmetadata ⟨metadata, rest, h⟩) hd hcall hreply.symm
  | getChunk request accepts =>
      rw [hrpc] at hreply
      cases a <;> exact absurd hreply (by simp [WorkerRpc.reply])
  | headChunk chunkId =>
      rw [hrpc] at hreply
      cases a with
      | head r => cases r <;> exact absurd hreply (by simp [WorkerRpc.reply])
      | status _ | size _ | «exists» _ => exact absurd hreply (by simp [WorkerRpc.reply])
  | deleteChunk chunkId =>
      rw [hrpc] at hreply hcall
      exact deletion_tells hd hcall ha hreply.symm

end Replies

end Rpcs

/-- **No update is lost, made twice or misreported**, whatever fails. Every change of the visible chunks
    is a step of one RPC under way: an upload that adds its payload under an id that was free, or a
    deletion. No RPC makes two. The RPC behind a reply that reports OK has made one, and the RPC behind
    one that reports an error has made none, unless the error is `kIoError`. -/
theorem updates_accounted (B : Blake3) (root : Bytes) (pid nameMax : ℕ)
    (choices : List (Choice WorkerRpc)) :
    (∀ n, visible B root pid nameMax choices (n + 1) ≠ visible B root pid nameMax choices n →
      ∃ (j : ℕ) (c : WorkerProcess), (workerMoment B root pid nameMax choices n).procs[j]? = some c ∧
        ¬ c.prog.Returned ∧ ChangedBy B root pid nameMax choices n j ∧
        Update B (visible B root pid nameMax choices n) (visible B root pid nameMax choices (n + 1)) c.job) ∧
    (∀ m n j, ChangedBy B root pid nameMax choices m j → ChangedBy B root pid nameMax choices n j →
      m = n) ∧
    (∀ (j : ℕ) (c : WorkerProcess) (status : GrpcStatus) (response : OperationResponse),
      (workerAfter B root pid nameMax choices).procs[j]? = some c →
      c.prog = .ret (.operation status response) →
      (reportedCode (status, response) = .kOk → ∃ n, ChangedBy B root pid nameMax choices n j) ∧
      (reportedCode (status, response) ≠ .kOk → reportedCode (status, response) ≠ .kIoError →
        ∀ n, ¬ ChangedBy B root pid nameMax choices n j)) := by
  refine ⟨fun n hchange => ?_, fun m n j hm hn => ?_, fun j c status response hc hret => ?_⟩
  · rw [visible_eq, visible_eq] at hchange
    obtain ⟨j, hwrites⟩ := exists_writesAt hchange
    obtain ⟨d, hd, hstep⟩ := hwrites.mapStep
    obtain ⟨c, hc, hwrapped⟩ := (worker_wraps B root pid nameMax choices n).exists hd
    refine ⟨j, c, hc, fun hret => ?_, changedBy_iff.2 hwrites, ?_⟩
    · exact hwrites.live.1 d hd (hwrapped.returned.1 hret)
    · rw [visible_eq, visible_eq]
      rw [hwrapped.job] at hstep
      exact hstep.update
  · exact (changedBy_iff.1 hm).moment_unique (changedBy_iff.1 hn)
  · exact replies_truthful hc hret

/-- The deletion that overlaps with a download has removed the chunk. -/
theorem updates_accounted_overlap :
    ∃ n, ChangedBy Blake3.sample [0x72] 1 255 overlappingRpcs n 2 := by
  have hreply : ((workerAfter Blake3.sample [0x72] 1 255 overlappingRpcs).procs.map
      fun c => c.prog.result.map WorkerReply.acknowledges)[2]? = some (some true) := by decide +kernel
  obtain ⟨c, status, response, hc, hret, hok, hcode⟩ := exists_acknowledged hreply
  refine ((updates_accounted Blake3.sample [0x72] 1 255 overlappingRpcs).2.2 2 c status response hc
    hret).1 ?_
  rw [reportedCode, if_pos hok, hcode]
  rfl

end ChunkStorage
