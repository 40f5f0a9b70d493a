import ChunkStorage.Checksums
import ChunkStorage.Corruption
import ChunkStorage.NameLimits
import ChunkStorage.Transparency

set_option autoImplicit false

/-! # What is put comes back

An object that `StorageClient::Put` stored on a worker that keeps its chunks in files: what `Head` and
`Get` say of it afterwards, and after any further calls of any clients but a `Delete` of the object.
The further calls may fail in any way. -/

namespace ChunkStorage

open Effects Posix Program

/-! ## What a stored chunk survives -/

/-- The chunk has the file, on a file system that takes names of `nameMax` bytes. -/
structure Stored (root id file : Bytes) (nameMax : ℕ) (fs : FS) : Prop where
  contents : fs.contents (pathFor root ⟨id⟩) = some file
  nameMax_eq : fs.nameMax = nameMax

section Survives

variable {σ τ : Type} {B : Blake3} {root id file : Bytes} {nameMax : ℕ}

/-- A `Put` leaves the chunks that are there alone, also one of the same id. -/
theorem PutDone.keeps {ok : (op : StoreSig.Op) → StoreWorld σ τ → Outcome → Prop}
    {input : ChunkInputStream σ} {request : PutChunkRequest} {pid address : ℕ} {status : Status}
    {w w' : StoreWorld σ τ}
    (h : PutDone ok B root input request (tempPath root request.chunkId pid address) w status w')
    (hs : Stored root id file nameMax w.fs) : Stored root id file nameMax w'.fs := by
  cases h with
  | invalid _ _ => exact hs
  | refused _ hfs _ _ =>
      rw [hfs]
      exact hs
  | dropped _ _ _ hleft _ _ _ =>
      exact ⟨(hleft.chunksUnchanged _ (isChunkPath_pathFor _)).trans hs.contents,
        hleft.nameMax.trans hs.nameMax_eq⟩
  | committed _ _ _ hnone hleft _ _ hacc _ =>
      refine ⟨?_, hleft.nameMax.trans hs.nameMax_eq⟩
      have hother : pathFor root ⟨id⟩ ≠ pathFor root request.chunkId := by
        intro hsame
        have hthere := hs.contents
        rw [hsame, FS.contents_eq_none_iff.2 hnone] at hthere
        exact absurd hthere (by simp)
      exact ((hleft.commits hnone hacc.2).others _ (isChunkPath_pathFor _) hother).trans hs.contents

theorem HeadDone.fs_eq {ok : (op : StoreSig.Op) → StoreWorld σ τ → Outcome → Prop}
    {chunkId : ChunkId} {fs : FS} {r : StatusOr HeadChunkResponse} {w' : StoreWorld σ τ}
    (h : HeadDone ok root chunkId (Looking fs []) (LookingAt fs []) r w') : w'.fs = fs := by
  cases h with
  | fails hlooking _ => exact hlooking.1
  | read _ _ hlooking _ => exact hlooking.1.1

theorem GetDone.fs_eq {ok : (op : StoreSig.Op) → StoreWorld σ τ → Outcome → Prop}
    {output : ChunkOutputStream τ} {request : GetChunkRequest} {fs : FS} {status : Status}
    {w' : StoreWorld σ τ}
    (h : GetDone ok output root request (Looking fs []) (LookingAt fs []) (LookingAt fs) status w') :
    w'.fs = fs := by
  cases h with
  | head hlooking _ _ => exact hlooking.1
  | header hlooking _ _ => exact hlooking.1.1
  | range hlooking _ _ _ _ => exact hlooking.1.1
  | reopen hlooking _ _ _ _ _ => exact hlooking.1.1
  | streamed _ _ _ _ _ hlooking _ _ => exact hlooking.1.1

/-- A `Delete` of another chunk leaves the chunk alone. -/
theorem DeleteDone.keeps {ok : (op : StoreSig.Op) → StoreWorld σ τ → Outcome → Prop}
    {chunkId : ChunkId} {fs : FS} {status : Status} {w' : StoreWorld σ τ}
    (h : DeleteDone ok root chunkId fs status w') (hother : chunkId ≠ ⟨id⟩)
    (hs : Stored root id file nameMax fs) : Stored root id file nameMax w'.fs := by
  cases h with
  | invalid _ _ hfs _ =>
      rw [hfs]
      exact hs
  | fails _ hfs _ _ =>
      rw [hfs]
      exact hs
  | deleted _ _ hfs _ =>
      rw [hfs]
      refine ⟨?_, hs.nameMax_eq⟩
      rw [← hs.contents]
      refine FS.contents_congr ?_ fun _ _ hn => hn
      rw [FS.remove_dir, if_neg fun hsame => hother (pathFor_injective hsame)]

/-- What a program always ends with, it ends with on every schedule. -/
theorem of_decided_returns {α : Type} {input : ChunkInputStream σ} {output : ChunkOutputStream τ}
    {me : ℕ} {p : Program StoreSig α} {w w' : StoreWorld σ τ} {Q : α → StoreWorld σ τ → Prop} {a : α}
    {ω : ℕ → Decision}
    (halways : p.Always ((World.handler me (streams input output)).sem World.Any) w Q)
    (hret : Config.Returns (decided (World.handler me (streams input output))) (p, w) ω a w') :
    Q a w' := by
  have hdecided : Always ((decided (World.handler me (streams input output))).sem fun _ _ _ => True)
      p w Q := halways.of_sem fun {op v r v'} h => by
    obtain ⟨o, -, hreply⟩ := h
    exact ⟨o.pick op, trivial, hreply⟩
  exact hdecided.of_returns (fun _ _ _ _ _ => trivial) hret

end Survives

/-! ## What an object survives -/

section Calls

variable {B : Blake3} {root id file : Bytes} {nameMax pid server : ℕ}

/-- The handler of an upload leaves the chunk alone, whatever the frames are. -/
theorem upload_keeps {net : Net FS ℕ Decision} (frames : List PutChunkFrame)
    {reply : GrpcStatus × OperationResponse} {w : StoreWorld RpcInputStream RpcOutputStream}
    (hret : ((fileHost server).upload (fileWorker B root pid net.plan.call) net.store frames).Returns
      (fileHost server).handler net.plan.schedule reply w)
    (hs : Stored root id file nameMax net.store) : Stored root id file nameMax w.fs := by
  have halways : Always ((World.handler server (streams RpcInputStream.read
      RpcOutputStream.write)).sem World.Any) (handlePut B root pid net.plan.call frames)
      (handlerStart frames .opened net.store) _ :=
    handlePut_always pid net.plan.call frames RpcOutputStream.opened net.store
  rcases of_decided_returns halways hret with ⟨-, -, hfs⟩ | ⟨metadata, rest, status, -, -, hdone⟩
  · rw [hfs]
    exact hs
  · exact hdone.keeps hs

/-- A handler that only looks leaves the chunk alone. -/
theorem getChunk_keeps {net : Net FS ℕ Decision} {request : RpcGetChunkRequest} {status : GrpcStatus}
    {w : StoreWorld RpcInputStream RpcOutputStream}
    (hret : (fileHost server).Handles net (WorkerService.getChunk
      (some (fileWorker B root pid net.plan.call)) request) status w) : w.fs = net.store := by
  have halways : Always ((World.handler server (streams RpcInputStream.read
      RpcOutputStream.write)).sem World.Any) (WorkerService.getChunk
        (some (fileWorker B root pid net.plan.call)) request)
      ⟨[], net.store, [], (.ofFrames [], .opened)⟩ (fun _ w' => w'.fs = net.store) := by
    refine safe_bind.2 ?_
    unfold DataPlaneService.getChunk
    split
    · rfl
    · exact (get_always _ rfl).imp fun _ _ hdone => hdone.fs_eq
  exact of_decided_returns halways hret

theorem headChunk_keeps {net : Net FS ℕ Decision} {chunkId : Bytes}
    {reply : GrpcStatus × RpcHeadChunkResponse} {w : StoreWorld RpcInputStream RpcOutputStream}
    (hret : (fileHost server).Handles net (WorkerService.headChunk
      (some (fileWorker B root pid net.plan.call)) chunkId) reply w) : w.fs = net.store := by
  have halways : Always ((World.handler server (streams RpcInputStream.read
      RpcOutputStream.write)).sem World.Any) (WorkerService.headChunk
        (some (fileWorker B root pid net.plan.call)) chunkId)
      ⟨[], net.store, [], (.ofFrames [], .opened)⟩ (fun _ w' => w'.fs = net.store) := by
    refine safe_bind.2 ?_
    unfold DataPlaneService.headChunk
    split
    · rfl
    · refine (head_always ⟨chunkId⟩ rfl).imp fun r w' hdone => ?_
      cases r with
      | error s => exact hdone.fs_eq
      | ok value => exact hdone.fs_eq
  exact of_decided_returns halways hret

theorem deleteChunk_keeps {net : Net FS ℕ Decision} {chunkId : Bytes} (hother : chunkId ≠ id)
    {reply : GrpcStatus × OperationResponse} {w : StoreWorld RpcInputStream RpcOutputStream}
    (hret : (fileHost server).Handles net (WorkerService.deleteChunk
      (some (fileWorker B root pid net.plan.call)) chunkId) reply w)
    (hs : Stored root id file nameMax net.store) : Stored root id file nameMax w.fs := by
  have halways : Always ((World.handler server (streams RpcInputStream.read
      RpcOutputStream.write)).sem World.Any) (WorkerService.deleteChunk
        (some (fileWorker B root pid net.plan.call)) chunkId)
      ⟨[], net.store, [], (.ofFrames [], .opened)⟩ (fun _ w' => Stored root id file nameMax w'.fs) := by
    refine safe_bind.2 ?_
    unfold DataPlaneService.deleteChunk
    split
    · exact hs
    · refine (delete_always ⟨chunkId⟩ rfl).imp fun _ _ hdone => hdone.keeps ?_ hs
      intro hsame
      exact hother (congrArg ChunkId.value hsame)
  exact of_decided_returns halways hret

/-- **Every RPC but its own `DeleteChunk` leaves the chunk alone**, however its calls end. -/
theorem filePath_keeps {op : RpcOp} (hop : op ≠ .deleteChunk id) {net : Net FS ℕ Decision}
    (hs : Stored root id file nameMax net.store) :
    Stored root id file nameMax (filePath B root pid server op net).2.store := by
  cases op with
  | putChunk | writesDone | tryCancel | finishGet => exact hs
  | write frame =>
      unfold filePath network
      dsimp only
      split <;> exact hs
  | finishPut =>
      unfold filePath network
      dsimp only
      split
      · next reply w hfinal => exact upload_keeps _ (Config.final_eq_some.1 hfinal) hs
      · exact hs
  | getChunk request =>
      unfold filePath network
      dsimp only
      split
      · next status w hfinal =>
          have hfs := getChunk_keeps (Config.final_eq_some.1 hfinal)
          show Stored root id file nameMax w.fs
          rw [hfs]
          exact hs
      · exact hs
  | read =>
      show Stored root id file nameMax net.read.2.store
      rcases net.read_cases with ⟨hread, -⟩ | ⟨_, _, hread, -⟩
      · rw [hread]
        exact hs
      · rw [hread]
        exact hs
  | headChunk chunkId =>
      unfold filePath network
      dsimp only
      split
      · next reply w hfinal =>
          have hfs := headChunk_keeps (Config.final_eq_some.1 hfinal)
          show Stored root id file nameMax w.fs
          rw [hfs]
          exact hs
      · exact hs
  | deleteChunk chunkId =>
      have hother : chunkId ≠ id := fun hsame => hop (by rw [hsame])
      unfold filePath network
      dsimp only
      split
      · next reply w hfinal => exact deleteChunk_keeps hother (Config.final_eq_some.1 hfinal) hs
      · exact hs

end Calls

/-! ## Further calls -/

/-- The operation is not the `DeleteChunk` of the object. -/
def Spares (id : Bytes) (op : ClientSig.Op) (_ : ClientSig.Ret op → Bool) : Prop :=
  op ≠ .inr (.deleteChunk id)

section Spares

variable {B : Blake3} {id : Bytes}

theorem spares_sys (s : Syscall) (again : s.Ret → Bool) : Spares id (.inl s) again := Sum.inl_ne_inr

theorem spares_rpc {op : RpcOp} (again : op.Ret → Bool) (hop : ∀ chunkId, op ≠ .deleteChunk chunkId) :
    Spares id (.inr op) again := fun hsame => hop id (Sum.inr.inj hsame)

theorem hashFile_spares (path : Path) : (StorageClient.hashFile B path).Performs (Spares id) := by
  have hloop : ∀ fd rounds hasher size,
      (StorageClient.hashLoop B fd rounds hasher size).Performs (Spares id) := by
    intro fd rounds
    induction rounds with
    | zero => exact fun _ _ => trivial
    | succ rounds ih =>
        intro hasher size
        unfold StorageClient.hashLoop
        refine performs_retrying.2 ⟨spares_sys _ _, fun r => ?_⟩
        cases r with
        | error e => trivial
        | ok bytes =>
            dsimp only
            split
            · trivial
            · exact ih _ _
  unfold StorageClient.hashFile
  refine performs_perform.2 ⟨spares_sys _ _, fun r => ?_⟩
  cases r with
  | error e => trivial
  | ok fd =>
      refine (hloop fd _ _ _).bind fun r => ?_
      cases r <;> trivial

theorem putChunk_spares (request : PutChunkRequest) (source : Path) :
    (GrpcDataPlaneClient.putChunk request source).Performs (Spares id) := by
  have hsend : ∀ fd rounds, (GrpcDataPlaneClient.send fd rounds).Performs (Spares id) := by
    intro fd rounds
    induction rounds with
    | zero => trivial
    | succ rounds ih =>
        unfold GrpcDataPlaneClient.send
        refine performs_retrying.2 ⟨spares_sys _ _, fun r => ?_⟩
        cases r with
        | error e => trivial
        | ok bytes =>
            dsimp only
            split
            · trivial
            · refine performs_perform.2 ⟨spares_rpc _ (by simp), fun accepted => ?_⟩
              cases accepted with
              | false => trivial
              | true => exact ih
  unfold GrpcDataPlaneClient.putChunk
  refine performs_perform.2 ⟨spares_sys _ _, fun r => ?_⟩
  cases r with
  | error e => trivial
  | ok fd =>
      refine performs_perform.2 ⟨spares_rpc _ (by simp), fun _ => ?_⟩
      refine performs_perform.2 ⟨spares_rpc _ (by simp), fun accepted => ?_⟩
      cases accepted with
      | false => exact ⟨spares_rpc _ (by simp), fun _ => ⟨spares_rpc _ (by simp), fun _ => trivial⟩⟩
      | true =>
          refine (hsend fd _).bind fun r => ?_
          cases r with
          | error e =>
              exact ⟨spares_rpc _ (by simp), fun _ => ⟨spares_rpc _ (by simp),
                fun _ => ⟨spares_rpc _ (by simp), fun _ => trivial⟩⟩⟩
          | ok _ =>
              refine performs_perform.2 ⟨spares_rpc _ (by simp), fun _ => ?_⟩
              refine performs_perform.2 ⟨spares_rpc _ (by simp), fun reply => ?_⟩
              split <;> trivial

theorem getChunk_spares (request : GetChunkRequest) (destination : Path) :
    (GrpcDataPlaneClient.getChunk request destination).Performs (Spares id) := by
  have hwrite : ∀ fd data, (writeAll (B := Rpc) fd data).Performs (Spares id) := by
    intro fd data
    have hloop : ∀ rounds data, (writeAllLoop (B := Rpc) fd rounds data).Performs (Spares id) := by
      intro rounds
      induction rounds with
      | zero => exact fun _ => trivial
      | succ rounds ih =>
          intro data
          unfold writeAllLoop
          split
          · trivial
          · refine performs_retrying.2 ⟨spares_sys _ _, fun r => ?_⟩
            cases r with
            | wrote n => exact ih _
            | nothing e => trivial
            | failed e => trivial
    exact hloop _ _
  have hreceive : ∀ fd rounds, (GrpcDataPlaneClient.receive fd rounds).Performs (Spares id) := by
    intro fd rounds
    induction rounds with
    | zero => trivial
    | succ rounds ih =>
        unfold GrpcDataPlaneClient.receive
        refine performs_perform.2 ⟨spares_rpc _ (by simp), fun r => ?_⟩
        cases r with
        | none => trivial
        | some frame =>
            refine (hwrite fd frame.1).bind fun status => ?_
            split
            · exact ⟨spares_rpc _ (by simp), fun _ => trivial⟩
            · exact ih
  have hfail : ∀ status, (GrpcDataPlaneClient.fail destination status).Performs (Spares id) :=
    fun status => ⟨spares_sys _ _, fun _ => trivial⟩
  unfold GrpcDataPlaneClient.getChunk
  refine performs_perform.2 ⟨spares_sys _ _, fun r => ?_⟩
  cases r with
  | error e => trivial
  | ok fd =>
      refine performs_perform.2 ⟨spares_rpc _ (by simp), fun _ => ?_⟩
      refine (hreceive fd _).bind fun writeStatus => ?_
      refine performs_perform.2 ⟨spares_rpc _ (by simp), fun grpcStatus => ?_⟩
      split
      · exact (hfail _).bind fun _ => trivial
      · split
        · exact (hfail _).bind fun _ => trivial
        · refine performs_perform.2 ⟨spares_sys _ _, fun r => ?_⟩
          cases r with
          | error e => exact hfail _
          | ok _ => trivial

theorem clientGet_spares (objectId : ObjectId) (destination : Path) (pid tempId : ℕ) :
    (StorageClient.get B objectId destination pid tempId).Performs (Spares id) := by
  have hcommit : ∀ temp, (StorageClient.commit temp destination).Performs (Spares id) := by
    intro temp
    unfold StorageClient.commit
    refine performs_perform.2 ⟨spares_sys _ _, fun r => ?_⟩
    cases r <;> exact ⟨spares_sys _ _, fun _ => trivial⟩
  have hfetch : ∀ chunkId response temp,
      (StorageClient.fetch B chunkId response temp destination).Performs (Spares id) := by
    intro chunkId response temp
    unfold StorageClient.fetch
    refine (getChunk_spares _ temp).bind fun status => ?_
    split
    · exact ⟨spares_sys _ _, fun _ => trivial⟩
    · refine (hashFile_spares temp).bind fun r => ?_
      cases r with
      | error s => exact ⟨spares_sys _ _, fun _ => trivial⟩
      | ok x =>
          dsimp only
          split
          · exact ⟨spares_sys _ _, fun _ => trivial⟩
          · exact hcommit temp
  unfold StorageClient.get
  split
  · trivial
  · refine performs_perform.2 ⟨spares_sys _ _, fun r => ?_⟩
    cases r with
    | error e => trivial
    | ok present =>
        cases present with
        | true => trivial
        | false =>
            refine Performs.bind ⟨spares_rpc _ (by simp), fun _ => trivial⟩ fun r => ?_
            cases r with
            | error s => trivial
            | ok response =>
                refine performs_perform.2 ⟨spares_sys _ _, fun r => ?_⟩
                cases r with
                | error e => trivial
                | ok present =>
                    cases present with
                    | true => trivial
                    | false => exact (hfetch _ _ _).bind fun _ => trivial

end Spares

/-- A call of a client that is no `Delete` of the object. -/
inductive FurtherCall (B : Blake3) (id : Bytes) : {α : Type} → Program ClientSig α → Prop
  | put (objectId : ObjectId) (source : Path) : FurtherCall B id (StorageClient.put B objectId source)
  | get (objectId : ObjectId) (destination : Path) (pid tempId : ℕ) :
      FurtherCall B id (StorageClient.get B objectId destination pid tempId)
  | head (objectId : ObjectId) : FurtherCall B id (StorageClient.head objectId)
  | delete {objectId : ObjectId} (hother : objectId.value ≠ id) :
      FurtherCall B id (StorageClient.delete objectId)

theorem FurtherCall.spares {B : Blake3} {id : Bytes} {α : Type} {p : Program ClientSig α}
    (h : FurtherCall B id p) : p.Performs (Spares id) := by
  cases h with
  | put objectId source =>
      unfold StorageClient.put
      split
      · trivial
      · refine (hashFile_spares source).bind fun r => ?_
        cases r with
        | error s => trivial
        | ok x => exact putChunk_spares _ source
  | get objectId destination pid tempId => exact clientGet_spares objectId destination pid tempId
  | head objectId =>
      unfold StorageClient.head
      split
      · trivial
      · exact ⟨spares_rpc _ (by simp), fun _ => trivial⟩
  | @delete objectId hother =>
      unfold StorageClient.delete StorageClient.toChunkId
      split
      · next hinvalid => trivial
      · next chunkId hvalid =>
          refine ⟨fun hsame => hother ?_, fun _ => trivial⟩
          split at hvalid
          · exact absurd hvalid (by simp [StatusOr.ofStatus])
          · rw [← Except.ok.inj hvalid] at hsame
            exact RpcOp.deleteChunk.inj (Sum.inr.inj hsame)

/-- The state of the network after further calls of any clients, one after the other. Each has its own
    file system, and its system calls and the RPCs may end in any way. -/
inductive Later {β : Type} (transport : Transport β) (B : Blake3) (id : Bytes) (b : β) : β → Prop
  | refl : Later transport B id b b
  | call {α : Type} {p : Program ClientSig α} {b' : β} {me : ℕ} {fs : FS} {ω : ℕ → Outcome} {a : α}
      {w' : ClientWorld β} (hlater : Later transport B id b b') (hcall : FurtherCall B id p)
      (hret : Config.Returns (World.handler me transport) (p, ⟨[], fs, [], b'⟩) ω a w') :
      Later transport B id b w'.rest

/-- **A stored chunk survives all further calls.** -/
theorem Later.keeps {B : Blake3} {root id file : Bytes} {nameMax pid server : ℕ}
    {net net' : Net FS ℕ Decision} (h : Later (filePath B root pid server) B id net net')
    (hs : Stored root id file nameMax net.store) : Stored root id file nameMax net'.store := by
  induction h with
  | refl => exact hs
  | @call α p net₁ me fs ω a w' _ hcall hret ih =>
      obtain ⟨n, hn⟩ := hret
      have hkept : Stored root id file nameMax (Config.exec (World.handler me
          (filePath B root pid server)) (p, ⟨[], fs, [], net₁⟩) ω n).2.rest.store := by
        refine hcall.spares.keeps (J := fun w : ClientWorld (Net FS ℕ Decision) =>
          Stored root id file nameMax w.rest.store) ?_ ih ω n
        intro op again w o hspares hw
        cases op with
        | inl s => exact hw
        | inr op => exact filePath_keeps (fun hsame => hspares (by rw [hsame])) hw
      rw [hn] at hkept
      exact hkept

/-! ## `Put` -/

section Put

variable {B : Blake3} {root : Bytes} {pid server me : ℕ} {net : Net FS ℕ Decision} {fs : FS}
  {objectId : ObjectId} {source : Path} {content : Bytes} {ω : ℕ → Outcome}

/-- `Put` of a source that nobody changes hashes it and uploads it with the hash. -/
theorem clientPut_always {β : Type} {transport : Transport β} {b : β} (hid : objectId.valid = true)
    (hcontent : fs.contents source = some content) (hname : fs.Fits source) :
    (StorageClient.put B objectId source).Always ((World.handler me transport).sem World.NoFailure)
      ⟨[], fs, [], b⟩
      (PutChunkDone transport World.NoFailure
        ⟨⟨objectId.value⟩, UInt64.ofNat content.length, B.checksum content⟩ source
        (fun w => w.fs = fs) (Reading fs content) (fun _ s w => s = content ∧ w.fs = fs) b) := by
  unfold StorageClient.put StorageClient.toChunkId
  simp only [hid, Bool.not_true, Bool.false_eq_true, if_false]
  refine safe_bind.2 ((hashFile_always B hcontent).imp ?_)
  rintro r w ⟨hfs, hrest, rfl | hfail⟩
  · have hupload : Always ((World.handler me transport).sem World.NoFailure)
        (GrpcDataPlaneClient.putChunk
          ⟨⟨objectId.value⟩, UInt64.ofNat content.length, B.checksum content⟩ source) w
        (PutChunkDone transport World.NoFailure
          ⟨⟨objectId.value⟩, UInt64.ofNat content.length, B.checksum content⟩ source
          (fun w => w.fs = fs) (Reading fs content) (fun _ s w => s = content ∧ w.fs = fs) w.rest) :=
      putChunk_safe (Reading.source me hcontent) (fun hR => by rw [hR]) (fun _ _ _ => trivial) hfs
    rw [hrest] at hupload
    exact hupload
  · exact absurd ⟨World.neverFails_noFailure, hname⟩ hfail

/-- **`Put` of an object that is not there stores it**, if nothing fails. -/
theorem clientPut_stores (hid : (validateId ⟨objectId.value⟩).ok = true)
    (hcontent : fs.contents source = some content) (hname : fs.Fits source)
    (habsent : net.store.dir (pathFor root ⟨objectId.value⟩) = none)
    (hfree : net.store.dir (tempPath root ⟨objectId.value⟩ pid net.plan.call) = none)
    (hfits : net.store.Fits (tempPath root ⟨objectId.value⟩ pid net.plan.call))
    (hcalm : net.plan.Calm) (hroom : 80 + content.length ≤ offMax)
    (hadmits : Config.Admits (World.handler me (filePath B root pid server)) World.NoFailure
      (StorageClient.put B objectId source, ⟨[], fs, [], net⟩) ω)
    (hfair : Config.Fair (World.handler me (filePath B root pid server))
      (StorageClient.put B objectId source, ⟨[], fs, [], net⟩) ω) :
    ∃ w', Config.Returns (World.handler me (filePath B root pid server))
        (StorageClient.put B objectId source, ⟨[], fs, [], net⟩) ω .Ok w' ∧
      Stored root objectId.value (chunkFile B content) net.store.nameMax w'.rest.store ∧
      w'.rest.plans = net.next.plans := by
  have hvalid : objectId.valid = true := validateId_valid hid
  have halways : Always ((World.handler me (filePath B root pid server)).sem World.NoFailure)
      (StorageClient.put B objectId source) ⟨[], fs, [], net⟩ _ :=
    clientPut_always hvalid hcontent hname
  obtain ⟨status, w', hret, hdone⟩ := halways.returns hadmits hfair
  have hsize : (UInt64.ofNat content.length).toNat = content.length := toNat_length (by omega)
  have hreturns : ∀ blocks, ∃ status w,
      ((fileHost server).upload (fileWorker B root pid net.plan.call) net.store
        (GrpcDataPlaneClient.metadataFrame ⟨⟨objectId.value⟩, UInt64.ofNat content.length,
          B.checksum content⟩ :: dataFrames blocks)).Returns (fileHost server).handler
        net.plan.schedule (.Ok, ⟨setStatus status⟩) w ∧
      PutOutcome B root RpcInputStream.read (.ofFrames (dataFrames blocks))
        ⟨⟨objectId.value⟩, UInt64.ofNat content.length, B.checksum content⟩ net.store status w.fs ∧
      w.fs.nameMax = net.store.nameMax :=
    fun blocks => fileHost_upload blocks hcalm hfree hfits (by rw [hsize]; exact hroom)
  obtain ⟨blocks, reply, w, hall, hupload, rfl, hstore, hplans⟩ :=
    hdone.whole World.neverFails_noFailure (Reading.present hcontent hname) (fun hE => hE.1)
      (fun hP => hP.isPrefix) fun blocks _ => by
        obtain ⟨status, w, hrun, -⟩ := hreturns blocks
        exact ⟨_, w, hrun⟩
  obtain ⟨status, w₁, hrun, houtcome, hnameMax⟩ := hreturns blocks
  obtain ⟨rfl, rfl⟩ := hupload.unique hrun
  have hdelivers := dataFrames_deliver blocks
  rw [hall] at hdelivers
  obtain ⟨rfl, hcommits⟩ := houtcome.of_matches ⟨hid, B.wellFormed_checksum content⟩ hdelivers
    ⟨hsize.symm, rfl⟩ habsent
  refine ⟨w', hret, ⟨?_, ?_⟩, hplans⟩
  · rw [hstore]
    exact hcommits.present
  · rw [hstore]
    exact hnameMax

end Put

/-! ## `Head` and `Get` -/

/-- The object reads as the content: `Head` and `Get` say so whenever nothing fails. -/
structure ReadsAs (B : Blake3) (root : Bytes) (pid server : ℕ) (objectId : ObjectId) (content : Bytes)
    (net : Net FS ℕ Decision) : Prop where
  head : net.plan.Calm → ∀ (me : ℕ) (fs : FS) (ω : ℕ → Outcome), ∃ w',
    Config.Returns (World.handler me (filePath B root pid server))
      (StorageClient.head objectId, ⟨[], fs, [], net⟩) ω
      (.ok ⟨⟨objectId.value⟩, UInt64.ofNat content.length, B.checksum content⟩) w'
  get : (∀ k, (net.plans k).Calm) →
    ∀ (me : ℕ) (fs : FS) (destination : Path) (clientPid tempId : ℕ) (ω : ℕ → Outcome),
    255 ≤ fs.nameMax → destination.name.length ≤ 200 → clientPid < 2 ^ 32 → tempId < 2 ^ 64 →
    fs.dir destination = none → fs.dir (StorageClient.tempFor destination clientPid tempId) = none →
    Config.Admits (World.handler me (filePath B root pid server)) World.NoFailure
      (StorageClient.get B objectId destination clientPid tempId, ⟨[], fs, [], net⟩) ω →
    Config.Fair (World.handler me (filePath B root pid server))
      (StorageClient.get B objectId destination clientPid tempId, ⟨[], fs, [], net⟩) ω →
    ∃ w', Config.Returns (World.handler me (filePath B root pid server))
        (StorageClient.get B objectId destination clientPid tempId, ⟨[], fs, [], net⟩) ω
        (.ok .Ok) w' ∧
      w'.fs.contents destination = some content

/-- A process id and a 64-bit number are short. -/
theorem length_pid_number {pid n : ℕ} (hpid : pid < 2 ^ 32) (hn : n < 2 ^ 64) :
    (decimal pid).length + (decimal n).length ≤ 30 := by
  have h₁ : (decimal pid).length ≤ 10 := (length_decimal_le_iff (by decide)).2 (by omega)
  have h₂ : (decimal n).length ≤ 20 := (length_decimal_le_iff (by decide)).2 (by omega)
  omega

/-- The temporary name of `Get` is at most 36 bytes longer than the destination's. -/
theorem length_tempFor {destination : Path} {pid tempId : ℕ} (hpid : pid < 2 ^ 32)
    (htempId : tempId < 2 ^ 64) :
    (StorageClient.tempFor destination pid tempId).name.length ≤ destination.name.length + 36 := by
  have hnumbers := length_pid_number hpid htempId
  simp only [StorageClient.tempFor, dotTmp, dot, List.length_append, List.length_cons,
    List.length_nil]
  omega

section Read

variable {B : Blake3} {root : Bytes} {pid server nameMax : ℕ} {net : Net FS ℕ Decision}
  {objectId : ObjectId} {content : Bytes}

/-- A stored object reads as its content. -/
theorem Stored.readsAs (h : Stored root objectId.value (chunkFile B content) nameMax net.store)
    (hid : (validateId ⟨objectId.value⟩).ok = true)
    (hfits : (pathFor root ⟨objectId.value⟩).name.length ≤ nameMax) :
    ReadsAs B root pid server objectId content net := by
  have hname : net.store.Fits (pathFor root ⟨objectId.value⟩) := by
    rw [FS.Fits, h.nameMax_eq]
    exact hfits
  refine ⟨?_, ?_⟩
  · intro hcalm me fs ω
    obtain ⟨r, net', hhead, -, -, ⟨c, p, hchunk, rfl⟩ | ⟨hno, -⟩⟩ :=
      filePath_head B pid server hid h.contents hname hcalm
    · obtain ⟨rfl, rfl⟩ := hchunk.unique (chunkFile_spec B content)
      have hvalid : objectId.valid = true := validateId_valid hid
      unfold StorageClient.head StorageClient.toChunkId
      simp only [hvalid, Bool.not_true, Bool.false_eq_true, if_false]
      exact ⟨_, Config.returns_call (World.handler_reply hhead)
        ⟨0, congrArg (fun a => (Program.ret a, _)) (headReply_ok _)⟩⟩
    · exact absurd ⟨_, _, chunkFile_spec B content⟩ hno
  · intro hcalm me fs destination clientPid tempId ω hmax hlength hpid htempId hfree hfreeTemp hadmits
      hfair
    have htemp : (StorageClient.tempFor destination clientPid tempId).name.length
        ≤ destination.name.length + 36 := length_tempFor hpid htempId
    obtain ⟨status, w', hret, -, -, hverdict⟩ := clientGet_verdict hid h.contents hname hcalm hfree
      (by rw [FS.Fits]; omega) hfreeTemp (by rw [FS.Fits]; omega) hadmits hfair
    cases hverdict with
    | intact hfile hok hcontents =>
        obtain ⟨rfl, -⟩ := (chunkFile_spec B content).eq_chunkFile_iff.1 hfile
        subst hok
        exact ⟨w', hret, hcontents⟩
    | corrupt hno _ _ => exact absurd ⟨content, rfl⟩ hno

end Read

/-- **What is put comes back.** For every id of 1 to 100 bytes that is not stored and every content of
    the source, a `Put` in which no call fails returns OK, and from then on the object reads as that
    content: right after it, and after any further `Put`s, `Get`s, `Head`s and `Delete`s of other ids,
    also where these fail. -/
theorem put_head_get_round_trip (B : Blake3) (root : Bytes) (pid server : ℕ) (net : Net FS ℕ Decision)
    (me : ℕ) (fs : FS) (objectId : ObjectId) (source : Path) (content : Bytes) (ω : ℕ → Outcome)
    (hne : objectId.value ≠ []) (hlength : objectId.value.length ≤ 100)
    (hmax : 255 ≤ net.store.nameMax) (hpid : pid < 2 ^ 32) (hcall : net.plan.call < 2 ^ 64)
    (habsent : net.store.dir (pathFor root ⟨objectId.value⟩) = none)
    (hfree : net.store.dir (tempPath root ⟨objectId.value⟩ pid net.plan.call) = none)
    (hcalm : net.plan.Calm) (hcontent : fs.contents source = some content) (hname : fs.Fits source)
    (hroom : 80 + content.length ≤ offMax)
    (hadmits : Config.Admits (World.handler me (filePath B root pid server)) World.NoFailure
      (StorageClient.put B objectId source, ⟨[], fs, [], net⟩) ω)
    (hfair : Config.Fair (World.handler me (filePath B root pid server))
      (StorageClient.put B objectId source, ⟨[], fs, [], net⟩) ω) :
    ∃ w', Config.Returns (World.handler me (filePath B root pid server))
        (StorageClient.put B objectId source, ⟨[], fs, [], net⟩) ω .Ok w' ∧
      ∀ net', Later (filePath B root pid server) B objectId.value w'.rest net' →
        ReadsAs B root pid server objectId content net' := by
  have hid : (validateId ⟨objectId.value⟩).ok = true := (validateId_ok _).2 ⟨hne, by dsimp only; omega⟩
  have hfits : net.store.Fits (tempPath root ⟨objectId.value⟩ pid net.plan.call) := by
    have hnumbers := length_pid_number hpid hcall
    rw [FS.Fits, length_tempPath]
    dsimp only
    omega
  obtain ⟨w', hret, hstored, -⟩ := clientPut_stores hid hcontent hname habsent hfree hfits hcalm hroom
    hadmits hfair
  refine ⟨w', hret, ?_⟩
  intro net' hlater
  exact (hlater.keeps hstored).readsAs hid (fits_pathFor hfits)

/-! ## One byte, there and back -/

/-- A `Put` can run to its end with no failing call. -/
theorem clientPut_steady {β : Type} (B : Blake3) (transport : Transport β) (me : ℕ)
    (objectId : ObjectId) (source : Path) :
    (StorageClient.put B objectId source).Steady (World.handler me transport) World.NoFailure
      .done := by
  have hloop : ∀ fd rounds hasher size, (StorageClient.hashLoop B fd rounds hasher size).Steady
      (World.handler me transport) World.NoFailure .done := by
    intro fd rounds
    induction rounds with
    | zero => exact fun _ _ => trivial
    | succ rounds ih =>
        intro hasher size
        unfold StorageClient.hashLoop
        refine ⟨fun w => ⟨⟨trivial, trivial⟩, done_not_interrupted _ me w.fds w.fs⟩, fun r => ?_⟩
        cases r with
        | error e => trivial
        | ok bytes =>
            simp only [Program.bind]
            split
            · trivial
            · exact ih _ _
  unfold StorageClient.put
  split
  · trivial
  · unfold StorageClient.hashFile
    refine ⟨fun w => ⟨⟨trivial, trivial⟩, rfl⟩, fun r => ?_⟩
    cases r with
    | error e => trivial
    | ok fd =>
        refine ((hloop fd (offMax + 1) _ _).bind fun r => ?_).bind fun r => ?_
        · cases r <;> trivial
        · cases r with
          | error s => trivial
          | ok x => exact putChunk_steady transport me _ source

/-- A `Get` whose download delivers the `"a"` that `HeadChunk` reported runs to its end. -/
theorem intactGet_runs {β : Type} {transport : Transport β} {b₀ b₁ b₂ b₃ b₄ b₅ : β}
    (hhead : transport (.headChunk [0x61]) b₀
      = (headChunkReply (.ok ⟨⟨[0x61]⟩, 1, Blake3.sample.checksum [0x61]⟩), b₁))
    (hget : transport (.getChunk ⟨[0x61], 0, 1⟩) b₁ = ((), b₂))
    (hread : transport .read b₂ = (some ⟨[0x61], nofun⟩, b₃))
    (hend : transport .read b₃ = (none, b₄)) (hfinish : transport .finishGet b₄ = (.Ok, b₅)) :
    (StorageClient.get Blake3.sample ⟨[0x61]⟩ ⟨[0x64], [0x66]⟩ 1 0).Runs (World.handler 0 transport)
      World.NoFailure .done ⟨[], FS.empty 255, [], b₀⟩ := by
  have hroom : ∀ f, [(⟨0, 0⟩ : OpenFile)][0]? = some f → f.offset < offMax := by decide
  -- until the temporary file is there
  refine .call ⟨trivial, trivial⟩ (World.handler_sys (show _ = (.ok false, [], _) from rfl)) rfl ?_
  refine .call trivial (World.handler_reply hhead) rfl ?_
  refine .call ⟨trivial, trivial⟩ (World.handler_sys (show _ = (.ok false, [], _) from rfl)) rfl ?_
  refine .call ⟨trivial, trivial⟩ (World.handler_sys (show _ = (.ok 0, [⟨0, 0⟩], _) from rfl)) rfl ?_
  -- the download
  refine .call trivial (World.handler_reply hget) rfl ?_
  refine .call trivial (World.handler_reply hread) rfl ?_
  refine .call ⟨trivial, hroom⟩ (World.handler_sys (show _ = (.wrote 1, [⟨0, 1⟩], _) from rfl)) rfl ?_
  refine .call trivial (World.handler_reply hend) rfl ?_
  refine .call trivial (World.handler_reply hfinish) rfl ?_
  refine .call ⟨trivial, trivial⟩ (World.handler_sys (show _ = (.ok (), [⟨0, 1⟩], _) from rfl)) rfl ?_
  -- the check, and the temporary file becomes the destination
  refine .call ⟨trivial, trivial⟩
    (World.handler_sys (show _ = (.ok 1, [⟨0, 1⟩, ⟨0, 0⟩], _) from rfl)) rfl ?_
  refine .call ⟨trivial, trivial⟩
    (World.handler_sys (show _ = (.ok [0x61], [⟨0, 1⟩, ⟨0, 1⟩], _) from rfl)) rfl ?_
  refine .call ⟨trivial, trivial⟩
    (World.handler_sys (show _ = (.ok [], [⟨0, 1⟩, ⟨0, 1⟩], _) from rfl)) rfl ?_
  refine .call ⟨trivial, trivial⟩
    (World.handler_sys (show _ = (.ok (), [⟨0, 1⟩, ⟨0, 1⟩], _) from rfl)) rfl ?_
  refine .call ⟨trivial, trivial⟩
    (World.handler_sys (show _ = (.ok (), [⟨0, 1⟩, ⟨0, 1⟩], _) from rfl)) rfl ?_
  exact .ret

/-- The client of the sample: the file `"a"` in the directory `"c"` with one byte. -/
def oneByte : FS := ((FS.empty 255).create ⟨[0x63], [0x61]⟩ 0).modify 0 (·.write 0 [0x61])

/-- A network to an empty root in which nothing goes wrong. -/
def emptyNet : Net FS ℕ Decision :=
  ⟨FS.empty 255, fun _ => ⟨0, fun _ _ => .done, fun _ => false, 0⟩, [], false, [], .Ok⟩

theorem emptyNet_calm (k : ℕ) : (emptyNet.plans k).Calm :=
  ⟨fun _ _ => trivial, fun n => ⟨n, le_rfl, fun _ => nofun⟩⟩

/-- `Put`, `Head` and `Get` of the object `"a"` with the content `"a"`. -/
theorem put_head_get_one_byte :
    ∃ w', Config.Returns (World.handler 0 (filePath Blake3.sample [0x72] 1 0))
        (StorageClient.put Blake3.sample ⟨[0x61]⟩ ⟨[0x63], [0x61]⟩, ⟨[], oneByte, [], emptyNet⟩)
        (fun _ => .done) .Ok w' ∧
      (∃ w₁, Config.Returns (World.handler 0 (filePath Blake3.sample [0x72] 1 0))
        (StorageClient.head ⟨[0x61]⟩, ⟨[], FS.empty 255, [], w'.rest⟩) (fun _ => .done)
        (.ok ⟨⟨[0x61]⟩, 1, Blake3.sample.checksum [0x61]⟩) w₁) ∧
      ∃ w₂, Config.Returns (World.handler 0 (filePath Blake3.sample [0x72] 1 0))
          (StorageClient.get Blake3.sample ⟨[0x61]⟩ ⟨[0x64], [0x66]⟩ 1 0,
            ⟨[], FS.empty 255, [], w'.rest⟩) (fun _ => .done) (.ok .Ok) w₂ ∧
        w₂.fs.contents ⟨[0x64], [0x66]⟩ = some [0x61] := by
  have hid : (validateId ⟨[0x61]⟩).ok = true := by decide
  obtain ⟨hadmits, hfair⟩ := (clientPut_steady Blake3.sample (filePath Blake3.sample [0x72] 1 0) 0
    ⟨[0x61]⟩ ⟨[0x63], [0x61]⟩).schedule ⟨[], oneByte, [], emptyNet⟩
  obtain ⟨w', hret, hlater⟩ := put_head_get_round_trip Blake3.sample [0x72] 1 0 emptyNet 0 oneByte
    ⟨[0x61]⟩ ⟨[0x63], [0x61]⟩ [0x61] _ (by simp) (by simp) (by decide) (by decide) (by decide) rfl rfl
    (emptyNet_calm 0) (by decide) (by decide) (by decide) hadmits hfair
  have hreads := hlater w'.rest .refl
  -- what the network is after the `Put`
  obtain ⟨w, hsame, hstored, hplans⟩ := clientPut_stores hid
    (show oneByte.contents ⟨[0x63], [0x61]⟩ = some [0x61] by decide) (by decide) rfl rfl
    (by decide) (emptyNet_calm 0) (by decide) hadmits hfair
  obtain ⟨-, rfl⟩ := hret.unique hsame
  have hcalm : ∀ k, (w'.rest.plans k).Calm := by
    intro k
    rw [hplans]
    exact emptyNet_calm (k + 1)
  have hfits : w'.rest.store.Fits (pathFor [0x72] ⟨[0x61]⟩) := by
    rw [FS.Fits, hstored.nameMax_eq]
    decide
  -- what the RPCs of the `Get` reply
  obtain ⟨r, net₁, hhead, hstore, hplans₁, ⟨c, p, hchunk, rfl⟩ | ⟨hno, -⟩⟩ :=
    filePath_head Blake3.sample 1 0 hid hstored.contents hfits (hcalm 0)
  swap
  · exact absurd ⟨_, _, chunkFile_spec _ _⟩ hno
  obtain ⟨rfl, rfl⟩ := hchunk.unique (chunkFile_spec _ _)
  obtain ⟨net₂, hget, hblocks, hstatus, -, -⟩ := filePath_get Blake3.sample 1 0 hid
    (by rw [hstore]; exact hstored.contents) hchunk (by rw [hstore]; exact hfits)
    (by rw [Net.plan, hplans₁]; exact hcalm 1)
  obtain ⟨net₃, net₄, hread, hend, hsame⟩ := reads_singleton hblocks
  have hfinish : filePath Blake3.sample [0x72] 1 0 .finishGet net₄ = (.Ok, net₄) :=
    Prod.ext (hsame.trans hstatus) rfl
  obtain ⟨hadmits', hfair'⟩ := (intactGet_runs hhead hget hread hend hfinish).schedule
  exact ⟨w', hret, hreads.head (hcalm 0) 0 (FS.empty 255) _,
    hreads.get hcalm 0 (FS.empty 255) ⟨[0x64], [0x66]⟩ 1 0 _ (by decide) (by decide) (by decide)
      (by decide) rfl rfl hadmits' hfair'⟩

end ChunkStorage
