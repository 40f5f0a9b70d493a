import ChunkStorage.Download
import ChunkStorage.Grammar
import ChunkStorage.Network
import ChunkStorage.ReceiveBounds

set_option autoImplicit false

/-! # A worker that keeps its chunks in files

The host of the network whose handlers run on `FileChunkStore`. How the system calls of a handler end
is part of the plan of its RPC: `Plan.Calm` says that none of them fails, and that none is interrupted
forever. A calm handler runs to its end as the specifications of `Put`, `Get` and `Head` say. -/

namespace ChunkStorage

open Effects Posix Program

/-! ## Calm plans -/

/-- How the system calls of a handler end. The outcome may depend on the call. -/
abbrev Decision := Syscall → Outcome

/-- The outcome of an operation. -/
def Decision.pick (o : Decision) : StoreSig.Op → Outcome
  | .inl s => o s
  | .inr _ => .done

/-- A handler whose outcomes are decided call by call. -/
def decided {σ τ : Type} (h : Handler StoreSig (StoreWorld σ τ) Outcome) :
    Handler StoreSig (StoreWorld σ τ) Decision := fun op w o => h op w (o.pick op)

/-- No system call of the handler fails: transfers may be short or interrupted, but not interrupted
    forever. -/
structure Plan.Calm {ι : Type} (plan : Plan ι Decision) : Prop where
  calm : ∀ n s, (plan.schedule n s).Calm s
  fair : ∀ n, ∃ m ≥ n, ∀ s, plan.schedule m s ≠ .fails .EINTR

/-- The operation is retried only if it was interrupted, and writes only such data to a file. -/
def Gently (writes : Bytes → Prop) (op : StoreSig.Op) (again : StoreSig.Ret op → Bool) : Prop :=
  Retries op again ∧ ∀ fd data, op = .inl (.write fd data) → writes data

section Gently

variable {writes : Bytes → Prop}

theorem gently_sys {s : Syscall} (hs : ∀ fd data, s ≠ .write fd data) :
    Gently writes (.inl s) (fun _ => false) :=
  ⟨fun _ hr => absurd hr nofun, fun fd data h => absurd (Sum.inl.inj h) (hs fd data)⟩

theorem gently_stream (t : StreamOp) : Gently writes (.inr t) (fun _ => false) :=
  ⟨fun _ => rfl, fun _ _ h => absurd h nofun⟩

theorem preadSome_gently (fd count : ℕ) (offset : UInt64) :
    (preadSome fd count offset).Performs (Gently writes) := by
  unfold preadSome
  split
  · trivial
  · refine performs_retrying.2 ⟨⟨fun _ hr => hr, fun _ _ h => absurd (Sum.inl.inj h) nofun⟩,
      fun r => ?_⟩
    cases r with
    | error e => trivial
    | ok bytes => trivial

theorem readHeaderLoop_gently (fd rounds : ℕ) (read : Bytes) :
    (readHeaderLoop fd rounds read).Performs (Gently writes) := by
  induction rounds generalizing read with
  | zero => trivial
  | succ rounds ih =>
      unfold readHeaderLoop
      split
      · refine (preadSome_gently fd _ _).bind fun r => ?_
        cases r with
        | error s => trivial
        | ok bytes =>
            dsimp only
            split
            · trivial
            · exact ih _
      · trivial

theorem head_gently (root : Bytes) (chunkId : ChunkId) :
    (head root chunkId).Performs (Gently writes) := by
  unfold head
  dsimp only
  split
  · trivial
  · refine performs_perform.2 ⟨gently_sys nofun, fun r => ?_⟩
    cases r with
    | error e => trivial
    | ok fd =>
        refine (readHeaderLoop_gently fd _ _).bind fun r => ?_
        cases r with
        | error s => trivial
        | ok header =>
            dsimp only
            split
            · trivial
            · split
              · trivial
              · refine performs_perform.2 ⟨gently_sys nofun, fun r => ?_⟩
                cases r with
                | error e => trivial
                | ok stSize =>
                    dsimp only
                    split <;> trivial

theorem getLoop_gently (fd rounds : ℕ) (remaining offset : UInt64) :
    (getLoop fd rounds remaining offset).Performs (Gently writes) := by
  induction rounds generalizing remaining offset with
  | zero => trivial
  | succ rounds ih =>
      unfold getLoop
      split
      · refine (preadSome_gently fd _ _).bind fun r => ?_
        cases r with
        | error s => trivial
        | ok bytes =>
            dsimp only
            split
            · trivial
            · refine performs_perform.2 ⟨gently_stream _, fun status => ?_⟩
              split
              · trivial
              · exact ih _ _
      · trivial

theorem get_gently (root : Bytes) (request : GetChunkRequest) :
    (get root request).Performs (Gently writes) := by
  unfold get
  refine (head_gently root request.chunkId).bind fun r => ?_
  cases r with
  | error s => trivial
  | ok response =>
      dsimp only
      split
      · trivial
      · refine performs_perform.2 ⟨gently_sys nofun, fun r => ?_⟩
        cases r with
        | error e => trivial
        | ok fd => exact getLoop_gently _ _ _ _

theorem writeAll_gently (fd : ℕ) (data : Bytes) :
    (writeAll (B := Streams) fd data).Performs (Gently (· ≠ [])) := by
  have hloop : ∀ rounds data,
      (writeAllLoop (B := Streams) fd rounds data).Performs (Gently (· ≠ [])) := by
    intro rounds
    induction rounds with
    | zero => exact fun _ => trivial
    | succ rounds ih =>
        intro data
        unfold writeAllLoop
        split
        · trivial
        · next hempty =>
            refine performs_retrying.2 ⟨⟨fun _ hr => hr, fun fd' data' h => ?_⟩, fun r => ?_⟩
            · obtain ⟨rfl, rfl⟩ := Syscall.write.inj (Sum.inl.inj h)
              exact fun hnil => hempty (List.isEmpty_iff.2 hnil)
            · cases r with
              | wrote n => exact ih _
              | nothing e => trivial
              | failed e => trivial
  exact hloop _ _

theorem receive_gently (B : Blake3) (request : PutChunkRequest) (fd rounds : ℕ) (hasher : B.Hasher)
    (received : UInt64) :
    (receive B request fd rounds hasher received).Performs (Gently (· ≠ [])) := by
  induction rounds generalizing hasher received with
  | zero => trivial
  | succ rounds ih =>
      unfold receive
      refine performs_perform.2 ⟨gently_stream _, fun r => ?_⟩
      cases r with
      | error s => trivial
      | ok bytes =>
          dsimp only
          split
          · trivial
          · split
            · trivial
            · refine (writeAll_gently fd bytes).bind fun status => ?_
              split
              · trivial
              · exact ih _ _

theorem put_gently (B : Blake3) (root : Bytes) (request : PutChunkRequest) (pid address : ℕ) :
    (put B root request pid address).Performs (Gently (· ≠ [])) := by
  have hfill : ∀ temp fd, (fill B request temp fd).Performs (Gently (· ≠ [])) := by
    intro temp fd
    unfold fill
    refine (writeAll_gently fd _).bind fun status => ?_
    split
    · trivial
    · refine (receive_gently B request fd _ _ _).bind fun r => ?_
      cases r with
      | error status => trivial
      | ok x =>
          dsimp only
          split
          · trivial
          · split
            · trivial
            · refine performs_perform.2 ⟨gently_sys nofun, fun r => ?_⟩
              cases r <;> trivial
  have hcommit : ∀ temp, (commit root request temp).Performs (Gently (· ≠ [])) := by
    intro temp
    unfold commit
    refine performs_perform.2 ⟨gently_sys nofun, fun r => ?_⟩
    cases r with
    | error e =>
        refine performs_perform.2 ⟨gently_sys nofun, fun r => ?_⟩
        split <;> trivial
    | ok _ =>
        refine performs_perform.2 ⟨gently_sys nofun, fun r => ?_⟩
        refine performs_perform.2 ⟨gently_sys nofun, fun r => ?_⟩
        cases r with
        | error e => trivial
        | ok _ =>
            refine performs_perform.2 ⟨gently_sys nofun, fun r => ?_⟩
            cases r <;> trivial
  unfold put
  dsimp only
  split
  · trivial
  · split
    · trivial
    · refine performs_perform.2 ⟨gently_sys nofun, fun r => ?_⟩
      cases r with
      | error e => trivial
      | ok _ =>
          refine performs_perform.2 ⟨gently_sys nofun, fun r => ?_⟩
          cases r with
          | error e => trivial
          | ok fd =>
              refine (hfill _ fd).bind fun r => ?_
              cases r with
              | error status => exact performs_perform.2 ⟨gently_sys nofun, fun _ => trivial⟩
              | ok _ => exact hcommit _

end Gently

/-! ## Calm runs -/

section Calm

variable {σ τ α ι : Type} {input : ChunkInputStream σ} {output : ChunkOutputStream τ} {me : ℕ}
  {writes : Bytes → Prop} {plan : Plan ι Decision}

/-- No call fails. -/
abbrev NoneFails (op : StoreSig.Op) (w : StoreWorld σ τ) (o : Decision) : Prop :=
  World.NoFailure op w (o.pick op)

theorem gently_fair {p : Program StoreSig α} (hp : p.Performs (Gently writes)) (hcalm : plan.Calm)
    (w : StoreWorld σ τ) :
    Config.Fair (decided (World.handler me (streams input output))) (p, w) plan.schedule := by
  intro n
  obtain ⟨m, hm, hnot⟩ := hcalm.fair n
  refine ⟨m, hm, fun op again k hc => ?_⟩
  have hop := hp.exec (h := decided (World.handler me (streams input output))) w plan.schedule m
  rw [hc] at hop
  generalize (Config.exec (decided (World.handler me (streams input output))) (p, w)
    plan.schedule m).2 = v
  cases op with
  | inr t => exact hop.1.1 _
  | inl s =>
      by_contra hagain
      have hinterrupted := hop.1.1 _ (by simpa using hagain)
      exact absurd hinterrupted (by
        simp [decided, World.handler, Decision.pick, not_interrupted s me v.fds v.fs (hnot s)])

/-- A call that writes no file fails only if the plan says so. -/
theorem gently_admits {p : Program StoreSig α} (hp : p.Performs (Gently fun _ => False))
    (hcalm : plan.Calm) (w : StoreWorld σ τ) :
    Config.Admits (decided (World.handler me (streams input output))) NoneFails (p, w)
      plan.schedule := by
  intro n op again k hc
  have hop := hp.exec (h := decided (World.handler me (streams input output))) w plan.schedule n
  rw [hc] at hop
  cases op with
  | inr t => trivial
  | inl s =>
      refine ⟨hcalm.calm n s, ?_⟩
      cases s with
      | write fd data => exact (hop.1.2 fd data rfl).elim
      | _ => trivial

/-- A `Put` of a chunk that is not too long for a file never runs out of room. -/
theorem put_admits (B : Blake3) (root : Bytes) (request : PutChunkRequest) (pid address : ℕ)
    (hcalm : plan.Calm) {fs : FS} (s : σ) (t : τ)
    (hfree : fs.dir (tempPath root request.chunkId pid address) = none)
    (hsize : 80 + request.expectedSize.toNat ≤ offMax) :
    Config.Admits (decided (World.handler me (streams input output))) NoneFails
      (put B root request pid address, ⟨[], fs, [], (s, t)⟩) plan.schedule := by
  have hstart : Confined fs.inodes.length (tempPath root request.chunkId pid address)
      (⟨[], fs, [], (s, t)⟩ : StoreWorld σ τ) :=
    ⟨le_rfl, fun f hf => absurd hf (by simp), fun i m hi hm =>
      absurd (List.getElem?_eq_some_iff.1 hm).1 (by simpa using hi),
      fun i hi => absurd hi (by simp [hfree])⟩
  intro n op again k hc
  obtain ⟨htracks, hconfined⟩ := Tracks.exec (h := decided (World.handler me (streams input output)))
    (fun w => usage w.trace) (Confined fs.inodes.length (tempPath root request.chunkId pid address))
    (fun {op} {_} {_} {w} {o} hpoint hw => ⟨(handler_moves me input output op w (o.pick op)).1,
      (handler_moves me input output op w (o.pick op)).2, hw.step hpoint (o.pick op)⟩)
    (put_tracks (B := B) request root pid address) hstart plan.schedule n
  have hop := (put_gently B root request pid address).exec
    (h := decided (World.handler me (streams input output))) ⟨[], fs, [], (s, t)⟩ plan.schedule n
  rw [hc] at hop htracks
  cases op with
  | inr t => trivial
  | inl s =>
      refine ⟨hcalm.calm n s, ?_⟩
      cases s with
      | write fd data =>
          intro f hf
          have hwritten := htracks.here.call _ _ _ rfl
          have hoffset := hconfined.offset f (List.mem_of_getElem? hf)
          have hpos := List.length_pos_iff.2 (hop.1.2 fd data rfl)
          simp only [CallPoint] at hwritten
          omega
      | _ => trivial

/-- What a program always does where no call fails, it does in a calm run. -/
theorem calm_returns {p : Program StoreSig α} {w : StoreWorld σ τ} {Q : α → StoreWorld σ τ → Prop}
    (halways : p.Always ((World.handler me (streams input output)).sem World.NoFailure) w Q)
    (hp : p.Performs (Gently writes)) (hcalm : plan.Calm)
    (hadmits : Config.Admits (decided (World.handler me (streams input output))) NoneFails (p, w)
      plan.schedule) :
    ∃ a w', Config.Returns (decided (World.handler me (streams input output))) (p, w) plan.schedule
      a w' ∧ Q a w' := by
  have hdecided : Always ((decided (World.handler me (streams input output))).sem NoneFails) p w Q :=
    halways.of_sem fun {op v r v'} h => by
      obtain ⟨o, hok, hreply⟩ := h
      exact ⟨o.pick op, hok, hreply⟩
  exact hdecided.returns hadmits (gently_fair hp hcalm w)

/-- The same for a program that writes no file. -/
theorem calm_returns_reading {p : Program StoreSig α} {w : StoreWorld σ τ}
    {Q : α → StoreWorld σ τ → Prop}
    (halways : p.Always ((World.handler me (streams input output)).sem World.NoFailure) w Q)
    (hp : p.Performs (Gently fun _ => False)) (hcalm : plan.Calm) :
    ∃ a w', Config.Returns (decided (World.handler me (streams input output))) (p, w) plan.schedule
      a w' ∧ Q a w' :=
  calm_returns halways hp hcalm (gently_admits hp hcalm w)

end Calm

/-! ## The worker -/

/-- The host of a worker whose handlers run as process `me`. -/
def fileHost (me : ℕ) : Host StoreSig FS (StoreWorld RpcInputStream RpcOutputStream) Decision where
  handler := decided (World.handler me (streams RpcInputStream.read RpcOutputStream.write))
  start fs s t := ⟨[], fs, [], (s, t)⟩
  store w := w.fs
  input w := w.rest.1
  output w := w.rest.2
  feed frames w := { w with rest := (w.rest.1.feed frames, w.rest.2) }
  feed_start _ _ _ _ := rfl
  store_feed _ _ := rfl
  feed_op {frames op w o} hopen := by
    cases op with
    | inl s => rfl
    | inr t =>
        cases t with
        | read size =>
            have hread := RpcInputStream.read_feed frames hopen
            simp only [decided, World.handler, streams, hread]
            rfl
        | write data => rfl
  ended_op {op w o} hopen := by
    cases op with
    | inl s => exact hopen
    | inr t =>
        cases t with
        | read size => exact RpcInputStream.ended_of_read hopen
        | write data => exact hopen

/-- The store of the worker, for the address of the stream of a call. -/
def fileWorker (B : Blake3) (root : Bytes) (pid address : ℕ) : ChunkStore StoreSig :=
  fileChunkStore B root pid address

/-- The network to a worker that keeps its chunks under `root`. -/
noncomputable def filePath (B : Blake3) (root : Bytes) (pid me : ℕ) : Transport (Net FS ℕ Decision) :=
  network (fileHost me) (fileWorker B root pid)

section Worker

variable {B : Blake3} {root : Bytes} {pid me : ℕ} {net : Net FS ℕ Decision}

/-- Frames with data deliver what they hold. -/
theorem dataFrames_deliver (blocks : List FrameData) :
    Delivers RpcInputStream.read (.ofFrames (dataFrames blocks)) (payload blocks) := by
  have hpieces : Pieces (payload blocks).length (blocks.map Subtype.val) := by
    refine ⟨fun piece hpiece => ?_, le_rfl⟩
    obtain ⟨block, -, rfl⟩ := List.mem_map.1 hpiece
    exact block.2
  have hreceived := received_pieces hpieces
  rw [List.map_map] at hreceived
  exact (deliver_complete_iff.1
    ((deliver_frames (dataFrames blocks) _ (payload blocks).length rfl rfl).trans hreceived)).1

/-- **An upload over a calm network**, of any data for any request: its handler returns, and the
    chunk is stored or no chunk changed. -/
theorem fileHost_upload {request : PutChunkRequest} (blocks : List FrameData) (hcalm : net.plan.Calm)
    (hfree : net.store.dir (tempPath root request.chunkId pid net.plan.call) = none)
    (hfits : net.store.Fits (tempPath root request.chunkId pid net.plan.call))
    (hsize : 80 + request.expectedSize.toNat ≤ offMax) :
    ∃ status w, ((fileHost me).upload (fileWorker B root pid net.plan.call) net.store
        (GrpcDataPlaneClient.metadataFrame request :: dataFrames blocks)).Returns (fileHost me).handler
        net.plan.schedule (.Ok, ⟨setStatus status⟩) w ∧
      PutOutcome B root RpcInputStream.read (.ofFrames (dataFrames blocks)) request net.store status
        w.fs ∧ w.fs.nameMax = net.store.nameMax := by
  have hprog := dataPlanePut_cases (fileWorker B root pid net.plan.call) request
  have hgently : (DataPlaneService.putChunk (fileWorker B root pid net.plan.call) request).Performs
      (Gently (· ≠ [])) := by
    rcases hprog with ⟨status, hret⟩ | hput
    · rw [hret]
      trivial
    · rw [hput]
      exact put_gently B root request pid net.plan.call
  have hadmits : Config.Admits (decided (World.handler me (streams RpcInputStream.read
      RpcOutputStream.write))) NoneFails (DataPlaneService.putChunk (fileWorker B root pid
        net.plan.call) request, ⟨[], net.store, [], (.ofFrames (dataFrames blocks), .opened)⟩)
      net.plan.schedule := by
    rcases hprog with ⟨status, hret⟩ | hput
    · rw [hret]
      exact Config.admits_ret
    · rw [hput]
      exact put_admits B root request pid net.plan.call hcalm _ _ hfree hsize
  have halways : Always ((World.handler me (streams RpcInputStream.read RpcOutputStream.write)).sem
      World.NoFailure) (DataPlaneService.putChunk (fileWorker B root pid net.plan.call) request)
      ⟨[], net.store, [], (.ofFrames (dataFrames blocks), .opened)⟩ _ :=
    dataPlanePut_always request pid net.plan.call ⟨rfl, rfl, rfl, rfl⟩
  obtain ⟨status, w, hret, hdone⟩ := calm_returns halways hgently hcalm hadmits
  exact ⟨status, w, hret.map fun status => (GrpcStatus.Ok, OperationResponse.mk (setStatus status)),
    hdone.outcome hfree hfits, hdone.nameMax⟩

/-- **`HeadChunk` over a calm network**: its handler answers what the header of the file says. -/
theorem fileHost_head {id file : Bytes} (hid : (validateId ⟨id⟩).ok = true)
    (hfile : net.store.contents (pathFor root ⟨id⟩) = some file)
    (hfits : net.store.Fits (pathFor root ⟨id⟩)) (hcalm : net.plan.Calm) :
    ∃ r w, (fileHost me).Handles net
        (WorkerService.headChunk (some (fileWorker B root pid net.plan.call)) id) (headChunkReply r) w ∧
      w.fs = net.store ∧
      ((∃ c p, ChunkFile c p file ∧ r = .ok ⟨⟨id⟩, UInt64.ofNat p.length, c⟩) ∨
        ((¬ ∃ c p, ChunkFile c p file) ∧ ∃ s : ErrorStatus, r = .error s ∧
          s.1.code = .kCorruption)) := by
  have hnever : World.NeverFails (B := Streams) (β := RpcInputStream × RpcOutputStream)
    World.NoFailure := World.neverFails_noFailure
  have halways : Always ((World.handler me (streams RpcInputStream.read RpcOutputStream.write)).sem
      World.NoFailure) (head root ⟨id⟩) ⟨[], net.store, [], (.ofFrames [], .opened)⟩ _ :=
    head_always ⟨id⟩ rfl
  obtain ⟨r, w, hret, hdone⟩ := calm_returns_reading halways (head_gently root ⟨id⟩) hcalm
  have hhandles : (fileHost me).Handles net (WorkerService.headChunk
      (some (fileWorker B root pid net.plan.call)) id) (headChunkReply r) w := by
    rw [headChunk_eq _ (validateId_valid hid)]
    exact hret.map headChunkReply
  refine ⟨r, w, hhandles, ?_⟩
  cases hdone with
  | fails hlooking hfails =>
      rcases hfails with ⟨hno, -⟩ | ⟨-, v, hv, ⟨-, hnone⟩ | ⟨-, hfail⟩⟩
      · exact absurd hid hno
      · rw [hv.1] at hnone
        rw [FS.contents, hnone] at hfile
        exact absurd hfile (by simp)
      · exact absurd ⟨hnever, by rw [hv.1]; exact hfits⟩ hfail
  | read _ hseen hlooking hanswer =>
      obtain ⟨v, -, hv, -, hshown⟩ := hseen
      rw [hv.1, hfile] at hshown
      obtain rfl := Option.some.inj hshown
      refine ⟨hlooking.1.1, ?_⟩
      rcases hanswer with hgood | hbad | ⟨-, -, -, hfail⟩
      · exact Or.inl hgood
      · exact Or.inr hbad
      · exact absurd hnever hfail

/-- The output of a download that keeps no frames: the trace has them. -/
def unkept : ChunkOutputStream Unit := fun _ _ => (.Ok, ())

/-- A handler and the same handler with an output that keeps no frames. -/
structure Recorded (w : StoreWorld RpcInputStream Unit)
    (w' : StoreWorld RpcInputStream RpcOutputStream) : Prop where
  fds : w'.fds = w.fds
  fs : w'.fs = w.fs
  input : w'.rest.1 = w.rest.1
  accepts : w'.rest.2.accepts = fun _ => true
  sent : w'.rest.2.sent.flatten = handed w.trace

theorem Recorded.step (me : ℕ) (op : StoreSig.Op) (o : Outcome) {w : StoreWorld RpcInputStream Unit}
    {w' : StoreWorld RpcInputStream RpcOutputStream} (h : Recorded w w') :
    (World.handler me (streams RpcInputStream.read unkept) op w o).1
        = (World.handler me (streams RpcInputStream.read RpcOutputStream.write) op w' o).1 ∧
      Recorded (World.handler me (streams RpcInputStream.read unkept) op w o).2
        (World.handler me (streams RpcInputStream.read RpcOutputStream.write) op w' o).2 := by
  obtain ⟨fds, fs, trace, s, _⟩ := w
  obtain ⟨fds', fs', trace', s', t⟩ := w'
  obtain ⟨rfl, rfl, rfl, haccepts, hsent⟩ := h
  cases op with
  | inl s => exact ⟨rfl, rfl, rfl, rfl, haccepts, by simpa [World.handler] using hsent⟩
  | inr op =>
      cases op with
      | read size => exact ⟨rfl, rfl, rfl, rfl, haccepts, hsent⟩
      | write data =>
          have hwrite : RpcOutputStream.write t data
              = (.Ok, { t with sent := t.sent ++ [data] }) := if_pos (by rw [haccepts])
          simp only [World.handler, streams, hwrite]
          refine ⟨rfl, rfl, rfl, rfl, haccepts, ?_⟩
          have hsent' : t.sent.flatten = handed trace := hsent
          show (t.sent ++ [data]).flatten = handed trace ++ data
          rw [List.flatten_append, hsent', List.flatten_singleton]

/-- **`GetChunk` of a whole chunk over a calm network** sends its payload. -/
theorem fileHost_get {id file p : Bytes} {c : Checksum} (hid : (validateId ⟨id⟩).ok = true)
    (hfile : net.store.contents (pathFor root ⟨id⟩) = some file) (hchunk : ChunkFile c p file)
    (hfits : net.store.Fits (pathFor root ⟨id⟩)) (hcalm : net.plan.Calm) :
    ∃ w, (fileHost me).Handles net (WorkerService.getChunk
        (some (fileWorker B root pid net.plan.call)) ⟨id, 0, UInt64.ofNat p.length⟩) .Ok w ∧
      w.fs = net.store ∧ ((fileHost me).output w).sent.flatten = p := by
  have hnever : World.NeverFails (B := Streams) (β := RpcInputStream × Unit) World.NoFailure :=
    World.neverFails_noFailure
  have hlen := FS.contents_length_le hfile
  have hsize : (UInt64.ofNat p.length).toNat = p.length := by
    have := hchunk.length
    simp only [offMax] at hlen
    rw [UInt64.toNat_ofNat']
    omega
  have halways : Always ((World.handler me (streams RpcInputStream.read unkept)).sem
      World.NoFailure) (get root ⟨⟨id⟩, ⟨0, UInt64.ofNat p.length⟩⟩)
      ⟨[], net.store, [], (.ofFrames [], ())⟩ _ := get_always ⟨⟨id⟩, ⟨0, UInt64.ofNat p.length⟩⟩ rfl
  obtain ⟨status, v, hret, hdone⟩ := calm_returns_reading halways (get_gently root _) hcalm
  have hstart : Recorded ⟨[], net.store, [], (.ofFrames [], ())⟩
      ⟨[], net.store, [], (.ofFrames [], .opened)⟩ := ⟨rfl, rfl, rfl, rfl, rfl⟩
  have hsame : ∃ w, Config.Returns (fileHost me).handler
      (get root ⟨⟨id⟩, ⟨0, UInt64.ofNat p.length⟩⟩, ⟨[], net.store, [], (.ofFrames [], .opened)⟩)
      net.plan.schedule status w ∧ Recorded v w :=
    hret.lockstep Recorded (fun op n _ _ h => h.step me op ((net.plan.schedule n).pick op)) hstart
  obtain ⟨w, hret', hrecorded⟩ := hsame
  -- the file is the only one that is ever seen
  have seen : ∀ {P : StoreWorld RpcInputStream Unit → Prop} {file' : Bytes},
      (∀ w, P w → w.fs = net.store) → Seen World.NoFailure (pathFor root ⟨id⟩) P file' →
      file' = file := by
    rintro P file' hP ⟨v, -, hv, -, hshown⟩
    rw [hP v hv, hfile] at hshown
    exact (Option.some.inj hshown).symm
  have opens : ∀ {P : StoreWorld RpcInputStream Unit → Prop} {status : Status},
      (∀ w, P w → w.fs = net.store) →
      ¬ OpenFails World.NoFailure (pathFor root ⟨id⟩) P status := by
    rintro P status hP ⟨v, hv, ⟨-, hnone⟩ | ⟨-, hfail⟩⟩
    · rw [FS.contents, ← hP v hv, hnone] at hfile
      exact absurd hfile (by simp)
    · exact hfail ⟨hnever, by rw [hP v hv]; exact hfits⟩
  obtain ⟨hstatus, hfs, hhanded⟩ : status = .Ok ∧ v.fs = net.store ∧ handed v.trace = p := by
    cases hdone with
    | head _ _ hfails =>
        rcases hfails with ⟨hno, -⟩ | ⟨-, hopen⟩
        · exact absurd hid hno
        · exact absurd hopen (opens fun _ h => h.1)
    | header _ hseen hanswer =>
        obtain rfl := seen (fun _ h => h.1) hseen
        rcases hanswer with ⟨c', p', -, hr⟩ | ⟨hno, -⟩ | ⟨-, -, -, hfail⟩
        · exact absurd hr (by simp)
        · exact absurd ⟨c, p, hchunk⟩ hno
        · exact absurd hnever hfail
    | range _ hseen hchunk' hbad _ =>
        obtain rfl := seen (fun _ h => h.1) hseen
        obtain ⟨-, rfl⟩ := hchunk.unique hchunk'
        exact absurd (by simp [ByteRange.Within, hsize]) hbad
    | reopen _ _ _ _ _ hopen => exact absurd hopen (opens fun _ h => h.1.1)
    | streamed _ _ _ hseen hn hlooking _ hanswer =>
        obtain rfl := seen (fun _ h => h.1.1) hseen
        dsimp only at hn hlooking hanswer
        rw [hsize] at hn hanswer
        have hflen := hchunk.length
        rcases hanswer with ⟨rfl, rfl⟩ | ⟨-, hlt, hle⟩ | ⟨-, hfail⟩ | ⟨hno, t, data, hrefused, -⟩
        · refine ⟨rfl, hlooking.1.1, hlooking.1.2.trans ?_⟩
          simp [hchunk.drop]
        · simp only [UInt64.toNat_zero] at hle
          omega
        · exact absurd hnever hfail
        · rw [← hrefused] at hno
          exact absurd hno (by simp [unkept])
  have hprog : WorkerService.getChunk (some (fileWorker B root pid net.plan.call))
      ⟨id, 0, UInt64.ofNat p.length⟩
      = (get root ⟨⟨id⟩, ⟨0, UInt64.ofNat p.length⟩⟩ >>= fun status => .ret (toGrpcStatus status)) := by
    unfold WorkerService.getChunk DataPlaneService.getChunk
    simp only [validateId_valid hid, Bool.not_true, Bool.false_eq_true, if_false]
    rfl
  refine ⟨w, ?_, hrecorded.fs.trans hfs, hrecorded.sent.trans hhanded⟩
  rw [hstatus] at hret'
  rw [Host.Handles, hprog]
  exact hret'.map toGrpcStatus

end Worker

end ChunkStorage
