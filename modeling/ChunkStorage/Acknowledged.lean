import ChunkStorage.PutAmong
import ChunkStorage.TwoPasses

set_option autoImplicit false

/-! # What an acknowledged upload means

The other direction of `passes_agree_or_nothing_stored`. When `Put` has returned OK to its caller, in any
run of client and worker, however the source changes and whatever is lost on the way, the worker shows
the chunk, and no power failure takes it away. -/

namespace ChunkStorage

open Effects Posix Program

/-! ## The client -/

/-- A client that returns OK has got an OK from `Finish`. If it has sent anything, the response itself
    says OK too. -/
def Reported (t : List (Event ClientSig)) (p : Program ClientSig Status) : Prop :=
  ∀ status, p = .ret status → status.ok = true → ∃ reply : GrpcStatus × OperationResponse,
    (⟨.inr .finishPut, reply⟩ : Event ClientSig) ∈ t ∧ reply.1.ok = true ∧
      (framesSent t = [] ∨ (fromRpcStatus reply.2.status).ok = true)

/-- A client in the middle of its program has not reported yet. -/
theorem Reported.call {t : List (Event ClientSig)} {op : ClientSig.Op} {again : ClientSig.Ret op → Bool}
    {k : ClientSig.Ret op → Program ClientSig Status} : Reported t (.call op again k) :=
  fun _ hret => absurd hret (by simp)

theorem Reported.error {t : List (Event ClientSig)} {status : Status} (h : status.ok = false) :
    Reported t (.ret status) := by
  intro status' hret hok
  rw [← Program.ret.inj hret, h] at hok
  exact absurd hok (by simp)

theorem putChunk_reports {request : PutChunkRequest} {t : List (Event ClientSig)} (source : Path)
    (hsent : framesSent t = []) :
    (GrpcDataPlaneClient.putChunk request source).Tracks (fun _ _ => True) record Reported t := by
  unfold GrpcDataPlaneClient.putChunk
  refine tracks_perform Reported.call fun r _ => ?_
  cases r with
  | error e => exact Reported.error rfl
  | ok fd =>
      refine tracks_perform Reported.call fun _ _ => ?_
      refine tracks_perform Reported.call fun accepted _ => ?_
      cases accepted with
      | false =>
          refine tracks_perform Reported.call fun _ _ => ?_
          refine tracks_perform Reported.call fun reply _ => ?_
          intro status hret hok
          rw [← Program.ret.inj hret, fromGrpcStatus_ok] at hok
          exact ⟨reply, List.mem_cons_self, hok, Or.inl hsent⟩
      | true =>
          have hfirst : framesSent t ++ [GrpcDataPlaneClient.metadataFrame request]
              = GrpcDataPlaneClient.metadataFrame request :: dataFrames [] := by
            rw [hsent]
            rfl
          have hopened : (fd, []) :: passes t
              = (fd, ([] : List FrameData).map Subtype.val) :: passes t := rfl
          refine Tracks.bind (send_tracks (offMax + 1) hfirst hopened) ?_ ?_
          · exact fun _ _ _ _ _ => Reported.call
          · intro t' r _
            cases r with
            | error e =>
                refine tracks_perform Reported.call fun _ _ => ?_
                refine tracks_perform Reported.call fun _ _ => ?_
                exact tracks_perform Reported.call fun _ _ => Reported.error rfl
            | ok u =>
                refine tracks_perform Reported.call fun _ _ => ?_
                refine tracks_perform Reported.call fun reply _ => ?_
                by_cases hgrpc : reply.1.ok = true
                · simp only [hgrpc, Bool.not_true, Bool.false_eq_true, if_false]
                  intro status hret hok
                  rw [← Program.ret.inj hret] at hok
                  exact ⟨reply, List.mem_cons_self, hgrpc, Or.inr hok⟩
                · have hno : reply.1.ok = false := by simpa using hgrpc
                  simp only [hno, Bool.not_false, if_true]
                  exact Reported.error (by rw [fromGrpcStatus_ok, hno])

theorem clientPut_reports (B : Blake3) (objectId : ObjectId) (source : Path) :
    (StorageClient.put B objectId source).Tracks (fun _ _ => True) record Reported [] := by
  unfold StorageClient.put StorageClient.toChunkId
  by_cases hid : objectId.valid = true
  · simp only [hid, Bool.not_true, Bool.false_eq_true, if_false]
    refine (hashFile_tracks B source).bind (fun _ _ _ _ _ => Reported.call) ?_
    intro t r h
    cases r with
    | error s => exact Reported.error s.2
    | ok x => exact putChunk_reports source h.2.1
  · have hno : objectId.valid = false := by simpa using hid
    simp only [hno, Bool.not_false, if_true]
    exact Reported.error rfl

/-! ## The reply on its way -/

namespace Exchange

variable {B : Blake3} {root : Bytes} {pid address server me : ℕ}

/-- What the client has been told is what the handler has returned. -/
structure Replied (x : Exchange) : Prop where
  reply : ∀ {reply}, x.client.2.rest.reply = some reply → ∃ w, x.handling = some (.ret reply, w)
  finished : ∀ {reply : GrpcStatus × OperationResponse},
    (⟨.inr .finishPut, reply⟩ : Event ClientSig) ∈ x.client.2.trace → reply.1.ok = true →
    ∃ w, x.handling = some (.ret reply, w)

theorem replied_start (p : Program ClientSig Status) (fs before : FS) : Replied (start p fs before) where
  reply h := absurd h (by simp [start, Wire.idle])
  finished h := absurd h (by simp [start])

theorem wire_reply (op : RpcOp) (x : Wire) : (wire op x).2.reply = x.reply := by
  cases op with
  | write frame =>
      unfold wire
      dsimp only
      split <;> rfl
  | finishPut =>
      unfold wire
      dsimp only
      split
      · rfl
      · split <;> rfl
  | putChunk | writesDone | tryCancel | getChunk _ | read | finishGet | headChunk _ | deleteChunk _ => rfl

/-- `Finish` gives the reply of the handler, or an error of its own. -/
theorem wire_finishPut (x : Wire) :
    x.reply = some (wire .finishPut x).1 ∨ (wire .finishPut x).1.1.ok = false := by
  unfold wire
  dsimp only
  split
  · exact Or.inr rfl
  · split
    · next reply hreply => exact Or.inl hreply
    · exact Or.inr rfl

/-- A step of the client. -/
theorem Replied.client {x : Exchange} (h : Replied x) (o : Outcome) :
    Replied { x with client := x.client.step (World.handler me wire) o } := by
  obtain ⟨⟨p, w⟩, arrived, ended, before, handling⟩ := x
  cases p with
  | ret status => exact h
  | call op again k =>
      cases op with
      | inl s =>
          refine ⟨h.reply, fun {reply} hmem hok => h.finished ?_ hok⟩
          have hrecord : (⟨.inr .finishPut, reply⟩ : Event ClientSig)
              ∈ record (.inl s) (World.handler me wire (.inl s) w o).1 w.trace := hmem
          unfold record at hrecord
          dsimp only at hrecord
          split at hrecord
          · exact hrecord
          · rcases List.mem_cons.1 hrecord with hnew | hold
            · exact absurd (Sigma.mk.inj hnew).1 Sum.inr_ne_inl
            · exact hold
      | inr op =>
          refine ⟨fun {reply} hreply => h.reply ?_, fun {reply} hmem hok => ?_⟩
          · have hsame : (wire op w.rest).2.reply = some reply := hreply
            rwa [wire_reply] at hsame
          · have hrecord : (⟨.inr .finishPut, reply⟩ : Event ClientSig)
                ∈ (⟨.inr op, (wire op w.rest).1⟩ :: w.trace : List (Event ClientSig)) := hmem
            rcases List.mem_cons.1 hrecord with hnew | hold
            · obtain ⟨hop, hr⟩ := Sigma.mk.inj hnew
              obtain rfl := Sum.inr.inj hop
              obtain rfl := eq_of_heq hr
              rcases wire_finishPut w.rest with hreply | hno
              · exact h.reply hreply
              · rw [hno] at hok
                exact absurd hok (by simp)
            · exact h.finished hold hok

/-- What happens to a handler that has returned does not matter. -/
theorem Replied.handling {x : Exchange} (h : Replied x) {arrived : List PutChunkFrame} {ended : Bool}
    {handling : Option Handling}
    (hkeeps : ∀ {reply w}, x.handling = some (.ret reply, w) → ∃ w', handling = some (.ret reply, w')) :
    Replied ⟨x.client, arrived, ended, x.before, handling⟩ where
  reply hreply := by
    obtain ⟨w, hw⟩ := h.reply hreply
    exact hkeeps hw
  finished hmem hok := by
    obtain ⟨w, hw⟩ := h.finished hmem hok
    exact hkeeps hw

/-- **Every move keeps it.** -/
theorem Replied.step {x y : Exchange} {move : Move} (h : Replied x)
    (hstep : x.step B root pid address server me move = some y) : Replied y := by
  cases move with
  | client o =>
      obtain rfl := Option.some.inj hstep
      exact h.client o
  | touch fs =>
      simp only [Exchange.step] at hstep
      split at hstep
      · obtain rfl := Option.some.inj hstep
        exact ⟨h.reply, h.finished⟩
      · exact absurd hstep (by simp)
  | cut =>
      obtain rfl := Option.some.inj hstep
      exact ⟨h.reply, h.finished⟩
  | arrive =>
      simp only [Exchange.step] at hstep
      split at hstep
      · exact absurd hstep (by simp)
      · split at hstep
        · exact absurd hstep (by simp)
        · obtain rfl := Option.some.inj hstep
          refine h.handling fun hx => ?_
          rw [hx]
          exact ⟨_, rfl⟩
  | close =>
      simp only [Exchange.step] at hstep
      split at hstep
      · obtain rfl := Option.some.inj hstep
        refine h.handling fun hx => ?_
        rw [hx]
        exact ⟨_, rfl⟩
      · exact absurd hstep (by simp)
  | handle o =>
      simp only [Exchange.step] at hstep
      split at hstep
      · exact absurd hstep (by simp)
      · next c hc =>
          split at hstep
          · exact absurd hstep (by simp)
          · obtain rfl := Option.some.inj hstep
            refine h.handling fun {reply w} hx => ?_
            obtain rfl := Option.some.inj (hc.symm.trans hx)
            exact ⟨w, rfl⟩
  | answer =>
      simp only [Exchange.step] at hstep
      split at hstep
      · next reply w hx =>
          obtain rfl := Option.some.inj hstep
          refine ⟨fun {reply'} hreply => ⟨w, ?_⟩, h.finished⟩
          have hsame : some reply = some reply' := hreply
          rw [← Option.some.inj hsame]
          exact hx
      · exact absurd hstep (by simp)

theorem run_replied {x y : Exchange} {moves : List Move}
    (hrun : x.run B root pid address server me moves = some y) (h : Replied x) : Replied y := by
  induction moves generalizing x with
  | nil =>
      obtain rfl := Option.some.inj hrun
      exact h
  | cons move moves ih =>
      obtain ⟨z, hz, hrest⟩ := Option.bind_eq_some_iff.1 hrun
      exact ih hrest (h.step hz)

/-! ## The handler -/

/-- The response of a handler that passes a status on. -/
theorem fromRpcStatus_setStatus_ok (status : Status) :
    (fromRpcStatus (setStatus status)).ok = status.ok := by
  rw [Bool.eq_iff_iff, Status.ok_iff, Status.ok_iff, fromRpcStatus_setStatus]

/-- A handler whose response says OK has made its chunk durable. -/
theorem handlePut_lasting {fs : FS} {metadata : PutChunkMetadata} {rest : List PutChunkFrame}
    (hunborn : Unborn server fs) :
    (handlePut B root pid address (.metadata metadata :: rest)).Always ((serving server).sem World.Any)
      (handlerStart (.metadata metadata :: rest) RpcOutputStream.opened fs)
      (fun reply w => (fromRpcStatus reply.2.status).ok = true →
        ∃ p, Lasting root metadata.request p w.fs) := by
  refine safe_bind.2 ?_
  unfold DataPlaneService.putChunk
  -- a request that is turned down before the store is called
  have hearly : ∀ {status : Status} {w : StoreWorld RpcInputStream RpcOutputStream}, status.ok = false →
      (fromRpcStatus (setStatus status)).ok = true → ∃ p, Lasting root metadata.request p w.fs := by
    intro status w hno hok
    rw [fromRpcStatus_setStatus_ok, hno] at hok
    exact absurd hok (by simp)
  by_cases hid : metadata.request.chunkId.valid = true
  · by_cases hsum : (validateChecksum metadata.request.expectedChecksum).ok = true
    · simp only [hid, hsum, Bool.not_true, Bool.false_eq_true, if_false]
      -- nobody else is there
      refine Safe.mono (put_leaves (B := B) (T := fun _ _ => False) (O := fun _ _ => True)
        (v := ⟨.put metadata.request pid address, RpcInputStream.read, RpcOutputStream.write,
          .ofFrames rest, .opened⟩) rfl hunborn rfl) ?_ (fun _ _ _ => trivial) ?_
      · intro w w' hsame
        rw [hsame]
        exact ⟨⟨rfl, rfl, rfl⟩, .refl, trivial⟩
      · intro status w hleaves hok
        rw [fromRpcStatus_setStatus_ok] at hok
        obtain ⟨p, -, hlasting⟩ := hleaves.lasting hok fun _ _ h => h.elim
        exact ⟨p, hlasting⟩
    · have hno : (validateChecksum metadata.request.expectedChecksum).ok = false := by simpa using hsum
      simp only [hid, hno, Bool.not_true, Bool.not_false, Bool.false_eq_true, if_false, if_true]
      exact hearly hno
  · have hno : metadata.request.chunkId.valid = false := by simpa using hid
    simp only [hno, Bool.not_false, if_true]
    exact hearly rfl

/-- A handler that says OK has stored a chunk that was not there, and made it durable. -/
theorem begin_lasting {fs : FS} {metadata : PutChunkMetadata} {rest : List PutChunkFrame}
    {reply : GrpcStatus × OperationResponse} {w : StoreWorld RpcInputStream RpcOutputStream}
    (hunborn : Unborn server fs)
    (h : (begin B root pid address fs (.metadata metadata :: rest)).Reaches (serving server) (.ret reply, w))
    (hok : (fromRpcStatus reply.2.status).ok = true) :
    fs.dir (pathFor root metadata.request.chunkId) = none ∧ ∃ p, Lasting root metadata.request p w.fs := by
  obtain ⟨ω, n, hn⟩ := h
  have hadmits : Config.Admits (serving server) World.Any
      (begin B root pid address fs (.metadata metadata :: rest)) ω := fun _ _ _ _ _ => trivial
  refine ⟨?_, (handlePut_lasting hunborn).of_returns hadmits ⟨n, hn⟩ hok⟩
  rcases (handlePut_always pid address (.metadata metadata :: rest) RpcOutputStream.opened
    fs).of_returns hadmits ⟨n, hn⟩ with ⟨hno, -⟩ | ⟨metadata', rest', status, hframes, rfl, hdone⟩
  · exact absurd rfl (hno metadata rest)
  · obtain ⟨hfirst, -⟩ := List.cons.inj hframes
    obtain rfl := PutChunkFrame.metadata.inj hfirst
    rw [fromRpcStatus_setStatus_ok, Status.ok_iff] at hok
    cases hdone with
    | invalid _ hcode => exact absurd (hok.symm.trans hcode) (by simp)
    | refused _ _ _ hreason =>
        rcases hreason with ⟨hcode, -⟩ | ⟨hcode, -⟩
        · exact absurd (hok.symm.trans hcode) (by simp)
        · exact absurd (hok.symm.trans hcode) (by simp)
    | dropped _ _ _ _ _ _ hreason =>
        rcases hreason with hrej | ⟨p, -, hcode, -⟩ | ⟨hcode, -⟩
        · exact absurd hrej.not_ok (by simp [Status.ok, hok])
        · exact absurd (hok.symm.trans hcode) (by simp)
        · exact absurd (hok.symm.trans hcode) (by simp)
    | committed _ _ _ hnone _ _ _ _ _ => exact hnone

/-- **What a client that has returned OK knows**: its frames have begun to arrive, and the chunk they are
    about was not there before and is there to stay. -/
theorem acknowledged {p : Program ClientSig Status} {fs before : FS} {moves : List Move} {x : Exchange}
    (hx : (start p fs before).run B root pid address server me moves = some x)
    (hunborn : Unborn server before) (hreported : Reported x.client.2.trace x.client.1)
    (hsent : x.client.2.rest.sent = framesSent x.client.2.trace) {request : PutChunkRequest}
    (hframes : framesSent x.client.2.trace = [] ∨ ∃ blocks : List FrameData, framesSent x.client.2.trace
      = GrpcDataPlaneClient.metadataFrame request :: dataFrames blocks)
    {status : Status} (hret : x.client.1 = .ret status) (hok : status.ok = true) :
    before.dir (pathFor root request.chunkId) = none ∧ ∃ p, Lasting root request p x.files := by
  obtain ⟨reply, hmem, hgrpc, hresponse⟩ := hreported status hret hok
  obtain ⟨w, hhandling⟩ := (run_replied hx (replied_start p fs before)).finished hmem hgrpc
  have hinv := run_inv hx (inv_start p fs before)
  have hreached := hinv.reached hhandling
  rw [(run_kept hx).before] at hreached
  have hbefore : (start p fs before).before = before := rfl
  rw [hbefore] at hreached
  have hfiles : x.files = w.fs := by simp [files, hhandling]
  -- a handler without a first frame does not say OK
  have hsome : x.arrived ≠ [] := by
    intro hnil
    rw [hnil] at hreached
    obtain ⟨ω, n, hn⟩ := hreached
    have hstays : Config.exec (serving server) (begin B root pid address before []) ω n
        = begin B root pid address before [] := Config.exec_ret rfl ω n
    rw [hstays] at hn
    rw [← Program.ret.inj (congrArg Prod.fst hn)] at hgrpc
    exact absurd hgrpc (by decide)
  have hprefix := hinv.arrived
  rw [hsent] at hprefix
  obtain ⟨first, rest, harrived⟩ := List.exists_cons_of_ne_nil hsome
  rw [harrived] at hprefix hreached
  rcases hframes with hnil | ⟨blocks, hall⟩
  · rw [hnil] at hprefix
    exact absurd (List.prefix_nil.1 hprefix) (by simp)
  · rw [hall] at hprefix hresponse
    obtain ⟨rfl, -⟩ := List.cons_prefix_cons.1 hprefix
    have hresponse' := hresponse.resolve_left (by simp)
    have hrequest : PutChunkMetadata.request ⟨request.chunkId.value, request.expectedSize,
        request.expectedChecksum.value⟩ = request := by
      obtain ⟨⟨id⟩, size, ⟨⟨⟩, value⟩⟩ := request
      rfl
    obtain ⟨hnone, q, hlasting⟩ := begin_lasting hunborn hreached hresponse'
    rw [hrequest] at hnone hlasting
    rw [hfiles]
    exact ⟨hnone, q, hlasting⟩

end Exchange

open Exchange in
/-- **An acknowledged upload is stored for good.** In every run of `Put` and the worker it uploads to,
    whatever the source does meanwhile and whatever is lost on the way: once `Put` has returned OK the
    worker shows, under the id of the object, the header and the first blocks of the second pass over
    the source, with the length and the hash of the first pass; the chunk was not there before the
    upload; and it is still there, byte for byte, after any power failure of the worker. -/
theorem acknowledged_upload_lasts (B : Blake3) (root : Bytes) (pid address server me : ℕ)
    (objectId : ObjectId) (source : Path) (fs before : FS) (moves : List Move) (x : Exchange)
    (status : Status) (hunborn : Unborn server before)
    (hx : (start (StorageClient.put B objectId source) fs before).run B root pid address server me moves
      = some x)
    (hret : x.client.1 = .ret status) (hok : status.ok = true) :
    ∃ fd first fd' reads, ∃ blocks : List FrameData,
      passes x.client.2.trace = [(fd', reads), (fd, first)] ∧ blocks.map Subtype.val <+: reads ∧
      (payload blocks).length = first.flatten.length ∧ B.hex (payload blocks) = B.hex first.flatten ∧
      before.dir (pathFor root ⟨objectId.value⟩) = none ∧
      x.files.contents (pathFor root ⟨objectId.value⟩) = some (chunkFile B (payload blocks)) ∧
      ∀ fs', x.files.Crash fs' →
        fs'.contents (pathFor root ⟨objectId.value⟩) = some (chunkFile B (payload blocks)) := by
  have hfollowing : Following (fun t p => Storing B objectId t p ∧ Reported t p) x.client :=
    run_following hx (fun h => h.1.1) (start_following
      ((clientPut_tracks B objectId source).and (clientPut_reports B objectId source)) fs before)
  obtain ⟨⟨-, hstoring⟩, hreported⟩ := hfollowing.tracks.here
  have hkept : before.dir (pathFor root ⟨objectId.value⟩) = none ∧
      ∃ file, x.files.contents (pathFor root ⟨objectId.value⟩) = some file ∧
        ∀ fs', x.files.Crash fs' → fs'.contents (pathFor root ⟨objectId.value⟩) = some file := by
    rcases hstoring with hnil | ⟨fd, first, fd', reads, blocks, hsent, -⟩
    · have hframes : framesSent x.client.2.trace = [] ∨ ∃ blocks : List FrameData,
          framesSent x.client.2.trace = GrpcDataPlaneClient.metadataFrame
            ⟨⟨objectId.value⟩, 0, ⟨.kBlake3, []⟩⟩ :: dataFrames blocks := Or.inl hnil
      obtain ⟨hnone, p, hlasting⟩ := acknowledged hx hunborn hreported hfollowing.sent hframes hret hok
      exact ⟨hnone, _, hlasting.contents⟩
    · obtain ⟨hnone, p, hlasting⟩ := acknowledged hx hunborn hreported hfollowing.sent
        (Or.inr ⟨blocks, hsent⟩) hret hok
      exact ⟨hnone, _, hlasting.contents⟩
  obtain ⟨hnone, file, hfile, hcrash⟩ := hkept
  obtain ⟨fd, first, fd', reads, blocks, hpasses, hread, -, rfl, hlength, hhash⟩ :=
    clientPut_agrees hx hnone hfile
  exact ⟨fd, first, fd', reads, blocks, hpasses, hread, hlength, hhash, hnone, hfile, hcrash⟩

/-- The client has returned OK. -/
def Exchange.succeeded (x : Exchange) : Bool :=
  match x.client.1 with
  | .ret status => status.ok
  | .call _ _ _ => false

/-- The reply of the handler gets back to the client. -/
def acknowledgedExchange : Option Exchange :=
  (Exchange.start (StorageClient.put Blake3.sample ⟨[0x61]⟩ ⟨[0x63], [0x61]⟩) (sourceOf [0x61])
    (FS.empty 255)).run Blake3.sample [0x72] 1 2 0 0 (wholeUpload ++ [.answer, .client .done])

/-- An upload of one byte, and a power failure of the worker that loses what was not made durable. -/
theorem acknowledged_upload_lasts_one_byte :
    ∃ x, ∃ blocks : List FrameData, acknowledgedExchange = some x ∧ (payload blocks).length = 1 ∧
      x.files.lose.contents (pathFor [0x72] ⟨[0x61]⟩)
        = some (chunkFile Blake3.sample (payload blocks)) := by
  have hsucceeded : acknowledgedExchange.map Exchange.succeeded = some true := by decide +kernel
  have hpasses : acknowledgedExchange.map (fun x => passes x.client.2.trace)
      = some [(1, [[0x61], []]), (0, [[0x61], []])] := by decide +kernel
  obtain ⟨x, hx, hok⟩ := Option.map_eq_some_iff.1 hsucceeded
  rw [hx] at hpasses
  unfold Exchange.succeeded at hok
  cases hprog : x.client.1 with
  | call op again k => simp [hprog] at hok
  | ret status =>
      rw [hprog] at hok
      obtain ⟨fd, first, fd', reads, blocks, hboth, -, hlength, -, -, -, hcrash⟩ :=
        acknowledged_upload_lasts Blake3.sample [0x72] 1 2 0 0 ⟨[0x61]⟩ ⟨[0x63], [0x61]⟩ (sourceOf [0x61])
          (FS.empty 255) _ x status (fun i n hn => absurd hn (by simp [FS.empty])) hx hprog hok
      obtain ⟨-, hrest⟩ := List.cons.inj (hboth.symm.trans (Option.some.inj hpasses))
      obtain ⟨rfl, rfl⟩ := Prod.mk.inj (List.cons.inj hrest).1
      exact ⟨x, blocks, hx, hlength, hcrash _ (FS.crash_lose _)⟩

end ChunkStorage
