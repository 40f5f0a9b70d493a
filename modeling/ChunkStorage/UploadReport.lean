import ChunkStorage.Client

set_option autoImplicit false

/-! # What an upload reports

`GrpcDataPlaneClient::PutChunk` should report success only if the worker did. It looks at the
response on one of its paths and not on the other: when the first `Write` is refused it reports the
status of the RPC and drops the response. `putChunk_honest_iff` says that this is the only way to a
report that the worker did not make, for every transport. -/

namespace ChunkStorage

open Effects Posix Program

/-! ## What a trace shows -/

/-- What `Finish` of an upload returned. -/
def finishReply : List (Event ClientSig) → Option (GrpcStatus × OperationResponse)
  | [] => none
  | ⟨.inr .finishPut, reply⟩ :: _ => some reply
  | _ :: events => finishReply events

/-- The `Write` of the metadata was refused. -/
def metadataRefused : List (Event ClientSig) → Bool
  | [] => false
  | ⟨.inr (.write (.metadata _)), false⟩ :: _ => true
  | _ :: events => metadataRefused events

/-- The source could not be opened, or a read of it failed. -/
def sourceFailed : List (Event ClientSig) → Bool
  | [] => false
  | ⟨.inl (.openRead _), .error _⟩ :: _ => true
  | ⟨.inl (.read _ _), .error _⟩ :: _ => true
  | _ :: events => sourceFailed events

/-- The worker answered, and reported an error in the response. -/
def ErrorReply (reply : GrpcStatus × OperationResponse) : Prop :=
  reply.1.ok = true ∧ reply.2.status.code ≠ .STATUS_CODE_OK

/-- An upload that ended with `status` reports what the worker reported: OK only if `Finish` gave an
    OK status and an OK response, and the error in the response if there was one and the source could
    be read. -/
structure Honest (status : Status) (trace : List (Event ClientSig)) : Prop where
  of_ok : status.ok = true → ∃ reply, finishReply trace = some reply ∧ reply.1.ok = true ∧
    reply.2.status.code = .STATUS_CODE_OK
  of_error : ∀ reply, finishReply trace = some reply → ErrorReply reply → sourceFailed trace = false →
    status.code = fromRpcCode reply.2.status.code

/-! ## The paths of `PutChunk` -/

/-- The four ways `PutChunk` ends. -/
inductive UploadEnd : Status → List (Event ClientSig) → Prop
  | unopened {status : Status} {trace : List (Event ClientSig)} : status.code = .kIoError →
      sourceFailed trace = true → finishReply trace = none → metadataRefused trace = false →
      UploadEnd status trace
  | refused {reply : GrpcStatus × OperationResponse} {trace : List (Event ClientSig)} :
      metadataRefused trace = true → finishReply trace = some reply → sourceFailed trace = false →
      UploadEnd (fromGrpcStatus reply.1) trace
  | unread {status : Status} {reply : GrpcStatus × OperationResponse}
      {trace : List (Event ClientSig)} : status.code = .kIoError → sourceFailed trace = true →
      finishReply trace = some reply → metadataRefused trace = false → UploadEnd status trace
  | finished {reply : GrpcStatus × OperationResponse} {trace : List (Event ClientSig)} :
      finishReply trace = some reply → metadataRefused trace = false →
      UploadEnd (if reply.1.ok then fromRpcStatus reply.2.status else fromGrpcStatus reply.1) trace

section Paths

variable {β : Type} {transport : Transport β} {me : ℕ}

/-- The send loop neither finishes the RPC nor writes metadata, and fails only where a read of the
    source does. -/
theorem send_always (fd rounds : ℕ) {w : ClientWorld β} (hw : sourceFailed w.trace = false) :
    (GrpcDataPlaneClient.send fd rounds).Always ((World.handler me transport).sem World.Any) w
      (fun r w' => finishReply w'.trace = finishReply w.trace ∧
        metadataRefused w'.trace = metadataRefused w.trace ∧
        sourceFailed w'.trace = !r.toBool) := by
  induction rounds generalizing w with
  | zero => exact ⟨rfl, rfl, hw⟩
  | succ rounds ih =>
      unfold GrpcDataPlaneClient.send
      refine safe_transfer fun w₁ hR o r fds' fs' _ _ hint => ⟨trivial, ?_⟩
      subst hR
      have htrace := w.answered_trace hint fds' fs'
      generalize w.answered _ r fds' fs' = w₁ at htrace ⊢
      cases r with
      | error e =>
          simp only [pure_eq_ret, safe_ret, htrace]
          exact ⟨rfl, rfl, rfl⟩
      | ok bytes =>
          by_cases hend : bytes.length = 0
          · simp only [hend, if_true, pure_eq_ret, safe_ret, htrace]
            exact ⟨rfl, rfl, hw⟩
          · simp only [hend, if_false]
            refine safe_other fun w₂ hR accepted rest _ => ⟨trivial, ?_⟩
            subst hR
            have htrace₂ : (w₁.replied (.write (.data bytes)) accepted rest).trace
                = ⟨.inr (.write (.data bytes)), accepted⟩ ::
                  ⟨.inl (.read fd GrpcDataPlaneClient.kBufferSize), .ok bytes⟩ :: w.trace := by
              rw [World.replied_trace, htrace]
            generalize w₁.replied _ accepted rest = w₂ at htrace₂ ⊢
            cases accepted with
            | false =>
                simp only [Bool.not_false, if_true, pure_eq_ret, safe_ret, htrace₂]
                exact ⟨rfl, rfl, hw⟩
            | true =>
                simp only [Bool.not_true, Bool.false_eq_true, if_false]
                refine (ih (w := w₂) (by rw [htrace₂]; exact hw)).imp fun r w' h => ?_
                rw [htrace₂] at h
                exact h

/-- **`PutChunk` ends in one of four ways**, whatever the transport and the source do. -/
theorem putChunk_always (request : PutChunkRequest) (source : Path) {w : ClientWorld β}
    (hw : w.trace = []) :
    (GrpcDataPlaneClient.putChunk request source).Always
      ((World.handler me transport).sem World.Any) w (fun status w' => UploadEnd status w'.trace) := by
  unfold GrpcDataPlaneClient.putChunk
  refine safe_sys fun w₁ hR o r fds' fs' _ _ => ⟨trivial, ?_⟩
  subst hR
  have htrace : (w.answered (.openRead source) r fds' fs').trace = [⟨.inl (.openRead source), r⟩] :=
    (w.answered_trace (by simp [Syscall.interrupted]) fds' fs').trans (by rw [hw])
  generalize w.answered _ r fds' fs' = w₁ at htrace ⊢
  cases r with
  | error e => exact .unopened rfl (by rw [htrace]; rfl) (by rw [htrace]; rfl) (by rw [htrace]; rfl)
  | ok fd =>
      refine safe_other fun w₂ hR r rest _ => ⟨trivial, ?_⟩
      subst hR
      refine safe_other fun w₃ hR accepted rest₁ _ => ⟨trivial, ?_⟩
      subst hR
      cases accepted with
      | false =>
          refine safe_other fun w₄ hR r rest₂ _ => ⟨trivial, ?_⟩
          subst hR
          refine safe_other fun w₅ hR reply rest₃ _ => ⟨trivial, ?_⟩
          subst hR
          refine .refused ?_ rfl ?_
          · simp only [World.replied_trace, htrace]
            rfl
          · simp only [World.replied_trace, htrace]
            rfl
      | true =>
          refine safe_bind.2 ((send_always fd (offMax + 1) ?_).imp ?_)
          · simp only [World.replied_trace, htrace]
            rfl
          intro r w' hsent
          simp only [World.replied_trace, htrace] at hsent
          obtain ⟨-, hrefused, hfailed⟩ := hsent
          cases r with
          | error e =>
              refine safe_other fun w₄ hR r rest₂ _ => ⟨trivial, ?_⟩
              subst hR
              refine safe_other fun w₅ hR r rest₃ _ => ⟨trivial, ?_⟩
              subst hR
              refine safe_other fun w₆ hR reply rest₄ _ => ⟨trivial, ?_⟩
              subst hR
              exact .unread rfl hfailed rfl hrefused
          | ok u =>
              refine safe_other fun w₄ hR r rest₂ _ => ⟨trivial, ?_⟩
              subst hR
              refine safe_other fun w₅ hR reply rest₃ _ => ⟨trivial, ?_⟩
              subst hR
              have hend : UploadEnd (if reply.1.ok then fromRpcStatus reply.2.status
                  else fromGrpcStatus reply.1)
                  ((w'.replied .writesDone r rest₂).replied .finishPut reply rest₃).trace :=
                .finished rfl hrefused
              by_cases hok : reply.1.ok = true
              · rw [if_pos hok] at hend
                simpa only [hok, Bool.not_true, Bool.false_eq_true, if_false, pure_eq_ret, safe_ret]
                  using hend
              · rw [if_neg hok] at hend
                have hno : reply.1.ok = false := by simpa using hok
                simpa only [hno, Bool.not_false, if_true, pure_eq_ret, safe_ret] using hend

end Paths

/-- Each of the four ends is honest, unless the metadata was refused and the worker reported an
    error. -/
theorem UploadEnd.honest_iff {status : Status} {trace : List (Event ClientSig)}
    (h : UploadEnd status trace) :
    Honest status trace ↔
      ¬ (metadataRefused trace = true ∧ ∃ reply, finishReply trace = some reply ∧ ErrorReply reply) := by
  have hio : ∀ {s : Status}, s.code = .kIoError → s.ok = false := by
    intro s hs
    simp [Status.ok, hs]
  cases h with
  | unopened hcode _ hnone haccepted =>
      refine ⟨fun _ hbad => absurd hbad.1 (by simp [haccepted]), fun _ => ⟨fun hok => ?_, ?_⟩⟩
      · rw [hio hcode] at hok
        exact absurd hok (by simp)
      · intro reply hreply
        rw [hnone] at hreply
        exact absurd hreply (by simp)
  | @refused reply _ hrefused hreply _ =>
      constructor
      · rintro hhonest ⟨-, reply', hreply', herror⟩
        obtain rfl : reply = reply' := Option.some.inj (hreply.symm.trans hreply')
        -- the status of the RPC is reported as a success
        obtain ⟨reply'', hreply'', -, hcode⟩ :=
          hhonest.of_ok (by rw [fromGrpcStatus_ok]; exact herror.1)
        obtain rfl : reply = reply'' := Option.some.inj (hreply.symm.trans hreply'')
        exact herror.2 hcode
      · intro hgood
        have hnoError : ¬ ErrorReply reply := fun herror => hgood ⟨hrefused, reply, hreply, herror⟩
        refine ⟨fun hok => ?_, fun reply' hreply' herror => ?_⟩
        · rw [fromGrpcStatus_ok] at hok
          exact ⟨reply, hreply, hok, by_contra fun hcode => hnoError ⟨hok, hcode⟩⟩
        · obtain rfl : reply = reply' := Option.some.inj (hreply.symm.trans hreply')
          exact absurd herror hnoError
  | @unread _ reply _ hcode hfailed hreply haccepted =>
      refine ⟨fun _ hbad => absurd hbad.1 (by simp [haccepted]), fun _ => ⟨fun hok => ?_, ?_⟩⟩
      · rw [hio hcode] at hok
        exact absurd hok (by simp)
      · intro reply' _ _ hreadable
        rw [hfailed] at hreadable
        exact absurd hreadable (by simp)
  | @finished reply _ hreply haccepted =>
      refine ⟨fun _ hbad => absurd hbad.1 (by simp [haccepted]), fun _ => ⟨fun hok => ?_, ?_⟩⟩
      · by_cases hgrpc : reply.1.ok = true
        · rw [if_pos hgrpc, fromRpcStatus_ok] at hok
          exact ⟨reply, hreply, hgrpc, hok⟩
        · rw [if_neg hgrpc, fromGrpcStatus_ok] at hok
          exact absurd hok hgrpc
      · intro reply' hreply' herror _
        obtain rfl : reply = reply' := Option.some.inj (hreply.symm.trans hreply')
        rw [if_pos herror.1, fromRpcStatus_code]

/-- **When an upload reports what the worker reported.** For every transport, every source and every
    outcome of the system calls, `PutChunk` returns, and its report is honest if and only if it is
    not the case that the metadata was refused and `Finish` then gave an OK status with an error in
    the response. -/
theorem putChunk_honest_iff {β : Type} (transport : Transport β) (me : ℕ)
    (request : PutChunkRequest) (source : Path) (fs : FS) (state : β) (ω : ℕ → Outcome)
    (hfair : Config.Fair (World.handler me transport)
      (GrpcDataPlaneClient.putChunk request source, ⟨[], fs, [], state⟩) ω) :
    ∃ status w', Config.Returns (World.handler me transport)
        (GrpcDataPlaneClient.putChunk request source, ⟨[], fs, [], state⟩) ω status w' ∧
      (Honest status w'.trace ↔ ¬ (metadataRefused w'.trace = true ∧
        ∃ reply, finishReply w'.trace = some reply ∧ ErrorReply reply)) := by
  obtain ⟨status, w', hret, hend⟩ := Always.returns (putChunk_always request source rfl)
    (fun _ _ _ _ _ => trivial) hfair
  exact ⟨status, w', hret, hend.honest_iff⟩

/-- A transport that refuses every frame, for a worker that answers with the given reply. -/
def refusingTransport (reply : GrpcStatus × OperationResponse) : Transport Unit
  | .write _, s => (false, s)
  | .finishPut, s => (reply, s)
  | .deleteChunk _, s => (reply, s)
  | .read, s => (none, s)
  | .finishGet, s => (reply.1, s)
  | .headChunk _, s => ((reply.1, .unset), s)
  | .putChunk, s => ((), s)
  | .writesDone, s => ((), s)
  | .tryCancel, s => ((), s)
  | .getChunk _, s => ((), s)

/-- A file system with the empty file `"a"` in the directory `"c"`. -/
def sampleSource : FS := (FS.empty 255).create ⟨[0x63], [0x61]⟩ 0

/-- The upload of the empty file. -/
def sampleUpload : Config ClientSig Status (ClientWorld Unit) :=
  (GrpcDataPlaneClient.putChunk (samplePut []) ⟨[0x63], [0x61]⟩, ⟨[], sampleSource, [], ()⟩)

/-- How the sample upload ends when the metadata is refused. -/
theorem sampleUpload_refused (reply : GrpcStatus × OperationResponse) :
    ∃ w', Config.Returns (World.handler 0 (refusingTransport reply)) sampleUpload (fun _ => .done)
        (fromGrpcStatus reply.1) w' ∧
      finishReply w'.trace = some reply ∧ metadataRefused w'.trace = true := by
  exact ⟨(Config.exec (World.handler 0 (refusingTransport reply)) sampleUpload (fun _ => .done) 5).2,
    ⟨5, rfl⟩, rfl, rfl⟩

/-- The worker cannot be reached. -/
theorem putChunk_honest_unreachable :
    ∃ status w', Config.Returns (World.handler 0 (refusingTransport (⟨.UNAVAILABLE, []⟩, .unset)))
      sampleUpload (fun _ => .done) status w' ∧ Honest status w'.trace := by
  obtain ⟨-, hfair⟩ : Config.Admits (World.handler 0 (refusingTransport (⟨.UNAVAILABLE, []⟩, .unset)))
        World.Any sampleUpload (fun _ => .done) ∧
      Config.Fair (World.handler 0 (refusingTransport (⟨.UNAVAILABLE, []⟩, .unset))) sampleUpload
        (fun _ => .done) :=
    Config.ends_spec (fun _ _ _ => true) (fun _ => trivial) (n := 10) (by decide +kernel)
  obtain ⟨status, w', hret, hiff⟩ := putChunk_honest_iff
    (refusingTransport (⟨.UNAVAILABLE, []⟩, .unset)) 0 (samplePut []) ⟨[0x63], [0x61]⟩ sampleSource ()
    (fun _ => .done) hfair
  obtain ⟨w'', hret', hreply, -⟩ := sampleUpload_refused (⟨.UNAVAILABLE, []⟩, .unset)
  obtain ⟨-, rfl⟩ := hret.unique hret'
  refine ⟨status, w', hret, hiff.2 ?_⟩
  rintro ⟨-, reply, hreply', herror, -⟩
  rw [← Option.some.inj (hreply.symm.trans hreply')] at herror
  exact absurd herror (by decide)

/-- **A success that nobody reported**: the worker says that the chunk exists already, and the client
    says that it is stored. -/
theorem putChunk_not_honest :
    ∃ w', Config.Returns
        (World.handler 0 (refusingTransport (.Ok, ⟨⟨.STATUS_CODE_ALREADY_EXISTS, []⟩⟩)))
        sampleUpload (fun _ => .done) .Ok w' ∧
      finishReply w'.trace = some (.Ok, ⟨⟨.STATUS_CODE_ALREADY_EXISTS, []⟩⟩) ∧
      ¬ Honest .Ok w'.trace := by
  obtain ⟨w', hret, hreply, -⟩ :=
    sampleUpload_refused (.Ok, ⟨⟨.STATUS_CODE_ALREADY_EXISTS, []⟩⟩)
  refine ⟨w', hret, hreply, fun hhonest => ?_⟩
  obtain ⟨reply, hreply', -, hcode⟩ := hhonest.of_ok rfl
  rw [← Option.some.inj (hreply.symm.trans hreply')] at hcode
  exact absurd hcode (by decide)

end ChunkStorage
