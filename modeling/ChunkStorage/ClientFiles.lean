import ChunkStorage.Client
import ChunkStorage.Interference

set_option autoImplicit false

/-! # The files of the client

The loops of the client over its own files, with any interference around them: `HashFile` reads a
file to its end (`Scans`), `PutChunk` sends what it reads of the source (`Uploads`), and `GetChunk`
appends the frames of a download to the file it created (`Downloads`). As for the worker's files, what a loop needs of its surroundings is an assertion that
keeps up with what was read or written. -/

namespace ChunkStorage

open Effects Posix Program

variable {β : Type} {transport : Transport β} {me : ℕ}
  {ok : (op : ClientSig.Op) → ClientWorld β → Outcome → Prop}
  {R G : ClientWorld β → ClientWorld β → Prop}

/-! ## Reading a file to its end -/

/-- `P s` knows that `s` was read through the descriptor so far, and `E s` that it is all there was
    when the end of the file was reached. -/
structure Scans (me : ℕ) (R G : ClientWorld β → ClientWorld β → Prop)
    (P E : Bytes → ClientWorld β → Prop) (fd : ℕ) : Prop where
  env : ∀ {s w w'}, P s w → R w w' → P s w'
  le : ∀ {s w}, P s w → s.length ≤ offMax
  failed : ∀ {s w count o e fds fs}, P s w →
    (Syscall.read fd count).exec me w.fds w.fs o = (.error e, fds, fs) →
    ∀ w', w' = w.answered (.read fd count) (.error e) fds fs →
      P s w' ∧ G w w' ∧ (o.Calm (.read fd count) → e = .EINTR)
  read : ∀ {s w count o bytes fds fs}, P s w →
    (Syscall.read fd count).exec me w.fds w.fs o = (.ok bytes, fds, fs) →
    ∀ w', w' = w.answered (.read fd count) (.ok bytes) fds fs →
      P (s ++ bytes) w' ∧ G w w' ∧ (bytes = [] → 0 < count → E s w')

/-- Reading leaves the transport where it is. -/
theorem Scans.rest {P E : Bytes → ClientWorld β → Prop} {fd : ℕ} (h : Scans me R G P E fd)
    (hrest : ∀ {w w'}, R w w' → w'.rest = w.rest) (b : β) :
    Scans me R G (fun s w => P s w ∧ w.rest = b) (fun s w => E s w ∧ w.rest = b) fd where
  env hw hR := ⟨h.env hw.1 hR, (hrest hR).trans hw.2⟩
  le hw := h.le hw.1
  failed hw hexec w' hw' := by
    obtain ⟨hP, hG, hcalm⟩ := h.failed hw.1 hexec w' hw'
    exact ⟨⟨hP, by rw [hw']; exact hw.2⟩, hG, hcalm⟩
  read hw hexec w' hw' := by
    obtain ⟨hP, hG, hend⟩ := h.read hw.1 hexec w' hw'
    have hrest' : w'.rest = b := by rw [hw']; exact hw.2
    exact ⟨⟨hP, hrest'⟩, hG, fun hnil hpos => ⟨hend hnil hpos, hrest'⟩⟩

/-- The loop of `HashFile` hashes and counts what the file holds. -/
theorem hashLoop_safe (B : Blake3) {P E : Bytes → ClientWorld β → Prop} {fd : ℕ}
    (h : Scans me R G P E fd) (rounds : ℕ) {s : Bytes} (hrounds : offMax < s.length + rounds)
    {w : ClientWorld β} (hw : P s w) :
    (StorageClient.hashLoop B fd rounds (B.update B.init s) (UInt64.ofNat s.length)).Safe
      ((World.handler me transport).sem ok) R G
      (fun r w' =>
        (∃ s', E s' w' ∧ r = .ok (B.update B.init s', UInt64.ofNat s'.length)) ∨
          ∃ e : ErrorStatus, r = .error e ∧ (∃ s', P s' w') ∧ e.1.code = .kIoError ∧
            ¬ World.NeverFails ok) w := by
  induction rounds generalizing s w with
  | zero =>
      have := h.le hw
      omega
  | succ rounds ih =>
      unfold StorageClient.hashLoop
      refine safe_transfer fun w₁ hR o r fds fs hok hexec hint => ?_
      have hw₁ := h.env hw hR
      cases r with
      | error e =>
          obtain ⟨hP, hG, hcalm⟩ := h.failed hw₁ hexec _ rfl
          refine ⟨hG, Or.inr ⟨_, rfl, ⟨s, hP⟩, rfl, fun hnever => hint ?_⟩⟩
          rw [hcalm (hnever _ _ _ hok).1]
          rfl
      | ok bytes =>
          obtain ⟨hP, hG, hend⟩ := h.read hw₁ hexec _ rfl
          refine ⟨hG, ?_⟩
          by_cases h0 : bytes.length = 0
          · simp only [h0, if_true]
            exact Or.inl ⟨s, hend (List.length_eq_zero_iff.1 h0) (by decide), rfl⟩
          · simp only [h0, if_false]
            rw [B.update_append, ← UInt64.ofNat_add, ← List.length_append]
            refine ih ?_ hP
            rw [List.length_append]
            omega

/-- `HashFile`, from the descriptor it opened. -/
theorem hashOpened_safe (B : Blake3) {P E : Bytes → ClientWorld β → Prop} {fd : ℕ}
    (h : Scans me R G P E fd) {w : ClientWorld β} (hw : P [] w) :
    (StorageClient.hashLoop B fd (offMax + 1) B.init 0).Safe
      ((World.handler me transport).sem ok) R G
      (fun r w' =>
        (∃ s, E s w' ∧ r = .ok (B.update B.init s, UInt64.ofNat s.length)) ∨
          ∃ e : ErrorStatus, r = .error e ∧ (∃ s, P s w') ∧ e.1.code = .kIoError ∧
            ¬ World.NeverFails ok) w := by
  have hrounds : offMax < ([] : Bytes).length + (offMax + 1) := by simp
  have hloop : (StorageClient.hashLoop B fd (offMax + 1) (B.update B.init []) 0).Safe
      ((World.handler me transport).sem ok) R G _ w :=
    hashLoop_safe B h (offMax + 1) hrounds hw
  rwa [B.update_nil] at hloop

/-! ## Sending a file -/

/-- The bytes of the frames, in order. -/
def payload (blocks : List FrameData) : Bytes := (blocks.map Subtype.val).flatten

/-- The data frames of the blocks. -/
def dataFrames (blocks : List FrameData) : List PutChunkFrame := blocks.map fun block => .data block.1

@[simp] theorem payload_nil : payload [] = [] := rfl

@[simp] theorem payload_cons (block : FrameData) (blocks : List FrameData) :
    payload (block :: blocks) = block.1 ++ payload blocks := rfl

@[simp] theorem payload_append (xs ys : List FrameData) :
    payload (xs ++ ys) = payload xs ++ payload ys := by
  simp [payload]

/-- The transport takes the data frames of the blocks, one after the other. -/
inductive Sent (transport : Transport β) : β → List FrameData → β → Prop
  | nil {b : β} : Sent transport b [] b
  | cons {b b₁ b' : β} {block : FrameData} {blocks : List FrameData} :
      transport (.write (.data block.1)) b = (true, b₁) → Sent transport b₁ blocks b' →
      Sent transport b (block :: blocks) b'

/-- `P s` knows that `s` was read of the source and survives the RPCs, as `E s` does that knows that
    it is all there was, and nobody else moves the transport. -/
structure Uploads (me : ℕ) (R G : ClientWorld β → ClientWorld β → Prop)
    (P E : Bytes → ClientWorld β → Prop) (fd : ℕ) : Prop extends Scans me R G P E fd where
  rest : ∀ {w w'}, R w w' → w'.rest = w.rest
  rpc : ∀ {s w} (op : RpcOp) (r : op.Ret) (rest : β), P s w →
    P s (w.replied op r rest) ∧ G w (w.replied op r rest)
  ended : ∀ {s w w'}, E s w → R w w' → E s w'
  rpcEnded : ∀ {s w} (op : RpcOp) (r : op.Ret) (rest : β), E s w →
    E s (w.replied op r rest) ∧ G w (w.replied op r rest)

/-- What was read and sent when the send loop stops: the source ended, a frame was refused, or a
    read failed. -/
inductive SendDone (transport : Transport β)
    (ok : (op : ClientSig.Op) → ClientWorld β → Outcome → Prop)
    (P E : Bytes → ClientWorld β → Prop) (s : Bytes) (b : β) :
    Except Errno Unit → ClientWorld β → Prop
  | ended (blocks : List FrameData) {w' : ClientWorld β} : Sent transport b blocks w'.rest →
      E (s ++ payload blocks) w' → SendDone transport ok P E s b (.ok ()) w'
  | refused (blocks : List FrameData) (block : FrameData) {b₁ : β} {w' : ClientWorld β} :
      Sent transport b blocks b₁ → transport (.write (.data block.1)) b₁ = (false, w'.rest) →
      P (s ++ payload blocks ++ block.1) w' → SendDone transport ok P E s b (.ok ()) w'
  | failed {e : Errno} {s' : Bytes} {w' : ClientWorld β} : P s' w' → ¬ World.NeverFails ok →
      SendDone transport ok P E s b (.error e) w'

/-- **The send loop of `PutChunk`** sends the source block by block, up to its end or a refusal. -/
theorem send_safe {P E : Bytes → ClientWorld β → Prop} {fd : ℕ} (h : Uploads me R G P E fd)
    (rounds : ℕ) {s : Bytes} (hrounds : offMax < s.length + rounds) {w : ClientWorld β}
    (hw : P s w) :
    (GrpcDataPlaneClient.send fd rounds).Safe ((World.handler me transport).sem ok) R G
      (SendDone transport ok P E s w.rest) w := by
  induction rounds generalizing s w with
  | zero =>
      have := h.le hw
      omega
  | succ rounds ih =>
      unfold GrpcDataPlaneClient.send
      refine safe_transfer fun w₁ hR o r fds fs hok hexec hint => ?_
      have hw₁ := h.env hw hR
      have hrest₁ := h.rest hR
      cases r with
      | error e =>
          obtain ⟨hP, hG, hcalm⟩ := h.failed hw₁ hexec _ rfl
          refine ⟨hG, .failed hP fun hnever => hint ?_⟩
          rw [hcalm (hnever _ _ _ hok).1]
          rfl
      | ok bytes =>
          obtain ⟨hP, hG, hend⟩ := h.read hw₁ hexec _ rfl
          refine ⟨hG, ?_⟩
          by_cases h0 : bytes.length = 0
          · simp only [h0, if_true]
            refine .ended [] ?_ ?_
            · rw [World.answered_rest, hrest₁]
              exact .nil
            · rw [payload_nil, List.append_nil]
              exact hend (List.length_eq_zero_iff.1 h0) (by decide)
          · simp only [h0, if_false]
            have hne : bytes ≠ [] := fun hnil => h0 (by rw [hnil]; rfl)
            refine safe_other fun w₂ hR₂ accepted rest hreply => ?_
            rw [h.rest hR₂, World.answered_rest, hrest₁] at hreply
            obtain ⟨hP₂, hG₂⟩ := h.rpc (.write (.data bytes)) accepted rest (h.env hP hR₂)
            refine ⟨hG₂, ?_⟩
            cases accepted with
            | false =>
                simp only [Bool.not_false, if_true]
                exact .refused [] ⟨bytes, hne⟩ .nil hreply (by simpa using hP₂)
            | true =>
                simp only [Bool.not_true, Bool.false_eq_true, if_false]
                have hpos := List.length_pos_iff.2 hne
                refine (ih (by rw [List.length_append]; omega) hP₂).imp fun r w' hdone => ?_
                cases hdone with
                | ended blocks hsent hE =>
                    refine .ended (⟨bytes, hne⟩ :: blocks) (.cons hreply hsent) ?_
                    rwa [payload_cons, ← List.append_assoc]
                | refused blocks block hsent hrefused hP' =>
                    refine .refused (⟨bytes, hne⟩ :: blocks) block (.cons hreply hsent) hrefused ?_
                    rwa [payload_cons, ← List.append_assoc]
                | failed hP' hfail => exact .failed hP' hfail

/-- `A` holds until the source is opened, and then `P fd` and `E fd` keep up with what is read. -/
structure Source (me : ℕ) (R G : ClientWorld β → ClientWorld β → Prop) (source : Path)
    (A : ClientWorld β → Prop) (P E : ℕ → Bytes → ClientWorld β → Prop) : Prop where
  env : ∀ {w w'}, A w → R w w' → A w'
  failed : ∀ {w} (e : Errno), A w → G w (w.answered (.openRead source) (.error e) w.fds w.fs)
  opened : ∀ {w i}, A w → w.fs.dir source = some i →
    ∀ w', w' = w.answered (.openRead source) (.ok w.fds.length) (w.fds ++ [⟨i, 0⟩]) w.fs →
      P w.fds.length [] w' ∧ G w w'
  uploads : ∀ fd, Uploads me R G (P fd) (E fd) fd

/-- The transport starts an upload and takes its metadata. -/
def Started (transport : Transport β) (request : PutChunkRequest) (b b' : β) : Prop :=
  ∃ b₀, transport .putChunk b = ((), b₀) ∧
    transport (.write (GrpcDataPlaneClient.metadataFrame request)) b₀ = (true, b')

/-- The transport is told that no frame follows, and answers. -/
def Finished (transport : Transport β) (b : β) (reply : GrpcStatus × OperationResponse) (b' : β) :
    Prop :=
  ∃ b₀, transport .writesDone b = ((), b₀) ∧ transport .finishPut b₀ = (reply, b')

/-- What `PutChunk` reports after `Finish`. -/
def uploadStatus (reply : GrpcStatus × OperationResponse) : Status :=
  if reply.1.ok then fromRpcStatus reply.2.status else fromGrpcStatus reply.1

/-- How `PutChunk` ends. -/
inductive PutChunkDone (transport : Transport β)
    (ok : (op : ClientSig.Op) → ClientWorld β → Outcome → Prop) (request : PutChunkRequest)
    (source : Path) (A : ClientWorld β → Prop) (P E : ℕ → Bytes → ClientWorld β → Prop) (b : β) :
    Status → ClientWorld β → Prop
  /-- All of the source was sent. -/
  | ended {fd : ℕ} {blocks : List FrameData} {b₁ b₂ : β} {reply : GrpcStatus × OperationResponse}
      {w' : ClientWorld β} : Started transport request b b₁ → Sent transport b₁ blocks b₂ →
      E fd (payload blocks) w' → Finished transport b₂ reply w'.rest →
      PutChunkDone transport ok request source A P E b (uploadStatus reply) w'
  /-- A data frame was refused. -/
  | refused {fd : ℕ} {blocks : List FrameData} {block : FrameData} {b₁ b₂ b₃ : β}
      {reply : GrpcStatus × OperationResponse} {w' : ClientWorld β} :
      Started transport request b b₁ → Sent transport b₁ blocks b₂ →
      transport (.write (.data block.1)) b₂ = (false, b₃) →
      P fd (payload blocks ++ block.1) w' → Finished transport b₃ reply w'.rest →
      PutChunkDone transport ok request source A P E b (uploadStatus reply) w'
  /-- The metadata were refused. -/
  | unstarted {b₀ b₁ : β} {status : Status} {w' : ClientWorld β} :
      transport .putChunk b = ((), b₀) →
      transport (.write (GrpcDataPlaneClient.metadataFrame request)) b₀ = (false, b₁) →
      PutChunkDone transport ok request source A P E b status w'
  /-- The source could not be opened or read. -/
  | failed {status : Status} {w' : ClientWorld β} : status.code = .kIoError →
      ¬ (World.NeverFails ok ∧ ∀ w, A w → w.fs.Fits source ∧ w.fs.dir source ≠ none) →
      PutChunkDone transport ok request source A P E b status w'

/-- The end of an upload whose frames were taken or refused. -/
theorem finish_safe (P : ClientWorld β → Prop) (henv : ∀ {w w'}, P w → R w w' → P w')
    (hrest : ∀ {w w'}, R w w' → w'.rest = w.rest)
    (hrpc : ∀ {w} (op : RpcOp) (r : op.Ret) (rest : β), P w →
      P (w.replied op r rest) ∧ G w (w.replied op r rest)) {w : ClientWorld β} (hw : P w) :
    (do
      let _ ← rpc .writesDone
      let reply ← rpc .finishPut
      if !reply.1.ok then return fromGrpcStatus reply.1
      return fromRpcStatus reply.2.status : Program ClientSig Status).Safe
      ((World.handler me transport).sem ok) R G
      (fun status w' => ∃ reply, status = uploadStatus reply ∧ P w' ∧
        Finished transport w.rest reply w'.rest) w := by
  refine safe_other fun w₁ hR₁ r rest₁ hreply₁ => ?_
  obtain ⟨hP₁, hG₁⟩ := hrpc .writesDone r rest₁ (henv hw hR₁)
  rw [hrest hR₁] at hreply₁
  refine ⟨hG₁, safe_other fun w₂ hR₂ reply rest₂ hreply₂ => ?_⟩
  obtain ⟨hP₂, hG₂⟩ := hrpc .finishPut reply rest₂ (henv hP₁ hR₂)
  rw [hrest hR₂, World.replied_rest] at hreply₂
  refine ⟨hG₂, ?_⟩
  have hfinished : Finished transport w.rest reply rest₂ := ⟨rest₁, hreply₁, hreply₂⟩
  by_cases hok : reply.1.ok = true
  · simp only [hok, Bool.not_true, Bool.false_eq_true, if_false, pure_eq_ret, safe_ret]
    exact ⟨reply, by rw [uploadStatus, if_pos hok], hP₂, hfinished⟩
  · have hno : reply.1.ok = false := by simpa using hok
    simp only [hno, Bool.not_false, if_true, pure_eq_ret, safe_ret]
    exact ⟨reply, by rw [uploadStatus, if_neg hok], hP₂, hfinished⟩

/-- **`GrpcDataPlaneClient::PutChunk`** sends the source between its metadata and `Finish`. -/
theorem putChunk_safe {request : PutChunkRequest} {source : Path} {A : ClientWorld β → Prop}
    {P E : ℕ → Bytes → ClientWorld β → Prop} (h : Source me R G source A P E)
    (hrest : ∀ {w w'}, R w w' → w'.rest = w.rest)
    (hG : ∀ {w} (op : RpcOp) (r : op.Ret) (rest : β), G w (w.replied op r rest))
    {w : ClientWorld β} (hw : A w) :
    (GrpcDataPlaneClient.putChunk request source).Safe ((World.handler me transport).sem ok) R G
      (PutChunkDone transport ok request source A P E w.rest) w := by
  unfold GrpcDataPlaneClient.putChunk
  refine safe_sys fun w₁ hR₁ o r fds fs hok hexec => ?_
  have hw₁ := h.env hw hR₁
  have hrest₁ := hrest hR₁
  obtain ⟨rfl, ⟨e, rfl, rfl, hmissing, hcalm⟩ | ⟨i, hi, rfl, rfl⟩⟩ := openRead_cases hexec
  · refine ⟨h.failed e hw₁, .failed rfl ?_⟩
    rintro ⟨hnever, hpresent⟩
    obtain ⟨hfits, hsome⟩ := hpresent w₁ hw₁
    exact hsome (hmissing (hcalm (hnever _ _ _ hok).1 hfits))
  · obtain ⟨hP, hG₁⟩ := h.opened hw₁ hi _ rfl
    have hup := h.uploads w₁.fds.length
    refine ⟨hG₁, safe_other fun w₂ hR₂ r rest₂ hreply₂ => ?_⟩
    obtain ⟨hP₂, hG₂⟩ := hup.rpc .putChunk r rest₂ (hup.env hP hR₂)
    rw [hrest hR₂, World.answered_rest, hrest₁] at hreply₂
    refine ⟨hG₂, safe_other fun w₃ hR₃ accepted rest₃ hreply₃ => ?_⟩
    obtain ⟨hP₃, hG₃⟩ := hup.rpc (.write (GrpcDataPlaneClient.metadataFrame request)) accepted rest₃
      (hup.env hP₂ hR₃)
    rw [hrest hR₃, World.replied_rest] at hreply₃
    refine ⟨hG₃, ?_⟩
    cases accepted with
    | false =>
        simp only [Bool.not_false, if_true]
        refine safe_other fun w₄ _ r rest₄ _ => ⟨hG _ _ _, ?_⟩
        exact safe_other fun w₅ _ reply rest₅ _ => ⟨hG _ _ _, .unstarted hreply₂ hreply₃⟩
    | true =>
        simp only [Bool.not_true, Bool.false_eq_true, if_false]
        have hstarted : Started transport request w.rest rest₃ := ⟨rest₂, hreply₂, hreply₃⟩
        refine safe_bind.2 ((send_safe hup (offMax + 1) (by simp) hP₃).imp fun r w' hdone => ?_)
        cases hdone with
        | ended blocks hsent hE =>
            refine (finish_safe (E w₁.fds.length (payload blocks)) hup.ended hrest hup.rpcEnded hE).imp ?_
            rintro status w'' ⟨reply, rfl, hE', hfinished⟩
            exact .ended hstarted hsent hE' hfinished
        | refused blocks block hsent hrefused hP' =>
            refine (finish_safe (P w₁.fds.length (payload blocks ++ block.1)) hup.env hrest hup.rpc
              hP').imp ?_
            rintro status w'' ⟨reply, rfl, hP'', hfinished⟩
            exact .refused hstarted hsent hrefused hP'' hfinished
        | failed hP' hfail =>
            refine safe_other fun w₄ _ r rest₄ _ => ⟨hG _ _ _, ?_⟩
            refine safe_other fun w₅ _ r rest₅ _ => ⟨hG _ _ _, ?_⟩
            exact safe_other fun w₆ _ reply rest₆ _ => ⟨hG _ _ _, .failed rfl fun hn => hfail hn.1⟩

/-- **`StorageClient::HashFile`** returns the length and the hash of what it read. -/
theorem hashFile_safe (B : Blake3) {path : Path} {A : ClientWorld β → Prop}
    {P E : ℕ → Bytes → ClientWorld β → Prop} (h : Source me R G path A P E)
    (hrest : ∀ {w w'}, R w w' → w'.rest = w.rest) {w : ClientWorld β} (hw : A w) :
    (StorageClient.hashFile B path).Safe ((World.handler me transport).sem ok) R G
      (fun r w' =>
        (∃ fd s, E fd s w' ∧ w'.rest = w.rest ∧ r = .ok (UInt64.ofNat s.length, B.checksum s)) ∨
          ¬ (World.NeverFails ok ∧ ∀ w, A w → w.fs.Fits path ∧ w.fs.dir path ≠ none)) w := by
  unfold StorageClient.hashFile
  refine safe_sys fun w₁ hR₁ o r fds fs hok hexec => ?_
  have hw₁ := h.env hw hR₁
  have hrest₁ := hrest hR₁
  obtain ⟨rfl, ⟨e, rfl, rfl, hmissing, hcalm⟩ | ⟨i, hi, rfl, rfl⟩⟩ := openRead_cases hexec
  · refine ⟨h.failed e hw₁, Or.inr ?_⟩
    rintro ⟨hnever, hpresent⟩
    obtain ⟨hfits, hsome⟩ := hpresent w₁ hw₁
    exact hsome (hmissing (hcalm (hnever _ _ _ hok).1 hfits))
  · obtain ⟨hP, hG₁⟩ := h.opened hw₁ hi _ rfl
    have hscans := (h.uploads w₁.fds.length).toScans.rest hrest w.rest
    refine ⟨hG₁, safe_bind.2 ((hashOpened_safe B hscans ⟨hP, hrest₁⟩).imp ?_)⟩
    rintro r w' (⟨s, ⟨hE, hrest'⟩, rfl⟩ | ⟨e, rfl, -, -, hfail⟩)
    · exact Or.inl ⟨w₁.fds.length, s, hE, hrest', rfl⟩
    · exact Or.inr fun hn => hfail hn.1

/-! ## A source that nobody changes -/

/-- `s` was read of a file that holds `d`, in a file system that stays as it is. -/
structure Reading (fs : FS) (d : Bytes) (fd : ℕ) (s : Bytes) (w : ClientWorld β) : Prop where
  same : w.fs = fs
  opened : ∃ i n, w.fds[fd]? = some ⟨i, s.length⟩ ∧ fs.inodes[i]? = some n ∧ n.data = d
  upto : s = d.take s.length

theorem Reading.scans (fs : FS) (d : Bytes) (fd : ℕ) :
    Scans (β := β) me Eq (fun _ _ => True) (Reading fs d fd) (fun s w => s = d ∧ w.fs = fs) fd where
  env hw hR := hR ▸ hw
  le {s w} hw := by
    obtain ⟨i, n, -, -, hd⟩ := hw.opened
    have hlen := n.data_le
    rw [hw.upto, List.length_take, ← hd]
    omega
  failed {s w count o e fds fs'} hw hexec w' hw' := by
    obtain ⟨i, n, hf, hn, hd⟩ := hw.opened
    obtain ⟨rfl, ⟨e', he, rfl, hcalm⟩ | ⟨k, -, -, hr, -⟩⟩ :=
      read_cases hf (by rw [hw.same]; exact hn) hexec
    · obtain rfl := Except.error.inj he
      subst hw'
      exact ⟨⟨hw.same, ⟨i, n, hf, hn, hd⟩, hw.upto⟩, trivial, hcalm⟩
    · exact absurd hr (by simp)
  read {s w count o bytes fds fs'} hw hexec w' hw' := by
    obtain ⟨i, n, hf, hn, hd⟩ := hw.opened
    obtain ⟨rfl, ⟨e, he, -⟩ | ⟨k, -, hpos, hr, rfl⟩⟩ :=
      read_cases hf (by rw [hw.same]; exact hn) hexec
    · exact absurd he (by simp)
    · obtain rfl := Except.ok.inj hr
      subst hw'
      have hlt := (List.getElem?_eq_some_iff.1 hf).1
      have hall : s ++ (d.drop s.length).take k = d.take (s.length + k) := by
        conv_lhs => rw [hw.upto]
        rw [List.take_add, List.length_take]
        congr 2
        have hle : s.length ≤ d.length := by
          rw [hw.upto, List.length_take]
          omega
        rw [Nat.min_eq_left hle]
      refine ⟨⟨hw.same, ⟨i, n, ?_, hn, hd⟩, ?_⟩, trivial, fun hnil hcount => ⟨?_, hw.same⟩⟩
      · simp [hlt]
      · rw [hd, hall, List.length_take]
        rcases Nat.le_total (s.length + k) d.length with hle | hle
        · rw [Nat.min_eq_left hle]
        · rw [Nat.min_eq_right hle, List.take_length, List.take_of_length_le hle]
      · -- nothing is left behind the position
        have hk := hpos hcount
        have hzero : ((n.data.drop s.length).take k).length = 0 := congrArg List.length hnil
        rw [hd, List.length_take, List.length_drop] at hzero
        rw [hw.upto]
        exact List.take_of_length_le (by omega)

theorem Reading.source (me : ℕ) {fs : FS} {source : Path} {d : Bytes}
    (hd : fs.contents source = some d) :
    Source (β := β) me Eq (fun _ _ => True) source (fun w => w.fs = fs) (Reading fs d)
      (fun _ s w => s = d ∧ w.fs = fs) where
  env hw hR := hR ▸ hw
  failed _ _ := trivial
  opened {w i} hw hi w' hw' := by
    subst hw'
    rw [hw] at hi
    obtain ⟨n, hn⟩ := fs.dir_eq_some hi
    refine ⟨⟨hw, ⟨i, n, by simp, hn, ?_⟩, rfl⟩, trivial⟩
    rw [FS.contents, hi] at hd
    simpa [hn] using hd
  uploads fd :=
    { Reading.scans fs d fd with
      rest := fun hR => by rw [hR]
      rpc := fun op r rest hw => ⟨⟨hw.same, hw.opened, hw.upto⟩, trivial⟩
      ended := fun hw hR => hR ▸ hw
      rpcEnded := fun op r rest hw => ⟨hw, trivial⟩ }

theorem Reading.isPrefix {fs : FS} {d s : Bytes} {fd : ℕ} {w : ClientWorld β}
    (h : Reading fs d fd s w) : s <+: d := by
  rw [h.upto]
  exact List.take_prefix _ _

/-- The source can be opened. -/
theorem Reading.present {fs : FS} {source : Path} {d : Bytes} (hd : fs.contents source = some d)
    (hfits : fs.Fits source) (w : ClientWorld β) (hw : w.fs = fs) :
    w.fs.Fits source ∧ w.fs.dir source ≠ none := by
  subst hw
  refine ⟨hfits, fun hnone => ?_⟩
  rw [FS.contents_eq_none_iff.2 hnone] at hd
  exact absurd hd nofun

/-- `HashFile` of a file that nobody changes. -/
theorem hashFile_always (B : Blake3) {path : Path} {d : Bytes} {w : ClientWorld β}
    (hd : w.fs.contents path = some d) :
    (StorageClient.hashFile B path).Always ((World.handler me transport).sem ok) w
      (fun r w' => w'.fs = w.fs ∧ w'.rest = w.rest ∧
        (r = .ok (UInt64.ofNat d.length, B.checksum d) ∨
          ¬ (World.NeverFails ok ∧ w.fs.Fits path))) := by
  have hsource := Reading.source (β := β) me hd
  unfold StorageClient.hashFile
  refine safe_sys fun w₁ hR o r fds fs hok hexec => ⟨trivial, ?_⟩
  subst hR
  obtain ⟨rfl, ⟨e, rfl, rfl, hmissing, hcalm⟩ | ⟨i, hi, rfl, rfl⟩⟩ := openRead_cases hexec
  · refine ⟨rfl, rfl, Or.inr ?_⟩
    rintro ⟨hnever, hfits⟩
    rw [FS.contents, hmissing (hcalm (hnever _ _ _ hok).1 hfits)] at hd
    exact absurd hd (by simp)
  · have hP := (hsource.opened rfl hi _ rfl).1
    have hscans := (hsource.uploads w.fds.length).toScans.rest (fun hR => by rw [hR]) w.rest
    refine safe_bind.2 ((hashOpened_safe B hscans ⟨hP, rfl⟩).imp ?_)
    rintro r w' (⟨s, ⟨⟨rfl, hfs⟩, hrest⟩, rfl⟩ | ⟨e, rfl, ⟨s, hreading, hrest⟩, -, hfail⟩)
    · exact ⟨hfs, hrest, Or.inl rfl⟩
    · exact ⟨hreading.same, hrest, Or.inr fun hn => hfail hn.1⟩

/-! ## Appending the frames of a download -/

/-- The frames a download delivers until it ends, and the state of the transport then. -/
inductive Delivered (transport : Transport β) : β → Bytes → β → Prop
  | ended {b b' : β} : transport .read b = (none, b') → Delivered transport b [] b'
  | more {b b₁ b' : β} {frame : FrameData} {d : Bytes} : transport .read b = (some frame, b₁) →
      Delivered transport b₁ d b' → Delivered transport b (frame.1 ++ d) b'

/-- A download delivers one thing. -/
theorem Delivered.unique {b b₁ b₂ : β} {d d' : Bytes} (h : Delivered transport b d b₁)
    (h' : Delivered transport b d' b₂) : d = d' ∧ b₁ = b₂ := by
  induction h generalizing d' with
  | ended hread =>
      cases h' with
      | ended hread' =>
          rw [hread] at hread'
          exact ⟨rfl, (Prod.mk.inj hread').2⟩
      | more hread' _ =>
          rw [hread] at hread'
          exact absurd (Prod.mk.inj hread').1 (by simp)
  | @more b b₁ b' frame d hread _ ih =>
      cases h' with
      | ended hread' =>
          rw [hread] at hread'
          exact absurd (Prod.mk.inj hread').1 (by simp)
      | @more _ b₃ _ frame' d'' hread' hrest =>
          rw [hread] at hread'
          obtain ⟨hframe, hb⟩ := Prod.mk.inj hread'
          obtain rfl := Option.some.inj hframe
          subst hb
          obtain ⟨hd, hb'⟩ := ih hrest
          exact ⟨by rw [hd], hb'⟩

/-- `P d` knows that the file of the download holds `d`, keeps up with what is written to it and
    survives the RPCs but `HeadChunk`, and nobody else moves the transport. -/
structure Downloads (R G : ClientWorld β → ClientWorld β → Prop) (P : Bytes → ClientWorld β → Prop)
    (fd : ℕ) : Prop extends Appends R G P fd where
  le : ∀ {d w}, P d w → d.length ≤ offMax
  rest : ∀ {w w'}, R w w' → w'.rest = w.rest
  rpc : ∀ {d w} (op : RpcOp) (r : op.Ret) (rest : β), (∀ id, op ≠ .headChunk id) → P d w →
    P d (w.replied op r rest) ∧ G w (w.replied op r rest)

/-- Writing leaves the transport where it is. -/
theorem Downloads.appends_rest {P : Bytes → ClientWorld β → Prop} {fd : ℕ} (h : Downloads R G P fd)
    (rest : β) : Appends R G (fun d w => P d w ∧ w.rest = rest) fd where
  env hw hR := ⟨h.env hw.1 hR, (h.rest hR).trans hw.2⟩
  opened hw := h.opened hw.1
  wrote data hw hf hn hmax w' hw' := by
    obtain ⟨hP, hG⟩ := h.wrote data hw.1 hf hn hmax w' hw'
    exact ⟨⟨hP, by rw [hw']; exact hw.2⟩, hG⟩
  refused data r hw hr := by
    obtain ⟨hP, hG⟩ := h.refused data r hw.1 hr
    exact ⟨⟨hP, hw.2⟩, hG⟩

/-- **The receive loop of `GetChunk`** appends the frames of the download, all of them unless a write
    fails. -/
theorem receiveFrames_safe {P : Bytes → ClientWorld β → Prop} {fd : ℕ} (h : Downloads R G P fd)
    (rounds : ℕ) {d : Bytes} (hrounds : offMax < d.length + rounds) {w : ClientWorld β}
    (hw : P d w) :
    (GrpcDataPlaneClient.receive fd rounds).Safe ((World.handler me transport).sem ok) R G
      (fun status w' =>
        (status = .Ok ∧ ∃ e, P (d ++ e) w' ∧ Delivered transport w.rest e w'.rest) ∨
          (status.code = .kIoError ∧ ¬ World.NeverFails ok ∧ ∃ d', P d' w')) w := by
  induction rounds generalizing d w with
  | zero =>
      have := h.le hw
      omega
  | succ rounds ih =>
      unfold GrpcDataPlaneClient.receive
      refine safe_other fun w₁ hR r rest hreply => ?_
      have hw₁ := h.env hw hR
      rw [h.rest hR] at hreply
      obtain ⟨hP, hG⟩ := h.rpc .read r rest (by simp) hw₁
      refine ⟨hG, ?_⟩
      cases r with
      | none => exact Or.inl ⟨rfl, [], by rwa [List.append_nil], .ended hreply⟩
      | some frame =>
          refine safe_bind.2 ((writeAll_safe (h.appends_rest rest) (And.intro hP rfl)).imp ?_)
          rintro status w' (⟨rfl, hP', hrest⟩ | ⟨hio, hfail, n, -, hP', -⟩)
          · have hpos : 0 < frame.1.length := List.length_pos_iff.2 frame.2
            refine (ih (by rw [List.length_append]; omega) hP').imp ?_
            rintro status w'' (⟨rfl, e, hP'', hdelivered⟩ | hfailed)
            · rw [hrest] at hdelivered
              exact Or.inl ⟨rfl, frame.1 ++ e, by rwa [← List.append_assoc],
                .more hreply hdelivered⟩
            · exact Or.inr hfailed
          · have hno : status.ok = false := by simp [Status.ok, hio]
            simp only [hno, Bool.not_false, if_true]
            refine safe_other fun w₂ hR r rest' _ => ?_
            obtain ⟨hP'', hG⟩ := h.rpc .tryCancel r rest' (by simp) (h.env hP' hR)
            exact ⟨hG, Or.inr ⟨hio, hfail, _, hP''⟩⟩

end ChunkStorage
