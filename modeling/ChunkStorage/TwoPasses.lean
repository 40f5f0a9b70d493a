import ChunkStorage.Exchange
import ChunkStorage.RoundTrip

set_option autoImplicit false

/-! # The two passes over the source

`StorageClient::Put` reads its source twice: `HashFile` for the size and the checksum it announces,
and `PutChunk` for the data. Nothing keeps the source from changing in between or meanwhile. The
worker compares what arrives with what was announced, so a chunk is stored only if the two passes
agree on it. -/

namespace ChunkStorage

open Effects Posix Program

variable {β : Type} {me : ℕ} {source : Path} {more : List (ℕ × List Bytes)}

/-- The source can be opened. -/
def Openable (source : Path) (fs : FS) : Prop := fs.Fits source ∧ fs.dir source ≠ none

/-- Somebody else changes the files of the client in any way. A descriptor that is open keeps its
    file, and the source stays one that can be opened. -/
structure Meddled (source : Path) (w w' : ClientWorld β) : Prop where
  fds : w'.fds = w.fds
  trace : w'.trace = w.trace
  rest : w'.rest = w.rest
  inodes : w.fs.inodes.length ≤ w'.fs.inodes.length
  openable : Openable source w.fs → Openable source w'.fs

theorem Meddled.refl (w : ClientWorld β) : Meddled source w w := ⟨rfl, rfl, rfl, le_rfl, fun h => h⟩

theorem Meddled.trans {w₁ w₂ w₃ : ClientWorld β} (h : Meddled source w₁ w₂)
    (h' : Meddled source w₂ w₃) : Meddled source w₁ w₃ :=
  ⟨h'.fds.trans h.fds, h'.trace.trans h.trace, h'.rest.trans h.rest, h.inodes.trans h'.inodes,
    fun hopenable => h'.openable (h.openable hopenable)⟩

/-- `s` was read through the descriptor of a file that may change. The files in `more` were read
    before. -/
structure Scanning (source : Path) (more : List (ℕ × List Bytes)) (fd : ℕ) (s : Bytes)
    (w : ClientWorld β) : Prop where
  openable : Openable source w.fs
  opened : ∃ i, w.fds[fd]? = some ⟨i, s.length⟩ ∧ i < w.fs.inodes.length
  le : s.length ≤ offMax
  read : ∃ blocks, passes w.trace = (fd, blocks) :: more ∧ blocks.flatten = s

theorem Scanning.env {fd : ℕ} {s : Bytes} {w w' : ClientWorld β} (h : Scanning source more fd s w)
    (hR : Meddled source w w') : Scanning source more fd s w' := by
  obtain ⟨i, hf, hi⟩ := h.opened
  refine ⟨hR.openable h.openable, ⟨i, ?_, hi.trans_le hR.inodes⟩, h.le, ?_⟩
  · rw [hR.fds]
    exact hf
  · rw [hR.trace]
    exact h.read

theorem Scanning.scans (fd : ℕ) :
    Scans (β := β) me (Meddled source) (fun _ _ => True) (Scanning source more fd)
      (Scanning source more fd) fd where
  env hw hR := hw.env hR
  le hw := hw.le
  failed {s w count o e fds fs} hw hexec w' hw' := by
    obtain ⟨i, hf, hi⟩ := hw.opened
    obtain ⟨rfl, ⟨e', he, rfl, hcalm⟩ | ⟨k, -, -, hr, -⟩⟩ :=
      read_cases hf (List.getElem?_eq_getElem hi) hexec
    · obtain rfl := Except.error.inj he
      subst hw'
      refine ⟨⟨hw.openable, ⟨i, hf, hi⟩, hw.le, ?_⟩, trivial, hcalm⟩
      have hpasses : passes (w.answered (.read fd count) (.error e) w.fds w.fs).trace
          = passes w.trace := by
        unfold World.answered
        dsimp only
        split <;> rfl
      rw [hpasses]
      exact hw.read
    · exact absurd hr (by simp)
  read {s w count o bytes fds fs} hw hexec w' hw' := by
    obtain ⟨i, hf, hi⟩ := hw.opened
    obtain ⟨blocks, hpasses, hblocks⟩ := hw.read
    obtain ⟨rfl, ⟨e, he, -⟩ | ⟨f, bytes', hf', hr, rfl, hroom⟩⟩ := read_moves hexec
    · exact absurd he (by simp)
    · obtain rfl := Except.ok.inj hr
      obtain rfl := Option.some.inj (hf.symm.trans hf')
      have hlt := (List.getElem?_eq_some_iff.1 hf).1
      have hnext : Scanning source more fd (s ++ bytes) w' := by
        subst hw'
        refine ⟨hw.openable, ⟨i, ?_, hi⟩, ?_, blocks ++ [bytes], ?_, ?_⟩
        · simp [hlt]
        · rw [List.length_append]
          by_cases hnil : bytes = []
          · rw [hnil]
            exact hw.le
          · exact hroom hnil
        · simp [World.answered, Syscall.interrupted, passes, hpasses]
        · simp [hblocks]
      refine ⟨hnext, trivial, fun hnil _ => ?_⟩
      rw [hnil, List.append_nil] at hnext
      exact hnext

theorem Scanning.replied {fd : ℕ} {s : Bytes} {w : ClientWorld β} (h : Scanning source more fd s w)
    (op : RpcOp) (r : op.Ret) (rest : β) : Scanning source more fd s (w.replied op r rest) :=
  ⟨h.openable, h.opened, h.le, h.read⟩

theorem Scanning.of_source (me : ℕ) (source : Path) (more : List (ℕ × List Bytes)) :
    Source (β := β) me (Meddled source) (fun _ _ => True) source
      (fun w => Openable source w.fs ∧ passes w.trace = more) (Scanning source more)
      (Scanning source more) where
  env hw hR := by
    refine ⟨hR.openable hw.1, ?_⟩
    rw [hR.trace]
    exact hw.2
  failed _ _ := trivial
  opened {w i} hw hi w' hw' := by
    subst hw'
    refine ⟨⟨hw.1, ⟨i, by simp, w.fs.dir_lt hi⟩, Nat.zero_le _, [], ?_, rfl⟩, trivial⟩
    show (w.fds.length, []) :: passes w.trace = _
    rw [hw.2]
  uploads fd :=
    { Scanning.scans fd with
      rest := fun hR => hR.rest
      rpc := fun op r rest hw => ⟨hw.replied op r rest, trivial⟩
      ended := fun hw hR => hw.env hR
      rpcEnded := fun op r rest hw => ⟨hw.replied op r rest, trivial⟩ }

/-! ## A source that changes -/

section Put

variable {B : Blake3} {objectId : ObjectId} {fs : FS}

/-- `Put` announces what its first pass read and uploads what its second pass reads. -/
theorem clientPut_meddled {transport : Transport β} {b : β} (hid : objectId.valid = true)
    (hopenable : Openable source fs) :
    (StorageClient.put B objectId source).Safe ((World.handler me transport).sem World.NoFailure)
      (Meddled source) (fun _ _ => True)
      (fun status w' => ∃ fd first, PutChunkDone transport World.NoFailure
        ⟨⟨objectId.value⟩, UInt64.ofNat first.flatten.length, B.checksum first.flatten⟩ source
        (fun w => Openable source w.fs ∧ passes w.trace = [(fd, first)])
        (Scanning source [(fd, first)]) (Scanning source [(fd, first)]) b status w')
      ⟨[], fs, [], b⟩ := by
  have hpresent : ∀ w : ClientWorld β, Openable source w.fs ∧ passes w.trace = [] →
      w.fs.Fits source ∧ w.fs.dir source ≠ none := fun _ hw => hw.1
  unfold StorageClient.put StorageClient.toChunkId
  simp only [hid, Bool.not_true, Bool.false_eq_true, if_false]
  refine safe_bind.2 ((hashFile_safe B (Scanning.of_source me source []) (fun hR => hR.rest)
    ⟨hopenable, rfl⟩).imp ?_)
  rintro r w (⟨fd, s, hE, hrest, rfl⟩ | hfail)
  · obtain ⟨first, hpasses, rfl⟩ := hE.read
    have hupload : (GrpcDataPlaneClient.putChunk
        ⟨⟨objectId.value⟩, UInt64.ofNat first.flatten.length, B.checksum first.flatten⟩ source).Safe
        ((World.handler me transport).sem World.NoFailure) (Meddled source) (fun _ _ => True)
        (PutChunkDone transport World.NoFailure
          ⟨⟨objectId.value⟩, UInt64.ofNat first.flatten.length, B.checksum first.flatten⟩ source
          (fun w => Openable source w.fs ∧ passes w.trace = [(fd, first)])
          (Scanning source [(fd, first)]) (Scanning source [(fd, first)]) w.rest) w :=
      putChunk_safe (Scanning.of_source me source [(fd, first)]) (fun hR => hR.rest)
        (fun _ _ _ => trivial) ⟨hE.openable, hpasses⟩
    rw [hrest] at hupload
    exact hupload.imp fun _ _ hdone => ⟨fd, first, hdone⟩
  · exact absurd ⟨World.neverFails_noFailure, hpresent⟩ hfail

/-- The last pass of an upload over the network is over the source. -/
theorem PutChunkDone.passes_eq {S : Signature} {θ W O ι : Type} {host : Host S θ W O}
    {worker : ι → ChunkStore S} {net : Net θ ι O} {request : PutChunkRequest}
    {A : ClientWorld (Net θ ι O) → Prop} {status : Status} {w' : ClientWorld (Net θ ι O)}
    (h : PutChunkDone (network host worker) World.NoFailure request source A (Scanning source more)
      (Scanning source more) net status w')
    (hA : ∀ w, A w → w.fs.Fits source ∧ w.fs.dir source ≠ none) :
    ∃ fd reads, passes w'.trace = (fd, reads) :: more := by
  cases h with
  | ended _ _ hE _ =>
      obtain ⟨reads, hpasses, -⟩ := hE.read
      exact ⟨_, reads, hpasses⟩
  | refused _ _ _ hP _ =>
      obtain ⟨reads, hpasses, -⟩ := hP.read
      exact ⟨_, reads, hpasses⟩
  | unstarted hput hwrite =>
      obtain rfl : { net with sent := [], cancelled := false } = _ := congrArg Prod.snd hput
      obtain ⟨-, hne, -⟩ := network_write_false hwrite
      exact absurd rfl hne
  | failed _ hfail => exact absurd ⟨World.neverFails_noFailure, hA⟩ hfail

/-- **Passes that differ.** `Put` of a source that may change at any moment returns. If its two passes
    differ in length or in hash, it returns `kCorruption` and changes no chunk. -/
theorem clientPut_differs {root : Bytes} {pid server : ℕ} {net : Net FS ℕ Decision}
    {ω : ℕ → (ClientWorld (Net FS ℕ Decision) → ClientWorld (Net FS ℕ Decision)) × Outcome}
    (hid : (validateId ⟨objectId.value⟩).ok = true) (hopenable : Openable source fs)
    (hcalm : net.plan.Calm)
    (hfree : net.store.dir (tempPath root ⟨objectId.value⟩ pid net.plan.call) = none)
    (hfits : net.store.Fits (tempPath root ⟨objectId.value⟩ pid net.plan.call))
    (hadmits : Config.Admits (amid (World.handler me (filePath B root pid server)))
      (Within (Meddled source) World.NoFailure)
      (StorageClient.put B objectId source, ⟨[], fs, [], net⟩) ω)
    (hfair : Config.Fair (amid (World.handler me (filePath B root pid server)))
      (StorageClient.put B objectId source, ⟨[], fs, [], net⟩) ω) :
    ∃ status w' fd first fd' reads,
      Config.Returns (amid (World.handler me (filePath B root pid server)))
        (StorageClient.put B objectId source, ⟨[], fs, [], net⟩) ω status w' ∧
      passes w'.trace = [(fd', reads), (fd, first)] ∧
      (80 + first.flatten.length ≤ offMax →
        reads.flatten.length ≠ first.flatten.length ∨ B.hex reads.flatten ≠ B.hex first.flatten →
        status.code = .kCorruption ∧ ChunksUnchanged root net.store w'.rest.store) := by
  have hsafe : (StorageClient.put B objectId source).Safe
      ((World.handler me (filePath B root pid server)).sem World.NoFailure) (Meddled source)
      (fun _ _ => True) _ ⟨[], fs, [], net⟩ := clientPut_meddled (validateId_valid hid) hopenable
  obtain ⟨status, w', hret, fd, first, hdone⟩ :=
    hsafe.returns Meddled.refl (fun h h' => h.trans h') hadmits hfair
  have hA : ∀ w : ClientWorld (Net FS ℕ Decision),
      Openable source w.fs ∧ passes w.trace = [(fd, first)] →
      w.fs.Fits source ∧ w.fs.dir source ≠ none := fun _ hw => hw.1
  obtain ⟨fd', reads, hpasses⟩ := hdone.passes_eq hA
  refine ⟨status, w', fd, first, fd', reads, hret, hpasses, ?_⟩
  intro hroom hdiffers
  have hsize : (UInt64.ofNat first.flatten.length).toNat = first.flatten.length :=
    toNat_length (by omega)
  have hall : ∀ {k s}, Scanning source [(fd, first)] k s w' → s = reads.flatten := by
    intro k s hs
    obtain ⟨blocks, hblocks, rfl⟩ := hs.read
    rw [hpasses] at hblocks
    rw [(Prod.mk.inj (List.cons.inj hblocks).1).2]
  have hreturns : ∀ blocks, ∃ status w,
      ((fileHost server).upload (fileWorker B root pid net.plan.call) net.store
        (GrpcDataPlaneClient.metadataFrame ⟨⟨objectId.value⟩, UInt64.ofNat first.flatten.length,
          B.checksum first.flatten⟩ :: dataFrames blocks)).Returns (fileHost server).handler
        net.plan.schedule (.Ok, ⟨setStatus status⟩) w ∧
      PutOutcome B root RpcInputStream.read (.ofFrames (dataFrames blocks))
        ⟨⟨objectId.value⟩, UInt64.ofNat first.flatten.length, B.checksum first.flatten⟩ net.store
        status w.fs ∧ w.fs.nameMax = net.store.nameMax :=
    fun blocks => fileHost_upload blocks hcalm hfree hfits (by rw [hsize]; exact hroom)
  obtain ⟨blocks, reply, w, hpayload, hupload, rfl, hstore, -⟩ :=
    hdone.whole World.neverFails_noFailure hA (fun hE => hall hE)
      (fun hP => by rw [hall hP]) fun blocks _ => by
        obtain ⟨status, w, hrun, -⟩ := hreturns blocks
        exact ⟨_, w, hrun⟩
  obtain ⟨status, w₁, hrun, houtcome, -⟩ := hreturns blocks
  obtain ⟨rfl, rfl⟩ := hupload.unique hrun
  have hdelivers := dataFrames_deliver blocks
  rw [hpayload] at hdelivers
  obtain ⟨hcode, hunchanged⟩ := houtcome.of_not_matches
    ⟨hid, B.wellFormed_checksum first.flatten⟩ hdelivers (by
      rintro ⟨hlength, hhash⟩
      rw [hsize] at hlength
      rcases hdiffers with hno | hno
      · exact hno hlength
      · exact hno hhash)
  refine ⟨(uploadStatus_setStatus status).trans hcode, ?_⟩
  rw [hstore]
  exact hunchanged

open Exchange in
/-- **What is stored was read twice.** In every state of every run of `Put`, however the source changes
    and wherever the upload stops: a chunk that was not there before consists of the frames that have
    arrived, they hold the first blocks of the second pass, and the first pass read as many bytes with
    the same hash. -/
theorem clientPut_agrees {root : Bytes} {pid address server : ℕ} {before : FS} {moves : List Move}
    {x : Exchange} {file : Bytes}
    (hx : (start (StorageClient.put B objectId source) fs before).run B root pid address server me moves
      = some x)
    (habsent : before.dir (pathFor root ⟨objectId.value⟩) = none)
    (hfile : x.files.contents (pathFor root ⟨objectId.value⟩) = some file) :
    ∃ fd first fd' reads, ∃ blocks : List FrameData,
      passes x.client.2.trace = [(fd', reads), (fd, first)] ∧ blocks.map Subtype.val <+: reads ∧
      x.arrived = GrpcDataPlaneClient.metadataFrame ⟨⟨objectId.value⟩,
        UInt64.ofNat first.flatten.length, B.checksum first.flatten⟩ :: dataFrames blocks ∧
      file = chunkFile B (payload blocks) ∧ (payload blocks).length = first.flatten.length ∧
      B.hex (payload blocks) = B.hex first.flatten := by
  have hfollowing : Following (Storing B objectId) x.client :=
    run_following hx (fun h => h.1) (start_following (clientPut_tracks B objectId source) fs before)
  have hinv := run_inv hx (inv_start _ fs before)
  have hbefore : x.before.dir (pathFor root ⟨objectId.value⟩) = none := by
    rw [(run_kept hx).before]
    exact habsent
  have hsent := hfollowing.tracks.here.2
  rw [← hfollowing.sent] at hsent
  rcases hsent with hnil | ⟨fd, first, fd', reads, blocks, hsent, hpasses, hread⟩
  · have hany : x.before.dir (pathFor root
        (⟨⟨objectId.value⟩, 0, ⟨.kBlake3, []⟩⟩ : PutChunkRequest).chunkId) = none := hbefore
    obtain ⟨arrived, harrived, -⟩ := hinv.visible (Or.inl hnil) hany hfile
    have hprefix := hinv.arrived
    rw [harrived, hnil] at hprefix
    exact absurd (List.prefix_nil.1 hprefix) (by simp)
  · obtain ⟨arrived, harrived, -, ⟨hlength, hhash⟩, rfl⟩ :=
      hinv.visible (Or.inr ⟨blocks, hsent⟩) hbefore hfile
    have hprefix := hinv.arrived
    rw [harrived, hsent] at hprefix
    have hblocks : arrived.map Subtype.val <+: reads :=
      (dataFrames_first (List.cons_prefix_cons.1 hprefix).2).trans hread
    have hshort : first.flatten.length ≤ offMax :=
      hfollowing.bounded.short (fd, first) (by simp [hpasses])
    refine ⟨fd, first, fd', reads, arrived, hpasses, hblocks, harrived, rfl, ?_, hhash⟩
    rw [hlength]
    exact toNat_length hshort

end Put

open Exchange in
/-- **The two passes agree or nothing is stored.** In every state of every run of `Put`, however the
    source changes and wherever the upload stops, a chunk that was not there before is made of the first
    blocks of the second pass, with the length and the hash of the first pass. If no call fails, `Put`
    returns, and if its two passes differ in length or in hash it returns `kCorruption` and changes no
    chunk. -/
theorem passes_agree_or_nothing_stored (B : Blake3) (root : Bytes) (pid address server me : ℕ)
    (objectId : ObjectId) (source : Path) (fs : FS) :
    (∀ (before : FS) (moves : List Move) (x : Exchange) (file : Bytes),
      before.dir (pathFor root ⟨objectId.value⟩) = none →
      (start (StorageClient.put B objectId source) fs before).run B root pid address server me moves
        = some x →
      x.files.contents (pathFor root ⟨objectId.value⟩) = some file →
      ∃ fd first fd' reads, ∃ blocks : List FrameData,
        passes x.client.2.trace = [(fd', reads), (fd, first)] ∧
        blocks.map Subtype.val <+: reads ∧
        x.arrived = GrpcDataPlaneClient.metadataFrame ⟨⟨objectId.value⟩,
          UInt64.ofNat first.flatten.length, B.checksum first.flatten⟩ :: dataFrames blocks ∧
        file = chunkFile B (payload blocks) ∧ (payload blocks).length = first.flatten.length ∧
        B.hex (payload blocks) = B.hex first.flatten ∧
        (Set.InjOn B.hex {payload blocks, first.flatten} → payload blocks = first.flatten)) ∧
    ∀ (net : Net FS ℕ Decision)
      (ω : ℕ → (ClientWorld (Net FS ℕ Decision) → ClientWorld (Net FS ℕ Decision)) × Outcome),
      (validateId ⟨objectId.value⟩).ok = true → Openable source fs → net.plan.Calm →
      net.store.dir (tempPath root ⟨objectId.value⟩ pid net.plan.call) = none →
      net.store.Fits (tempPath root ⟨objectId.value⟩ pid net.plan.call) →
      Config.Admits (amid (World.handler me (filePath B root pid server)))
        (Within (Meddled source) World.NoFailure)
        (StorageClient.put B objectId source, ⟨[], fs, [], net⟩) ω →
      Config.Fair (amid (World.handler me (filePath B root pid server)))
        (StorageClient.put B objectId source, ⟨[], fs, [], net⟩) ω →
      ∃ status w' fd first fd' reads,
        Config.Returns (amid (World.handler me (filePath B root pid server)))
          (StorageClient.put B objectId source, ⟨[], fs, [], net⟩) ω status w' ∧
        passes w'.trace = [(fd', reads), (fd, first)] ∧
        (80 + first.flatten.length ≤ offMax →
          reads.flatten.length ≠ first.flatten.length ∨ B.hex reads.flatten ≠ B.hex first.flatten →
          status.code = .kCorruption ∧ ChunksUnchanged root net.store w'.rest.store) := by
  constructor
  · intro before moves x file habsent hx hfile
    obtain ⟨fd, first, fd', reads, blocks, hpasses, hread, harrived, hcontent, hlength, hhash⟩ :=
      clientPut_agrees hx habsent hfile
    refine ⟨fd, first, fd', reads, blocks, hpasses, hread, harrived, hcontent, hlength, hhash, ?_⟩
    intro hcollide
    exact hcollide (Set.mem_insert _ _) (Set.mem_insert_of_mem _ rfl) hhash
  · intro net ω hid hopenable hcalm hfree hfits hadmits hfair
    exact clientPut_differs hid hopenable hcalm hfree hfits hadmits hfair

/-- Somebody overwrites the source of the sample once `HashFile` has read all of it. -/
def overwrite {β : Type} (w : ClientWorld β) : ClientWorld β :=
  if w.trace.length = 3 then { w with fs := w.fs.modify 0 (·.write 0 [0x62]) } else w

theorem overwrite_meddled {β : Type} (w : ClientWorld β) :
    Meddled ⟨[0x63], [0x61]⟩ w (overwrite w) := by
  unfold overwrite
  split
  · refine ⟨rfl, rfl, rfl, ?_, fun h => h⟩
    simp [FS.modify]
  · exact .refl w

/-- What the two passes of the sample read when the source is overwritten in between. -/
theorem overwrittenPut_returns {β : Type} {transport : Transport β} {b₀ b₁ b₂ b₃ b₄ b₅ : β}
    {reply : GrpcStatus × OperationResponse} (hput : transport .putChunk b₀ = ((), b₁))
    (hfirst : transport (.write (GrpcDataPlaneClient.metadataFrame (samplePut [0x61]))) b₁ = (true, b₂))
    (hdata : transport (.write (.data [0x62])) b₂ = (true, b₃))
    (hdone : transport .writesDone b₃ = ((), b₄))
    (hfinish : transport .finishPut b₄ = (reply, b₅)) :
    ∃ status w', Config.Returns (amid (World.handler 0 transport))
      (StorageClient.put Blake3.sample ⟨[0x61]⟩ ⟨[0x63], [0x61]⟩, ⟨[], sourceOf [0x61], [], b₀⟩)
      (fun _ => (overwrite, .done)) status w' ∧
      passes w'.trace = [(1, [[0x62], []]), (0, [[0x61], []])] := by
  have hquiet : ∀ {w : ClientWorld β}, (w.trace.length == 3) = false → overwrite w = w :=
    fun hno => if_neg (ne_of_beq_false hno)
  have hsys : ∀ {s : Syscall} {w : ClientWorld β} {r : s.Ret} {fds : List OpenFile} {fs : FS},
      (w.trace.length == 3) = false → s.exec 0 w.fds w.fs .done = (r, fds, fs) →
      amid (World.handler 0 transport) (.inl s) w (overwrite, .done) = (r, w.answered s r fds fs) := by
    intro s w r fds fs hno hexec
    show World.handler 0 transport (.inl s) (overwrite w) .done = _
    rw [hquiet hno]
    exact World.handler_sys hexec
  have hrpc : ∀ {op : RpcOp} {w : ClientWorld β} {r : op.Ret} {b : β},
      (w.trace.length == 3) = false → transport op w.rest = (r, b) →
      amid (World.handler 0 transport) (.inr op) w (overwrite, .done) = (r, w.replied op r b) := by
    intro op w r b hno hreply
    show World.handler 0 transport (.inr op) (overwrite w) .done = _
    rw [hquiet hno]
    exact World.handler_reply hreply
  -- the first pass
  refine Config.returns_last (hsys rfl (show _ = (.ok 0, [⟨0, 0⟩], _) from rfl)) rfl ?_
  refine Config.returns_last (hsys rfl (show _ = (.ok [0x61], [⟨0, 1⟩], _) from rfl)) rfl ?_
  refine Config.returns_last (hsys rfl (show _ = (.ok [], [⟨0, 1⟩], _) from rfl)) rfl ?_
  -- the second one, with the frames that it sends
  refine Config.returns_last (World.handler_sys (show _ = (.ok 1, [⟨0, 1⟩, ⟨0, 0⟩], _) from rfl)) rfl ?_
  refine Config.returns_last (hrpc rfl hput) rfl ?_
  refine Config.returns_last (hrpc rfl hfirst) rfl ?_
  refine Config.returns_last (hsys rfl (show _ = (.ok [0x62], [⟨0, 1⟩, ⟨0, 1⟩], _) from rfl)) rfl ?_
  refine Config.returns_last (hrpc rfl hdata) rfl ?_
  refine Config.returns_last (hsys rfl (show _ = (.ok [], [⟨0, 1⟩, ⟨0, 1⟩], _) from rfl)) rfl ?_
  refine Config.returns_last (hrpc rfl hdone) rfl ?_
  refine Config.returns_last (hrpc rfl hfinish) rfl ?_
  cases hok : !reply.1.ok with
  | true => exact ⟨_, _, ⟨0, Prod.ext (if_pos hok) rfl⟩, rfl⟩
  | false => exact ⟨_, _, ⟨0, Prod.ext (if_neg (by simp [hok])) rfl⟩, rfl⟩

/-- `Put` of the object `"a"`, in which all frames arrive at once and the handler goes to its end. -/
def wholeUpload : List Move :=
  List.replicate 10 (.client .done) ++ [.arrive, .arrive, .close] ++ List.replicate 12 (.handle .done)

/-- The state after it. -/
def wholeExchange : Option Exchange :=
  (Exchange.start (StorageClient.put Blake3.sample ⟨[0x61]⟩ ⟨[0x63], [0x61]⟩) (sourceOf [0x61])
    (FS.empty 255)).run Blake3.sample [0x72] 1 2 0 0 wholeUpload

/-- A `Put` that stores what its two passes read, and one whose source is overwritten in between. -/
theorem passes_agree_or_nothing_stored_one_byte :
    (∃ x first reads, ∃ blocks : List FrameData, wholeExchange = some x ∧
      passes x.client.2.trace = [(1, reads), (0, first)] ∧ first.flatten = [0x61] ∧
      x.files.contents (pathFor [0x72] ⟨[0x61]⟩) = some (chunkFile Blake3.sample (payload blocks)) ∧
      (payload blocks).length = 1) ∧
    ∃ status w', Config.Returns (amid (World.handler 0 (filePath Blake3.sample [0x72] 1 0)))
        (StorageClient.put Blake3.sample ⟨[0x61]⟩ ⟨[0x63], [0x61]⟩, ⟨[], sourceOf [0x61], [], emptyNet⟩)
        (fun _ => (overwrite, .done)) status w' ∧
      status.code = .kCorruption ∧ ChunksUnchanged [0x72] emptyNet.store w'.rest.store := by
  constructor
  · obtain ⟨x, hx⟩ := Option.isSome_iff_exists.1 (show wholeExchange.isSome = true by decide +kernel)
    have hpasses : wholeExchange.map (fun x => passes x.client.2.trace)
        = some [(1, [[0x61], []]), (0, [[0x61], []])] := by decide +kernel
    have hvisible : wholeExchange.map (fun x => (x.files.contents (pathFor [0x72] ⟨[0x61]⟩)).isSome)
        = some true := by decide +kernel
    rw [hx] at hpasses hvisible
    obtain ⟨file, hfile⟩ := Option.isSome_iff_exists.1 (Option.some.inj hvisible)
    obtain ⟨fd, first, fd', reads, blocks, hboth, -, -, rfl, hlength, -⟩ :=
      (passes_agree_or_nothing_stored Blake3.sample [0x72] 1 2 0 0 ⟨[0x61]⟩ ⟨[0x63], [0x61]⟩
        (sourceOf [0x61])).1 (FS.empty 255) wholeUpload x file rfl hx hfile
    obtain ⟨hsecond, hrest⟩ := List.cons.inj (hboth.symm.trans (Option.some.inj hpasses))
    obtain ⟨rfl, rfl⟩ := Prod.mk.inj hsecond
    obtain ⟨rfl, rfl⟩ := Prod.mk.inj (List.cons.inj hrest).1
    exact ⟨x, _, _, blocks, hx, hboth, rfl, hfile, hlength⟩
  · obtain ⟨hadmits, hfair⟩ := ((clientPut_steady Blake3.sample (filePath Blake3.sample [0x72] 1 0) 0
      ⟨[0x61]⟩ ⟨[0x63], [0x61]⟩).amid overwrite_meddled).schedule ⟨[], sourceOf [0x61], [], emptyNet⟩
    obtain ⟨status, w', fd, first, fd', reads, hret, hboth, hcorrupt⟩ :=
      (passes_agree_or_nothing_stored Blake3.sample [0x72] 1 2 0 0 ⟨[0x61]⟩ ⟨[0x63], [0x61]⟩
        (sourceOf [0x61])).2 emptyNet _ (by decide) ⟨by decide, by decide⟩ (emptyNet_calm 0) (by decide) (by decide)
        hadmits hfair
    have htakes : ∀ (net : Net FS ℕ Decision) (frame : PutChunkFrame), net.plan.refuses = (fun _ => false) →
        filePath Blake3.sample [0x72] 1 0 (.write frame) net
          = (true, { net with sent := net.sent ++ [frame] }) := by
      intro net frame hrefuses
      exact if_neg (by simp [hrefuses])
    have hstart : filePath Blake3.sample [0x72] 1 0 .putChunk emptyNet = ((), emptyNet) := rfl
    obtain ⟨_, w'', hsame, hpasses⟩ := overwrittenPut_returns hstart (htakes _ _ rfl) (htakes _ _ rfl) rfl
      Prod.mk.eta.symm
    obtain ⟨rfl, rfl⟩ := hret.unique hsame
    obtain ⟨hsecond, hrest⟩ := List.cons.inj (hboth.symm.trans hpasses)
    obtain ⟨rfl, rfl⟩ := Prod.mk.inj hsecond
    obtain ⟨rfl, rfl⟩ := Prod.mk.inj (List.cons.inj hrest).1
    exact ⟨_, _, hret, hcorrupt (by decide) (Or.inr (by decide))⟩

end ChunkStorage
