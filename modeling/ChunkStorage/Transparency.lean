import ChunkStorage.Download
import ChunkStorage.Network
import ChunkStorage.Reassembly

set_option autoImplicit false

/-! # The RPC path is transparent

A call of `GrpcDataPlaneClient` over the network, compared with a call of `DataPlaneService` on
in-memory streams with the same bytes. The store behind it is any `ChunkStore`: its own operations
are answered by any `serve`, and all that is asked of it is that its `Put` does not depend on how the
bytes are split over the reads (`SplitIndependent`).

The network delivers frames of any length. gRPC has a limit on them, which the frames of the client
are below. -/

namespace ChunkStorage

open Effects Posix Program

/-! ## Streams in memory -/

section Streams

variable {σ : Type}

/-- The answer to a read without room. -/
def invalidBuffer : StatusOr Bytes :=
  .ofStatus (.of .kInvalidArgument (ascii "input buffer cannot be empty"))

/-- An input stream over the bytes in memory. -/
def memoryInput : ChunkInputStream Bytes := fun s size =>
  if size = 0 then (invalidBuffer, s) else (.ok (s.take size), s.drop size)

/-- An output stream to the bytes in memory. -/
def memoryOutput : ChunkOutputStream Bytes := fun t data => (.Ok, t ++ data)

/-- A stream of whose states we know what it has still to give: a read with room takes something off
    the front of it, and nothing only if nothing is left. -/
structure Conveying (input : ChunkInputStream σ) (left : σ → Bytes → Prop) : Prop where
  empty : ∀ {s d}, left s d → (input s 0).1 = invalidBuffer ∧ left (input s 0).2 d
  read : ∀ {s d size}, left s d → 0 < size → ∃ n ≤ size, (d ≠ [] → 0 < n) ∧
    (input s size).1 = .ok (d.take n) ∧ left (input s size).2 (d.drop n)

/-- The stream gives the bytes `d`, split in some way over the reads, and then its end. -/
def Conveys (input : ChunkInputStream σ) (s : σ) (d : Bytes) : Prop :=
  ∃ left, Conveying input left ∧ left s d

theorem memoryInput_conveys (d : Bytes) : Conveys memoryInput d d := by
  refine ⟨Eq, ⟨?_, ?_⟩, rfl⟩
  · rintro s d rfl
    exact ⟨rfl, rfl⟩
  · rintro s d size rfl hsize
    refine ⟨size, le_rfl, fun _ => hsize, ?_, ?_⟩
    · simp only [memoryInput, if_neg hsize.ne']
    · simp only [memoryInput, if_neg hsize.ne']

/-- What fits a buffer is taken off the front of the front. -/
theorem take_front {front : Bytes} (hne : front ≠ []) {size : ℕ} (hsize : 0 < size) (rest : Bytes) :
    ∃ n ≤ size, 0 < n ∧ (front ++ rest).take n = front.take size ∧
      (front ++ rest).drop n = front.drop size ++ rest := by
  have hpos := List.length_pos_iff.2 hne
  refine ⟨min size front.length, by omega, by omega, ?_, ?_⟩
  · rw [List.take_append_of_le_length (by omega), ← List.take_take, List.take_length]
  · rw [List.drop_append_of_le_length (by omega)]
    rcases Nat.le_total size front.length with hle | hle
    · rw [Nat.min_eq_left hle]
    · rw [Nat.min_eq_right hle, List.drop_length, List.drop_of_length_le hle]

/-- Frames with data convey what they hold. -/
theorem rpcInputStream_conveys (blocks : List FrameData) :
    Conveys RpcInputStream.read (.ofFrames (dataFrames blocks)) (payload blocks) := by
  refine ⟨fun s d => (∀ frame ∈ s.reader, ¬ frame.Bad) ∧ d = s.pending ++ delivered s.reader,
    ⟨?_, ?_⟩, ?_, ?_⟩
  · intro s d hs
    exact ⟨rfl, hs⟩
  · rintro s d size ⟨hgood, rfl⟩ hsize
    have hdone := s.read_done size
    generalize (RpcInputStream.read s size).1 = reply at hdone ⊢
    generalize (RpcInputStream.read s size).2 = s' at hdone ⊢
    cases hdone with
    | empty hzero _ => omega
    | copied _ hpending hreader hleft =>
        obtain ⟨n, hn, hpos, htake, hdrop⟩ := take_front hpending hsize (delivered s.reader)
        refine ⟨n, hn, fun _ => hpos, by rw [htake], ?_, ?_⟩
        · rw [hreader]
          exact hgood
        · rw [hreader, hleft, hdrop]
    | @fetched data reader _ _ hpending hframe hne hreader hleft =>
        have hall : s.pending ++ delivered s.reader = data ++ delivered reader := by
          rw [hpending, hframe]
          rfl
        obtain ⟨n, hn, hpos, htake, hdrop⟩ := take_front hne hsize (delivered reader)
        rw [hall]
        refine ⟨n, hn, fun _ => hpos, by rw [htake], ?_, ?_⟩
        · rw [hreader]
          intro frame hmem
          exact hgood frame (by rw [hframe]; exact List.mem_cons_of_mem _ hmem)
        · rw [hreader, hleft, hdrop]
    | ended _ hpending hnone hreader hleft =>
        have hall : s.pending ++ delivered s.reader = [] := by
          rw [hpending, hnone]
          rfl
        rw [hall]
        refine ⟨size, le_rfl, fun _ => hsize, by rw [List.take_nil], ?_, ?_⟩
        · rw [hreader]
          simp
        · rw [hreader, hleft, List.drop_nil]
          rfl
    | @bad frame reader _ _ _ _ hframe hbad _ =>
        exact absurd hbad (hgood frame (by rw [hframe]; exact List.mem_cons_self))
  · intro frame hmem
    obtain ⟨block, -, rfl⟩ := List.mem_map.1 hmem
    exact block.2
  · simp [RpcInputStream.ofFrames, RpcInputStream.pending, delivered, dataFrames, payload,
      List.flatMap_def, PutChunkFrame.bytes, Function.comp_def]

end Streams

/-! ## Any store -/

section Stores

variable {T : Signature} {θ σ τ α : Type}

/-- How a call of a store is answered: its own operations by `serve`, those on streams by the
    streams. -/
def serving (serve : (op : T.Op) → θ → T.Ret op × θ) (input : ChunkInputStream σ)
    (output : ChunkOutputStream τ) : Handler (T.sum Streams) (θ × σ × τ) Unit
  | .inl op, w, _ => ((serve op w.1).1, ((serve op w.1).2, w.2))
  | .inr op, w, _ => ((streams input output op w.2).1, (w.1, (streams input output op w.2).2))

/-- The call returns `a`, and leaves the store in `x'` and the output stream in `t'`. -/
def Completes (serve : (op : T.Op) → θ → T.Ret op × θ) (input : ChunkInputStream σ)
    (output : ChunkOutputStream τ) (p : Program (T.sum Streams) α) (x : θ) (s : σ) (t : τ) (a : α)
    (x' : θ) (t' : τ) : Prop :=
  ∃ s', Config.Returns (serving serve input output) (p, (x, s, t)) (fun _ => ()) a (x', s', t')

/-- The call on in-memory streams returns `a` and writes `out`. -/
abbrev Direct (serve : (op : T.Op) → θ → T.Ret op × θ) (p : Program (T.sum Streams) α) (x : θ)
    (d : Bytes) (a : α) (x' : θ) (out : Bytes) : Prop :=
  Completes serve memoryInput memoryOutput p x d [] a x' out

/-- It makes no difference to the call how the bytes it reads are split over the reads. -/
def SplitIndependent (serve : (op : T.Op) → θ → T.Ret op × θ) (p : Program (T.sum Streams) α) : Prop :=
  ∀ {σ σ' : Type} {input : ChunkInputStream σ} {input' : ChunkInputStream σ'} {s : σ} {s' : σ'}
    {d : Bytes} {x x' : θ} {a : α} {out : Bytes}, Conveys input s d → Conveys input' s' d →
    Completes serve input memoryOutput p x s [] a x' out →
    ∃ out', Completes serve input' memoryOutput p x s' [] a x' out'

variable {serve : (op : T.Op) → θ → T.Ret op × θ}

/-- The same state of the store, inputs related by `I`, and the same bytes written. -/
structure Streaming {σ' : Type} (I : σ → σ' → Prop) (w : θ × σ × Bytes)
    (w' : θ × σ' × RpcOutputStream) : Prop where
  store : w'.1 = w.1
  input : I w.2.1 w'.2.1
  accepts : w'.2.2.accepts = fun _ => true
  sent : w'.2.2.sent.flatten = w.2.2

/-- The streams of an RPC in place of those in memory, where the inputs reply the same. -/
theorem Completes.over {σ' : Type} {input : ChunkInputStream σ} {input' : ChunkInputStream σ'}
    (I : σ → σ' → Prop) (hI : ∀ {s s'} size, I s s' → (input s size).1 = (input' s' size).1 ∧
      I (input s size).2 (input' s' size).2)
    {p : Program (T.sum Streams) α} {x x' : θ} {s : σ} {s' : σ'} {a : α} {out : Bytes} (hs : I s s')
    (h : Completes serve input memoryOutput p x s [] a x' out) :
    ∃ s₁ t₁, Config.Returns (serving serve input' RpcOutputStream.write)
      (p, (x, s', RpcOutputStream.opened)) (fun _ => ()) a (x', s₁, t₁) ∧ t₁.sent.flatten = out := by
  have hstep : ∀ op (_ : ℕ) (w : θ × σ × Bytes) (w' : θ × σ' × RpcOutputStream), Streaming I w w' →
      (serving serve input memoryOutput op w ()).1
          = (serving serve input' RpcOutputStream.write op w' ()).1 ∧
        Streaming I (serving serve input memoryOutput op w ()).2
          (serving serve input' RpcOutputStream.write op w' ()).2 := by
    rintro op n ⟨y, s, t⟩ ⟨y', s', t'⟩ ⟨rfl, hs, haccepts, hsent⟩
    dsimp only at hs haccepts hsent
    cases op with
    | inl op => exact ⟨rfl, rfl, hs, haccepts, hsent⟩
    | inr op =>
        cases op with
        | read size =>
            obtain ⟨hreply, hs'⟩ := hI size hs
            exact ⟨hreply, rfl, hs', haccepts, hsent⟩
        | write data =>
            have hwrite : RpcOutputStream.write t' data
                = (.Ok, { t' with sent := t'.sent ++ [data] }) := if_pos (by rw [haccepts])
            simp only [serving, streams, hwrite]
            refine ⟨rfl, rfl, hs, haccepts, ?_⟩
            simp [memoryOutput, hsent]
  obtain ⟨s₀, hret⟩ := h
  have hstart : Streaming I (x, s, []) (x, s', .opened) := ⟨rfl, hs, rfl, rfl⟩
  obtain ⟨⟨y, s₁, t₁⟩, hret', rfl, -, -, hsent⟩ := hret.lockstep (Streaming I) hstep hstart
  exact ⟨s₁, t₁, hret', hsent⟩

/-- A worker with the store. -/
def rpcHost (serve : (op : T.Op) → θ → T.Ret op × θ) :
    Host (T.sum Streams) θ (θ × RpcInputStream × RpcOutputStream) Unit where
  handler := serving serve RpcInputStream.read RpcOutputStream.write
  start x s t := (x, s, t)
  store w := w.1
  input w := w.2.1
  output w := w.2.2
  feed frames w := (w.1, w.2.1.feed frames, w.2.2)
  feed_start _ _ _ _ := rfl
  store_feed _ _ := rfl
  feed_op {frames op w o} hopen := by
    cases op with
    | inl op => rfl
    | inr op =>
        cases op with
        | read size =>
            have hread := RpcInputStream.read_feed frames hopen
            simp only [serving, streams, hread]
        | write data => rfl
  ended_op {op w o} hopen := by
    cases op with
    | inl op => exact hopen
    | inr op =>
        cases op with
        | read size => exact RpcInputStream.ended_of_read hopen
        | write data => exact hopen

variable {store : ChunkStore (T.sum Streams)}

/-- The checks of `DataPlaneService` make no difference. -/
theorem SplitIndependent.putChunk {request : PutChunkRequest}
    (h : SplitIndependent serve (store.put request)) :
    SplitIndependent serve (DataPlaneService.putChunk store request) := by
  intro σ σ' input input' s s' d x x' a out hs hs' hcompletes
  rcases dataPlanePut_cases store request with ⟨status, heq⟩ | heq
  · rw [heq] at hcompletes ⊢
    obtain ⟨s₀, hret⟩ := hcompletes
    obtain ⟨rfl, hw⟩ := hret.unique ⟨0, rfl⟩
    obtain ⟨rfl, -⟩ := Prod.mk.inj hw
    exact ⟨[], s', 0, rfl⟩
  · rw [heq] at hcompletes ⊢
    exact h hs hs' hcompletes

/-- **The handler of an upload answers what the store answers**, however the source is cut into
    frames. -/
theorem upload_completes {request : PutChunkRequest} (h : SplitIndependent serve (store.put request))
    {x x' : θ} {d : Bytes} {status : Status} {out : Bytes}
    (hdirect : Direct serve (DataPlaneService.putChunk store request) x d status x' out)
    {blocks : List FrameData} (hd : payload blocks = d) (ω : ℕ → Unit) :
    ∃ w, ((rpcHost serve).upload store x
        (GrpcDataPlaneClient.metadataFrame request :: dataFrames blocks)).Returns
      (rpcHost serve).handler ω (.Ok, ⟨setStatus status⟩) w ∧ (rpcHost serve).store w = x' := by
  subst hd
  obtain ⟨out', hframes⟩ := h.putChunk (memoryInput_conveys _) (rpcInputStream_conveys blocks) hdirect
  obtain ⟨s₁, t₁, hret, -⟩ := hframes.over Eq (fun {s s'} size hs => by rw [hs]; exact ⟨rfl, rfl⟩) rfl
  exact ⟨(x', s₁, t₁), hret.map fun status => (GrpcStatus.Ok, OperationResponse.mk (setStatus status)),
    rfl⟩

/-- The other calls read nothing: there is no frame. -/
theorem Completes.unread {p : Program (T.sum Streams) α} {x x' : θ} {a : α} {out : Bytes}
    (h : Direct serve p x [] a x' out) :
    ∃ s₁ t₁, Config.Returns (rpcHost serve).handler
      (p, (rpcHost serve).start x (.ofFrames []) .opened) (fun _ => ()) a (x', s₁, t₁) ∧
      t₁.sent.flatten = out := by
  refine h.over (fun s s' => s = [] ∧ s'.reader = [] ∧ s'.offset = s'.data.length) ?_ ⟨rfl, rfl, rfl⟩
  rintro s s' size ⟨rfl, hreader, hend⟩
  by_cases hsize : size = 0
  · subst hsize
    exact ⟨rfl, rfl, hreader, hend⟩
  · simp only [memoryInput, RpcInputStream.read, if_neg hsize, if_pos hend, hreader, List.take_nil,
      List.drop_nil]
    exact ⟨trivial, trivial, trivial, hend⟩

end Stores

/-! ## `GetChunk` on its own -/

/-- `GetChunk` to a fresh destination, where no system call fails: the destination holds what the RPC
    delivered, or is gone if the RPC ended with an error. -/
theorem getChunk_returns {β : Type} {transport : Transport β} {me : ℕ} (request : GetChunkRequest)
    {destination : Path} {fs : FS} {b : β} {ω : ℕ → Outcome} (hfresh : fs.dir destination = none)
    (hfits : fs.Fits destination)
    (hadmits : Config.Admits (World.handler me transport) World.NoFailure
      (GrpcDataPlaneClient.getChunk request destination, ⟨[], fs, [], b⟩) ω)
    (hfair : Config.Fair (World.handler me transport)
      (GrpcDataPlaneClient.getChunk request destination, ⟨[], fs, [], b⟩) ω) :
    ∃ status w' d g, Config.Returns (World.handler me transport)
        (GrpcDataPlaneClient.getChunk request destination, ⟨[], fs, [], b⟩) ω status w' ∧
      Served transport ⟨request.chunkId.value, request.range.offset, request.range.size⟩ b d g
        w'.rest ∧
      status = fromGrpcStatus g ∧ (g.ok = true → w'.fs.contents destination = some d) ∧
      (g.ok = false → w'.fs.dir destination = none) := by
  -- the proof for `Get` starts behind the reply to `HeadChunk`, and the trace does not matter
  let seen : Event ClientSig :=
    ⟨.inr (.headChunk []), headChunkReply (.ok ⟨⟨[]⟩, 0, ⟨.kBlake3, []⟩⟩)⟩
  have hsame : World.SameState (⟨[], fs, [], b⟩ : ClientWorld β) ⟨[], fs, [seen], b⟩ := ⟨rfl, rfl, rfl⟩
  have hback : World.SameState (⟨[], fs, [seen], b⟩ : ClientWorld β) ⟨[], fs, [], b⟩ := ⟨rfl, rfl, rfl⟩
  have hcalm : ∀ (op : ClientSig.Op) (n : ℕ) (w w' : ClientWorld β), World.SameState w w' →
      World.NoFailure op w (ω n) → World.NoFailure op w' (ω n) := fun _ _ _ _ h => h.noFailure
  obtain ⟨hadmits', hfair'⟩ := Config.admits_fair_lockstep World.SameState
    (fun op n _ _ h => h.handler me transport op (ω n)) hcalm hsame hadmits hfair
  have hsurroundings : Surroundings (β := β) Eq me destination _ (fun _ => True)
      (fun fs' => fs'.nameMax = fs.nameMax) _ :=
    .alone (tempFor_ne destination 0 0).symm (fun h => h) (fun _ _ h => h) (fun h => h)
  have hseen : headSeen [seen] = some ⟨⟨[]⟩, 0, ⟨.kBlake3, []⟩⟩ := rfl
  have halways : Always ((World.handler me transport).sem World.NoFailure)
      (GrpcDataPlaneClient.getChunk request destination) ⟨[], fs, [seen], b⟩ _ :=
    (getChunk_safe (B := .sample) (w := ⟨[], fs, [seen], b⟩) hsurroundings request hfresh rfl
      hseen).mono (fun _ _ h => h) (fun _ _ _ => trivial) (fun _ _ h => h)
  obtain ⟨status, v, hret, hdone⟩ := halways.returns hadmits' hfair'
  obtain ⟨w', hret', -, hfs, hrest⟩ := hret.lockstep World.SameState
    (fun op n _ _ h => h.handler me transport op (ω n)) hback
  cases hdone with
  | @stored i d g _ hfetched hserved hg =>
      refine ⟨_, w', d, g, hret', by rw [hrest]; exact hserved, ?_, fun _ => ?_, fun hno => ?_⟩
      · rw [fromGrpcStatus, if_pos hg]
      · obtain ⟨n, hn, -, -, hdata, -⟩ := hfetched.own.file
        rw [hfs, FS.contents, hfetched.own.entry]
        simpa [hn] using hdata
      · rw [hg] at hno
        exact absurd hno (by simp)
  | @refused d g _ hleaving _ hserved hg =>
      refine ⟨_, w', d, g, hret', by rw [hrest]; exact hserved, rfl, fun hyes => ?_, fun _ => ?_⟩
      · rw [hg] at hyes
        exact absurd hyes (by simp)
      · rw [hfs]
        exact hleaving.gone fun w o hok => hok.1
  | failed _ _ _ hfail =>
      refine absurd ⟨World.neverFails_noFailure, fun fs' hK => ?_⟩ hfail
      rw [FS.Fits, hK]
      exact hfits

/-! ## The four calls -/

section Calls

variable {T : Signature} {θ : Type} {serve : (op : T.Op) → θ → T.Ret op × θ}
  {store : ChunkStore (T.sum Streams)} {me : ℕ} {fs : FS} {net : Net θ Unit Unit} {ω : ℕ → Outcome}

/-- The way from a client to the store. -/
noncomputable def rpcPath (serve : (op : T.Op) → θ → T.Ret op × θ)
    (store : ChunkStore (T.sum Streams)) : Transport (Net θ Unit Unit) :=
  network (rpcHost serve) fun _ => store

theorem putChunk_transparent {request : PutChunkRequest} {source : Path} {content out : Bytes}
    {status : Status} {x' : θ} (hsplit : SplitIndependent serve (store.put request))
    (hcontent : fs.contents source = some content) (hfits : fs.Fits source)
    (hadmits : Config.Admits (World.handler me (rpcPath serve store)) World.NoFailure
      (GrpcDataPlaneClient.putChunk request source, ⟨[], fs, [], net⟩) ω)
    (hfair : Config.Fair (World.handler me (rpcPath serve store))
      (GrpcDataPlaneClient.putChunk request source, ⟨[], fs, [], net⟩) ω)
    (hdirect : Direct serve (DataPlaneService.putChunk store request) net.store content status x' out) :
    ∃ status' w', Config.Returns (World.handler me (rpcPath serve store))
        (GrpcDataPlaneClient.putChunk request source, ⟨[], fs, [], net⟩) ω status' w' ∧
      status'.code = status.code ∧ w'.rest.store = x' := by
  have halways : Always ((World.handler me (rpcPath serve store)).sem World.NoFailure)
      (GrpcDataPlaneClient.putChunk request source) ⟨[], fs, [], net⟩ _ :=
    putChunk_safe (Reading.source me hcontent) (fun hR => by rw [hR]) (fun _ _ _ => trivial) rfl
  obtain ⟨status', w', hret, hdone⟩ := halways.returns hadmits hfair
  have completes := fun blocks (hall : payload blocks = content) =>
    upload_completes hsplit hdirect hall net.plan.schedule
  obtain ⟨blocks, reply, w, hall, hupload, rfl, hstore, -⟩ := hdone.whole World.neverFails_noFailure
    (Reading.present hcontent hfits) (fun hE => hE.1) (fun hP => hP.isPrefix) fun blocks hall => by
      obtain ⟨w, hcompletes, -⟩ := completes blocks hall
      exact ⟨_, w, hcompletes⟩
  obtain ⟨w₁, hcompletes, hx⟩ := completes blocks hall
  obtain ⟨rfl, rfl⟩ := hupload.unique hcompletes
  exact ⟨_, w', hret, uploadStatus_setStatus status, hstore.trans hx⟩

theorem getChunk_transparent {request : GetChunkRequest} {destination : Path} {out : Bytes}
    {status : Status} {x' : θ} (hfresh : fs.dir destination = none) (hfits : fs.Fits destination)
    (hadmits : Config.Admits (World.handler me (rpcPath serve store)) World.NoFailure
      (GrpcDataPlaneClient.getChunk request destination, ⟨[], fs, [], net⟩) ω)
    (hfair : Config.Fair (World.handler me (rpcPath serve store))
      (GrpcDataPlaneClient.getChunk request destination, ⟨[], fs, [], net⟩) ω)
    (hdirect : Direct serve (DataPlaneService.getChunk store request) net.store [] status x' out) :
    ∃ status' w', Config.Returns (World.handler me (rpcPath serve store))
        (GrpcDataPlaneClient.getChunk request destination, ⟨[], fs, [], net⟩) ω status' w' ∧
      status'.code = status.code ∧ w'.rest.store = x' ∧
      (status.ok = true → w'.fs.contents destination = some out) ∧
      (status.ok = false → w'.fs.dir destination = none) := by
  obtain ⟨status', w', d, g, hret, ⟨net₁, hdelivered, hfinish⟩, rfl, hgot, hgone⟩ :=
    getChunk_returns request hfresh hfits hadmits hfair
  obtain ⟨s₁, t₁, hcompletes, hout⟩ := Completes.unread hdirect
  have hhandles : (rpcHost serve).Handles net (WorkerService.getChunk (some store)
      ⟨request.chunkId.value, request.range.offset, request.range.size⟩) (toGrpcStatus status)
      (x', s₁, t₁) := hcompletes.map toGrpcStatus
  have hstart : rpcPath serve store _ net = _ := network_getChunk hhandles
  rw [hstart] at hdelivered
  obtain ⟨rfl, rfl⟩ := network_delivered hdelivered
  obtain ⟨rfl, hnet⟩ := Prod.mk.inj hfinish
  refine ⟨_, w', hret, fromGrpcStatus_toGrpcStatus status, ?_, fun hok => ?_, fun hno => ?_⟩
  · rw [← hnet]
    rfl
  · rw [hgot (by rw [toGrpcStatus_ok]; exact hok), ← hout]
    rfl
  · exact hgone (by rw [toGrpcStatus_ok]; exact hno)

theorem headChunk_transparent {request : HeadChunkRequest} {r : StatusOr HeadChunkResponse}
    {out : Bytes} {x' : θ}
    (hdirect : Direct serve (DataPlaneService.headChunk store request) net.store [] r x' out) :
    ∃ w', Config.Returns (World.handler me (rpcPath serve store))
        (GrpcDataPlaneClient.headChunk request, ⟨[], fs, [], net⟩) ω
        (GrpcDataPlaneClient.headReply (headChunkReply r)) w' ∧ w'.rest.store = x' := by
  obtain ⟨s₁, t₁, hcompletes, -⟩ := Completes.unread hdirect
  have hprog : WorkerService.headChunk (some store) request.chunkId.value
      = (DataPlaneService.headChunk store request >>= fun r => .ret (headChunkReply r)) := by
    refine congrArg (DataPlaneService.headChunk store request >>= ·) (funext fun r => ?_)
    cases r with
    | error s => rfl
    | ok value => rfl
  have hhandles : (rpcHost serve).Handles net (WorkerService.headChunk (some store)
      request.chunkId.value) (headChunkReply r) (x', s₁, t₁) := by
    rw [hprog]
    exact hcompletes.map headChunkReply
  have hreply : rpcPath serve store _ net = _ := network_headChunk hhandles
  have hstep : World.handler me (rpcPath serve store) (.inr (.headChunk request.chunkId.value))
      ⟨[], fs, [], net⟩ (ω 0) = (headChunkReply r, World.replied (B := Rpc) ⟨[], fs, [], net⟩
        (.headChunk request.chunkId.value) (headChunkReply r) { net.next with store := x' }) := by
    simp only [World.handler, hreply]
    rfl
  exact ⟨_, Config.returns_call hstep ⟨0, rfl⟩, rfl⟩

theorem deleteChunk_transparent {request : DeleteChunkRequest} {status : Status} {out : Bytes} {x' : θ}
    (hdirect : Direct serve (DataPlaneService.deleteChunk store request) net.store [] status x' out) :
    ∃ w', Config.Returns (World.handler me (rpcPath serve store))
        (GrpcDataPlaneClient.deleteChunk request, ⟨[], fs, [], net⟩) ω
        (fromRpcStatus (setStatus status)) w' ∧ w'.rest.store = x' := by
  obtain ⟨s₁, t₁, hcompletes, -⟩ := Completes.unread hdirect
  have hhandles : (rpcHost serve).Handles net (WorkerService.deleteChunk (some store)
      request.chunkId.value) (.Ok, ⟨setStatus status⟩) (x', s₁, t₁) :=
    hcompletes.map fun status => (GrpcStatus.Ok, OperationResponse.mk (setStatus status))
  have hreply : rpcPath serve store _ net = _ := network_deleteChunk hhandles
  have hstep : World.handler me (rpcPath serve store) (.inr (.deleteChunk request.chunkId.value))
      ⟨[], fs, [], net⟩ (ω 0) = ((.Ok, ⟨setStatus status⟩), World.replied (B := Rpc)
        ⟨[], fs, [], net⟩ (.deleteChunk request.chunkId.value) (.Ok, ⟨setStatus status⟩)
        { net.next with store := x' }) := by
    simp only [World.handler, hreply]
    rfl
  exact ⟨_, Config.returns_call hstep ⟨0, rfl⟩, rfl⟩

end Calls

/-- **The RPC path is transparent.** Whatever the store does, as long as its `Put` does not depend on
    how the bytes are split over the reads: if a call of `DataPlaneService` on in-memory streams
    returns, then the same call of `GrpcDataPlaneClient` over the network returns, with the same code
    and the same effect on the store. A `HeadChunk` gives the same response. A `GetChunk` to a fresh
    destination leaves there what the store wrote, or nothing if it did not succeed. An upload may be
    answered before all of it was sent. -/
theorem rpc_transparent {T : Signature} {θ : Type} (serve : (op : T.Op) → θ → T.Ret op × θ)
    (store : ChunkStore (T.sum Streams)) (hsplit : ∀ request, SplitIndependent serve (store.put request))
    (me : ℕ) (fs : FS) (net : Net θ Unit Unit) (ω : ℕ → Outcome) :
    (∀ (request : PutChunkRequest) (source : Path) (content : Bytes) (status : Status) (x' : θ)
      (out : Bytes), fs.contents source = some content → fs.Fits source →
      Config.Admits (World.handler me (rpcPath serve store)) World.NoFailure
        (GrpcDataPlaneClient.putChunk request source, ⟨[], fs, [], net⟩) ω →
      Config.Fair (World.handler me (rpcPath serve store))
        (GrpcDataPlaneClient.putChunk request source, ⟨[], fs, [], net⟩) ω →
      Direct serve (DataPlaneService.putChunk store request) net.store content status x' out →
      ∃ status' w', Config.Returns (World.handler me (rpcPath serve store))
          (GrpcDataPlaneClient.putChunk request source, ⟨[], fs, [], net⟩) ω status' w' ∧
        status'.code = status.code ∧ w'.rest.store = x') ∧
    (∀ (request : GetChunkRequest) (destination : Path) (status : Status) (x' : θ) (out : Bytes),
      fs.dir destination = none → fs.Fits destination →
      Config.Admits (World.handler me (rpcPath serve store)) World.NoFailure
        (GrpcDataPlaneClient.getChunk request destination, ⟨[], fs, [], net⟩) ω →
      Config.Fair (World.handler me (rpcPath serve store))
        (GrpcDataPlaneClient.getChunk request destination, ⟨[], fs, [], net⟩) ω →
      Direct serve (DataPlaneService.getChunk store request) net.store [] status x' out →
      ∃ status' w', Config.Returns (World.handler me (rpcPath serve store))
          (GrpcDataPlaneClient.getChunk request destination, ⟨[], fs, [], net⟩) ω status' w' ∧
        status'.code = status.code ∧ w'.rest.store = x' ∧
        (status.ok = true → w'.fs.contents destination = some out) ∧
        (status.ok = false → w'.fs.dir destination = none)) ∧
    (∀ (request : HeadChunkRequest) (r : StatusOr HeadChunkResponse) (x' : θ) (out : Bytes),
      Direct serve (DataPlaneService.headChunk store request) net.store [] r x' out →
      ∃ r' w', Config.Returns (World.handler me (rpcPath serve store))
          (GrpcDataPlaneClient.headChunk request, ⟨[], fs, [], net⟩) ω r' w' ∧ w'.rest.store = x' ∧
        (∀ value, r = .ok value → r' = .ok value) ∧
        ∀ s : ErrorStatus, r = .error s → ∃ s' : ErrorStatus, r' = .error s' ∧ s'.1.code = s.1.code) ∧
    (∀ (request : DeleteChunkRequest) (status : Status) (x' : θ) (out : Bytes),
      Direct serve (DataPlaneService.deleteChunk store request) net.store [] status x' out →
      ∃ status' w', Config.Returns (World.handler me (rpcPath serve store))
          (GrpcDataPlaneClient.deleteChunk request, ⟨[], fs, [], net⟩) ω status' w' ∧
        status'.code = status.code ∧ w'.rest.store = x') := by
  refine ⟨?_, ?_, ?_, ?_⟩
  · intro request source content status x' out hcontent hfits hadmits hfair hdirect
    exact putChunk_transparent (hsplit request) hcontent hfits hadmits hfair hdirect
  · intro request destination status x' out hfresh hfits hadmits hfair hdirect
    exact getChunk_transparent hfresh hfits hadmits hfair hdirect
  · intro request r x' out hdirect
    obtain ⟨w', hret, hstore⟩ := headChunk_transparent hdirect
    refine ⟨_, w', hret, hstore, ?_, ?_⟩
    · rintro value rfl
      exact headReply_ok value
    · rintro s rfl
      exact headReply_error s
  · intro request status x' out hdirect
    obtain ⟨w', hret, hstore⟩ := deleteChunk_transparent hdirect
    exact ⟨_, w', hret, fromRpcStatus_setStatus status, hstore⟩

/-! ## A store that gives up early -/

/-- The operation of the sample store: remember the bytes. -/
abbrev Memory : Signature := ⟨Bytes, fun _ => Unit⟩

def remember : (op : Memory.Op) → Bytes → Memory.Ret op × Bytes := fun op x => ((), x ++ op)

/-- A store whose `Put` remembers one byte and is full then, with the rest of the upload unread. -/
def oneByteStore : ChunkStore (Memory.sum Streams) where
  put _ := do
    match ← Program.perform (S := Memory.sum Streams) (.inr (.read 1)) with
    | .error s => return s.1
    | .ok bytes =>
        let _ ← Program.perform (S := Memory.sum Streams) (.inl bytes)
        return .of .kResourceExhausted (ascii "full")
  get _ := return .Ok
  head _ := return .ofStatus (.of .kNotFound (ascii "nothing is kept"))
  delete _ := return .Ok

/-- A read of one byte is not split. -/
theorem oneByteStore_splitIndependent (request : PutChunkRequest) :
    SplitIndependent remember (oneByteStore.put request) := by
  have hcompletes : ∀ {σ : Type} {input : ChunkInputStream σ} {s : σ} {d x : Bytes},
      Conveys input s d → Completes remember input memoryOutput (oneByteStore.put request) x s []
        (.of .kResourceExhausted (ascii "full")) (x ++ d.take 1) [] := by
    rintro σ input s d x ⟨left, hconveying, hs⟩
    obtain ⟨n, hn, hpos, hreply, -⟩ := hconveying.read hs Nat.one_pos
    have htake : d.take n = d.take 1 := by
      cases d with
      | nil => rw [List.take_nil, List.take_nil]
      | cons c d =>
          have hone : 0 < n := hpos (by simp)
          rw [show n = 1 by omega]
    rw [htake] at hreply
    have hread : serving remember input memoryOutput (.inr (.read 1)) (x, s, []) ()
        = (.ok (d.take 1), (x, (input s 1).2, [])) := Prod.ext hreply rfl
    exact ⟨(input s 1).2, Config.returns_call hread (Config.returns_call rfl ⟨0, rfl⟩)⟩
  intro σ σ' input input' s s' d x x' a out hs hs' hret
  obtain ⟨s₀, hret⟩ := hret
  obtain ⟨s₁, hret₁⟩ := hcompletes hs
  obtain ⟨rfl, hw⟩ := hret.unique hret₁
  obtain ⟨rfl, -⟩ := Prod.mk.inj hw
  exact ⟨[], hcompletes hs'⟩

/-- An upload can run to its end with no failing call. -/
theorem putChunk_steady {β : Type} (transport : Transport β) (me : ℕ) (request : PutChunkRequest)
    (source : Path) :
    (GrpcDataPlaneClient.putChunk request source).Steady (World.handler me transport)
      World.NoFailure .done := by
  have hsend : ∀ fd rounds, (GrpcDataPlaneClient.send fd rounds).Steady (World.handler me transport)
      World.NoFailure .done := by
    intro fd rounds
    induction rounds with
    | zero => trivial
    | succ rounds ih =>
        unfold GrpcDataPlaneClient.send
        refine ⟨fun w => ⟨⟨trivial, trivial⟩, done_not_interrupted _ me w.fds w.fs⟩, fun r => ?_⟩
        cases r with
        | error e => trivial
        | ok bytes =>
            simp only [Program.bind]
            split
            · trivial
            · refine ⟨fun w => ⟨trivial, rfl⟩, fun accepted => ?_⟩
              cases accepted with
              | false => trivial
              | true => exact ih
  unfold GrpcDataPlaneClient.putChunk
  refine ⟨fun w => ⟨⟨trivial, trivial⟩, rfl⟩, fun r => ?_⟩
  cases r with
  | error e => trivial
  | ok fd =>
      refine ⟨fun w => ⟨trivial, rfl⟩, fun _ => ⟨fun w => ⟨trivial, rfl⟩, fun accepted => ?_⟩⟩
      cases accepted with
      | false => exact ⟨fun w => ⟨trivial, rfl⟩, fun _ => ⟨fun w => ⟨trivial, rfl⟩, fun _ => trivial⟩⟩
      | true =>
          refine (hsend fd (offMax + 1)).bind fun r => ?_
          cases r with
          | error e =>
              exact ⟨fun w => ⟨trivial, rfl⟩, fun _ => ⟨fun w => ⟨trivial, rfl⟩,
                fun _ => ⟨fun w => ⟨trivial, rfl⟩, fun _ => trivial⟩⟩⟩
          | ok _ =>
              refine ⟨fun w => ⟨trivial, rfl⟩, fun _ => ⟨fun w => ⟨trivial, rfl⟩, fun reply => ?_⟩⟩
              simp only [Program.bind]
              split <;> trivial

/-- The source of the sample upload: the file `"a"` in the directory `"c"` with two bytes. -/
def twoBytes : FS := ((FS.empty 255).create ⟨[0x63], [0x61]⟩ 0).modify 0 (·.write 0 [0x61, 0x62])

/-- The upload of two bytes to the store that is full after one. -/
theorem rpc_transparent_full :
    ∃ status w', Config.Returns (World.handler 0 (rpcPath remember oneByteStore))
        (GrpcDataPlaneClient.putChunk (samplePut [0x61, 0x62]) ⟨[0x63], [0x61]⟩,
          ⟨[], twoBytes, [], ⟨[], fun _ => ⟨(), fun _ => (), fun _ => true, 0⟩, [], false, [], .Ok⟩⟩)
        (fun _ => .done) status w' ∧
      status.code = .kResourceExhausted ∧ w'.rest.store = [0x61] := by
  have hsteady := putChunk_steady (rpcPath remember oneByteStore) 0 (samplePut [0x61, 0x62])
    ⟨[0x63], [0x61]⟩
  obtain ⟨hadmits, hfair⟩ := hsteady.schedule
    ⟨[], twoBytes, [], ⟨[], fun _ => ⟨(), fun _ => (), fun _ => true, 0⟩, [], false, [], .Ok⟩⟩
  have hdirect : Direct remember (DataPlaneService.putChunk oneByteStore (samplePut [0x61, 0x62])) []
      [0x61, 0x62] (.of .kResourceExhausted (ascii "full")) [0x61] [] :=
    ⟨[0x62], 2, rfl⟩
  exact (rpc_transparent remember oneByteStore oneByteStore_splitIndependent 0 twoBytes _ _).1 _ _
    [0x61, 0x62] _ _ _ (by decide) (by decide) hadmits hfair hdirect

end ChunkStorage
