import ChunkStorage.Calls

set_option autoImplicit false

/-! # What `Get` writes

The blocks `Get` hands to its output, with the answers to them, over every schedule of short and
failing reads and every output stream. -/

namespace ChunkStorage

open Effects Posix Program

variable {σ τ : Type}

/-- The calls of `Write` in a trace, in order, with their replies. -/
def outputCalls : List (Event StoreSig) → List (Bytes × Status)
  | [] => []
  | ⟨.inr (.write data), status⟩ :: events => outputCalls events ++ [((data, status) : Bytes × Status)]
  | _ :: events => outputCalls events

/-- The bytes that were accepted. -/
def accepted (calls : List (Bytes × Status)) : Bytes :=
  calls.flatMap fun call => if call.2.ok then call.1 else []

@[simp] theorem outputCalls_sys (s : Syscall) (r : s.Ret) (events : List (Event StoreSig)) :
    outputCalls (⟨.inl s, r⟩ :: events) = outputCalls events := rfl

@[simp] theorem outputCalls_write (data : Bytes) (r : Status) (events : List (Event StoreSig)) :
    outputCalls (⟨.inr (.write data), r⟩ :: events) = outputCalls events ++ [(data, r)] := rfl

/-- A system call writes nothing to the output. -/
@[simp] theorem outputCalls_answered (w : StoreWorld σ τ) (s : Syscall) (r : s.Ret)
    (fds : List OpenFile) (fs : FS) :
    outputCalls (w.answered s r fds fs).trace = outputCalls w.trace := by
  unfold World.answered
  dsimp only
  split
  · rfl
  · exact outputCalls_sys s r w.trace

/-- A `Get` that came to its loop returned `status` after these calls of `Write`: the accepted blocks
    are a prefix of the slice, all of it exactly on success, and a refused block is the last. -/
structure Emitted (slice : Bytes) (calls : List (Bytes × Status)) (status : Status) : Prop where
  blocks : ∀ call ∈ calls, 1 ≤ call.1.length ∧ call.1.length ≤ kBufferSize
  isPrefix : accepted calls <+: slice
  whole : status.ok = true ↔ accepted calls = slice
  refused : ∀ xs call ys, calls = xs ++ call :: ys → call.2.ok = false → ys = [] ∧ status = call.2

/-- A loop that stopped before its first block. -/
theorem Emitted.stopped {slice : Bytes} {status : Status} (hno : status.ok = false)
    (hslice : slice ≠ []) : Emitted slice [] status where
  blocks call hcall := absurd hcall (by simp)
  isPrefix := List.nil_prefix
  whole := ⟨fun h => absurd h (by simp [hno]), fun h => absurd h.symm hslice⟩
  refused xs call ys h _ := absurd h (by simp)

/-- The whole of nothing. -/
theorem Emitted.nothing : Emitted [] [] .Ok where
  blocks call hcall := absurd hcall (by simp)
  isPrefix := List.nil_prefix
  whole := ⟨fun _ => rfl, fun _ => rfl⟩
  refused xs call ys h _ := absurd h (by simp)

/-- A block that was refused. -/
theorem Emitted.refuses {block rest : Bytes} {status : Status} (hno : status.ok = false)
    (hpos : 1 ≤ block.length) (hmax : block.length ≤ kBufferSize) :
    Emitted (block ++ rest) [(block, status)] status where
  blocks call hcall := by
    obtain rfl := List.mem_singleton.1 hcall
    exact ⟨hpos, hmax⟩
  isPrefix := by simp [accepted, hno]
  whole := by
    have hne : block ≠ [] := List.length_pos_iff.1 hpos
    simp [accepted, hno, hne]
  refused xs call ys h _ := by
    cases xs with
    | nil =>
        obtain ⟨rfl, rfl⟩ := List.cons.inj h
        exact ⟨rfl, rfl⟩
    | cons x xs => exact absurd (List.cons.inj h).2 (by simp)

/-- A block that was accepted, and what followed. -/
theorem Emitted.accepts {block rest : Bytes} {calls : List (Bytes × Status)} {reply status : Status}
    (h : Emitted rest calls status) (hok : reply.ok = true) (hpos : 1 ≤ block.length)
    (hmax : block.length ≤ kBufferSize) :
    Emitted (block ++ rest) ((block, reply) :: calls) status where
  blocks call hcall := by
    rcases List.mem_cons.1 hcall with rfl | hcall'
    · exact ⟨hpos, hmax⟩
    · exact h.blocks call hcall'
  isPrefix := by
    have hprefix := h.isPrefix
    simp only [accepted, List.flatMap_cons, hok, if_true]
    exact (List.prefix_append_right_inj block).2 hprefix
  whole := by
    rw [h.whole]
    simp [accepted, hok]
  refused xs call ys hcalls hno := by
    cases xs with
    | nil =>
        obtain ⟨rfl, -⟩ := List.cons.inj hcalls
        exact absurd hok (by simp [hno])
    | cons x xs => exact h.refused xs call ys (List.cons.inj hcalls).2 hno

section Loop

variable {input : ChunkInputStream σ} {output : ChunkOutputStream τ} {me : ℕ}
  {ok : (op : StoreSig.Op) → StoreWorld σ τ → Outcome → Prop}

/-- A descriptor is open on the file, and these calls of `Write` were made. -/
def Emitting (fd : ℕ) (file : Bytes) (calls : List (Bytes × Status)) (w : StoreWorld σ τ) : Prop :=
  (∃ f i, w.fds[fd]? = some f ∧ w.fs.inodes[f.ino]? = some i ∧ i.data = file) ∧
    outputCalls w.trace = calls

theorem Emitting.quiet (fd : ℕ) (file : Bytes) (calls : List (Bytes × Status)) :
    World.Quiet Eq (fun _ _ => True) (Emitting (σ := σ) (τ := τ) fd file calls) where
  env hw hR := hR ▸ hw
  looks s r hs hw := ⟨⟨hw.1, by simpa using hw.2⟩, trivial⟩

/-- **The loop of `Get`**, on a file that holds the bytes it asks for. -/
theorem getLoop_emits {fd : ℕ} {file : Bytes} (hfile : file.length ≤ offMax) (rounds : ℕ)
    {remaining offset : UInt64} (hrounds : remaining.toNat ≤ rounds)
    (hin : offset.toNat + remaining.toNat ≤ file.length) {calls : List (Bytes × Status)}
    {w : StoreWorld σ τ} (hw : Emitting fd file calls w) :
    (getLoop fd rounds remaining offset).Always ((World.handler me (streams input output)).sem ok) w
      (fun status w' => ∃ new, outputCalls w'.trace = calls ++ new ∧
        Emitted ((file.drop offset.toNat).take remaining.toNat) new status) := by
  have done : ∀ {remaining offset : UInt64} {calls : List (Bytes × Status)} {w : StoreWorld σ τ},
      remaining.toNat = 0 → Emitting fd file calls w → ∃ new, outputCalls w.trace = calls ++ new ∧
        Emitted ((file.drop offset.toNat).take remaining.toNat) new .Ok := by
    intro remaining offset calls w hzero hw
    refine ⟨[], by rw [hw.2, List.append_nil], ?_⟩
    rw [hzero, List.take_zero]
    exact Emitted.nothing
  induction rounds generalizing remaining offset calls w with
  | zero => exact done (by omega) hw
  | succ rounds ih =>
      unfold getLoop
      by_cases hpos : remaining > 0
      · have hrem : 0 < remaining.toNat := hpos
        have hslice : (file.drop offset.toNat).take remaining.toNat ≠ [] := by
          intro hnil
          have hlen := congrArg List.length hnil
          rw [List.length_take, List.length_drop, List.length_nil] at hlen
          omega
        rw [if_pos hpos]
        refine safe_bind.2 ((preadSome_safe (Emitting.quiet fd file calls) (fun w hw => hw.1)
          (by omega) hw).imp ?_)
        rintro r w' ⟨hw', ⟨m, hm, hmpos, rfl⟩ | ⟨s, rfl, hs, hfail⟩⟩
        · have hm0 := hmpos (lt_min hrem (by simp [kBufferSize]))
          have hmrem : m ≤ remaining.toNat := hm.trans (min_le_left _ _)
          have hmbuf : m ≤ kBufferSize := hm.trans (min_le_right _ _)
          have hlen : ((file.drop offset.toNat).take m).length = m := by
            rw [List.length_take, List.length_drop]
            omega
          have hne : ¬ m = 0 := by omega
          have hsplit : (file.drop offset.toNat).take remaining.toNat
              = (file.drop offset.toNat).take m
                ++ (file.drop (offset.toNat + m)).take (remaining.toNat - m) := by
            rw [← List.drop_drop, ← List.take_add, Nat.add_sub_cancel' hmrem]
          simp only [hlen, if_neg hne]
          refine safe_other fun w₁ hR status rest hreply => ⟨trivial, ?_⟩
          subst hR
          have hw₁ : Emitting fd file (calls ++ [((file.drop offset.toNat).take m, status)])
              (w'.replied (.write ((file.drop offset.toNat).take m)) status rest) :=
            ⟨hw'.1, by rw [World.replied_trace, outputCalls_write, hw'.2]⟩
          by_cases hok : status.ok = true
          · have hsub := toNat_sub_block hmrem
            have hadd := toNat_add_block (show offset.toNat + m ≤ offMax by omega)
            simp only [hok, Bool.not_true, Bool.false_eq_true, if_false]
            refine (ih (by rw [hsub]; omega) (by rw [hsub, hadd]; omega) hw₁).imp ?_
            rintro status' w'' ⟨new, hcalls, hemitted⟩
            rw [hsub, hadd] at hemitted
            refine ⟨((file.drop offset.toNat).take m, status) :: new, ?_, ?_⟩
            · rw [hcalls, List.append_assoc]
              rfl
            · rw [hsplit]
              exact hemitted.accepts hok (by omega) (by omega)
          · have hno : status.ok = false := by simpa using hok
            simp only [hno, Bool.not_false, if_true]
            refine ⟨[((file.drop offset.toNat).take m, status)], hw₁.2, ?_⟩
            rw [hsplit]
            exact Emitted.refuses hno (by omega) (by omega)
        · exact ⟨[], by rw [hw'.2, List.append_nil], Emitted.stopped s.2 hslice⟩
      · have hzero : remaining.toNat = 0 := by
          have : ¬ 0 < remaining.toNat := hpos
          omega
        rw [if_neg hpos]
        exact done hzero hw

end Loop

/-! ## The whole call -/

/-- `Head` alone writes nothing. -/
def Silent (fs : FS) (w : StoreWorld σ τ) : Prop := w.fs = fs ∧ outputCalls w.trace = []

theorem Silent.opening (fs : FS) (path : Path) :
    Opening (σ := σ) (τ := τ) Eq (fun _ _ => True) path (Silent fs)
      (fun fd file w => w.fs = fs ∧ Emitting fd file [] w) where
  env hw hR := hR ▸ hw
  failed e hw := ⟨⟨hw.1, by simpa using hw.2⟩, trivial⟩
  opened {w i n} hw hi hn w' hw' := by
    subst hw'
    exact ⟨⟨hw.1, ⟨⟨i, 0⟩, n, by simp, hn, rfl⟩, by simpa using hw.2⟩, trivial⟩
  quiet fd file :=
    { env := fun hw hR => hR ▸ hw
      looks := fun s r hs hw => ⟨⟨hw.1, ((Emitting.quiet fd file []).looks s r hs hw.2).1⟩, trivial⟩ }
  reads fd file w hw := hw.2.1

/-- How a `Get` of a chunk with payload `p` ran: `Head` came first, for the schedule up to `m`, and
    the second `open` next. -/
inductive GetRan (root : Bytes) (request : GetChunkRequest) (p : Bytes)
    (h : Handler StoreSig (StoreWorld σ τ) Outcome) (w : StoreWorld σ τ) (ω : ℕ → Outcome) :
    Status → StoreWorld σ τ → Prop
  | head {m : ℕ} {s : ErrorStatus} {w₁ : StoreWorld σ τ} :
      Config.exec h (head root request.chunkId, w) ω m = (.ret (.error s), w₁) →
      outputCalls w₁.trace = [] → GetRan root request p h w ω s.1 w₁
  | range {m : ℕ} {response : HeadChunkResponse} {w₁ : StoreWorld σ τ} :
      Config.exec h (head root request.chunkId, w) ω m = (.ret (.ok response), w₁) →
      (validateByteRange request.range response.size).ok = false → outputCalls w₁.trace = [] →
      GetRan root request p h w ω (validateByteRange request.range response.size) w₁
  | reopen {m : ℕ} {response : HeadChunkResponse} {e : Errno} {w₁ w₂ : StoreWorld σ τ} :
      Config.exec h (head root request.chunkId, w) ω m = (.ret (.ok response), w₁) →
      (validateByteRange request.range response.size).ok = true →
      h (.inl (.openRead (pathFor root request.chunkId))) w₁ (ω m) = (.error e, w₂) →
      outputCalls w₂.trace = [] →
      GetRan root request p h w ω (openError root request.chunkId e) w₂
  | streamed {m fd : ℕ} {response : HeadChunkResponse} {status : Status} {w₁ w₂ w' : StoreWorld σ τ} :
      Config.exec h (head root request.chunkId, w) ω m = (.ret (.ok response), w₁) →
      (validateByteRange request.range response.size).ok = true →
      h (.inl (.openRead (pathFor root request.chunkId))) w₁ (ω m) = (.ok fd, w₂) →
      Emitted ((p.drop request.range.offset.toNat).take request.range.size.toNat)
        (outputCalls w'.trace) status →
      GetRan root request p h w ω status w'

/-- **`Get` emits a prefix of the requested slice, all of it exactly on success, and terminates**: for
    every chunk file, range, schedule of short, interrupted and failing calls and output stream, as
    long as no call is interrupted forever. -/
theorem get_emits (root : Bytes) (fs : FS) (request : GetChunkRequest) (c : Checksum) (p file : Bytes)
    (input : ChunkInputStream σ) (output : ChunkOutputStream τ) (s : σ) (t : τ) (me : ℕ)
    (ω : ℕ → Outcome) (hfile : fs.contents (pathFor root request.chunkId) = some file)
    (hchunk : ChunkFile c p file)
    (hfair : Config.Fair (World.handler me (streams input output))
      (get root request, (⟨[], fs, [], (s, t)⟩ : StoreWorld σ τ)) ω) :
    ∃ status w', Config.Returns (World.handler me (streams input output))
        (get root request, ⟨[], fs, [], (s, t)⟩) ω status w' ∧
      GetRan root request p (World.handler me (streams input output)) ⟨[], fs, [], (s, t)⟩ ω status w' := by
  have hlen := FS.contents_length_le hfile
  have hadmits : ∀ {α : Type} {c : Config StoreSig α (StoreWorld σ τ)} {ω : ℕ → Outcome},
      c.Admits (World.handler me (streams input output)) World.Any ω := fun _ _ _ _ _ => trivial
  generalize hstart : (⟨[], fs, [], (s, t)⟩ : StoreWorld σ τ) = w at hfair ⊢
  have hw : Silent fs w := by
    rw [← hstart]
    exact ⟨rfl, rfl⟩
  have hreturns : Always ((World.handler me (streams input output)).sem World.Any)
      (get root request) w _ := get_always request (by rw [← hstart]; rfl)
  obtain ⟨status, w', hret, -⟩ := hreturns.returns hadmits hfair
  refine ⟨status, w', hret, ?_⟩
  obtain ⟨m, r, w₁, hhead, hrest⟩ := hret.of_bind
  have hdone : Always ((World.handler me (streams input output)).sem World.Any)
      (head root request.chunkId) w _ := head_safe (Silent.opening fs _) hw
  replace hdone := hdone.of_returns hadmits ⟨m, hhead⟩
  cases r with
  | error e =>
      obtain ⟨rfl, rfl⟩ := hrest.unique ⟨0, rfl⟩
      refine .head hhead ?_
      rcases hdone with ⟨hsilent, -⟩ | ⟨-, -, hat, -⟩
      · exact hsilent.2
      · exact hat.2.2
  | ok response =>
      obtain ⟨hsilent, hsize⟩ : Silent fs w₁ ∧ response.size = UInt64.ofNat p.length := by
        cases hdone with
        | read _ hseen hat hanswer =>
            obtain ⟨w₀, -, hw₀, -, hseen'⟩ := hseen
            rw [hw₀.1, hfile] at hseen'
            obtain rfl := Option.some.inj hseen'
            refine ⟨⟨hat.1, hat.2.2⟩, ?_⟩
            rcases hanswer with ⟨c', p', hchunk', hr⟩ | ⟨-, e, hr, -⟩ | ⟨e, hr, -⟩
            · obtain ⟨-, rfl⟩ := hchunk.unique hchunk'
              rw [Except.ok.inj hr]
            · exact absurd hr (by simp)
            · exact absurd hr (by simp)
      by_cases hvalid : (validateByteRange request.range response.size).ok = true
      · simp only [hvalid, Bool.not_true, Bool.false_eq_true, if_false] at hrest
        replace hrest := hrest.of_call
        rcases hreply : World.handler me (streams input output)
          (.inl (.openRead (pathFor root request.chunkId))) w₁ (ω m) with ⟨reply, w₂⟩
        simp only [Nat.add_zero, hreply] at hrest
        obtain ⟨fds', fs', hexec, rfl⟩ := World.handler_sys_inv hreply
        obtain ⟨rfl, ⟨e, rfl, rfl, -⟩ | ⟨i, hi, rfl, rfl⟩⟩ := openRead_cases hexec
        · obtain ⟨rfl, rfl⟩ := hrest.unique ⟨0, rfl⟩
          exact .reopen hhead hvalid hreply (by simpa using hsilent.2)
        · obtain ⟨n, hn⟩ := w₁.fs.dir_eq_some hi
          have hdata : n.data = file := by
            rw [FS.contents, ← hsilent.1, hi] at hfile
            simpa [hn] using hfile
          have hin : request.range.Within p := by
            rw [hsize] at hvalid
            exact (hchunk.within_iff hlen request.range).1 hvalid
          have hbound : request.range.offset.toNat + request.range.size.toNat ≤ p.length := hin
          have hflen := hchunk.length
          have hoff : (request.range.offset + UInt64.ofNat kHeaderSize).toNat
              = request.range.offset.toNat + 80 :=
            toNat_add_block (by rw [kHeaderSize_eq]; omega)
          have hopened : Emitting w₁.fds.length file [] (w₁.answered
              (.openRead (pathFor root request.chunkId)) (.ok w₁.fds.length) (w₁.fds ++ [⟨i, 0⟩])
              w₁.fs) := ⟨⟨⟨i, 0⟩, n, by simp, hn, hdata⟩, by simpa using hsilent.2⟩
          have hloop : Always ((World.handler me (streams input output)).sem World.Any) _ _ _ :=
            getLoop_emits hlen request.range.size.toNat le_rfl (by rw [hoff]; omega) hopened
          obtain ⟨new, hcalls, hemitted⟩ := hloop.of_returns hadmits hrest
          rw [List.nil_append] at hcalls
          rw [hoff, Nat.add_comm, ← List.drop_drop, hchunk.drop, ← hcalls] at hemitted
          exact .streamed hhead hvalid hreply hemitted
      · have hno : (validateByteRange request.range response.size).ok = false := by
          simpa using hvalid
        simp only [hno, Bool.not_false, if_true] at hrest
        obtain ⟨rfl, rfl⟩ := hrest.unique ⟨0, rfl⟩
        exact .range hhead hno hsilent.2

/-- A root `"r"` with the chunk `"a"`, whose payload is `"a"`. -/
def sampleStore : FS :=
  ((FS.empty 255).create (pathFor [0x72] ⟨[0x61]⟩) 0).modify 0 fun n =>
    n.write 0 (chunkFile Blake3.sample [0x61])

theorem get_emits_whole :
    ∃ status w', Config.Returns (World.handler 0 (streams (σ := Unit) (τ := Unit)
        (fun s _ => (.ok [], s)) (fun t _ => (.Ok, t))))
        (get [0x72] ⟨⟨[0x61]⟩, ⟨0, 1⟩⟩, ⟨[], sampleStore, [], ((), ())⟩) (fun _ => .done) status w' ∧
      GetRan [0x72] ⟨⟨[0x61]⟩, ⟨0, 1⟩⟩ [0x61] (World.handler 0 (streams (σ := Unit) (τ := Unit)
        (fun s _ => (.ok [], s)) (fun t _ => (.Ok, t)))) ⟨[], sampleStore, [], ((), ())⟩
        (fun _ => .done) status w' := by
  have hfile : sampleStore.contents (pathFor [0x72] ⟨[0x61]⟩)
      = some (chunkFile Blake3.sample [0x61]) := by decide +kernel
  refine get_emits [0x72] sampleStore ⟨⟨[0x61]⟩, ⟨0, 1⟩⟩ _ [0x61] _ _ _ () () 0 _ hfile
    (chunkFile_spec Blake3.sample [0x61]) ?_
  exact (Config.ends_spec (n := 6) (fun op w o => decide (World.NoFailure op w o)) of_decide_eq_true
    (by decide +kernel)).2

end ChunkStorage
