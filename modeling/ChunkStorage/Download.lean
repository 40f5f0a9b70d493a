import ChunkStorage.ClientFiles

set_option autoImplicit false

/-! # `StorageClient::Get`

`Get` downloads to a temporary file, verifies it against what `HeadChunk` reported and links it to
the destination. `GetStep` says what one step of it may do to the files: with it the same proof
serves a `Get` that runs alone and one among other processes. `Surroundings` is what the others have
to leave alone: the temporary path and the file of the `Get`. -/

namespace ChunkStorage

open Effects Posix Program

/-! ## Steps -/

/-- What `HeadChunk` reported last. -/
def headSeen : List (Event ClientSig) → Option HeadChunkResponse
  | [] => none
  | ⟨.inr (.headChunk _), reply⟩ :: _ => (GrpcDataPlaneClient.headReply reply).toOption
  | _ :: events => headSeen events

/-- The event is a call that changed an entry. -/
def alters : Event ClientSig → Bool
  | ⟨.inl (.openExcl _), .ok _⟩ => true
  | ⟨.inl (.link _ _), .ok _⟩ => true
  | ⟨.inl (.unlink _), .ok _⟩ => true
  | _ => false

/-- The bytes have the size and the checksum of the response. -/
def Verified (B : Blake3) (response : HeadChunkResponse) (d : Bytes) : Prop :=
  UInt64.ofNat d.length = response.size ∧ B.checksum d = response.checksum

/-- One step of a `Get` of process `me` after the events of `trace`. -/
inductive GetStep (B : Blake3) (me : ℕ) (temp destination : Path) (trace : List (Event ClientSig)) :
    Event ClientSig → FS → FS → Prop
  | looks {e : Event ClientSig} {fs : FS} (halters : alters e = false) :
      GetStep B me temp destination trace e fs fs
  | creates {fs : FS} {fd : ℕ} (hnone : fs.dir temp = none) :
      GetStep B me temp destination trace ⟨.inl (.openExcl temp), .ok fd⟩ fs (fs.create temp me)
  /-- The file that the `Get` created is written or synced, before it is linked. -/
  | modifies {e : Event ClientSig} {fs : FS} {i : ℕ} {n : Inode} {f : Inode → Inode}
      (halters : alters e = false) (hn : fs.inodes[i]? = some n) (howner : n.owner = me)
      (hfresh : n.linked = false) (hf : ∀ n, (f n).owner = n.owner ∧ (f n).linked = n.linked) :
      GetStep B me temp destination trace e fs (fs.modify i f)
  /-- The file is linked to the destination, which was free. It holds what `HeadChunk` reported. -/
  | links {fs : FS} {i : ℕ} {n : Inode} {response : HeadChunkResponse} (hi : fs.dir temp = some i)
      (hn : fs.inodes[i]? = some n) (howner : n.owner = me) (hfresh : n.linked = false)
      (hnone : fs.dir destination = none) (hseen : headSeen trace = some response)
      (hverified : Verified B response n.data) :
      GetStep B me temp destination trace ⟨.inl (.link temp destination), .ok ()⟩ fs
        (fs.bind destination i (fs.dir_lt hi))
  /-- The temporary name is removed, of a file that the `Get` created. -/
  | drops {fs : FS} {i : ℕ} {n : Inode} (hi : fs.dir temp = some i) (hn : fs.inodes[i]? = some n)
      (howner : n.owner = me) :
      GetStep B me temp destination trace ⟨.inl (.unlink temp), .ok ()⟩ fs (fs.remove temp)

variable {β : Type} {transport : Transport β} {me : ℕ}
  {ok : (op : ClientSig.Op) → ClientWorld β → Outcome → Prop}
  {R : ClientWorld β → ClientWorld β → Prop} {B : Blake3} {temp destination : Path}

/-- One step of a `Get`: interrupted, or a step that leaves an event. -/
def GetGuarantee (B : Blake3) (me : ℕ) (temp destination : Path) (w w' : ClientWorld β) : Prop :=
  (w'.trace = w.trace ∧ w'.fs = w.fs) ∨
    ∃ e, w'.trace = e :: w.trace ∧ GetStep B me temp destination w.trace e w.fs w'.fs

theorem GetGuarantee.looks {w : ClientWorld β} (s : Syscall) (r : s.Ret) (fds : List OpenFile)
    (h : alters ⟨.inl s, r⟩ = false) :
    GetGuarantee B me temp destination w (w.answered s r fds w.fs) := by
  by_cases hint : s.interrupted r = true
  · exact Or.inl ⟨by simp [World.answered, hint], rfl⟩
  · exact Or.inr ⟨_, w.answered_trace hint fds w.fs, .looks h⟩

theorem GetGuarantee.replied {w : ClientWorld β} (op : RpcOp) (r : op.Ret) (rest : β) :
    GetGuarantee B me temp destination w (w.replied op r rest) := Or.inr ⟨_, rfl, .looks rfl⟩

@[simp] theorem headSeen_answered (w : ClientWorld β) (s : Syscall) (r : s.Ret)
    (fds : List OpenFile) (fs : FS) :
    headSeen (w.answered s r fds fs).trace = headSeen w.trace := by
  by_cases hint : s.interrupted r = true
  · simp [World.answered, hint]
  · rw [w.answered_trace hint]
    rfl

theorem headSeen_replied (w : ClientWorld β) {op : RpcOp} (h : ∀ id, op ≠ .headChunk id) (r : op.Ret)
    (rest : β) : headSeen (w.replied op r rest).trace = headSeen w.trace := by
  rw [World.replied_trace]
  cases op with
  | headChunk id => exact absurd rfl (h id)
  | putChunk | write _ | writesDone | tryCancel | finishPut | getChunk _ | read | finishGet
  | deleteChunk _ => rfl

/-! ## The temporary file -/

/-- The temporary name is longer than the name of the destination. -/
theorem tempFor_ne (destination : Path) (pid tempId : ℕ) :
    StorageClient.tempFor destination pid tempId ≠ destination := by
  intro h
  have hlength := congrArg (fun p : Path => p.name.length) h
  simp [StorageClient.tempFor, dotTmp] at hlength

/-- Two downloads to one destination share a temporary path only if they share both numbers. -/
theorem tempFor_injective {destination : Path} {pid pid' tempId tempId' : ℕ}
    (h : StorageClient.tempFor destination pid tempId
      = StorageClient.tempFor destination pid' tempId') : pid = pid' ∧ tempId = tempId' := by
  have hname := congrArg Path.name h
  simp only [StorageClient.tempFor, List.append_assoc, dot] at hname
  obtain ⟨hpid, htempId⟩ := append_cons_inj (isDigit_decimal _) (isDigit_decimal _) rfl rfl
    (List.append_cancel_left (List.append_cancel_left hname))
  exact ⟨decimal_injective hpid, decimal_injective htempId⟩

/-- What is at the temporary path was created by process `me`. -/
def Owned (me : ℕ) (temp : Path) (fs : FS) : Prop :=
  ∀ i, fs.dir temp = some i → fs.Fits temp ∧ ∃ n, fs.inodes[i]? = some n ∧ n.owner = me

/-- Process `me` has no file at the temporary path. -/
def Cleaned (me : ℕ) (temp : Path) (fs : FS) : Prop :=
  ∀ i n, fs.dir temp = some i → fs.inodes[i]? = some n → n.owner ≠ me

theorem owned_of_absent {fs : FS} (h : fs.dir temp = none) : Owned me temp fs := by
  intro i hi
  rw [h] at hi
  exact absurd hi (by simp)

theorem cleaned_of_absent {fs : FS} (h : fs.dir temp = none) : Cleaned me temp fs := by
  intro i n hi
  rw [h] at hi
  exact absurd hi (by simp)

theorem OwnFile.owned {i : ℕ} {sync : Bool} {d : Bytes} {fs : FS}
    (h : OwnFile me temp i sync d fs) (hfits : fs.Fits temp) : Owned me temp fs := by
  intro j hj
  obtain ⟨n, hn, howner, -⟩ := h.file
  obtain rfl : i = j := Option.some.inj (h.entry.symm.trans hj)
  exact ⟨hfits, n, hn, howner⟩

theorem OwnFile.length_le {i : ℕ} {sync : Bool} {d : Bytes} {fs : FS}
    (h : OwnFile me temp i sync d fs) : d.length ≤ offMax := by
  obtain ⟨n, -, -, -, hdata, -⟩ := h.file
  rw [← hdata]
  exact n.data_le

/-- What the other processes leave alone between two steps of a `Get`: its own part of the world,
    its temporary path and its file. `A` is what is known of the files before the `Get` changes
    them, `K` what is known of them until it commits and `L d` after it committed `d`. -/
structure Surroundings (R : ClientWorld β → ClientWorld β → Prop) (me : ℕ) (temp destination : Path)
    (A K : FS → Prop) (L : Bytes → FS → Prop) : Prop where
  same : ∀ {w w'}, R w w' → w'.fds = w.fds ∧ w'.trace = w.trace ∧ w'.rest = w.rest
  nameMax : ∀ {w w'}, R w w' → w'.fs.nameMax = w.fs.nameMax
  own : ∀ {w w' i sync d}, R w w' → OwnFile me temp i sync d w.fs → OwnFile me temp i sync d w'.fs
  owned : ∀ {w w'}, R w w' → Owned me temp w.fs → Owned me temp w'.fs
  absent : ∀ {w w'}, R w w' → w.fs.dir temp = none → w'.fs.dir temp = none
  cleaned : ∀ {w w'}, R w w' → Cleaned me temp w.fs → Cleaned me temp w'.fs
  before : ∀ {w w'}, R w w' → A w.fs → A w'.fs
  known : ∀ {w w'}, R w w' → K w.fs → K w'.fs
  creates : ∀ {fs}, K fs → K (fs.create temp me)
  modifies : ∀ {fs} (i : ℕ) (f : Inode → Inode), K fs → K (fs.modify i f)
  removes : ∀ {fs}, K fs → K (fs.remove temp)
  links : ∀ {fs : FS} {i : ℕ} {n : Inode} (hi : fs.dir temp = some i), fs.inodes[i]? = some n →
    fs.dir destination = none → L n.data (fs.bind destination i (fs.dir_lt hi))
  landed : ∀ {w w' d}, R w w' → L d w.fs → L d w'.fs
  drops : ∀ {d fs}, L d fs → L d (fs.remove temp)

section Assertions

variable {A K : FS → Prop} {L : Bytes → FS → Prop} {response : HeadChunkResponse}

/-- The temporary file is open for writing and holds `d`. -/
structure Downloading (me : ℕ) (temp : Path) (K : FS → Prop) (response : HeadChunkResponse)
    (i fd : ℕ) (d : Bytes) (w : ClientWorld β) : Prop where
  own : OwnFile me temp i false d w.fs
  opened : w.fds[fd]? = some ⟨i, d.length⟩
  fits : w.fs.Fits temp
  known : K w.fs
  seen : headSeen w.trace = some response

/-- The temporary file is synced and holds `d`. -/
structure Fetched (me : ℕ) (temp : Path) (K : FS → Prop) (response : HeadChunkResponse) (i : ℕ)
    (d : Bytes) (w : ClientWorld β) : Prop where
  own : OwnFile me temp i true d w.fs
  fits : w.fs.Fits temp
  known : K w.fs
  seen : headSeen w.trace = some response

theorem Fetched.env (h : Surroundings R me temp destination A K L) {i : ℕ} {d : Bytes} {w w' : ClientWorld β}
    (hw : Fetched me temp K response i d w) (hR : R w w') : Fetched me temp K response i d w' where
  own := h.own hR hw.own
  fits := by
    rw [FS.Fits, h.nameMax hR]
    exact hw.fits
  known := h.known hR hw.known
  seen := by
    rw [(h.same hR).2.1]
    exact hw.seen

theorem Downloading.downloads (h : Surroundings R me temp destination A K L) (i fd : ℕ) :
    Downloads R (GetGuarantee B me temp destination) (Downloading me temp K response i fd) fd where
  env hw hR :=
    ⟨h.own hR hw.own, by rw [(h.same hR).1]; exact hw.opened,
      by rw [FS.Fits, h.nameMax hR]; exact hw.fits, h.known hR hw.known,
      by rw [(h.same hR).2.1]; exact hw.seen⟩
  opened hw := ⟨_, hw.opened, rfl⟩
  wrote {d w f n} data hw hf hn hmax w' hw' := by
    obtain rfl : ⟨i, d.length⟩ = f := Option.some.inj (hw.opened.symm.trans hf)
    subst hw'
    have hlt := (List.getElem?_eq_some_iff.1 hf).1
    obtain ⟨m, hm, howner, hfresh, -⟩ := hw.own.file
    refine ⟨⟨hw.own.modify _ (fun m => ⟨by simp, by simp⟩) fun m hm => ⟨?_, by simp⟩, ?_, hw.fits,
      h.modifies _ _ hw.known, by rw [headSeen_answered]; exact hw.seen⟩, ?_⟩
    · subst hm
      refine m.write_end _ ?_
      rw [List.length_take]
      omega
    · simp [hlt, hn]
    · exact Or.inr ⟨_, w.answered_trace (by simp [Syscall.interrupted]) _ _,
        .modifies rfl hm howner hfresh fun m => ⟨by simp, by simp⟩⟩
  refused data r hw hr :=
    ⟨⟨hw.own, hw.opened, hw.fits, hw.known, by rw [headSeen_answered]; exact hw.seen⟩,
      GetGuarantee.looks (.write fd data) r _ rfl⟩
  le hw := hw.own.length_le
  rest hR := (h.same hR).2.2
  rpc {d w} op r rest hop hw :=
    ⟨⟨hw.own, hw.opened, hw.fits, hw.known, by rw [headSeen_replied w hop]; exact hw.seen⟩,
      GetGuarantee.replied op r rest⟩

/-- The temporary file is open a second time, and `s` was read of it. -/
structure Checking (me : ℕ) (temp : Path) (K : FS → Prop) (response : HeadChunkResponse) (b : β)
    (i fd : ℕ) (d s : Bytes) (w : ClientWorld β) : Prop where
  fetched : Fetched me temp K response i d w
  rest : w.rest = b
  opened : w.fds[fd]? = some ⟨i, s.length⟩
  upto : s = d.take s.length

theorem Checking.scans (h : Surroundings R me temp destination A K L) (b : β) (i fd : ℕ) (d : Bytes) :
    Scans me R (GetGuarantee B me temp destination) (Checking me temp K response b i fd d)
      (fun s w => s = d ∧ Fetched me temp K response i d w ∧ w.rest = b) fd where
  env hw hR := ⟨hw.fetched.env h hR, ((h.same hR).2.2).trans hw.rest, by rw [(h.same hR).1]; exact hw.opened, hw.upto⟩
  le {s w} hw := by
    have hd := hw.fetched.own.length_le
    rw [hw.upto, List.length_take]
    omega
  failed {s w count o e fds fs} hw hexec w' hw' := by
    obtain ⟨n, hn, -, -, hdata, -⟩ := hw.fetched.own.file
    obtain ⟨rfl, ⟨e', he, rfl, hcalm⟩ | ⟨k, -, -, hr, -⟩⟩ := read_cases hw.opened hn hexec
    · obtain rfl := Except.error.inj he
      subst hw'
      have hfetched := hw.fetched
      exact ⟨⟨⟨hfetched.own, hfetched.fits, hfetched.known,
        by rw [headSeen_answered]; exact hfetched.seen⟩, hw.rest, hw.opened, hw.upto⟩,
        GetGuarantee.looks _ _ _ rfl, hcalm⟩
    · exact absurd hr (by simp)
  read {s w count o bytes fds fs} hw hexec w' hw' := by
    obtain ⟨n, hn, -, -, hdata, -⟩ := hw.fetched.own.file
    obtain ⟨rfl, ⟨e, he, -⟩ | ⟨k, -, hpos, hr, rfl⟩⟩ := read_cases hw.opened hn hexec
    · exact absurd he (by simp)
    · obtain rfl := Except.ok.inj hr
      subst hw'
      have hlt := (List.getElem?_eq_some_iff.1 hw.opened).1
      have hfetched : Fetched me temp K response i d (w.answered (.read fd count)
          (.ok ((n.data.drop s.length).take k))
          (w.fds.set fd ⟨i, s.length + ((n.data.drop s.length).take k).length⟩) w.fs) :=
        ⟨hw.fetched.own, hw.fetched.fits, hw.fetched.known,
          by rw [headSeen_answered]; exact hw.fetched.seen⟩
      refine ⟨⟨hfetched, hw.rest, ?_, ?_⟩, GetGuarantee.looks _ _ _ rfl,
        fun hnil hcount => ⟨?_, hfetched, hw.rest⟩⟩
      · simp [hlt]
      · rw [hdata, List.length_append]
        nth_rewrite 1 [hw.upto]
        rw [List.take_add]
        congr 1
        rw [List.take_eq_take_iff]
        simp
      · -- the whole file was read when a read brings nothing
        have hlen : min k (d.length - s.length) = 0 := by
          rw [← hdata, ← List.length_drop, ← List.length_take]
          exact List.length_eq_zero_iff.2 hnil
        have := hpos hcount
        rw [hw.upto, List.take_of_length_le (by omega)]

end Assertions

/-! ## The parts of `Get` -/

/-- No `unlink` of the path fails unless there is nothing to remove. -/
def UnlinksCalm (ok : (op : ClientSig.Op) → ClientWorld β → Outcome → Prop) (temp : Path) : Prop :=
  ∀ w o, ok (.inl (.unlink temp)) w o → o.Calm (.unlink temp)

section Parts

variable {A K : FS → Prop} {L : Bytes → FS → Prop} {response : HeadChunkResponse}

/-- The state of a `Get` that is about to return: what is left at the temporary path is its own, and
    nothing is if `unlink` does not fail. -/
structure Leaving (ok : (op : ClientSig.Op) → ClientWorld β → Outcome → Prop) (me : ℕ) (temp : Path)
    (w : ClientWorld β) : Prop where
  owned : Owned me temp w.fs
  gone : UnlinksCalm ok temp → w.fs.dir temp = none

/-- The state after the `unlink` of the temporary path in `w`. -/
structure Dropped (ok : (op : ClientSig.Op) → ClientWorld β → Outcome → Prop) (me : ℕ) (temp : Path)
    (K : FS → Prop) (L : Bytes → FS → Prop) (w w' : ClientWorld β) : Prop where
  leaving : Leaving ok me temp w'
  rest : w'.rest = w.rest
  trace : w.trace ⊆ w'.trace
  known : K w.fs → K w'.fs
  landed : ∀ {d}, L d w.fs → L d w'.fs

/-- The `unlink` of the temporary path. -/
theorem unlinkTemp_safe {α : Type} {f : Except Errno Unit → Program ClientSig α}
    {Q : α → ClientWorld β → Prop} (h : Surroundings R me temp destination A K L) {w : ClientWorld β}
    (howned : Owned me temp w.fs)
    (hf : ∀ r w', Dropped ok me temp K L w w' →
      (f r).Safe ((World.handler me transport).sem ok) R (GetGuarantee B me temp destination) Q
        w') :
    (sys (.unlink temp) >>= f).Safe ((World.handler me transport).sem ok) R
      (GetGuarantee B me temp destination) Q w := by
  refine safe_sys fun w₁ hR o r fds fs hok hexec => ?_
  obtain ⟨-, htrace, hrest⟩ := h.same hR
  have howned₁ := h.owned hR howned
  obtain ⟨rfl, ⟨e, rfl, rfl, hmissing, hcalm⟩ | ⟨i, hi, rfl, rfl⟩⟩ := unlink_cases hexec
  · refine ⟨GetGuarantee.looks _ _ _ rfl, hf _ _ ⟨⟨howned₁, fun hunlinks => ?_⟩, hrest, ?_,
      fun hK => ?_, fun hL => ?_⟩⟩
    · cases hi : w₁.fs.dir temp with
      | none => exact hi
      | some i =>
          have he := hcalm (hunlinks _ _ hok) (howned₁ i hi).1
          rw [hmissing he] at hi
          exact absurd hi (by simp)
    · rw [← htrace, w₁.answered_trace (by simp [Syscall.interrupted])]
      exact List.subset_cons_self _ _
    · rw [World.answered_fs]
      exact h.known hR hK
    · rw [World.answered_fs]
      exact h.landed hR hL
  · obtain ⟨-, n, hn, howner⟩ := howned₁ i hi
    have hgone : (w₁.fs.remove temp).dir temp = none := by simp
    refine ⟨Or.inr ⟨_, w₁.answered_trace (by simp [Syscall.interrupted]) _ _, .drops hi hn howner⟩,
      hf _ _ ⟨⟨owned_of_absent hgone, fun _ => hgone⟩, hrest, ?_, fun hK => h.removes (h.known hR hK),
        fun hL => h.drops (h.landed hR hL)⟩⟩
    rw [← htrace, w₁.answered_trace (by simp [Syscall.interrupted])]
    exact List.subset_cons_self _ _

/-- The download of a request delivers `d` and ends with the status `g`. -/
def Served (transport : Transport β) (request : RpcGetChunkRequest) (b : β) (d : Bytes)
    (g : GrpcStatus) (b' : β) : Prop :=
  ∃ b₁, Delivered transport (transport (.getChunk request) b).2 d b₁ ∧
    transport .finishGet b₁ = (g, b')

/-- How `GetChunk` ends: the temporary file holds the download, or it is gone and the RPC or a call
    failed. -/
inductive ChunkDone (transport : Transport β)
    (ok : (op : ClientSig.Op) → ClientWorld β → Outcome → Prop) (me : ℕ) (temp : Path)
    (K : FS → Prop) (response : HeadChunkResponse) (request : RpcGetChunkRequest) (b : β) :
    Status → ClientWorld β → Prop
  | stored {i : ℕ} {d : Bytes} {g : GrpcStatus} {w' : ClientWorld β} :
      Fetched me temp K response i d w' → Served transport request b d g w'.rest → g.ok = true →
      ChunkDone transport ok me temp K response request b .Ok w'
  | refused {d : Bytes} {g : GrpcStatus} {w' : ClientWorld β} : Leaving ok me temp w' → K w'.fs →
      Served transport request b d g w'.rest → g.ok = false →
      ChunkDone transport ok me temp K response request b (fromGrpcStatus g) w'
  | failed {status : Status} {w' : ClientWorld β} : Leaving ok me temp w' → K w'.fs →
      status.ok = false → ¬ (World.NeverFails ok ∧ ∀ fs, K fs → fs.Fits temp) →
      ChunkDone transport ok me temp K response request b status w'

theorem getChunk_safe (h : Surroundings R me temp destination A K L) (request : GetChunkRequest)
    {w : ClientWorld β} (habsent : w.fs.dir temp = none) (hK : K w.fs)
    (hseen : headSeen w.trace = some response) :
    (GrpcDataPlaneClient.getChunk request temp).Safe ((World.handler me transport).sem ok) R
      (GetGuarantee B me temp destination)
      (ChunkDone transport ok me temp K response
        ⟨request.chunkId.value, request.range.offset, request.range.size⟩ w.rest) w := by
  unfold GrpcDataPlaneClient.getChunk
  refine safe_sys fun w₁ hR o r fds fs hok hexec => ?_
  obtain ⟨hfds, htrace, hrest⟩ := h.same hR
  have habsent₁ := h.absent hR habsent
  have hK₁ := h.known hR hK
  rcases openExcl_cases hexec with ⟨e, rfl, rfl, rfl, hexists, hcalm⟩ | ⟨rfl, rfl, rfl, -, hfits⟩
  · refine ⟨GetGuarantee.looks _ _ _ rfl, .failed ⟨owned_of_absent habsent₁, fun _ => habsent₁⟩ hK₁
      ?_ ?_⟩
    · split <;> rfl
    · rintro ⟨hnever, hclear⟩
      exact hexists (hcalm (hnever _ _ _ hok).1 (hclear _ hK₁)) habsent₁
  · refine ⟨Or.inr ⟨_, w₁.answered_trace (by simp [Syscall.interrupted]) _ _, .creates habsent₁⟩, ?_⟩
    have hopened : Downloading me temp K response w₁.fs.inodes.length w₁.fds.length []
        (w₁.answered (.openExcl temp) (.ok w₁.fds.length)
          (w₁.fds ++ [⟨w₁.fs.inodes.length, 0⟩]) (w₁.fs.create temp me)) := by
      refine ⟨⟨by simp, Inode.fresh me, by simp, rfl, rfl, rfl, by simp⟩, by simp, hfits,
        h.creates hK₁, ?_⟩
      rw [headSeen_answered, htrace]
      exact hseen
    have hdown : Downloads R (GetGuarantee B me temp destination)
        (Downloading me temp K response w₁.fs.inodes.length w₁.fds.length) w₁.fds.length :=
      Downloading.downloads h _ _
    have hrest₂ : (w₁.answered (.openExcl temp) (.ok w₁.fds.length)
        (w₁.fds ++ [⟨w₁.fs.inodes.length, 0⟩]) (w₁.fs.create temp me)).rest = w.rest := hrest
    generalize w₁.answered _ _ _ _ = w₂ at hopened hrest₂ ⊢
    -- every error exit removes the file
    have fails : ∀ {d : Bytes} {w₃ : ClientWorld β} (status : Status),
        Downloading me temp K response w₁.fs.inodes.length w₁.fds.length d w₃ →
        (∀ w₄ : ClientWorld β, Leaving ok me temp w₄ → K w₄.fs → w₄.rest = w₃.rest →
          ChunkDone transport ok me temp K response
            ⟨request.chunkId.value, request.range.offset, request.range.size⟩ w.rest status w₄) →
        (GrpcDataPlaneClient.fail temp status).Safe ((World.handler me transport).sem ok) R
          (GetGuarantee B me temp destination)
          (ChunkDone transport ok me temp K response
            ⟨request.chunkId.value, request.range.offset, request.range.size⟩ w.rest) w₃ := by
      intro d w₃ status hw₃ hdone
      exact unlinkTemp_safe h (hw₃.own.owned hw₃.fits) fun r w₄ hdropped =>
        hdone w₄ hdropped.leaving (hdropped.known hw₃.known) hdropped.rest
    refine safe_other fun w₃ hR₃ r rest hreply => ?_
    obtain ⟨hw₃, hG₃⟩ := hdown.rpc (.getChunk _) r rest (by simp) (hdown.env hopened hR₃)
    rw [hdown.rest hR₃, hrest₂] at hreply
    refine ⟨hG₃, safe_bind.2 ((receiveFrames_safe hdown (offMax + 1) (by simp) hw₃).imp ?_)⟩
    rintro status w₄ (⟨rfl, d, hw₄, hdelivered⟩ | ⟨hio, hfail, d, hw₄⟩)
    · rw [List.nil_append] at hw₄
      have hstate : (transport (.getChunk ⟨request.chunkId.value, request.range.offset,
          request.range.size⟩) w.rest).2 = rest := congrArg Prod.snd hreply
      rw [World.replied_rest, ← hstate] at hdelivered
      refine safe_other fun w₅ hR₅ g rest₅ hfinish => ?_
      obtain ⟨hw₅, hG₅⟩ := hdown.rpc .finishGet g rest₅ (by simp) (hdown.env hw₄ hR₅)
      rw [hdown.rest hR₅] at hfinish
      have hserved : Served transport ⟨request.chunkId.value, request.range.offset,
          request.range.size⟩ w.rest d g rest₅ := ⟨w₄.rest, hdelivered, hfinish⟩
      refine ⟨hG₅, ?_⟩
      simp only [Status.ok_Ok, Bool.not_true, Bool.false_eq_true, if_false]
      by_cases hg : g.ok = true
      · simp only [hg, Bool.not_true, Bool.false_eq_true, if_false]
        refine safe_sys fun w₆ hR₆ o r fds fs hok hexec => ?_
        have hw₆ := hdown.env hw₅ hR₆
        have hrest₆ : w₆.rest = rest₅ := hdown.rest hR₆
        obtain ⟨n, hn, howner, hfresh, -⟩ := hw₆.own.file
        obtain ⟨rfl, ⟨e, rfl, rfl, hnotCalm⟩ | ⟨rfl, rfl⟩⟩ := fdatasync_cases hw₆.opened hexec
        · refine ⟨GetGuarantee.looks _ _ _ rfl, fails _ (d := d) ?_ fun w₇ hleaving hK₇ _ =>
            .failed hleaving hK₇ rfl fun hnever => hnotCalm (hnever.1 _ _ _ hok).1⟩
          exact ⟨hw₆.own, hw₆.opened, hw₆.fits, hw₆.known,
            by rw [headSeen_answered]; exact hw₆.seen⟩
        · refine ⟨Or.inr ⟨_, w₆.answered_trace (by simp [Syscall.interrupted]) _ _,
            .modifies rfl hn howner hfresh fun m => ⟨rfl, rfl⟩⟩, ?_⟩
          refine .stored (i := w₁.fs.inodes.length) (d := d) ⟨?_, hw₆.fits, h.modifies _ _ hw₆.known,
            by rw [headSeen_answered]; exact hw₆.seen⟩ ?_ hg
          · exact hw₆.own.modify _ (fun m => ⟨rfl, rfl⟩) fun m hm => ⟨hm, fun _ => rfl⟩
          · rw [World.answered_rest, hrest₆]
            exact hserved
      · have hno : g.ok = false := by simpa using hg
        simp only [hno, Bool.not_false, if_true]
        refine fails _ hw₅ fun w₆ hleaving hK₆ hrest₆ => ?_
        refine .refused (d := d) hleaving hK₆ ?_ hno
        rw [hrest₆]
        exact hserved
    · refine safe_other fun w₅ hR₅ g rest₅ _ => ?_
      obtain ⟨hw₅, hG₅⟩ := hdown.rpc .finishGet g rest₅ (by simp) (hdown.env hw₄ hR₅)
      have hno : status.ok = false := by simp [Status.ok, hio]
      refine ⟨hG₅, ?_⟩
      simp only [hno, Bool.not_false, if_true]
      exact fails _ hw₅ fun w₆ hleaving hK₆ _ =>
        .failed hleaving hK₆ hno fun hnever => hfail hnever.1

/-- `HashFile` of the temporary file. -/
theorem hashTemp_safe (B : Blake3) (h : Surroundings R me temp destination A K L) {i : ℕ} {d : Bytes}
    {w : ClientWorld β} (hw : Fetched me temp K response i d w) :
    (StorageClient.hashFile B temp).Safe ((World.handler me transport).sem ok) R
      (GetGuarantee B me temp destination)
      (fun r w' => Fetched me temp K response i d w' ∧ w'.rest = w.rest ∧
        (r = .ok (UInt64.ofNat d.length, B.checksum d) ∨
          ∃ e : ErrorStatus, r = .error e ∧ ¬ World.NeverFails ok)) w := by
  unfold StorageClient.hashFile
  refine safe_sys fun w₁ hR o r fds fs hok hexec => ?_
  have hw₁ := hw.env h hR
  have hrest := (h.same hR).2.2
  have hanswered : ∀ (r : Except Errno ℕ) (fds : List OpenFile), Fetched me temp K response i d
      (w₁.answered (.openRead temp) r fds w₁.fs) := by
    intro r fds
    exact ⟨hw₁.own, hw₁.fits, hw₁.known, by rw [headSeen_answered]; exact hw₁.seen⟩
  obtain ⟨rfl, ⟨e, rfl, rfl, hmissing, hcalm⟩ | ⟨j, hj, rfl, rfl⟩⟩ := openRead_cases hexec
  · refine ⟨GetGuarantee.looks _ _ _ rfl, hanswered _ _, hrest, Or.inr ⟨_, rfl, fun hnever => ?_⟩⟩
    have hnone := hmissing (hcalm (hnever _ _ _ hok).1 hw₁.fits)
    rw [hw₁.own.entry] at hnone
    exact absurd hnone (by simp)
  · obtain rfl : i = j := Option.some.inj (hw₁.own.entry.symm.trans hj)
    have hopened : Checking me temp K response w.rest i w₁.fds.length d []
        (w₁.answered (.openRead temp) (.ok w₁.fds.length) (w₁.fds ++ [⟨i, 0⟩]) w₁.fs) :=
      ⟨hanswered _ _, hrest, by simp, rfl⟩
    refine ⟨GetGuarantee.looks _ _ _ rfl, safe_bind.2 ((hashOpened_safe B
      (Checking.scans h w.rest i w₁.fds.length d) hopened).imp ?_)⟩
    rintro r w₂ (⟨s, ⟨rfl, hw₂, hrest₂⟩, rfl⟩ | ⟨e, rfl, ⟨s, hw₂⟩, -, hfail⟩)
    · exact ⟨hw₂, hrest₂, Or.inl rfl⟩
    · exact ⟨hw₂.fetched, hw₂.rest, Or.inr ⟨e, rfl, hfail⟩⟩

/-- Nothing is in the way of a `Get`: the names fit and the destination is free. -/
def Clear (temp destination : Path) (K : FS → Prop) : Prop :=
  ∀ fs, K fs → fs.Fits temp ∧ fs.Fits destination ∧ fs.dir destination = none

/-- The commit of a verified file. -/
theorem clientCommit_safe (h : Surroundings R me temp destination A K L) (hne : temp ≠ destination) {i : ℕ}
    {d : Bytes} {w : ClientWorld β} (hw : Fetched me temp K response i d w)
    (hverified : Verified B response d) :
    (StorageClient.commit temp destination).Safe ((World.handler me transport).sem ok) R
      (GetGuarantee B me temp destination)
      (fun status w' => Leaving ok me temp w' ∧ w'.rest = w.rest ∧
        ((status = .Ok ∧ ⟨.inl (.link temp destination), .ok ()⟩ ∈ w'.trace ∧ L d w'.fs) ∨
          (status.ok = false ∧ K w'.fs ∧
            ¬ (World.NeverFails ok ∧ Clear temp destination K)))) w := by
  unfold StorageClient.commit
  refine safe_sys fun w₁ hR o r fds fs hok hexec => ?_
  have hw₁ := hw.env h hR
  have hrest := (h.same hR).2.2
  obtain ⟨rfl, ⟨e, rfl, rfl, hexists, hcalm⟩ | ⟨j, hj, hnone, -, rfl, rfl⟩⟩ := link_cases hexec
  · refine ⟨GetGuarantee.looks _ _ _ rfl, unlinkTemp_safe h (hw₁.own.owned hw₁.fits)
      fun r w₂ hdropped => ⟨hdropped.leaving, hdropped.rest.trans hrest,
        Or.inr ⟨?_, hdropped.known hw₁.known, ?_⟩⟩⟩
    · split <;> rfl
    · rintro ⟨hnever, hclear⟩
      obtain ⟨hfits, hfits', hfree⟩ := hclear _ hw₁.known
      have hentry : w₁.fs.dir temp ≠ none := by
        rw [hw₁.own.entry]
        simp
      exact hexists (hcalm (hnever _ _ _ hok).1 hfits hfits' hentry) hfree
  · obtain rfl : i = j := Option.some.inj (hw₁.own.entry.symm.trans hj)
    obtain ⟨n, hn, howner, hfresh, hdata, -⟩ := hw₁.own.file
    have howned : Owned me temp (w₁.fs.bind destination i (w₁.fs.dir_lt hj)) := by
      intro k hk
      rw [FS.bind_dir, if_neg hne.symm] at hk
      obtain rfl : i = k := Option.some.inj (hj.symm.trans hk)
      exact ⟨hw₁.fits, n.link, by simp [hn], howner⟩
    refine ⟨Or.inr ⟨_, w₁.answered_trace (by simp [Syscall.interrupted]) _ _,
      .links hj hn howner hfresh hnone hw₁.seen (by rw [hdata]; exact hverified)⟩, ?_⟩
    refine unlinkTemp_safe h howned fun r w₂ hdropped =>
      ⟨hdropped.leaving, hdropped.rest.trans hrest, Or.inl ⟨rfl, hdropped.trace ?_, hdropped.landed ?_⟩⟩
    · rw [w₁.answered_trace (by simp [Syscall.interrupted])]
      exact List.mem_cons_self
    · rw [← hdata]
      exact h.links hj hn hnone

/-- How the download, the check and the commit end. -/
inductive FetchDone (transport : Transport β)
    (ok : (op : ClientSig.Op) → ClientWorld β → Outcome → Prop) (B : Blake3)
    (temp destination : Path) (K : FS → Prop) (L : Bytes → FS → Prop) (chunkId : ChunkId)
    (response : HeadChunkResponse) (b : β) : Status → ClientWorld β → Prop
  | committed {d : Bytes} {g : GrpcStatus} {w' : ClientWorld β} :
      Served transport ⟨chunkId.value, 0, response.size⟩ b d g w'.rest → g.ok = true →
      Verified B response d → L d w'.fs → ⟨.inl (.link temp destination), .ok ()⟩ ∈ w'.trace →
      FetchDone transport ok B temp destination K L chunkId response b .Ok w'
  | mismatch {status : Status} {d : Bytes} {g : GrpcStatus} {w' : ClientWorld β} :
      Served transport ⟨chunkId.value, 0, response.size⟩ b d g w'.rest → g.ok = true →
      ¬ Verified B response d → K w'.fs → status.code = .kCorruption →
      FetchDone transport ok B temp destination K L chunkId response b status w'
  | refused {d : Bytes} {g : GrpcStatus} {w' : ClientWorld β} :
      Served transport ⟨chunkId.value, 0, response.size⟩ b d g w'.rest → g.ok = false → K w'.fs →
      FetchDone transport ok B temp destination K L chunkId response b (fromGrpcStatus g) w'
  | failed {status : Status} {w' : ClientWorld β} : status.ok = false → K w'.fs →
      ¬ (World.NeverFails ok ∧ Clear temp destination K) →
      FetchDone transport ok B temp destination K L chunkId response b status w'

/-- A download that is OK was linked to the destination. -/
theorem FetchDone.linked {chunkId : ChunkId} {b : β} {status : Status} {w' : ClientWorld β}
    (h : FetchDone transport ok B temp destination K L chunkId response b status w')
    (hok : status.ok = true) : ⟨.inl (.link temp destination), .ok ()⟩ ∈ w'.trace := by
  cases h with
  | committed _ _ _ _ hlinked => exact hlinked
  | mismatch _ _ _ _ hcode => exact absurd hok (by simp [Status.ok, hcode])
  | refused _ hg _ => exact absurd hok (by rw [fromGrpcStatus_ok, hg]; simp)
  | failed hno _ _ => exact absurd hok (by simp [hno])

theorem fetch_safe (h : Surroundings R me temp destination A K L) (hne : temp ≠ destination) (chunkId : ChunkId)
    {w : ClientWorld β} (habsent : w.fs.dir temp = none) (hK : K w.fs)
    (hseen : headSeen w.trace = some response) :
    (StorageClient.fetch B chunkId response temp destination).Safe
      ((World.handler me transport).sem ok) R (GetGuarantee B me temp destination)
      (fun status w' => Leaving ok me temp w' ∧
        FetchDone transport ok B temp destination K L chunkId response w.rest status w') w := by
  unfold StorageClient.fetch
  refine safe_bind.2 ((getChunk_safe h ⟨chunkId, ⟨0, response.size⟩⟩ habsent hK hseen).imp ?_)
  rintro status w₁ (@⟨i, d, g, _, hw₁, hserved, hg⟩ | @⟨d, g, _, hleaving, hK₁, hserved, hg⟩ |
    ⟨hleaving, hK₁, hno, hfail⟩)
  · simp only [Status.ok_Ok, Bool.not_true, Bool.false_eq_true, if_false]
    refine safe_bind.2 ((hashTemp_safe B h hw₁).imp ?_)
    rintro r w₂ ⟨hw₂, hrest₂, rfl | ⟨e, rfl, hfail⟩⟩
    · by_cases hverified : Verified B response d
      · have hmatch : ¬ (UInt64.ofNat d.length ≠ response.size ∨
            B.checksum d ≠ response.checksum) := by
          rintro (hsize | hsum)
          · exact hsize hverified.1
          · exact hsum hverified.2
        simp only [if_neg hmatch]
        refine (clientCommit_safe h hne hw₂ hverified).imp ?_
        rintro status w₃ ⟨hleaving, hrest₃, ⟨rfl, hlinked, hL⟩ | ⟨hno, hK₃, hfail⟩⟩
        · refine ⟨hleaving, .committed ?_ hg hverified hL hlinked⟩
          rw [hrest₃, hrest₂]
          exact hserved
        · exact ⟨hleaving, .failed hno hK₃ hfail⟩
      · have hdiffers : UInt64.ofNat d.length ≠ response.size ∨
            B.checksum d ≠ response.checksum := by
          by_contra hsame
          rw [not_or, not_not, not_not] at hsame
          exact hverified hsame
        simp only [if_pos hdiffers]
        refine unlinkTemp_safe h (hw₂.own.owned hw₂.fits) fun r w₃ hdropped => ⟨hdropped.leaving,
          .mismatch (d := d) (g := g) ?_ hg hverified (hdropped.known hw₂.known) rfl⟩
        rw [hdropped.rest, hrest₂]
        exact hserved
    · exact unlinkTemp_safe h (hw₂.own.owned hw₂.fits) fun r w₃ hdropped => ⟨hdropped.leaving,
        .failed e.2 (hdropped.known hw₂.known) fun hnever => hfail hnever.1⟩
  · have hno : (fromGrpcStatus g).ok = false := by rw [fromGrpcStatus_ok, hg]
    simp only [hno, Bool.not_false, if_true]
    refine unlinkTemp_safe h hleaving.owned fun r w₂ hdropped =>
      ⟨hdropped.leaving, .refused (d := d) ?_ hg (hdropped.known hK₁)⟩
    rw [hdropped.rest]
    exact hserved
  · simp only [hno, Bool.not_false, if_true]
    exact unlinkTemp_safe h hleaving.owned fun r w₂ hdropped =>
      ⟨hdropped.leaving, .failed hno (hdropped.known hK₁) fun hnever => hfail ⟨hnever.1, fun fs hfs => (hnever.2 fs hfs).1⟩⟩

/-- How `Get` ends. -/
inductive GetAnswer (transport : Transport β)
    (ok : (op : ClientSig.Op) → ClientWorld β → Outcome → Prop) (B : Blake3)
    (temp destination : Path) (A K : FS → Prop) (L : Bytes → FS → Prop) (objectId : ObjectId) (b : β) :
    Except Errno Status → ClientWorld β → Prop
  | invalid {status : Status} {w' : ClientWorld β} : objectId.valid = false →
      status.code = .kInvalidArgument → K w'.fs →
      GetAnswer transport ok B temp destination A K L objectId b (.ok status) w'
  /-- One of the two paths is taken, or `exists` threw. -/
  | occupied {r : Except Errno Status} {w' : ClientWorld β} :
      (∀ status, r = .ok status → status.ok = false) → K w'.fs →
      ¬ (World.NeverFails ok ∧ ∀ fs, A fs → fs.Fits destination ∧ fs.Fits temp ∧
        fs.dir destination = none ∧ fs.dir temp = none) →
      GetAnswer transport ok B temp destination A K L objectId b r w'
  | head {reply : GrpcStatus × RpcHeadChunkResponse} {s : ErrorStatus} {w' : ClientWorld β} :
      objectId.valid = true → transport (.headChunk objectId.value) b = (reply, w'.rest) →
      GrpcDataPlaneClient.headReply reply = .error s → K w'.fs →
      GetAnswer transport ok B temp destination A K L objectId b (.ok s.1) w'
  | fetched {reply : GrpcStatus × RpcHeadChunkResponse} {response : HeadChunkResponse}
      {status : Status} {b₁ : β} {w' : ClientWorld β} : objectId.valid = true →
      transport (.headChunk objectId.value) b = (reply, b₁) →
      GrpcDataPlaneClient.headReply reply = .ok response →
      FetchDone transport ok B temp destination K L ⟨objectId.value⟩ response b₁ status w' →
      GetAnswer transport ok B temp destination A K L objectId b (.ok status) w'

/-- A `Get` that is OK has linked its file to the destination. -/
theorem GetAnswer.linked {objectId : ObjectId} {b : β} {status : Status} {w' : ClientWorld β}
    (h : GetAnswer transport ok B temp destination A K L objectId b (.ok status) w')
    (hok : status.ok = true) : ⟨.inl (.link temp destination), .ok ()⟩ ∈ w'.trace := by
  cases h with
  | invalid _ hcode _ => exact absurd hok (by simp [Status.ok, hcode])
  | occupied hno _ _ => exact absurd hok (by simp [hno status rfl])
  | @head _ s _ _ _ _ _ => exact absurd hok (by simp [s.2])
  | fetched _ _ _ hdone => exact hdone.linked hok

/-- **`StorageClient::Get`**, with its temporary path left alone by the others. -/
theorem clientGet_safe {pid tempId : ℕ}
    (h : Surroundings R me (StorageClient.tempFor destination pid tempId) destination A K L)
    (hne : StorageClient.tempFor destination pid tempId ≠ destination) (objectId : ObjectId)
    {w : ClientWorld β} (hA : A w.fs) (hK : K w.fs) :
    (StorageClient.get B objectId destination pid tempId).Safe
      ((World.handler me transport).sem ok) R
      (GetGuarantee B me (StorageClient.tempFor destination pid tempId) destination)
      (fun r w' =>
        (UnlinksCalm ok (StorageClient.tempFor destination pid tempId) →
          Cleaned me (StorageClient.tempFor destination pid tempId) w.fs →
          Cleaned me (StorageClient.tempFor destination pid tempId) w'.fs) ∧
        (UnlinksCalm ok (StorageClient.tempFor destination pid tempId) →
          (∀ fs, A fs → fs.dir (StorageClient.tempFor destination pid tempId) = none) →
          w'.fs.dir (StorageClient.tempFor destination pid tempId) = none) ∧
        GetAnswer transport ok B (StorageClient.tempFor destination pid tempId) destination A K L
          objectId w.rest r w') w := by
  unfold StorageClient.get StorageClient.toChunkId
  by_cases hid : objectId.valid = true
  · simp only [hid, Bool.not_true, Bool.false_eq_true, if_false]
    generalize StorageClient.tempFor destination pid tempId = temp at h hne ⊢
    refine safe_sys fun w₁ hR₁ o r fds fs hok hexec => ?_
    obtain ⟨rfl, rfl, hexists⟩ := exists_cases hexec
    have hA₁ := h.before hR₁ hA
    have hK₁ := h.known hR₁ hK
    have hclean₁ : Cleaned me temp w.fs → Cleaned me temp w₁.fs := fun hc => h.cleaned hR₁ hc
    have hrest₁ := (h.same hR₁).2.2
    refine ⟨GetGuarantee.looks _ _ _ rfl, ?_⟩
    cases r with
    | error e =>
        refine ⟨fun _ => hclean₁, fun _ hfree => hfree _ hA₁, .occupied (by simp) hK₁ ?_⟩
        rintro ⟨hnever, hfree⟩
        rcases hexists with ⟨e', -, hbad⟩ | hr
        · exact hbad ⟨(hnever _ _ _ hok).1, (hfree _ hA₁).1⟩
        · exact absurd hr (by simp)
    | ok present =>
        have hpresent : present = (w₁.fs.dir destination).isSome := by
          rcases hexists with ⟨e', hr, -⟩ | hr
          · exact absurd hr (by simp)
          · exact Except.ok.inj hr
        cases present with
        | true =>
            refine ⟨fun _ => hclean₁, fun _ hfree => hfree _ hA₁, .occupied ?_ hK₁ ?_⟩
            · intro status hstatus
              rw [← Except.ok.inj hstatus]
              rfl
            · rintro ⟨-, hfree⟩
              rw [(hfree _ hA₁).2.2.1] at hpresent
              exact absurd hpresent (by simp)
        | false =>
            refine safe_bind.2 ?_
            unfold GrpcDataPlaneClient.headChunk
            refine safe_other fun w₂ hR₂ reply b₁ hreply => ⟨GetGuarantee.replied _ _ _, ?_⟩
            rw [(h.same hR₂).2.2, World.answered_rest, hrest₁] at hreply
            have hA₂ : A w₂.fs := h.before hR₂ hA₁
            have hK₂ : K w₂.fs := h.known hR₂ hK₁
            have hclean₂ : Cleaned me temp w.fs → Cleaned me temp w₂.fs := fun hc =>
              h.cleaned hR₂ (hclean₁ hc)
            simp only [pure_eq_ret, safe_ret]
            cases hhead : GrpcDataPlaneClient.headReply reply with
            | error s =>
                exact ⟨fun _ => hclean₂, fun _ hfree => hfree _ hA₂, .head hid hreply hhead hK₂⟩
            | ok response =>
                refine safe_sys fun w₃ hR₃ o r fds fs hok hexec => ?_
                obtain ⟨rfl, rfl, hexists⟩ := exists_cases hexec
                have hA₃ : A w₃.fs := h.before hR₃ hA₂
                have hK₃ : K w₃.fs := h.known hR₃ hK₂
                have hclean₃ : Cleaned me temp w.fs → Cleaned me temp w₃.fs := fun hc =>
                  h.cleaned hR₃ (hclean₂ hc)
                obtain ⟨-, htrace₃, hrest₃⟩ := h.same hR₃
                refine ⟨GetGuarantee.looks _ _ _ rfl, ?_⟩
                cases r with
                | error e =>
                    refine ⟨fun _ => hclean₃, fun _ hfree => hfree _ hA₃,
                      .occupied (by simp) hK₃ ?_⟩
                    rintro ⟨hnever, hfree⟩
                    rcases hexists with ⟨e', -, hbad⟩ | hr
                    · exact hbad ⟨(hnever _ _ _ hok).1, (hfree _ hA₃).2.1⟩
                    · exact absurd hr (by simp)
                | ok present =>
                    have hpresent : present = (w₃.fs.dir temp).isSome := by
                      rcases hexists with ⟨e', hr, -⟩ | hr
                      · exact absurd hr (by simp)
                      · exact Except.ok.inj hr
                    cases present with
                    | true =>
                        refine ⟨fun _ => hclean₃, fun _ hfree => hfree _ hA₃,
                          .occupied ?_ hK₃ ?_⟩
                        · intro status hstatus
                          rw [← Except.ok.inj hstatus]
                          rfl
                        · rintro ⟨-, hfree⟩
                          rw [(hfree _ hA₃).2.2.2] at hpresent
                          exact absurd hpresent (by simp)
                    | false =>
                        have habsent : w₃.fs.dir temp = none := by
                          simpa using hpresent.symm
                        have hseen : headSeen (w₃.answered (.exists temp) (.ok false) w₃.fds
                            w₃.fs).trace = some response := by
                          rw [headSeen_answered, htrace₃]
                          show (GrpcDataPlaneClient.headReply reply).toOption = some response
                          rw [hhead]
                          rfl
                        refine safe_bind.2 ((fetch_safe (w := w₃.answered (.exists temp) (.ok false)
                          w₃.fds w₃.fs) h hne ⟨objectId.value⟩ habsent hK₃ hseen).imp ?_)
                        rintro status w₄ ⟨hleaving, hdone⟩
                        rw [World.answered_rest, hrest₃, World.replied_rest] at hdone
                        exact ⟨fun hunlinks _ => cleaned_of_absent (hleaving.gone hunlinks),
                          fun hunlinks _ => hleaving.gone hunlinks, .fetched hid hreply hhead hdone⟩
  · have hno : objectId.valid = false := by simpa using hid
    simp only [hno, Bool.not_false, if_true]
    exact ⟨fun _ hclean => hclean, fun _ hfree => hfree _ hA, .invalid hno rfl hK⟩

/-- Nobody else is there: what is linked to the destination stays. -/
theorem Surroundings.alone (hne : temp ≠ destination) (hcreates : ∀ {fs}, K fs → K (fs.create temp me))
    (hmodifies : ∀ {fs} (i : ℕ) (f : Inode → Inode), K fs → K (fs.modify i f))
    (hremoves : ∀ {fs}, K fs → K (fs.remove temp)) :
    Surroundings (β := β) Eq me temp destination A K
      (fun d fs => fs.contents destination = some d) where
  same hR := by subst hR; exact ⟨rfl, rfl, rfl⟩
  nameMax hR := by subst hR; rfl
  own hR h := by subst hR; exact h
  owned hR h := by subst hR; exact h
  absent hR h := by subst hR; exact h
  cleaned hR h := by subst hR; exact h
  before hR h := by subst hR; exact h
  known hR h := by subst hR; exact h
  creates := hcreates
  modifies := hmodifies
  removes := hremoves
  links {fs i n} hi hn hnone := by
    simp only [FS.contents, FS.bind_dir, if_true, Option.bind_some, FS.bind_inodes, hn,
      Option.map_some]
    rfl
  landed hR h := by subst hR; exact h
  drops {d fs} h := by
    rw [← h]
    exact FS.contents_congr (by rw [FS.remove_dir, if_neg hne]) fun i n hn => hn

end Parts

end ChunkStorage
