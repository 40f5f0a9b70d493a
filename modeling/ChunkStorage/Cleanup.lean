import ChunkStorage.Destinations

set_option autoImplicit false

/-! # What `Get` removes

One `Get` among processes that run any programs at all. `StorageClient::Get` asks whether its temporary
path is free and later creates a file there with `O_EXCL`; on every error it removes what is at the
path. If another process puts something there before that `open`, it fails with `EEXIST` and `Get`
removes what is not its own (`get_removes_foreign`). Where the `open` finds the path free and nobody
puts anything there until `Get` returns, nothing else can go wrong (`get_removes_own`), whatever
`exists` has said: at a dangling link it says that the path is free, and `open` fails there too. -/

namespace ChunkStorage

open Effects Posix Program

variable {β : Type}

/-- A process with any program. -/
structure AnyJob (β : Type) where
  prog : Program ClientSig (Except Errno Status)
  transport : Transport β
  state : β

def anyJob (v : AnyJob β) : Job Rpc β (Except Errno Status) := ⟨v.prog, v.transport, v.state⟩

abbrev AnyProcess (β : Type) := Process (AnyJob β) Rpc β (Except Errno Status)

/-- The processes after the first `n` of the choices. -/
def anyMoment (fs₀ : FS) (choices : List (Choice (AnyJob β))) (n : ℕ) :
    System (AnyJob β) Rpc β (Except Errno Status) :=
  System.moment anyJob ⟨fs₀, []⟩ choices n

/-- What process `j` removes was created by an `open` of its own: the file at the path of a successful
    `unlink` is the one that it created there before. -/
def RemovesOwn (fs₀ : FS) (choices : List (Choice (AnyJob β))) (j : ℕ) : Prop :=
  ∀ (n : ℕ) (p : AnyProcess β) (path : Path),
    System.Answers anyJob ⟨fs₀, []⟩ choices n j p ⟨.inl (.unlink path), .ok ()⟩ →
    ∃ m < n, ∃ (q : AnyProcess β) (fd i : ℕ),
      System.Answers anyJob ⟨fs₀, []⟩ choices m j q ⟨.inl (.openExcl path), .ok fd⟩ ∧
      (anyMoment fs₀ choices (m + 1)).fs.dir path = some i ∧
      (anyMoment fs₀ choices n).fs.dir path = some i

/-- The `open` that creates the temporary file has been called, in vain or not. -/
def Opened (temp : Path) (trace : List (Event ClientSig)) : Prop :=
  ∃ r, (⟨.inl (.openExcl temp), r⟩ : Event ClientSig) ∈ trace

/-- Where the temporary file is to be created, the path is free. -/
def OpensFree (temp : Path) (op : ClientSig.Op) (w : ClientWorld β) (_ : Outcome) : Prop :=
  op = .inl (.openExcl temp) → w.fs.dir temp = none

/-- Nothing gets in the way of process `j` at its temporary path. -/
structure NoIntruder (fs₀ : FS) (choices : List (Choice (AnyJob β))) (j : ℕ) (temp : Path) : Prop where
  /-- The path is free when process `j` opens it. -/
  opens : System.Admits anyJob (fun k _ op w o => k = j → OpensFree temp op w o) ⟨fs₀, []⟩ choices
  /-- From then on, while process `j` is under way, no other puts anything there. -/
  stays : ∀ (n : ℕ) (p : AnyProcess β), (anyMoment fs₀ choices n).procs[j]? = some p →
    Opened temp p.trace → ¬ p.prog.Returned → (∀ o, choices[n]? ≠ some (.act j o)) →
    (anyMoment fs₀ choices (n + 1)).fs.dir temp = (anyMoment fs₀ choices n).fs.dir temp ∨
      (anyMoment fs₀ choices (n + 1)).fs.dir temp = none

/-! ## The calls of a download -/

section Calls

variable {B : Blake3} {temp destination : Path}

/-- Only the temporary path is created and removed, and only the destination is linked to. -/
def AltersOnly (temp destination : Path) : ClientSig.Op → Prop
  | .inl (.openExcl p) | .inl (.unlink p) => p = temp
  | .inl (.link _ new) => new = destination
  | _ => True

/-- What the download, the check and the commit call. -/
def Touches (temp destination : Path) (op : ClientSig.Op) (again : ClientSig.Ret op → Bool) : Prop :=
  Retries op again ∧ AltersOnly temp destination op

theorem touches_once {op : ClientSig.Op} (h : AltersOnly temp destination op) :
    Touches temp destination op (fun _ => false) := by
  refine ⟨?_, h⟩
  cases op with
  | inl s => exact fun r ha => absurd ha (by simp)
  | inr op => exact fun r => rfl

theorem writeAllLoop_touches (fd rounds : ℕ) (data : Bytes) :
    (writeAllLoop (B := Rpc) fd rounds data).Performs (Touches temp destination) := by
  induction rounds generalizing data with
  | zero => trivial
  | succ rounds ih =>
      unfold writeAllLoop
      split
      · trivial
      · refine performs_retrying.2 ⟨⟨fun r ha => ha, trivial⟩, fun r => ?_⟩
        cases r with
        | wrote n => exact ih _
        | nothing e | failed e => trivial

theorem receive_touches (fd rounds : ℕ) :
    (GrpcDataPlaneClient.receive fd rounds).Performs (Touches temp destination) := by
  induction rounds with
  | zero => trivial
  | succ rounds ih =>
      unfold GrpcDataPlaneClient.receive
      refine performs_perform.2 ⟨touches_once trivial, fun r => ?_⟩
      cases r with
      | none => trivial
      | some frame =>
          refine (writeAllLoop_touches fd _ frame.1).bind fun status => ?_
          split
          · exact performs_perform.2 ⟨touches_once trivial, fun _ => trivial⟩
          · exact ih

theorem getChunk_touches (request : GetChunkRequest) :
    (GrpcDataPlaneClient.getChunk request temp).Performs (Touches temp destination) := by
  have hfail : ∀ status, (GrpcDataPlaneClient.fail temp status).Performs
      (Touches temp destination) := by
    intro status
    exact performs_perform.2 ⟨touches_once rfl, fun _ => trivial⟩
  unfold GrpcDataPlaneClient.getChunk
  refine performs_perform.2 ⟨touches_once rfl, fun r => ?_⟩
  cases r with
  | error e => trivial
  | ok fd =>
      refine performs_perform.2 ⟨touches_once trivial, fun _ => ?_⟩
      refine (receive_touches fd _).bind fun writeStatus => ?_
      refine performs_perform.2 ⟨touches_once trivial, fun grpcStatus => ?_⟩
      split
      · exact hfail _
      · split
        · exact hfail _
        · refine performs_perform.2 ⟨touches_once trivial, fun r => ?_⟩
          cases r with
          | error e => exact hfail _
          | ok _ => trivial

theorem hashLoop_touches (fd rounds : ℕ) (hasher : B.Hasher) (size : UInt64) :
    (StorageClient.hashLoop B fd rounds hasher size).Performs (Touches temp destination) := by
  induction rounds generalizing hasher size with
  | zero => trivial
  | succ rounds ih =>
      unfold StorageClient.hashLoop
      refine performs_retrying.2 ⟨⟨fun r ha => ha, trivial⟩, fun r => ?_⟩
      cases r with
      | error e => trivial
      | ok bytes =>
          dsimp only
          split
          · trivial
          · exact ih _ _

theorem hashFile_touches (path : Path) :
    (StorageClient.hashFile B path).Performs (Touches temp destination) := by
  unfold StorageClient.hashFile
  refine performs_perform.2 ⟨touches_once trivial, fun r => ?_⟩
  cases r with
  | error e => trivial
  | ok fd =>
      refine (hashLoop_touches fd _ _ _).bind fun r => ?_
      cases r with
      | error s => trivial
      | ok result => trivial

theorem fetch_touches (chunkId : ChunkId) (response : HeadChunkResponse) :
    (StorageClient.fetch B chunkId response temp destination).Performs
      (Touches temp destination) := by
  have hunlink : ∀ {α : Type} (a : α),
      (sys (B := Rpc) (.unlink temp) >>= fun _ => pure a).Performs (Touches temp destination) :=
    fun a => performs_perform.2 ⟨touches_once rfl, fun _ => trivial⟩
  unfold StorageClient.fetch
  refine (getChunk_touches _).bind fun status => ?_
  split
  · exact hunlink _
  · refine (hashFile_touches temp).bind fun r => ?_
    cases r with
    | error s => exact hunlink _
    | ok result =>
        obtain ⟨size, checksum⟩ := result
        dsimp only
        split
        · exact hunlink _
        · unfold StorageClient.commit
          refine performs_perform.2 ⟨touches_once rfl, fun r => ?_⟩
          cases r with
          | error e => exact hunlink _
          | ok _ => exact hunlink _

end Calls

/-! ## A download among any other processes -/

section Get

variable {B : Blake3} {me : ℕ} {temp destination : Path}

/-- What is at the path was created by process `me`. -/
def OwnEntry (me : ℕ) (temp : Path) (fs : FS) : Prop :=
  ∀ i, fs.dir temp = some i → ∃ n, fs.inodes[i]? = some n ∧ n.owner = me

/-- What other processes do to a `Get` that no file is put in the way of. -/
structure Tolerated (temp : Path) (w w' : ClientWorld β) : Prop where
  same : w'.fds = w.fds ∧ w'.trace = w.trace ∧ w'.rest = w.rest
  owner : ∀ {i : ℕ} {n : Inode}, w.fs.inodes[i]? = some n →
    ∃ n', w'.fs.inodes[i]? = some n' ∧ n'.owner = n.owner
  entry : Opened temp w.trace → w'.fs.dir temp = w.fs.dir temp ∨ w'.fs.dir temp = none

theorem Tolerated.refl (w : ClientWorld β) : Tolerated temp w w :=
  ⟨⟨rfl, rfl, rfl⟩, fun {_ n} hn => ⟨n, hn, rfl⟩, fun _ => Or.inl rfl⟩

theorem Tolerated.trans {w₁ w₂ w₃ : ClientWorld β} (h : Tolerated temp w₁ w₂)
    (h' : Tolerated temp w₂ w₃) : Tolerated temp w₁ w₃ where
  same := ⟨h'.same.1.trans h.same.1, h'.same.2.1.trans h.same.2.1, h'.same.2.2.trans h.same.2.2⟩
  owner hn := by
    obtain ⟨n₂, hn₂, howner₂⟩ := h.owner hn
    obtain ⟨n₃, hn₃, howner₃⟩ := h'.owner hn₂
    exact ⟨n₃, hn₃, howner₃.trans howner₂⟩
  entry hopened := by
    rcases h'.entry (by rw [h.same.2.1]; exact hopened) with hsame | hnone
    · rw [hsame]
      exact h.entry hopened
    · exact Or.inr hnone

theorem OwnEntry.tolerated {w w' : ClientWorld β} (h : OwnEntry me temp w.fs)
    (hR : Tolerated temp w w') (hopened : Opened temp w.trace) : OwnEntry me temp w'.fs := by
  intro i hi
  rcases hR.entry hopened with hsame | hnone
  · rw [hsame] at hi
    obtain ⟨n, hn, howner⟩ := h i hi
    obtain ⟨n', hn', howner'⟩ := hR.owner hn
    exact ⟨n', hn', howner'.trans howner⟩
  · rw [hnone] at hi
    exact absurd hi (by simp)

/-- A step of a `Get` that creates at most the temporary path and removes only a file of its own. -/
def Tidies (me : ℕ) (temp : Path) (w w' : ClientWorld β) : Prop :=
  ∀ e, w'.trace = e :: w.trace →
    (∀ path, e = ⟨.inl (.unlink path), .ok ()⟩ → path = temp ∧
      ∃ i n, w.fs.dir temp = some i ∧ w.fs.inodes[i]? = some n ∧ n.owner = me) ∧
    ∀ path fd, e = ⟨.inl (.openExcl path), .ok fd⟩ → path = temp

/-- A call that is neither an `unlink` nor a creation. -/
theorem Tidies.of_event {w w' : ClientWorld β} (op : ClientSig.Op) (r : ClientSig.Ret op)
    (htrace : w'.trace = ⟨op, r⟩ :: w.trace) (hunlink : ∀ path, op ≠ .inl (.unlink path))
    (hcreate : ∀ path, op ≠ .inl (.openExcl path)) : Tidies me temp w w' := by
  intro e he
  rw [htrace] at he
  obtain rfl := (List.cons.inj he).1
  exact ⟨fun path hevent => absurd (congrArg Sigma.fst hevent) (hunlink path),
    fun path fd hevent => absurd (congrArg Sigma.fst hevent) (hcreate path)⟩

theorem Opened.cons {trace : List (Event ClientSig)} (h : Opened temp trace) (e : Event ClientSig) :
    Opened temp (e :: trace) := by
  obtain ⟨r, hr⟩ := h
  exact ⟨r, List.mem_cons_of_mem _ hr⟩

theorem OwnEntry.of_free {fs : FS} (h : fs.dir temp = none) : OwnEntry me temp fs := by
  intro i hi
  rw [h] at hi
  exact absurd hi (by simp)

section Calls

variable {s : Syscall} {r : s.Ret} {o : Outcome} {fds fds' : List OpenFile} {fs fs' : FS}

/-- What appears at the path by a call of its own was created by it. -/
theorem OwnEntry.exec (h : OwnEntry me temp fs) (hne : temp ≠ destination)
    (halters : AltersOnly temp destination (.inl s)) (hexec : s.exec me fds fs o = (r, fds', fs')) :
    OwnEntry me temp fs' := by
  have heffect := exec_effect s hexec
  intro i hi
  cases hbefore : fs.dir temp with
  | some i₀ =>
      rcases heffect.entry hbefore with hstays | hgone
      · obtain rfl : i₀ = i := Option.some.inj (hstays.symm.trans hi)
        obtain ⟨n, hn, howner⟩ := h i₀ hbefore
        obtain ⟨n', hn', howner'⟩ := heffect.file hn
        exact ⟨n', hn', howner'.trans howner⟩
      · rw [hgone] at hi
        exact absurd hi (by simp)
  | none =>
      rcases heffect.appears hbefore hi with ⟨-, hcreated⟩ | ⟨old, rfl⟩
      · exact hcreated
      · exact absurd halters hne

/-- What a call removes is at the temporary path, and that is a file of `me`. -/
theorem Tidies.of_exec {w : ClientWorld β} (hown : OwnEntry me temp w.fs)
    (halters : AltersOnly temp destination (.inl s)) (hint : ¬ s.interrupted r = true)
    (hexec : s.exec me w.fds w.fs o = (r, fds', fs')) : Tidies me temp w (w.answered s r fds' fs') := by
  intro e he
  rw [w.answered_trace hint fds' fs'] at he
  obtain rfl := (List.cons.inj he).1
  constructor
  · intro path hevent
    obtain ⟨hop, hr⟩ := Sigma.mk.inj hevent
    obtain rfl := Sum.inl.inj hop
    obtain rfl := eq_of_heq hr
    obtain rfl : path = temp := halters
    obtain ⟨-, ⟨e, hr', -⟩ | ⟨i, hi, -, -⟩⟩ := unlink_cases hexec
    · exact absurd hr' (by simp)
    · obtain ⟨n, hn, howner⟩ := hown i hi
      exact ⟨rfl, i, n, hi, hn, howner⟩
  · intro path fd hevent
    obtain ⟨hop, -⟩ := Sigma.mk.inj hevent
    obtain rfl := Sum.inl.inj hop
    exact halters

end Calls

/-- What is called after the `open`, while what is at the path is the own file. -/
theorem opened_tidies {α : Type} {transport : Transport β} (hne : temp ≠ destination)
    {p : Program ClientSig α} (hp : p.Performs (Touches temp destination)) {w : ClientWorld β}
    (hopened : Opened temp w.trace) (hown : OwnEntry me temp w.fs) :
    p.Safe ((World.handler me transport).sem (OpensFree temp)) (Tolerated temp) (Tidies me temp)
      (fun _ w' => Opened temp w'.trace ∧ OwnEntry me temp w'.fs) w := by
  refine Performs.safe
    (P := fun w : ClientWorld β => Opened temp w.trace ∧ OwnEntry me temp w.fs) ?_ ?_ hp
    ⟨hopened, hown⟩
  · intro w w' hw hR
    exact ⟨by rw [hR.same.2.1]; exact hw.1, hw.2.tolerated hR hw.1⟩
  · intro op again w r w' htouches hw hH
    cases op with
    | inr op =>
        obtain ⟨-, rfl⟩ := World.sem_other hH
        rw [htouches.1 r]
        exact ⟨Tidies.of_event (.inr op) r rfl (fun _ => Sum.inr_ne_inl)
          (fun _ => Sum.inr_ne_inl), hw.1.cons _, hw.2⟩
    | inl s =>
        obtain ⟨o, fds', fs', -, hexec, rfl⟩ := World.sem_sys hH
        by_cases hint : s.interrupted r = true
        · obtain ⟨rfl, rfl⟩ := exec_interrupted s hexec hint
          rw [w.answered_interrupted hint]
          split
          · rfl
          · exact ⟨fun e he => absurd he (by simp), hw⟩
        · have ha : ¬ again r = true := fun ha => hint (htouches.1 r ha)
          rw [if_neg ha, w.answered_trace hint fds' fs']
          exact ⟨Tidies.of_exec hw.2 htouches.2 hint hexec, hw.1.cons _,
            hw.2.exec hne htouches.2 hexec⟩

/-- The download begins with the `open`. -/
theorem fetch_opens (chunkId : ChunkId) (response : HeadChunkResponse) :
    ∃ k, StorageClient.fetch B chunkId response temp destination = (sys (.openExcl temp) >>= k) :=
  ⟨_, Program.bind_assoc _ _ _⟩

/-- The download, the check and the commit. Only the `open` has to find the path free. -/
theorem fetch_tidies {transport : Transport β} (hne : temp ≠ destination) (chunkId : ChunkId)
    (response : HeadChunkResponse) (w : ClientWorld β) :
    (StorageClient.fetch B chunkId response temp destination).Safe
      ((World.handler me transport).sem (OpensFree temp)) (Tolerated temp) (Tidies me temp)
      (fun _ _ => True) w := by
  have htouches : (StorageClient.fetch B chunkId response temp destination).Performs
      (Touches temp destination) := fetch_touches chunkId response
  obtain ⟨k, hk⟩ : ∃ k, StorageClient.fetch B chunkId response temp destination
      = (sys (.openExcl temp) >>= k) := fetch_opens chunkId response
  rw [hk] at htouches ⊢
  refine safe_sys fun w₁ _ o r fds fs hok hexec => ?_
  have hint : ¬ (Syscall.openExcl temp).interrupted r = true := by simp [Syscall.interrupted]
  have halters : AltersOnly temp destination (.inl (.openExcl temp)) := rfl
  -- nothing is there, so what is there afterwards was created by this call
  have hown : OwnEntry me temp w₁.fs := .of_free (hok rfl)
  refine ⟨Tidies.of_exec hown halters hint hexec, (opened_tidies hne
    ((performs_perform.1 htouches).2 r) ?_ (hown.exec hne halters hexec)).imp fun _ _ _ => trivial⟩
  rw [w₁.answered_trace hint]
  exact ⟨r, List.mem_cons_self⟩

/-- **`Get` among any other processes**, with nothing put in its way. -/
theorem get_tidies (transport : Transport β) (objectId : ObjectId) (pid tempId : ℕ)
    (w : ClientWorld β) :
    (StorageClient.get B objectId destination pid tempId).Safe
      ((World.handler me transport).sem (OpensFree (StorageClient.tempFor destination pid tempId)))
      (Tolerated (StorageClient.tempFor destination pid tempId))
      (Tidies me (StorageClient.tempFor destination pid tempId)) (fun _ _ => True) w := by
  -- before the `open` it only looks
  have looks : ∀ (w₁ : ClientWorld β) (p : Path) (r : Except Errno Bool) (fds : List OpenFile)
      (fs : FS), Tidies me (StorageClient.tempFor destination pid tempId) w₁
        (w₁.answered (.exists p) r fds fs) := by
    intro w₁ p r fds fs
    have hanswered : ¬ (Syscall.exists p).interrupted r = true := by simp [Syscall.interrupted]
    have htrace := w₁.answered_trace hanswered fds fs
    refine Tidies.of_event (.inl (.exists p)) r htrace ?_ ?_
    · intro path hop
      exact absurd (Sum.inl.inj hop) (by simp)
    · intro path hop
      exact absurd (Sum.inl.inj hop) (by simp)
  unfold StorageClient.get StorageClient.toChunkId
  split
  · trivial
  · refine safe_sys fun w₁ _ o r fds fs _ _ => ⟨looks _ _ _ _ _, ?_⟩
    cases r with
    | error e => trivial
    | ok present =>
        cases present with
        | true => trivial
        | false =>
            refine safe_bind.2 ?_
            unfold GrpcDataPlaneClient.headChunk
            refine safe_other fun w₂ _ reply rest _ => ⟨?_, ?_⟩
            · exact Tidies.of_event (.inr (.headChunk _)) reply rfl (fun _ => Sum.inr_ne_inl)
                (fun _ => Sum.inr_ne_inl)
            · simp only [pure_eq_ret, safe_ret]
              cases GrpcDataPlaneClient.headReply reply with
              | error s => trivial
              | ok response =>
                  refine safe_sys fun w₃ _ o r fds fs _ _ => ⟨looks _ _ _ _ _, ?_⟩
                  cases r with
                  | error e => trivial
                  | ok present =>
                      cases present with
                      | true => trivial
                      | false =>
                          exact safe_bind.2 ((fetch_tidies (tempFor_ne _ _ _) _ response _).imp
                            fun _ _ _ => trivial)

end Get

/-! ## Whole runs -/

/-- **`Get` removes only what it created**, if its `open` finds the temporary path free and no other
    process puts anything there until it returns. -/
theorem get_removes_own (B : Blake3) (objectId : ObjectId) (destination : Path) (pid tempId : ℕ)
    (fs₀ : FS) (choices : List (Choice (AnyJob β))) (j : ℕ)
    (hget : ∀ v, (System.after anyJob ⟨fs₀, []⟩ choices).Started j v →
      v.prog = StorageClient.get B objectId destination pid tempId)
    (hold : ∀ n ∈ fs₀.inodes, n.owner ≠ j)
    (hfree : NoIntruder fs₀ choices j (StorageClient.tempFor destination pid tempId)) :
    RemovesOwn fs₀ choices j := by
  have hsafe : ∀ (n : ℕ) {p : AnyProcess β},
      (System.moment anyJob ⟨fs₀, []⟩ choices n).procs[j]? = some p →
      p.prog.Safe ((World.handler j (anyJob p.job).other).sem
          (OpensFree (StorageClient.tempFor destination pid tempId)))
        (Tolerated (StorageClient.tempFor destination pid tempId))
        (Tidies j (StorageClient.tempFor destination pid tempId)) (fun _ _ => True)
        (p.world (System.moment anyJob ⟨fs₀, []⟩ choices n).fs) := by
    intro n p hp
    refine System.safe_moment Tolerated.refl (fun h h' => h.trans h')
      (fun hc hq hprog => hfree.opens _ _ _ _ _ _ _ hc hq hprog rfl) ?_ ?_ n hp
    · intro n p hp hret hothers
      rcases System.fs_step anyJob ⟨fs₀, []⟩ choices n with hsame | ⟨k, q, c, r, fds, heffect, -⟩
      · rw [hsame]
        exact Tolerated.refl _
      · exact ⟨⟨rfl, rfl, rfl⟩, fun hn => heffect.file hn,
          fun hopened => hfree.stays n p hp hopened hret hothers⟩
    · intro n v hc hlength
      have hstarted : (System.after anyJob ⟨fs₀, []⟩ choices).Started j v := by
        refine System.Started.last (n := n + 1) ?_
        rw [System.moment_succ anyJob _ hc]
        refine ⟨System.boot anyJob v, ?_, rfl⟩
        rw [← hlength]
        simp [System.step, System.spawn]
      show v.prog.Safe _ _ _ _ _
      rw [hget v hstarted]
      exact get_tidies v.transport objectId pid tempId _
  -- what each step of the `Get` does
  have hG : ∀ {n : ℕ} {p : AnyProcess β} {e : Event ClientSig},
      System.Answers anyJob ⟨fs₀, []⟩ choices n j p e →
      (∀ path, e = ⟨.inl (.unlink path), .ok ()⟩ →
        path = StorageClient.tempFor destination pid tempId ∧
        ∃ i node, (anyMoment fs₀ choices n).fs.dir
            (StorageClient.tempFor destination pid tempId) = some i ∧
          (anyMoment fs₀ choices n).fs.inodes[i]? = some node ∧ node.owner = j) ∧
      ∀ path fd, e = ⟨.inl (.openExcl path), .ok fd⟩ →
        path = StorageClient.tempFor destination pid tempId := by
    rintro n p e ⟨hp, p', hp', htrace⟩
    have hne : p' ≠ p := by
      rintro rfl
      exact absurd htrace (by simp)
    obtain ⟨o, hc⟩ := System.act_of_ne hp hp' hne
    rcases System.guarantee_of_safe hc hp (hsafe n hp) (fun _ => Tolerated.refl _)
      (fun hprog => hfree.opens _ _ _ _ _ _ _ hc hp hprog rfl) with hstay | ⟨p'', hp'', hstep⟩
    · rw [hstay, hp] at hp'
      exact absurd (Option.some.inj hp').symm hne
    · obtain rfl : p' = p'' := Option.some.inj (hp'.symm.trans hp'')
      exact hstep e htrace
  intro n p path hanswers
  obtain ⟨rfl, i, node, hi, hnode, howner⟩ := (hG hanswers).1 path rfl
  rcases System.created_by anyJob fs₀ choices n hnode with
    ⟨old, hold', hsame⟩ | ⟨m, hm, q, path', fd, hcreated, hdir⟩
  · exact absurd (hsame.trans howner) (hold old (List.mem_of_getElem? hold'))
  · rw [howner] at hcreated
    obtain rfl := (hG hcreated).2 path' fd rfl
    exact ⟨m, hm, q, fd, i, hcreated, hdir, hi⟩

/-- The process that creates a file at the path. -/
def createAt (path : Path) : Program ClientSig (Except Errno Status) := do
  let _ ← sys (.openExcl path)
  return .ok .Ok

/-- The sample download, with the first temporary name of process 1. -/
def sampleDownload : AnyJob Bool :=
  ⟨StorageClient.get Blake3.sample ⟨[0x61]⟩ sampleDestination 1 0, sampleTransport, false⟩

def sampleTemp : Path := StorageClient.tempFor sampleDestination 1 0

/-- `OpensFree` as a check. -/
def opensFree (temp : Path) (op : ClientSig.Op) (w : ClientWorld β) : Bool :=
  match op with
  | .inl (.openExcl p) => decide (p ≠ temp) || (w.fs.dir temp).isNone
  | _ => true

theorem opensFree_spec {temp : Path} {op : ClientSig.Op} {w : ClientWorld β} {o : Outcome}
    (h : opensFree temp op w = true) : OpensFree temp op w o := by
  rintro rfl
  simpa [opensFree] using h

/-- A process creates some other file, and then a `Get` runs to its end. -/
def quietGet : List (Choice (AnyJob Bool)) :=
  .start sampleDownload :: .start ⟨createAt ⟨[0x64], [0x78]⟩, sampleTransport, false⟩ ::
    .act 1 .done :: List.replicate 15 (.act 0 .done)

theorem get_removes_own_quietGet :
    (anyMoment (FS.empty 255) quietGet 18).fs.contents sampleDestination = some [0x61] ∧
      RemovesOwn (FS.empty 255) quietGet 0 := by
  refine ⟨by decide +kernel, get_removes_own Blake3.sample ⟨[0x61]⟩ sampleDestination 1 0
    (FS.empty 255) quietGet 0 ?_ (by simp [FS.empty]) ⟨?_, ?_⟩⟩
  · rintro v ⟨p, hp, rfl⟩
    have hjob : ((System.after anyJob ⟨FS.empty 255, []⟩ quietGet).procs.map Process.job)[0]?
        = some p.job := by
      rw [List.getElem?_map, hp]
      rfl
    have hjobs : (System.after anyJob ⟨FS.empty 255, []⟩ quietGet).procs.map Process.job
        = [sampleDownload, ⟨createAt ⟨[0x64], [0x78]⟩, sampleTransport, false⟩] :=
      System.jobs_after _ _ _
    rw [hjobs] at hjob
    rw [← Option.some.inj hjob]
    rfl
  · refine System.admits_of_admitted (fun _ _ op w _ => opensFree sampleTemp op w) ?_ (by decide +kernel)
    intro k v op w o hcheck _
    exact opensFree_spec hcheck
  · intro n p hp hopened _ hothers
    by_cases hlate : 18 ≤ n
    · rw [anyMoment, System.moment_of_le _ _ (by simpa [quietGet] using hlate)]
      exact Or.inl rfl
    · by_cases hearly : n ≤ 2
      · -- the `Get` has called nothing yet
        interval_cases n
        · exact absurd hp (by simp [anyMoment, System.moment_zero])
        · rw [← Option.some.inj hp] at hopened
          exact absurd hopened (by simp [Opened, System.boot])
        · rw [← Option.some.inj hp] at hopened
          exact absurd hopened (by simp [Opened, System.boot])
      · refine absurd ?_ (hothers .done)
        interval_cases n <;> rfl

/-- Another process creates a file at the temporary path after `Get` found it free. -/
def intruded : List (Choice (AnyJob Bool)) :=
  [.start sampleDownload, .start ⟨createAt sampleTemp, sampleTransport, false⟩, .act 0 .done,
    .act 0 .done, .act 0 .done, .act 1 .done, .act 0 .done, .act 0 .done]

/-- The event is a successful creation of a file. -/
def isCreation : Event ClientSig → Bool
  | ⟨.inl (.openExcl _), .ok _⟩ => true
  | _ => false

/-- **`Get` removes a file of another process.** -/
theorem get_removes_foreign : ¬ RemovesOwn (FS.empty 255) intruded 0 := by
  intro hown
  -- the last step is a successful `unlink`
  obtain ⟨m, hm, q, fd, i, ⟨hq, q', hq', htrace⟩, -⟩ := hown 7 _ sampleTemp ⟨rfl, _, rfl, rfl⟩
  -- and no step before it is a successful `open`
  have hnever : ∀ m < 7, ∀ q', (anyMoment (FS.empty 255) intruded (m + 1)).procs[0]? = some q' →
      (q'.trace.head?.map isCreation) ≠ some true := by
    intro m hm q' hq'
    have hall : ∀ m < 7, ((anyMoment (FS.empty 255) intruded (m + 1)).procs[0]?.bind
        fun q' => q'.trace.head?.map isCreation) ≠ some true := by decide +kernel
    have hm' := hall m hm
    rw [hq'] at hm'
    exact hm'
  refine hnever m hm q' hq' ?_
  rw [htrace]
  rfl

end ChunkStorage
