import ChunkStorage.Interference

set_option autoImplicit false

/-! # Any number of calls on one root

A run is a `System` of store calls that starts with an empty file system: calls are started at any
time, each goes on by one operation when it is chosen, and a call that is not chosen again has been
abandoned. `StoreInv` holds at every moment of every run, whatever the outcomes of the system calls
are and whatever the streams do. -/

namespace ChunkStorage

open Effects Posix Program

variable {σ τ : Type}

/-- What a process runs for a call. -/
def storeJob (B : Blake3) (root : Bytes) (v : Invocation σ τ) : Job Streams (σ × τ) Answer :=
  ⟨v.call.program B root, streams v.input v.output, (v.source, v.sink)⟩

/-- The file system and the calls under way. -/
abbrev StoreSystem (σ τ : Type) := System (Invocation σ τ) Streams (σ × τ) Answer

/-- The call of a process, in the middle of its program. -/
abbrev StoreProcess (σ τ : Type) := Process (Invocation σ τ) Streams (σ × τ) Answer

/-- The store after the choices, from an empty root. -/
def storeAfter (B : Blake3) (root : Bytes) (nameMax : ℕ) (choices : List (Choice (Invocation σ τ))) :
    StoreSystem σ τ :=
  System.after (storeJob B root) ⟨FS.empty nameMax, []⟩ choices

/-- The store after the first `n` of the choices. -/
def storeMoment (B : Blake3) (root : Bytes) (nameMax : ℕ)
    (choices : List (Choice (Invocation σ τ))) (n : ℕ) : StoreSystem σ τ :=
  System.moment (storeJob B root) ⟨FS.empty nameMax, []⟩ choices n

/-! ## Counting commits and deletions -/

/-- An `unlink` of the path by a `Delete`. -/
def deletedBy (v : Invocation σ τ) (path : Path) (e : Event StoreSig) : Bool :=
  match v.call with
  | .delete _ => unlinks path e
  | _ => false

/-- The commit links for the chunk that succeeded. -/
def commitCount (root : Bytes) (chunkId : ChunkId) (s : StoreSystem σ τ) : ℕ :=
  s.total fun p => p.trace.countP (linksTo (pathFor root chunkId))

/-- The unlinks of the chunk's file by `Delete` that succeeded. -/
def deleteCount (root : Bytes) (chunkId : ChunkId) (s : StoreSystem σ τ) : ℕ :=
  s.total fun p => p.trace.countP (deletedBy p.job (pathFor root chunkId))

/-- 1 if the chunk is visible, else 0. -/
def visibleCount (root : Bytes) (chunkId : ChunkId) (fs : FS) : ℕ :=
  if (fs.dir (pathFor root chunkId)).isSome then 1 else 0

theorem deletedBy_of_silent {v : Invocation σ τ} {e : Event StoreSig} (h : silent e = true)
    (path : Path) : deletedBy v path e = false := by
  unfold deletedBy
  split
  · exact unlinks_of_silent h path
  · rfl

/-- **A step keeps the books**: a commit makes the chunk visible, a deletion invisible, and nothing
    else does either. -/
theorem StoreStep.balance {B : Blake3} {root : Bytes} {k : ℕ} {v : Invocation σ τ}
    {e : Event StoreSig} {fs fs' : FS} (h : StoreStep B root k v e fs fs') (chunkId : ChunkId) :
    visibleCount root chunkId fs' + (if deletedBy v (pathFor root chunkId) e then 1 else 0)
      = visibleCount root chunkId fs + (if linksTo (pathFor root chunkId) e then 1 else 0) := by
  -- a step without an event of either kind leaves the chunk's entry alone
  have quiet : silent e = true → fs'.dir (pathFor root chunkId) = fs.dir (pathFor root chunkId) →
      visibleCount root chunkId fs' + (if deletedBy v (pathFor root chunkId) e then 1 else 0)
        = visibleCount root chunkId fs + (if linksTo (pathFor root chunkId) e then 1 else 0) := by
    intro hsilent hdir
    simp [deletedBy_of_silent hsilent, linksTo_of_silent hsilent, visibleCount, hdir]
  cases h with
  | looks hsilent => exact quiet hsilent rfl
  | creates hsilent _ _ =>
      exact quiet hsilent (by rw [FS.create_dir, if_neg (tempPath_ne_pathFor root _ chunkId _ _)])
  | modifies hsilent _ _ _ _ => exact quiet hsilent rfl
  | @commits _ request pid address i _ _ hcall _ _ hi _ _ _ _ _ hnone _ =>
      by_cases hid : request.chunkId = chunkId
      · subst hid
        simp [deletedBy, hcall, linksTo, visibleCount, hnone]
      · have hne : pathFor root request.chunkId ≠ pathFor root chunkId := fun h =>
          hid (pathFor_injective h)
        simp [deletedBy, hcall, linksTo, visibleCount, hne]
  | @drops _ request pid address _ _ hcall _ _ _ =>
      have hne := tempPath_ne_pathFor root request.chunkId chunkId pid address
      simp [deletedBy, hcall, linksTo, visibleCount, hne]
  | @deletes _ other hcall hsome =>
      by_cases hid : other = chunkId
      · subst hid
        simp [deletedBy, hcall, unlinks, linksTo, visibleCount,
          Option.isSome_iff_ne_none.2 hsome]
      · have hne : pathFor root other ≠ pathFor root chunkId := fun h => hid (pathFor_injective h)
        simp [deletedBy, hcall, unlinks, linksTo, visibleCount, hne]
  | publishes hsilent => exact quiet hsilent (FS.syncDir_dir _ _ _)

/-! ## The invariant -/

/-- The process is a commit's winner: a link of its own to the chunk's path succeeded. -/
def HasCommitted (root : Bytes) (chunkId : ChunkId) (p : StoreProcess σ τ) : Prop :=
  ∃ e ∈ p.trace, linksTo (pathFor root chunkId) e = true

/-- The chunk is visible and its file was created by process `j`. -/
def ShowsFileOf (root : Bytes) (chunkId : ChunkId) (j : ℕ) (fs : FS) : Prop :=
  ∃ i n, fs.dir (pathFor root chunkId) = some i ∧ fs.inodes[i]? = some n ∧ n.owner = j

/-- The invariant of a run whose calls `T` tells. -/
structure StoreInv (B : Blake3) (root : Bytes) (T : ℕ → Invocation σ τ → Prop)
    (s : StoreSystem σ τ) : Prop where
  tidy : Tidy B root T s.fs
  owners : ∀ (i : ℕ) n, s.fs.inodes[i]? = some n → n.owner < s.procs.length
  balance : ∀ chunkId, commitCount root chunkId s
    = deleteCount root chunkId s + visibleCount root chunkId s.fs
  winner : ∀ {chunkId j p}, s.procs[j]? = some p → HasCommitted root chunkId p →
    Undeleted T chunkId → ShowsFileOf root chunkId j s.fs

variable {B : Blake3} {root : Bytes} {T : ℕ → Invocation σ τ → Prop}

theorem StoreInv.empty (nameMax : ℕ) : StoreInv B root T ⟨FS.empty nameMax, []⟩ where
  tidy p i hb := by simp [FS.Binds, FS.empty] at hb
  owners i n hn := by simp [FS.empty] at hn
  balance chunkId := by
    simp [commitCount, deleteCount, visibleCount, System.total, FS.dir, FS.empty, applyChanges]
  winner hp := by simp at hp

theorem StoreInv.spawn {s : StoreSystem σ τ} (h : StoreInv B root T s) (v : Invocation σ τ) :
    StoreInv B root T (s.spawn (storeJob B root) v) where
  tidy := h.tidy
  owners i n hn := by
    have := h.owners i n hn
    simp only [System.spawn, List.length_append, List.length_singleton]
    omega
  balance chunkId := by
    simp only [commitCount, deleteCount, System.total_spawn, System.spawn_fs]
    exact h.balance chunkId
  winner {chunkId j p} hp hcom hun := by
    rcases System.spawn_procs hp with hold | ⟨-, rfl⟩
    · exact h.winner hold hcom hun
    · obtain ⟨e, he, -⟩ := hcom
      exact absurd he (by simp [System.boot])

/-- A file of a chunk that is not deleted stays where it is. -/
theorem StoreStep.showsFileOf {k j : ℕ} {v : Invocation σ τ} {e : Event StoreSig} {fs fs' : FS}
    (h : StoreStep B root k v e fs fs') (hT : T k v) {chunkId : ChunkId}
    (hun : Undeleted T chunkId) (hshows : ShowsFileOf root chunkId j fs) :
    ShowsFileOf root chunkId j fs' := by
  obtain ⟨i, n, hi, hn, howner⟩ := hshows
  obtain ⟨n', hn', howner', -⟩ := h.file hn
  rcases h.entry hi with hi' | ⟨hno, -⟩ | ⟨other, hcall, hpath, -⟩
  · exact ⟨i, n', hi', hn', howner'.trans howner⟩
  · exact absurd (isChunkPath_pathFor chunkId) hno
  · obtain rfl := pathFor_injective hpath
    exact absurd hcall (hun _ _ hT)

/-- The commit itself makes the chunk show the file of the process. -/
theorem StoreStep.commit_shows {k : ℕ} {v : Invocation σ τ} {e : Event StoreSig} {fs fs' : FS}
    (h : StoreStep B root k v e fs fs') {chunkId : ChunkId}
    (he : linksTo (pathFor root chunkId) e = true) : ShowsFileOf root chunkId k fs' := by
  cases h with
  | looks hsilent => simp [linksTo_of_silent hsilent] at he
  | creates hsilent _ _ => simp [linksTo_of_silent hsilent] at he
  | modifies hsilent _ _ _ _ => simp [linksTo_of_silent hsilent] at he
  | publishes hsilent => simp [linksTo_of_silent hsilent] at he
  | drops _ _ _ _ => simp [linksTo] at he
  | deletes _ _ => simp [linksTo] at he
  | @commits _ request _ _ i n _ _ _ _ _ hn howner _ _ _ _ _ =>
      have hpath : pathFor root request.chunkId = pathFor root chunkId := by simpa [linksTo] using he
      exact ⟨i, n.link, by simp [hpath], by simp [hn], howner⟩

/-- **A step of any call keeps the invariant.** -/
theorem StoreInv.update {s : StoreSystem σ τ} (h : StoreInv B root T s) {j : ℕ}
    {p : StoreProcess σ τ} (hp : s.procs[j]? = some p) (hT : T j p.job) {w' : StoreWorld σ τ}
    (hG : Guarantee B root j p.job (p.world s.fs) w') (prog : Program StoreSig Answer) :
    StoreInv B root T (s.update j p prog w') := by
  have hlen : (s.update j p prog w').procs.length = s.procs.length := by simp [System.update]
  have hj := (List.getElem?_eq_some_iff.1 hp).1
  rcases hG with ⟨htrace, hfs⟩ | ⟨e, htrace, hstep⟩
  · -- an interrupted call changes nothing
    have htrace' : w'.trace = p.trace := htrace
    have hfs' : w'.fs = s.fs := hfs
    have hnext : (p.next prog w').trace = p.trace := htrace'
    have hjob : (p.next prog w').job = p.job := rfl
    refine ⟨?_, ?_, fun chunkId => ?_, fun {chunkId i q} hq hcom hun => ?_⟩
    · show Tidy B root T w'.fs
      rw [hfs']
      exact h.tidy
    · intro i n hn
      rw [hlen]
      exact h.owners i n (by rw [← hfs']; exact hn)
    · have hbal := h.balance chunkId
      have hc := System.total_update
        (fun q => q.trace.countP (linksTo (pathFor root chunkId))) hp prog w'
      have hd := System.total_update
        (fun q => q.trace.countP (deletedBy q.job (pathFor root chunkId))) hp prog w'
      rw [hnext] at hc
      rw [hnext, hjob] at hd
      simp only [commitCount, deleteCount, System.update_fs, hfs'] at hbal hc hd ⊢
      omega
    · show ShowsFileOf root chunkId i w'.fs
      rw [hfs']
      rcases System.update_procs hq with ⟨rfl, rfl⟩ | ⟨-, hq⟩
      · exact h.winner hp (by obtain ⟨e, he, hl⟩ := hcom; exact ⟨e, by rwa [hnext] at he, hl⟩) hun
      · exact h.winner hq hcom hun
  · have htrace' : w'.trace = e :: p.trace := htrace
    have hstep' : StoreStep B root j p.job e s.fs w'.fs := hstep
    have hnext : (p.next prog w').trace = e :: p.trace := htrace'
    have hjob : (p.next prog w').job = p.job := rfl
    refine ⟨hstep'.tidy hT h.tidy, ?_, fun chunkId => ?_, fun {chunkId i q} hq hcom hun => ?_⟩
    · intro i n' hn'
      rw [hlen]
      rcases hstep'.owner hn' with ⟨n, hn, howner⟩ | howner
      · rw [howner]
        exact h.owners i n hn
      · rw [howner]
        exact hj
    · have hbal := h.balance chunkId
      have hstepbal := hstep'.balance chunkId
      have hc := System.total_update
        (fun q => q.trace.countP (linksTo (pathFor root chunkId))) hp prog w'
      have hd := System.total_update
        (fun q => q.trace.countP (deletedBy q.job (pathFor root chunkId))) hp prog w'
      rw [hnext, List.countP_cons] at hc
      rw [hnext, hjob, List.countP_cons] at hd
      simp only [commitCount, deleteCount, System.update_fs] at hbal hc hd ⊢
      omega
    · show ShowsFileOf root chunkId i w'.fs
      rcases System.update_procs hq with ⟨rfl, rfl⟩ | ⟨-, hq⟩
      · obtain ⟨e', he', hl⟩ := hcom
        rw [hnext] at he'
        rcases List.mem_cons.1 he' with rfl | hold
        · exact hstep'.commit_shows hl
        · exact hstep'.showsFileOf hT hun (h.winner hp ⟨e', hold, hl⟩ hun)
      · exact hstep'.showsFileOf hT hun (h.winner hq hcom hun)

/-! ## The calls together -/

/-- What holds of a call that has returned. -/
def Ends (B : Blake3) (root : Bytes)
    (ok : ℕ → Invocation σ τ → (op : StoreSig.Op) → StoreWorld σ τ → Outcome → Prop)
    (T : ℕ → Invocation σ τ → Prop) (O : ℕ → FS → Prop) (j : ℕ) (v : Invocation σ τ) (a : Answer)
    (w : StoreWorld σ τ) : Prop :=
  match v.call with
  | .put request pid address =>
      ∃ status, a = .status status ∧ PutEnd B root T j v request pid address status w
  | .get request => ∃ status, a = .status status ∧
      (((validateId request.chunkId).ok ≠ true ∧ status.code = .kInvalidArgument) ∨
        ∃ w₀, w₀.trace = w.trace ∧ GetDone (ok j v) v.output root request
          (Watching B root T (O j) []) (WatchingFile B root T (O j) [])
          (WatchingFile B root T (O j)) status w₀)
  | _ => True

theorem head_of_invalid {chunkId : ChunkId} (h : (validateId chunkId).ok ≠ true) :
    head root chunkId = .ret (.ofStatus (validateId chunkId)) := by
  have hno : (validateId chunkId).ok = false := by simpa using h
  simp [head, hno]

theorem head_not_returned {chunkId : ChunkId} (h : (validateId chunkId).ok = true) :
    ¬ (head root chunkId).Returned := by
  simp only [head, h, Bool.not_true, Bool.false_eq_true, if_false]
  exact fun hret => hret

section Together

variable {ok : ℕ → Invocation σ τ → (op : StoreSig.Op) → StoreWorld σ τ → Outcome → Prop}
  {O : ℕ → FS → Prop} {j : ℕ} {v : Invocation σ τ} {w : StoreWorld σ τ}

/-- `Head` keeps its guarantee, whatever it answers. -/
theorem head_quiet {chunkId : ChunkId} (htidy : Tidy B root T w.fs)
    (hunder : ¬ (head root chunkId).Returned → O j w.fs) (hhanded : handed w.trace = []) :
    (head root chunkId).Safe ((v.handler j).sem (ok j v))
      (Interferes (Interference B root T j) (O j)) (Guarantee B root j v) (fun _ _ => True) w := by
  by_cases hid : (validateId chunkId).ok = true
  · have hO := hunder (head_not_returned hid)
    exact (head_shared chunkId ⟨htidy, hO, hhanded⟩).imp fun _ _ _ => trivial
  · rw [head_of_invalid hid]
    exact trivial

/-- **Every call plays by the rules**, from any moment at which the invariant holds. -/
theorem call_safe (htidy : Tidy B root T w.fs) (hunborn : Unborn j w.fs)
    (hsource : w.rest.1 = v.source) (hhanded : handed w.trace = [])
    (hunder : ¬ (v.call.program B root).Returned → O j w.fs) :
    (v.call.program B root).Safe ((v.handler j).sem (ok j v))
      (Interferes (Interference B root T j) (O j)) (Guarantee B root j v)
      (Ends B root ok T O j v) w := by
  cases hcall : v.call with
  | put request pid address =>
      refine safe_bind.2 ((put_safe hcall htidy hunborn hsource).imp fun status w' hend => ?_)
      simp only [pure_eq_ret, safe_ret, Ends, hcall]
      exact ⟨status, rfl, hend⟩
  | get request =>
      rw [hcall] at hunder
      by_cases hid : (validateId request.chunkId).ok = true
      · have hO := hunder fun hret => head_not_returned hid hret.of_bind.of_bind
        refine safe_bind.2 ((get_shared request ⟨htidy, hO, hhanded⟩).imp fun status w' hdone => ?_)
        simp only [pure_eq_ret, safe_ret, Ends, hcall]
        exact ⟨status, rfl, Or.inr ⟨w', rfl, hdone⟩⟩
      · have hno : (validateId request.chunkId).ok = false := by simpa using hid
        simp only [Call.program, get, head_of_invalid hid, ret_bind, StatusOr.ofStatus,
          StatusOr.normalizeError_of_not_ok hno, pure_eq_ret, safe_ret, Ends, hcall]
        exact ⟨_, rfl, Or.inl ⟨hid, validateId_code hid⟩⟩
  | head chunkId =>
      rw [hcall] at hunder
      refine safe_bind.2 ((head_quiet htidy (fun hno => hunder fun h => hno h.of_bind) hhanded).imp
        fun r w' _ => ?_)
      simp only [pure_eq_ret, safe_ret, Ends, hcall]
  | size chunkId =>
      rw [hcall] at hunder
      refine safe_bind.2 (safe_bind.2 ((head_quiet htidy
        (fun hno => hunder fun h => hno h.of_bind.of_bind) hhanded).imp fun r w' _ => ?_))
      cases r with
      | ok response => simp only [pure_eq_ret, safe_ret, Ends, hcall]
      | error s => simp only [pure_eq_ret, safe_ret, Ends, hcall]
  | «exists» chunkId =>
      rw [hcall] at hunder
      refine safe_bind.2 (safe_bind.2 ((head_quiet htidy
        (fun hno => hunder fun h => hno h.of_bind.of_bind) hhanded).imp fun r w' _ => ?_))
      simp only [pure_eq_ret, safe_ret, Ends, hcall]
  | delete chunkId =>
      refine safe_bind.2 ((delete_shared hcall).imp fun status w' _ => ?_)
      simp only [pure_eq_ret, safe_ret, Ends, hcall]

/-- The calls of a store keep the obligations of a `Protocol`. -/
theorem storeProtocol (B : Blake3) (root : Bytes)
    (ok : ℕ → Invocation σ τ → (op : StoreSig.Op) → StoreWorld σ τ → Outcome → Prop)
    (T : ℕ → Invocation σ τ → Prop) (O : ℕ → FS → Prop) :
    Protocol (storeJob B root) ok T (StoreInv B root T) (Interference B root T) O
      (Guarantee B root) (Ends B root ok T O) where
  refl j fs := .refl
  trans h₁ h₂ := h₁.trans h₂
  others {i j v w w'} hT hG hij := by
    rcases hG with ⟨-, hfs⟩ | ⟨e, -, hstep⟩
    · rw [hfs]
      exact .refl
    · exact .single ⟨i, v, e, hij, hT, hstep⟩
  post {j v a w fs'} hQ hI := by
    unfold Ends at hQ ⊢
    cases hcall : v.call with
    | put request pid address =>
        simp only [hcall] at hQ ⊢
        obtain ⟨status, ha, hend⟩ := hQ
        exact ⟨status, ha, hend.interference hI⟩
    | get request =>
        simp only [hcall] at hQ ⊢
        exact hQ
    | head _ | size _ | «exists» _ | delete _ => trivial
  start v _ hinv := hinv.spawn v
  step prog hinv hp hT hG := hinv.update hp hT hG prog
  safe {s} v hT hinv hunder := by
    refine call_safe hinv.tidy (fun i n hn => ?_) rfl rfl hunder
    have := hinv.owners i n hn
    omega

end Together

/-! ## Runs -/

section Runs

variable (B root)
variable (ok : ℕ → Invocation σ τ → (op : StoreSig.Op) → StoreWorld σ τ → Outcome → Prop)
  (nameMax : ℕ) (choices : List (Choice (Invocation σ τ)))

/-- The calls of the run. -/
abbrev CallsOf : ℕ → Invocation σ τ → Prop := (storeAfter B root nameMax choices).Started

/-- The file systems at the moments at which call `j` of the run is under way. -/
abbrev During : ℕ → FS → Prop :=
  System.Underway (storeJob B root) ⟨FS.empty nameMax, []⟩ choices

/-- What holds at each moment of the run. -/
abbrev StoreHolds (s : StoreSystem σ τ) : Prop :=
  Protocol.Holds (storeJob B root) ok (CallsOf B root nameMax choices)
    (StoreInv B root (CallsOf B root nameMax choices))
    (Interference B root (CallsOf B root nameMax choices)) (During B root nameMax choices)
    (Guarantee B root) (Ends B root ok (CallsOf B root nameMax choices) (During B root nameMax choices))
    s

/-- The outcomes of the run are those `ok` admits. -/
abbrev StoreAdmits : Prop :=
  System.Admits (storeJob B root) ok ⟨FS.empty nameMax, []⟩ choices

/-- **The invariant holds at every moment of every run.** -/
theorem store_holds (hok : StoreAdmits B root ok nameMax choices) (n : ℕ) :
    StoreHolds B root ok nameMax choices (storeMoment B root nameMax choices n) :=
  (storeProtocol B root ok _ _).sound (StoreInv.empty nameMax) (.of_admits hok) n

theorem store_holds_after (hok : StoreAdmits B root ok nameMax choices) :
    StoreHolds B root ok nameMax choices (storeAfter B root nameMax choices) := by
  have hlast := store_holds B root ok nameMax choices hok choices.length
  rwa [storeMoment, System.moment_length] at hlast

/-- Every step of a run is a step of some call, or does nothing to the files. -/
theorem store_moves (hok : StoreAdmits B root ok nameMax choices) (n : ℕ) :
    Protocol.Moves (CallsOf B root nameMax choices) (Guarantee B root)
      (storeMoment B root nameMax choices n) (storeMoment B root nameMax choices (n + 1)).fs :=
  (storeProtocol B root ok _ (During B root nameMax choices)).moves (StoreInv.empty nameMax)
    (.of_admits hok) n

end Runs

section Returned

variable {ok : ℕ → Invocation σ τ → (op : StoreSig.Op) → StoreWorld σ τ → Outcome → Prop}
  {nameMax : ℕ} {choices : List (Choice (Invocation σ τ))} {s : StoreSystem σ τ} {j : ℕ}
  {c : StoreProcess σ τ}

/-- What holds of a `Put` that has returned. -/
theorem StoreHolds.put_end (h : StoreHolds B root ok nameMax choices s) (hc : s.procs[j]? = some c)
    {request : PutChunkRequest} {pid address : ℕ} (hcall : c.job.call = .put request pid address)
    {status : Status} (hret : c.prog = .ret (.status status)) :
    PutEnd B root (CallsOf B root nameMax choices) j c.job request pid address status
      (c.world s.fs) := by
  have hfine := h.fine hc
  unfold Protocol.Fine at hfine
  rw [hret, safe_ret, Ends, hcall] at hfine
  obtain ⟨status', hstatus, hend⟩ := hfine
  rwa [Answer.status.inj hstatus]

/-- What holds of a `Get` that has returned. -/
theorem StoreHolds.get_end (h : StoreHolds B root ok nameMax choices s) (hc : s.procs[j]? = some c)
    {request : GetChunkRequest} (hcall : c.job.call = .get request) {status : Status}
    (hret : c.prog = .ret (.status status)) :
    ((validateId request.chunkId).ok ≠ true ∧ status.code = .kInvalidArgument) ∨
      ∃ w₀ : StoreWorld σ τ, w₀.trace = c.trace ∧ GetDone (ok j c.job) c.job.output root request
        (Watching B root (CallsOf B root nameMax choices) (During B root nameMax choices j) [])
        (WatchingFile B root (CallsOf B root nameMax choices) (During B root nameMax choices j) [])
        (WatchingFile B root (CallsOf B root nameMax choices) (During B root nameMax choices j))
        status w₀ := by
  have hfine := h.fine hc
  unfold Protocol.Fine at hfine
  rw [hret, safe_ret, Ends, hcall] at hfine
  obtain ⟨status', hstatus, hend⟩ := hfine
  rwa [Answer.status.inj hstatus]

end Returned

/-- A process has one job. -/
theorem callsOf_unique {nameMax : ℕ} {choices : List (Choice (Invocation σ τ))} {j : ℕ}
    {u v : Invocation σ τ} (hu : CallsOf B root nameMax choices j u)
    (hv : CallsOf B root nameMax choices j v) : u = v := by
  obtain ⟨p, hp, rfl⟩ := hu
  obtain ⟨q, hq, rfl⟩ := hv
  rw [Option.some.inj (hp.symm.trans hq)]

end ChunkStorage
