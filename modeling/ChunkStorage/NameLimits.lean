import ChunkStorage.Calls

set_option autoImplicit false

/-! # Ids that are accepted and ids that can be used

`ValidateId` accepts ids of up to 1024 bytes. A chunk's name doubles the id and appends a suffix, and
the temporary name appends two numbers more, so a file system whose names end at 255 bytes takes a
shorter id. -/

namespace ChunkStorage

open Effects Posix Program

variable {σ τ : Type} {B : Blake3} {root : Bytes}

/-- On every run without a failure the call returns, with an answer that is `good`. -/
def Answers (B : Blake3) (root : Bytes) (fs : FS) (v : Invocation σ τ) (good : Answer → Prop) : Prop :=
  ∀ (me : ℕ) (ω : ℕ → Outcome),
    Config.Admits (v.handler me) World.NoFailure (v.call.program B root, v.start fs) ω →
    Config.Fair (v.handler me) (v.call.program B root, v.start fs) ω →
    ∃ a w', Config.Returns (v.handler me) (v.call.program B root, v.start fs) ω a w' ∧ good a

def Answer.NotFound : Answer → Prop
  | .status s => s.code = .kNotFound
  | .head (.error s) => s.1.code = .kNotFound
  | _ => False

/-- An absent chunk can be looked for, and put with any payload. -/
structure Usable (B : Blake3) (root : Bytes) (fs : FS) (chunkId : ChunkId) (pid address : ℕ) :
    Prop where
  head : ∀ {σ τ : Type} (v : Invocation σ τ), v.call = .head chunkId →
    Answers B root fs v Answer.NotFound
  get : ∀ {σ τ : Type} (v : Invocation σ τ) (range : ByteRange), v.call = .get ⟨chunkId, range⟩ →
    Answers B root fs v Answer.NotFound
  delete : ∀ {σ τ : Type} (v : Invocation σ τ), v.call = .delete chunkId →
    Answers B root fs v Answer.NotFound
  put : ∀ {σ τ : Type} (v : Invocation σ τ) (request : PutChunkRequest) (p : Bytes),
    v.call = .put request pid address → request.chunkId = chunkId →
    Accepts B v.input v.source request p → Answers B root fs v fun a => a = .status .Ok

/-- The longest name of a `Put`. -/
theorem length_tempPath (root : Bytes) (chunkId : ChunkId) (pid address : ℕ) :
    (tempPath root chunkId pid address).name.length
      = 2 * chunkId.value.length + 12 + (decimal pid).length + (decimal address).length := by
  simp only [tempPath, pathFor, List.length_append, length_hexEncode, dotChunk, dotTmp, dot,
    List.length_cons, List.length_nil]
  omega

/-! ## Names that fit -/

section Fits

variable {fs : FS} {chunkId : ChunkId}

/-- Without a failure, what a call always ends with is its answer. -/
theorem Answers.of_always {v : Invocation σ τ} {Q : Answer → StoreWorld σ τ → Prop}
    {good : Answer → Prop}
    (h : ∀ me, (v.call.program B root).Always ((v.handler me).sem World.NoFailure) (v.start fs) Q)
    (hQ : ∀ a w', Q a w' → good a) : Answers B root fs v good := by
  intro me ω hadmits hfair
  obtain ⟨a, w', hret, hq⟩ := (h me).returns hadmits hfair
  exact ⟨a, w', hret, hQ a w' hq⟩

/-- `Head` of an absent chunk whose name fits finds nothing. -/
theorem HeadFails.notFound {status : Status} (hid : (validateId chunkId).ok = true)
    (hfits : fs.Fits (pathFor root chunkId))
    (h : HeadFails (σ := σ) (τ := τ) World.NoFailure root chunkId (Looking fs []) status) :
    status.code = .kNotFound := by
  rcases h with ⟨hbad, -⟩ | ⟨-, w, hw, ⟨hcode, -⟩ | ⟨-, hfault⟩⟩
  · exact absurd hid hbad
  · exact hcode
  · rw [hw.1] at hfault
    exact absurd ⟨World.neverFails_noFailure, hfits⟩ hfault

/-- An absent chunk is not seen. -/
theorem not_seen {file : Bytes} {path : Path} (hnone : fs.dir path = none)
    (h : Seen (σ := σ) (τ := τ) World.NoFailure path (Looking fs []) file) : False := by
  obtain ⟨w, -, hw, -, hfile⟩ := h
  rw [hw.1, FS.contents_eq_none_iff.2 hnone] at hfile
  exact absurd hfile (by simp)

theorem usable_of_fits {pid address : ℕ} (hid : (validateId chunkId).ok = true)
    (hnone : fs.dir (pathFor root chunkId) = none)
    (hfits : fs.Fits (tempPath root chunkId pid address))
    (htemp : fs.dir (tempPath root chunkId pid address) = none) :
    Usable B root fs chunkId pid address where
  head {σ τ} v hcall := by
    refine Answers.of_always (Q := fun a w => ∃ r, a = .head r ∧ HeadDone World.NoFailure root chunkId
      (Looking fs []) (LookingAt fs []) r w) (fun me => ?_) ?_
    · rw [hcall]
      exact safe_bind.2 ((head_always chunkId rfl).imp fun r w hd => ⟨r, rfl, hd⟩)
    · rintro _ w' ⟨r, rfl, ⟨-, hfails⟩ | ⟨-, hseen, -⟩⟩
      · exact hfails.notFound hid (fits_pathFor hfits)
      · exact (not_seen hnone hseen).elim
  get {σ τ} v range hcall := by
    refine Answers.of_always (Q := fun a w => ∃ s, a = .status s ∧ GetDone World.NoFailure v.output root
      ⟨chunkId, range⟩ (Looking fs []) (LookingAt fs []) (LookingAt fs) s w) (fun me => ?_) ?_
    · rw [hcall]
      exact safe_bind.2 ((get_always ⟨chunkId, range⟩ rfl).imp fun s w hd => ⟨s, rfl, hd⟩)
    · rintro _ w' ⟨s, rfl, ⟨-, -, hfails⟩ | ⟨-, hseen, -⟩ | ⟨-, hseen, -⟩ | ⟨-, hseen, -⟩ | ⟨hseen, -⟩⟩
      · exact hfails.notFound hid (fits_pathFor hfits)
      · exact (not_seen hnone hseen).elim
      · exact (not_seen hnone hseen).elim
      · exact (not_seen hnone hseen).elim
      · exact (not_seen hnone hseen).elim
  delete {σ τ} v hcall := by
    refine Answers.of_always (Q := fun a w => ∃ s, a = .status s ∧
      DeleteDone World.NoFailure root chunkId fs s w) (fun me => ?_) ?_
    · rw [hcall]
      exact safe_bind.2 ((delete_always chunkId rfl).imp fun s w hd => ⟨s, rfl, hd⟩)
    · rintro _ w' ⟨s, rfl, ⟨hbad, -⟩ | ⟨-, -, -, ⟨hcode, -⟩ | ⟨-, hfault⟩⟩ | ⟨-, hthere, -⟩⟩
      · exact absurd hid hbad
      · exact hcode
      · exact absurd ⟨World.neverFails_noFailure, fits_pathFor hfits⟩ hfault
      · exact absurd hnone hthere
  put {σ τ} v request p hcall hchunk haccepts := by
    subst hchunk
    have hvalid : request.Valid :=
      ⟨hid, haccepts.2.checksum_eq ▸ B.wellFormed_checksum p⟩
    refine Answers.of_always (Q := fun a w => ∃ s, a = .status s ∧ PutDone World.NoFailure B root
      v.input request (tempPath root request.chunkId pid address) (v.start fs) s w) (fun me => ?_) ?_
    · rw [hcall]
      exact safe_bind.2 ((put_always request pid address ⟨rfl, rfl, rfl, rfl⟩).imp
        fun s w hd => ⟨s, rfl, hd⟩)
    · rintro _ w' ⟨s, rfl, hd⟩
      cases hd with
      | invalid hbad _ => exact absurd hvalid hbad
      | refused _ _ _ hreason =>
          rcases hreason with ⟨-, htaken⟩ | ⟨-, hfault⟩
          · exact absurd htemp htaken
          · exact absurd ⟨World.neverFails_noFailure, hfits⟩ hfault
      | dropped _ _ _ _ _ _ hreason =>
          rcases hreason with hrejects | ⟨_, -, -, hthere⟩ | ⟨-, hfault⟩
          · exact absurd hrejects (not_rejects_of_accepts haccepts)
          · exact absurd hnone hthere
          · exact absurd World.neverFails_noFailure hfault
      | committed _ _ _ _ _ _ _ _ hend =>
          rcases hend with ⟨rfl, -⟩ | ⟨-, -, hfault⟩
          · rfl
          · exact absurd World.neverFails_noFailure hfault

end Fits

/-! ## Names that do not fit -/

/-- A `Put` of an empty payload. -/
def emptyUpload (B : Blake3) (chunkId : ChunkId) (pid address : ℕ) : Invocation Unit Unit :=
  ⟨.put ⟨chunkId, 0, B.checksum []⟩ pid address, fun s _ => (.ok [], s), fun t _ => (.Ok, t), (), ()⟩

/-- A `Put` that cannot create its temporary file fails at once. -/
theorem emptyUpload_fails {fs : FS} {chunkId : ChunkId} {pid address : ℕ} {e : Errno}
    (hid : (validateId chunkId).ok = true)
    (hopen : sysOpenExcl 0 (tempPath root chunkId pid address) [] fs = (.error e, [], fs)) :
    ¬ Answers B root fs (emptyUpload B chunkId pid address) fun a => a = .status .Ok := by
  have hsum := (validateChecksum_ok _).2 (B.wellFormed_checksum [])
  have hrun : Config.Admits ((emptyUpload B chunkId pid address).handler 0) World.NoFailure
      ((emptyUpload B chunkId pid address).call.program B root,
        (emptyUpload B chunkId pid address).start fs) (fun _ => .done) ∧
      ∃ w', Config.Returns ((emptyUpload B chunkId pid address).handler 0)
        ((emptyUpload B chunkId pid address).call.program B root,
          (emptyUpload B chunkId pid address).start fs) (fun _ => .done)
        (.status (if e = .EEXIST then .of .kUnavailable (ascii "temporary file collision")
          else ioError "create" (pathString (tempPath root chunkId pid address)) e)) w' := by
    unfold emptyUpload Call.program put
    simp only [hid, hsum, Bool.not_true, Bool.false_eq_true, if_false]
    exact ⟨Config.admits_call ⟨trivial, trivial⟩ rfl
        (Config.admits_call ⟨trivial, trivial⟩ (World.handler_sys hopen) Config.admits_ret),
      _, Config.returns_call rfl (Config.returns_call (World.handler_sys hopen) ⟨0, rfl⟩)⟩
  obtain ⟨hadmits, w', hret⟩ := hrun
  intro hanswers
  obtain ⟨a, w'', hret', rfl⟩ := hanswers 0 _ hadmits hret.fair
  have hok := congrArg Status.ok (Answer.status.inj (hret.unique hret').1)
  split at hok
  · exact absurd hok (by simp)
  · exact absurd hok (by simp [ioError])

/-- **An accepted id can be used exactly if its names fit**: on a file system whose names have at
    most 255 bytes and that does not fail otherwise, for every id that `ValidateId` accepts and that
    is not stored, `Head`, `Get` and `Delete` answer `kNotFound` and every `Put` of a matching stream
    succeeds, if and only if the temporary name of that `Put` has at most 255 bytes and is not taken. -/
theorem chunkId_usable_iff (B : Blake3) (root : Bytes) (fs : FS) (chunkId : ChunkId) (pid address : ℕ)
    (hmax : fs.nameMax = 255) (hid : (validateId chunkId).ok = true)
    (hnone : fs.dir (pathFor root chunkId) = none) :
    Usable B root fs chunkId pid address ↔
      2 * chunkId.value.length + 12 + (decimal pid).length + (decimal address).length ≤ 255 ∧
        fs.dir (tempPath root chunkId pid address) = none := by
  have hfits : fs.Fits (tempPath root chunkId pid address) ↔
      2 * chunkId.value.length + 12 + (decimal pid).length + (decimal address).length ≤ 255 := by
    rw [FS.Fits, length_tempPath, hmax]
  rw [← hfits]
  constructor
  · intro husable
    have hput := husable.put (emptyUpload B chunkId pid address) _ [] rfl rfl ⟨.ended rfl, rfl, rfl⟩
    by_contra hno
    by_cases hfit : fs.Fits (tempPath root chunkId pid address)
    · obtain ⟨i, hi⟩ := Option.ne_none_iff_exists'.1 fun h => hno ⟨hfit, h⟩
      exact emptyUpload_fails (e := .EEXIST) hid (by simp [sysOpenExcl, hfit, hi]) hput
    · exact emptyUpload_fails (e := .ENAMETOOLONG) hid (by simp [sysOpenExcl, hfit]) hput
  · rintro ⟨hfit, htemp⟩
    exact usable_of_fits hid hnone hfit htemp

/-- A short id on an empty root can be used. -/
theorem chunkId_usable_short :
    Usable Blake3.sample [0x72] (FS.empty 255) ⟨[0x61]⟩ 1 2 :=
  (chunkId_usable_iff Blake3.sample [0x72] (FS.empty 255) ⟨[0x61]⟩ 1 2 rfl (by decide) rfl).2
    ⟨by decide, rfl⟩

/-- A `Delete` of an id of 125 bytes. -/
def longDelete : Invocation Unit Unit :=
  ⟨.delete ⟨List.replicate 125 0x61⟩, fun s _ => (.ok [], s), fun t _ => (.Ok, t), (), ()⟩

/-- Its run on an empty root `"r"`. -/
def longDeleteRun : Config StoreSig Answer (StoreWorld Unit Unit) :=
  Config.exec (longDelete.handler 0)
    (longDelete.call.program Blake3.sample [0x72], longDelete.start (FS.empty 255)) (fun _ => .done) 1

/-- The name of a chunk whose id has 125 bytes has 256, so a `Delete` of this accepted id fails in
    place of finding nothing. -/
theorem chunkId_unusable_long :
    ¬ ∀ (B : Blake3) (root : Bytes) (fs : FS) (chunkId : ChunkId) (pid address : ℕ),
      fs.nameMax = 255 → (validateId chunkId).ok = true → fs.dir (pathFor root chunkId) = none →
      Usable B root fs chunkId pid address := by
  intro hclaim
  have hdelete := (hclaim Blake3.sample [0x72] (FS.empty 255) ⟨List.replicate 125 0x61⟩ 1 2 rfl
    (by decide +kernel) rfl).delete longDelete rfl
  obtain ⟨hadmits, hfair⟩ := Config.ends_spec (fun op w o => decide (World.NoFailure op w o))
    of_decide_eq_true (show Config.ends (longDelete.handler 0) _ 1
      (longDelete.call.program Blake3.sample [0x72], longDelete.start (FS.empty 255))
      (fun _ => .done) = true by decide +kernel)
  obtain ⟨status, hprog, hcode⟩ := returnedCode_eq_some
    (show returnedCode longDeleteRun.1 = some .kIoError by decide +kernel)
  have hfails : Config.Returns (longDelete.handler 0)
      (longDelete.call.program Blake3.sample [0x72], longDelete.start (FS.empty 255))
      (fun _ => .done) (.status status) longDeleteRun.2 := by
    refine ⟨1, ?_⟩
    change longDeleteRun = _
    generalize longDeleteRun = c at hprog
    exact Prod.ext hprog rfl
  obtain ⟨a, w', hret, hgood⟩ := hdelete 0 _ hadmits hfair
  obtain ⟨rfl, -⟩ := hret.unique hfails
  have hnotFound : status.code = .kNotFound := hgood
  rw [hcode] at hnotFound
  exact absurd hnotFound (by simp)

end ChunkStorage
