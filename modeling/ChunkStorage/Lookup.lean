import ChunkStorage.Names
import ChunkStorage.Reading

set_option autoImplicit false

/-! # `Head` and `Get`

Both open the chunk's path and read the file behind it, `Get` on two separate descriptors. The
specifications name the states in which the opens happened: `Seen` says that the path showed a
file in some state that met the assertion of that moment. Alone this state is the only one there
is; among other calls it is one during the call. -/

namespace ChunkStorage

open Effects Posix Program

variable {σ τ : Type} {input : ChunkInputStream σ} {output : ChunkOutputStream τ} {me : ℕ}
  {ok : (op : StoreSig.Op) → StoreWorld σ τ → Outcome → Prop}
  {R G : StoreWorld σ τ → StoreWorld σ τ → Prop} {root : Bytes}

/-- Opening `path` leads from `P` to `P' fd file`, where `file` is what the path shows. -/
structure Opening (R G : StoreWorld σ τ → StoreWorld σ τ → Prop) (path : Path)
    (P : StoreWorld σ τ → Prop) (P' : ℕ → Bytes → StoreWorld σ τ → Prop) : Prop where
  env : ∀ {w w'}, P w → R w w' → P w'
  failed : ∀ {w} (e : Errno), P w →
    P (w.answered (.openRead path) (.error e) w.fds w.fs) ∧
      G w (w.answered (.openRead path) (.error e) w.fds w.fs)
  opened : ∀ {w i n}, P w → w.fs.dir path = some i → w.fs.inodes[i]? = some n →
    ∀ w', w' = w.answered (.openRead path) (.ok w.fds.length) (w.fds ++ [⟨i, 0⟩]) w.fs →
      P' w.fds.length n.data w' ∧ G w w'
  quiet : ∀ fd file, World.Quiet R G (P' fd file)
  reads : ∀ fd file, Reads (P' fd file) fd file

/-- In some state that met `P` the path showed the file, and was opened there. -/
def Seen (ok : (op : StoreSig.Op) → StoreWorld σ τ → Outcome → Prop) (path : Path)
    (P : StoreWorld σ τ → Prop) (file : Bytes) : Prop :=
  ∃ w o, P w ∧ ok (.inl (.openRead path)) w o ∧ w.fs.contents path = some file

/-- The answer to an `open` that failed: the path was absent in a state that met `P`, or a call
    failed. -/
def OpenFails (ok : (op : StoreSig.Op) → StoreWorld σ τ → Outcome → Prop) (path : Path)
    (P : StoreWorld σ τ → Prop) (status : Status) : Prop :=
  ∃ w, P w ∧ ((status.code = .kNotFound ∧ w.fs.dir path = none) ∨
    (status.code = .kIoError ∧ ¬ (World.NeverFails ok ∧ w.fs.Fits path)))

/-- The two ways of opening a chunk end. -/
theorem open_cases {path : Path} {P : StoreWorld σ τ → Prop} {P' : ℕ → Bytes → StoreWorld σ τ → Prop}
    (h : Opening R G path P P') {w₁ w₂ : StoreWorld σ τ} {r : Except Errno ℕ} (hw : P w₁)
    (hH : (World.handler me (streams input output)).sem ok (.inl (.openRead path)) w₁ r w₂) :
    G w₁ w₂ ∧ ((∃ e, r = .error e ∧ P w₂ ∧ (e = .ENOENT → w₁.fs.dir path = none) ∧
        (e = .ENOENT ∨ ¬ (World.NeverFails ok ∧ w₁.fs.Fits path))) ∨
      ∃ fd file, r = .ok fd ∧ P' fd file w₂ ∧ Seen ok path P file) := by
  obtain ⟨o, fds', fs', hok, hexec, rfl⟩ := World.sem_sys hH
  obtain ⟨rfl, ⟨e, rfl, rfl, hmissing, hcalm⟩ | ⟨i, hi, rfl, rfl⟩⟩ := openRead_cases hexec
  · obtain ⟨hP, hG⟩ := h.failed e hw
    refine ⟨hG, Or.inl ⟨e, rfl, hP, hmissing, ?_⟩⟩
    by_cases he : e = .ENOENT
    · exact Or.inl he
    · exact Or.inr fun hn => he (hcalm (hn.1 _ _ _ hok).1 hn.2)
  · obtain ⟨n, hn⟩ := w₁.fs.dir_eq_some hi
    obtain ⟨hP, hG⟩ := h.opened hw hi hn _ rfl
    refine ⟨hG, Or.inr ⟨_, n.data, rfl, hP, w₁, o, hw, hok, ?_⟩⟩
    simp [FS.contents, hi, hn]

theorem openError_fails {chunkId : ChunkId} {P : StoreWorld σ τ → Prop} {w₁ : StoreWorld σ τ}
    {e : Errno} (hw : P w₁) (hmissing : e = .ENOENT → w₁.fs.dir (pathFor root chunkId) = none)
    (hfail : e = .ENOENT ∨ ¬ (World.NeverFails ok ∧ w₁.fs.Fits (pathFor root chunkId))) :
    OpenFails ok (pathFor root chunkId) P (openError root chunkId e) := by
  refine ⟨w₁, hw, ?_⟩
  unfold openError
  by_cases he : e = .ENOENT
  · rw [if_pos he]
    exact Or.inl ⟨rfl, hmissing he⟩
  · rw [if_neg he]
    exact Or.inr ⟨rfl, hfail.resolve_left he⟩

theorem openError_not_ok (chunkId : ChunkId) (e : Errno) :
    (openError root chunkId e).ok = false := by
  unfold openError
  split <;> rfl

/-! ## `Head` -/

/-- The errors of `Head` before it has a file: a bad id, or an `open` that failed. -/
def HeadFails (ok : (op : StoreSig.Op) → StoreWorld σ τ → Outcome → Prop) (root : Bytes)
    (chunkId : ChunkId) (P : StoreWorld σ τ → Prop) (status : Status) : Prop :=
  ((validateId chunkId).ok ≠ true ∧ status.code = .kInvalidArgument) ∨
    ((validateId chunkId).ok = true ∧ OpenFails ok (pathFor root chunkId) P status)

/-- How `Head` ends: without a file, or with what the header of one says. -/
inductive HeadDone (ok : (op : StoreSig.Op) → StoreWorld σ τ → Outcome → Prop) (root : Bytes)
    (chunkId : ChunkId) (P : StoreWorld σ τ → Prop) (P' : ℕ → Bytes → StoreWorld σ τ → Prop) :
    StatusOr HeadChunkResponse → StoreWorld σ τ → Prop
  | fails {s : ErrorStatus} {w' : StoreWorld σ τ} : P w' → HeadFails ok root chunkId P s.1 →
      HeadDone ok root chunkId P P' (.error s) w'
  | read {r : StatusOr HeadChunkResponse} {w' : StoreWorld σ τ} {fd : ℕ} {file : Bytes} :
      (validateId chunkId).ok = true → Seen ok (pathFor root chunkId) P file → P' fd file w' →
      HeaderAnswer ok chunkId file r → HeadDone ok root chunkId P P' r w'

theorem head_safe {chunkId : ChunkId} {P : StoreWorld σ τ → Prop}
    {P' : ℕ → Bytes → StoreWorld σ τ → Prop} (h : Opening R G (pathFor root chunkId) P P')
    {w : StoreWorld σ τ} (hw : P w) :
    (head root chunkId).Safe ((World.handler me (streams input output)).sem ok) R G
      (HeadDone ok root chunkId P P') w := by
  unfold head
  by_cases hid : (validateId chunkId).ok = true
  · simp only [hid, Bool.not_true, Bool.false_eq_true, if_false]
    refine safe_perform.2 fun w₁ hR r w₂ hH => ?_
    have hw₁ := h.env hw hR
    obtain ⟨hG, ⟨e, rfl, hP, hmissing, hfail⟩ | ⟨fd, file, rfl, hP, hseen⟩⟩ := open_cases h hw₁ hH
    · refine ⟨hG, .fails hP (Or.inr ⟨hid, ?_⟩)⟩
      rw [StatusOr.normalizeError_of_not_ok (openError_not_ok chunkId e)]
      exact openError_fails hw₁ hmissing hfail
    · refine ⟨hG, (readHeader_safe (h.quiet fd file) (h.reads fd file) chunkId hP).imp ?_⟩
      rintro r w' ⟨hP', hanswer⟩
      exact .read hid hseen hP' hanswer
  · have hno : (validateId chunkId).ok = false := by simpa using hid
    simp only [hno, Bool.not_false, if_true]
    refine .fails hw (Or.inl ⟨hid, ?_⟩)
    rw [StatusOr.normalizeError_of_not_ok hno]
    exact validateId_code hid

/-! ## `Get` -/

/-- The range lies inside a payload. -/
def ByteRange.Within (range : ByteRange) (p : Bytes) : Prop :=
  range.offset.toNat + range.size.toNat ≤ p.length

/-- How `Get` ends. -/
inductive GetDone (ok : (op : StoreSig.Op) → StoreWorld σ τ → Outcome → Prop)
    (output : ChunkOutputStream τ) (root : Bytes) (request : GetChunkRequest)
    (P : StoreWorld σ τ → Prop) (P' : ℕ → Bytes → StoreWorld σ τ → Prop)
    (P₂ : Bytes → ℕ → Bytes → StoreWorld σ τ → Prop) : Status → StoreWorld σ τ → Prop
  /-- `Head` found no file. -/
  | head {status : Status} {w' : StoreWorld σ τ} : P w' → status.ok = false →
      HeadFails ok root request.chunkId P status →
      GetDone ok output root request P P' P₂ status w'
  /-- `Head` found a file but no size. -/
  | header {s : ErrorStatus} {w' : StoreWorld σ τ} {fd : ℕ} {file : Bytes} : P' fd file w' →
      Seen ok (pathFor root request.chunkId) P file →
      HeaderAnswer ok request.chunkId file (.error s) →
      GetDone ok output root request P P' P₂ s.1 w'
  /-- The range exceeds the chunk `Head` found. -/
  | range {status : Status} {w' : StoreWorld σ τ} {fd : ℕ} {file : Bytes} {c : Checksum}
      {p : Bytes} : P' fd file w' → Seen ok (pathFor root request.chunkId) P file →
      ChunkFile c p file → ¬ request.range.Within p → status.code = .kInvalidArgument →
      GetDone ok output root request P P' P₂ status w'
  /-- The second `open` failed. -/
  | reopen {status : Status} {w' : StoreWorld σ τ} {fd : ℕ} {file : Bytes} {c : Checksum}
      {p : Bytes} : P' fd file w' → Seen ok (pathFor root request.chunkId) P file →
      ChunkFile c p file → request.range.Within p → status.ok = false →
      OpenFails ok (pathFor root request.chunkId) (P' fd file) status →
      GetDone ok output root request P P' P₂ status w'
  /-- The second `open` found `file'`, and `n` bytes of it were handed out. -/
  | streamed {status : Status} {w' : StoreWorld σ τ} {fd fd' n : ℕ} {file file' : Bytes}
      {c : Checksum} {p : Bytes} : Seen ok (pathFor root request.chunkId) P file →
      ChunkFile c p file → request.range.Within p →
      Seen ok (pathFor root request.chunkId) (P' fd file) file' → n ≤ request.range.size.toNat →
      P₂ ((file'.drop (request.range.offset.toNat + 80)).take n) fd' file' w' →
      n = 0 ∨ request.range.offset.toNat + 80 + n ≤ file'.length →
      LoopAnswer ok output file' request.range.size.toNat (request.range.offset.toNat + 80) n
        status w'.trace →
      GetDone ok output root request P P' P₂ status w'

theorem ChunkFile.within_iff {c : Checksum} {p file : Bytes} (h : ChunkFile c p file)
    (hlen : file.length ≤ offMax) (range : ByteRange) :
    (validateByteRange range (UInt64.ofNat p.length)).ok = true ↔ range.Within p := by
  have hp : (UInt64.ofNat p.length).toNat = p.length := by
    rw [UInt64.toNat_ofNat']
    have := h.length
    simp only [offMax] at hlen
    omega
  rw [validateByteRange_ok, hp, ByteRange.Within]

theorem get_safe {request : GetChunkRequest} {P : StoreWorld σ τ → Prop}
    {P' : ℕ → Bytes → StoreWorld σ τ → Prop} {P₂ : Bytes → ℕ → Bytes → StoreWorld σ τ → Prop}
    (h : Opening R G (pathFor root request.chunkId) P P')
    (h₂ : ∀ fd file, Opening R G (pathFor root request.chunkId) (P' fd file) (P₂ []))
    (hquiet : ∀ e fd file, World.Quiet R G (P₂ e fd file))
    (hreads : ∀ e fd file, Reads (P₂ e fd file) fd file)
    (hhands : ∀ fd file, Hands G fun e => P₂ e fd file)
    {w : StoreWorld σ τ} (hw : P w) :
    (get root request).Safe ((World.handler me (streams input output)).sem ok) R G
      (GetDone ok output root request P P' P₂) w := by
  unfold get
  refine safe_bind.2 ((head_safe h hw).imp ?_)
  rintro r w' (⟨hP, hfails⟩ | @⟨_, _, fd, file, hid, hseen, hP, hanswer⟩)
  · next s => exact .head hP s.2 hfails
  · have hlen : file.length ≤ offMax := by
      obtain ⟨f, i, -, -, rfl⟩ := h.reads fd file w' hP
      exact i.data_le
    cases r with
    | error s => exact .header hP hseen hanswer
    | ok response =>
        obtain ⟨c, p, hfile, hr⟩ : ∃ c p, ChunkFile c p file ∧
            response = ⟨request.chunkId, UInt64.ofNat p.length, c⟩ := by
          rcases hanswer with ⟨c, p, hfile, hr⟩ | ⟨-, s, hr, -⟩ | ⟨s, hr, -⟩
          · exact ⟨c, p, hfile, Except.ok.inj hr⟩
          · exact absurd hr (by simp)
          · exact absurd hr (by simp)
        subst hr
        by_cases hin : request.range.Within p
        · have hvalid := (hfile.within_iff hlen request.range).2 hin
          simp only [hvalid, Bool.not_true, Bool.false_eq_true, if_false]
          refine safe_perform.2 fun w₁ hR r w₂ hH => ?_
          have hw₁ := (h₂ fd file).env hP hR
          obtain ⟨hG, ⟨e, rfl, hP₁, hmissing, hfail⟩ | ⟨fd', file', rfl, hP₁, hseen'⟩⟩ :=
            open_cases (h₂ fd file) hw₁ hH
          · exact ⟨hG, .reopen hP₁ hseen hfile hin (openError_not_ok _ e)
              (openError_fails hw₁ hmissing hfail)⟩
          · have hflen := hfile.length
            have hbound : request.range.offset.toNat + request.range.size.toNat ≤ p.length := hin
            have hoff : (request.range.offset + UInt64.ofNat kHeaderSize).toNat
                = request.range.offset.toNat + 80 :=
              toNat_add_block (by rw [kHeaderSize_eq]; omega)
            refine ⟨hG, (getLoop_safe (hquiet · fd' file') (hreads · fd' file') (hhands fd' file')
              request.range.size.toNat le_rfl (by rw [hoff]; omega) hP₁).imp ?_⟩
            rintro status w'' ⟨n, hn, hP₂, hnfile, hloop⟩
            rw [hoff] at hP₂ hnfile hloop
            exact .streamed hseen hfile hin hseen' hn hP₂ hnfile hloop
        · have hno : (validateByteRange request.range (UInt64.ofNat p.length)).ok = false := by
            simpa using fun hv => hin ((hfile.within_iff hlen request.range).1 hv)
          simp only [hno, Bool.not_false, if_true]
          refine .range hP hseen hfile hin (validateByteRange_code ?_)
          have hp : (UInt64.ofNat p.length).toNat = p.length := by
            rw [UInt64.toNat_ofNat']
            have := hfile.length
            simp only [offMax] at hlen
            omega
          rw [hp]
          exact Nat.lt_of_not_le hin

end ChunkStorage
