import ChunkStorage.Lib.Similar
import ChunkStorage.Calls

set_option autoImplicit false

/-! # What a failed `Put` leaves to be seen

A `Put` that reports an error should have no effect a reader or a later call can notice. Two of its
exits miss this: an error after the commit `link` leaves the chunk visible, and a cleanup that
fails leaves the temporary name, which a later `Put` with the same name runs into. Everything else
is invisible: `SameAnswers` is proved by running the later call on both file systems side by side. -/

namespace ChunkStorage

open Effects Posix Program

variable {σ τ : Type} {B : Blake3} {root : Bytes}

/-- The set of chunk files and their bytes are the same. -/
def ChunksUnchanged (root : Bytes) (fs fs' : FS) : Prop :=
  ∀ path, IsChunkPath root path → fs'.contents path = fs.contents path

/-- Every later call, with any streams and any outcomes of its system calls, returns the same answer
    and hands out the same bytes. -/
def SameAnswers (B : Blake3) (root : Bytes) (fs fs' : FS) : Prop :=
  ∀ (σ τ : Type) (v : Invocation σ τ) (me : ℕ) (ω : ℕ → Outcome) (a : Answer) (bytes : Bytes),
    (∃ w, Config.Returns (v.handler me) (v.call.program B root, v.start fs') ω a w ∧
        handed w.trace = bytes) ↔
      ∃ w, Config.Returns (v.handler me) (v.call.program B root, v.start fs) ω a w ∧
        handed w.trace = bytes

/-- The answers of a call do not depend on the numbers of files. -/
theorem sameAnswers_of_similar {ρ : ℕ → ℕ → Prop} {fs fs' : FS} (h : Similar ρ fs fs') :
    SameAnswers B root fs fs' := by
  intro σ τ v me ω a bytes
  have hsame : SameWorld (v.start fs) (v.start fs') := ⟨ρ, h, .nil, rfl, rfl⟩
  have hreturns := returns_similar hsame me (streams v.input v.output) (v.call.program B root) ω a
  constructor
  · rintro ⟨w', hret, hbytes⟩
    obtain ⟨w, hret', htrace⟩ := (hreturns w'.trace).1 ⟨w', hret, rfl⟩
    exact ⟨w, hret', by rw [htrace, hbytes]⟩
  · rintro ⟨w, hret, hbytes⟩
    obtain ⟨w', hret', htrace⟩ := (hreturns w.trace).2 ⟨w, hret, rfl⟩
    exact ⟨w', hret', by rw [htrace, hbytes]⟩

/-- The same entries and the same files, with more files that nothing leads to. -/
theorem similar_of_dir_eq {fs fs' : FS} (hmax : fs'.nameMax = fs.nameMax)
    (hdir : ∀ q, fs'.dir q = fs.dir q)
    (hold : ∀ (i : ℕ) n, fs.inodes[i]? = some n → fs'.inodes[i]? = some n) :
    Similar (fun i j => i = j ∧ i < fs.inodes.length) fs fs' where
  right h h' := h.1.symm.trans h'.1
  left h h' := h.1.trans h'.1.symm
  nameMax := hmax
  dir p := by
    cases hp : fs.dir p with
    | none => exact Or.inl ⟨rfl, (hdir p).trans hp⟩
    | some i => exact Or.inr ⟨i, i, rfl, (hdir p).trans hp, rfl, fs.dir_lt hp⟩
  data := by
    rintro i j ⟨rfl, hi⟩
    have hn := List.getElem?_eq_getElem hi
    exact ⟨_, _, hn, hold i _ hn, rfl⟩

/-- A `Put` that dropped its file and cleaned up leaves every entry as it was. -/
theorem Left.dir_eq {fs fs' : FS} {temp finalPath : Path} (hnone : fs.dir temp = none)
    (hl : Left fs temp finalPath false none fs') (q : Path) : fs'.dir q = fs.dir q := by
  by_cases ht : temp = q
  · rw [← ht, hl.temp_eq, hnone]
    rfl
  · by_cases hf : finalPath = q
    · rw [← hf, hl.final_eq]
      rfl
    · exact hl.others q ht hf

/-- The call of a store answers with what `Put` returns. -/
theorem put_call_always {H : Sem StoreSig (StoreWorld σ τ)} {request : PutChunkRequest}
    {pid address : ℕ} {w : StoreWorld σ τ} {Q : Status → StoreWorld σ τ → Prop}
    (h : (put B root request pid address).Always H w Q) :
    ((Call.put request pid address).program B root).Always H w
      (fun a w' => ∃ status, a = .status status ∧ Q status w') :=
  safe_bind.2 (h.imp fun status _ hq => ⟨status, rfl, hq⟩)

/-- A `Put` whose temporary name is taken gives up at its second call. -/
theorem put_collides {fs : FS} {v : Invocation σ τ} {request : PutChunkRequest} {pid address : ℕ}
    (hcall : v.call = .put request pid address) (hvalid : request.Valid)
    (hfit : fs.Fits (tempPath root request.chunkId pid address))
    (htaken : fs.dir (tempPath root request.chunkId pid address) ≠ none) (me : ℕ) :
    ∃ w, Config.Returns (v.handler me) (v.call.program B root, v.start fs) (fun _ => .done)
      (.status (.of .kUnavailable (ascii "temporary file collision"))) w ∧ handed w.trace = [] := by
  obtain ⟨i, hi⟩ := Option.ne_none_iff_exists'.1 htaken
  have hsum := (validateChecksum_ok _).2 hvalid.2
  have hopen : sysOpenExcl me (tempPath root request.chunkId pid address) [] fs
      = (.error .EEXIST, [], fs) := by
    simp [sysOpenExcl, hfit, hi]
  rw [hcall]
  unfold Call.program put
  simp only [hvalid.1, hsum, Bool.not_true, Bool.false_eq_true, if_false]
  exact ⟨_, Config.returns_call rfl (Config.returns_call (World.handler_sys hopen) ⟨0, rfl⟩), rfl⟩

/-- A left-over temporary name shows: the same `Put` again, with a stream that times out, answers
    `kUnavailable` in place of the stream's error. -/
theorem not_sameAnswers_leftover {fs fs' : FS} {request : PutChunkRequest} {pid address : ℕ}
    (hvalid : request.Valid) (hmax : fs'.nameMax = fs.nameMax)
    (hfit : fs.Fits (tempPath root request.chunkId pid address))
    (hnone : fs.dir (tempPath root request.chunkId pid address) = none)
    (htaken : fs'.dir (tempPath root request.chunkId pid address) ≠ none) :
    ¬ SameAnswers B root fs fs' := by
  intro hsame
  let late : ErrorStatus := ⟨.of .kTimeout [], rfl⟩
  let v : Invocation Unit Unit :=
    ⟨.put request pid address, fun _ _ => (.error late, ()), fun _ _ => (.Ok, ()), (), ()⟩
  have hfit' : fs'.Fits (tempPath root request.chunkId pid address) := by
    rw [FS.Fits, hmax]
    exact hfit
  obtain ⟨w, hret, hbytes⟩ := put_collides (v := v) (B := B) rfl hvalid hfit' htaken 0
  obtain ⟨w', hret', -⟩ := (hsame Unit Unit v 0 _ _ _).1 ⟨w, hret, hbytes⟩
  -- on `fs` the name is free, so no way of ending gives that answer
  have halways : (v.call.program B root).Always ((v.handler 0).sem World.Any) (v.start fs)
      (fun a w' => ∃ status, a = .status status ∧ PutDone World.Any B root v.input request
        (tempPath root request.chunkId pid address) (v.start fs) status w') :=
    put_call_always (put_always request pid address ⟨rfl, rfl, rfl, rfl⟩)
  obtain ⟨status, hstatus, hd⟩ := halways.of_returns (fun _ _ _ _ _ => trivial) hret'
  obtain rfl := Answer.status.inj hstatus
  cases hd with
  | invalid _ hcode => exact absurd hcode (by simp)
  | refused _ _ _ hreason =>
      rcases hreason with ⟨-, hexists⟩ | ⟨hcode, -⟩
      · exact hexists hnone
      · exact absurd hcode (by simp)
  | dropped _ _ _ _ _ _ hreason =>
      rcases hreason with hrej | ⟨p, -, hcode, -⟩ | ⟨hcode, -⟩
      · have hdel : deliver v.input request.expectedSize.toNat () = .failed late.1 :=
          deliver_failed rfl
        have hown : Status.of .kUnavailable (ascii "temporary file collision") = late.1 := by
          simpa only [Rejects, Invocation.start, hdel] using hrej
        exact absurd (congrArg Status.code hown) (by simp [late])
      · exact absurd hcode (by simp)
      · exact absurd hcode (by simp)
  | committed _ _ _ _ _ _ _ _ hend =>
      rcases hend with ⟨hstatus, -⟩ | ⟨hcode, -, -⟩
      · exact absurd (congrArg Status.code hstatus) (by simp)
      · exact absurd hcode (by simp)

/-- What can be noticed of a `Put` that ended as `PutDone` says. -/
theorem PutDone.invisible_iff {input : ChunkInputStream σ} {request : PutChunkRequest}
    {pid address : ℕ} {w w' : StoreWorld σ τ} {status : Status} (hw : Preparing w.trace)
    (hd : PutDone World.Any B root input request (tempPath root request.chunkId pid address) w
      status w') :
    (status.ok = false → ChunksUnchanged root w.fs w'.fs ∧ SameAnswers B root w.fs w'.fs) ↔
      (w'.trace.any synced = true ∨
        (w'.trace.any linked = false ∧ w'.trace.any unlinkFailed = false)) := by
  have hrefl : ChunksUnchanged root w.fs w.fs ∧ SameAnswers B root w.fs w.fs :=
    ⟨fun _ _ => rfl, fun _ _ _ _ _ _ _ => Iff.rfl⟩
  cases hd with
  | invalid _ _ => exact ⟨fun _ => Or.inr ⟨hw.1, hw.2.1⟩, fun _ _ => hrefl⟩
  | refused _ hfs hm _ =>
      rw [hfs]
      exact ⟨fun _ => Or.inr ⟨hm.1, hm.2.1⟩, fun _ _ => hrefl⟩
  | @dropped _ leftover hvalid hnone hfit hl hm _ hreason =>
      have hno : status.ok = false := by
        rcases hreason with hrej | ⟨p, -, hcode, -⟩ | ⟨hcode, -⟩
        · exact hrej.not_ok
        · simp [Status.ok, hcode]
        · simp [Status.ok, hcode]
      rw [hm.1, hm.2.1, hm.2.2.1]
      cases leftover with
      | false =>
          have hdir := hl.dir_eq hnone
          refine ⟨fun _ => Or.inr ⟨rfl, rfl⟩, fun _ _ => ⟨fun path _ => ?_, ?_⟩⟩
          · exact FS.contents_congr (hdir path) hl.old
          · exact sameAnswers_of_similar (similar_of_dir_eq hl.nameMax hdir hl.old)
      | true =>
          have htaken := not_sameAnswers_leftover (B := B) hvalid hl.nameMax hfit hnone
            (by simp [hl.temp_eq])
          exact ⟨fun h => absurd (h hno).2 htaken, fun h => absurd h (by simp)⟩
  | @committed _ leftover sync p hvalid _ _ hfree hl hm _ _ hend =>
      rw [hm.1, hm.2.2.1]
      rcases hend with ⟨rfl, rfl⟩ | ⟨hcode, rfl, -⟩
      · exact ⟨fun _ => Or.inl rfl, fun _ hno => absurd hno (by simp)⟩
      · have hno : status.ok = false := by simp [Status.ok, hcode]
        refine ⟨fun h => ?_, fun h => absurd h (by simp)⟩
        -- the chunk was absent before and is there now
        have hsame := (h hno).1 _ (isChunkPath_pathFor request.chunkId)
        rw [FS.contents_eq_none_iff.2 hfree, FS.contents_eq_none_iff, hl.final_eq] at hsame
        exact absurd hsame (by simp)

/-- **A failed `Put` goes unnoticed exactly** when the root was synced (and `Put` succeeded), or the
    commit `link` did not succeed and the cleanup `unlink` did not fail. For every file system,
    request, stream and schedule of outcomes on which `Put` returns. -/
theorem failed_put_invisible_iff (B : Blake3) (root : Bytes) (fs : FS) (v : Invocation σ τ)
    (request : PutChunkRequest) (pid address me : ℕ) (ω : ℕ → Outcome) (status : Status)
    (w' : StoreWorld σ τ) (hcall : v.call = .put request pid address)
    (hret : Config.Returns (v.handler me) (v.call.program B root, v.start fs) ω (.status status)
      w') :
    (status.ok = false → ChunksUnchanged root fs w'.fs ∧ SameAnswers B root fs w'.fs) ↔
      (w'.trace.any synced = true ∨
        (w'.trace.any linked = false ∧ w'.trace.any unlinkFailed = false)) := by
  have halways : (v.call.program B root).Always ((v.handler me).sem World.Any) (v.start fs)
      (fun a w' => ∃ status, a = .status status ∧ PutDone World.Any B root v.input request
        (tempPath root request.chunkId pid address) (v.start fs) status w') := by
    rw [hcall]
    exact put_call_always (put_always request pid address ⟨rfl, rfl, rfl, rfl⟩)
  obtain ⟨status', hstatus, hd⟩ := halways.of_returns (fun _ _ _ _ _ => trivial) hret
  obtain rfl := Answer.status.inj hstatus
  exact hd.invisible_iff ⟨rfl, rfl, rfl, rfl⟩

/-- A `Put` whose stream times out. -/
def failingPut : Invocation Unit Unit :=
  ⟨.put (samplePut []) 1 2, fun s _ => (.error ⟨.of .kTimeout [], rfl⟩, s), fun t _ => (.Ok, t), (), ()⟩

/-- It returns after five calls. -/
theorem failingPut_returns :
    ∃ status w', Config.Returns (failingPut.handler 0)
        (failingPut.call.program Blake3.sample [0x72], failingPut.start (FS.empty 255))
        (fun _ => .done) (.status status) w' ∧ status.code = .kTimeout ∧
      w'.trace.any linked = false ∧ w'.trace.any unlinkFailed = false := by
  obtain ⟨status, hprog, hcode⟩ := returnedCode_eq_some
    (show returnedCode (Config.exec (failingPut.handler 0)
      (failingPut.call.program Blake3.sample [0x72], failingPut.start (FS.empty 255))
      (fun _ => .done) 5).1 = some .kTimeout by decide +kernel)
  exact ⟨status, _, ⟨5, Prod.ext hprog rfl⟩, hcode, by decide +kernel, by decide +kernel⟩

/-- The stream times out, the cleanup works, and nobody notices. -/
theorem failed_put_invisible_iff_timeout :
    ∃ status w', Config.Returns (failingPut.handler 0)
        (failingPut.call.program Blake3.sample [0x72], failingPut.start (FS.empty 255))
        (fun _ => .done) (.status status) w' ∧ status.ok = false ∧
      ChunksUnchanged [0x72] (FS.empty 255) w'.fs ∧
      SameAnswers Blake3.sample [0x72] (FS.empty 255) w'.fs := by
  obtain ⟨status, w', hret, hcode, hlinked, hunlink⟩ := failingPut_returns
  have hno : status.ok = false := by simp [Status.ok, hcode]
  exact ⟨status, w', hret, hno, (failed_put_invisible_iff Blake3.sample [0x72] (FS.empty 255) failingPut
    (samplePut []) 1 2 0 _ status w' rfl hret).2 (Or.inr ⟨hlinked, hunlink⟩) hno⟩

/-! ## A run that fails after the commit -/

/-- A `Put` of the empty chunk `"a"`. -/
def emptyPut : Invocation Unit Unit :=
  ⟨.put (samplePut []) 1 2, fun s _ => (.ok [], s), fun t _ => (.Ok, t), (), ()⟩

/-- The ninth call of `emptyPut`, the `fsync` of the root, fails with `EIO`. -/
def syncFails (n : ℕ) : Outcome := if n = 8 then .fails (.other 5) else .done

/-- The run of `emptyPut` on an empty root `"r"`. -/
def emptyPutRun : Config StoreSig Answer (StoreWorld Unit Unit) :=
  Config.exec (emptyPut.handler 0)
    (emptyPut.call.program Blake3.sample [0x72], emptyPut.start (FS.empty 255)) syncFails 9

/-- The `fsync` of the root fails, `Put` reports an I/O error, and the chunk is there. -/
theorem failed_put_visible :
    ¬ ∀ (B : Blake3) (root : Bytes) (fs : FS) (v : Invocation Unit Unit)
      (request : PutChunkRequest) (pid address me : ℕ) (ω : ℕ → Outcome) (status : Status)
      (w' : StoreWorld Unit Unit), v.call = .put request pid address →
      Config.Returns (v.handler me) (v.call.program B root, v.start fs) ω (.status status) w' →
      status.ok = false → ChunksUnchanged root fs w'.fs := by
  intro hclaim
  obtain ⟨status, hprog, hcode⟩ := returnedCode_eq_some
    (show returnedCode emptyPutRun.1 = some .kIoError by decide +kernel)
  have hret : Config.Returns (emptyPut.handler 0)
      (emptyPut.call.program Blake3.sample [0x72], emptyPut.start (FS.empty 255)) syncFails
      (.status status) emptyPutRun.2 := ⟨9, Prod.ext hprog rfl⟩
  have hsame := hclaim Blake3.sample [0x72] (FS.empty 255) emptyPut (samplePut []) 1 2 0 _ status _
    rfl hret (by simp [Status.ok, hcode]) (pathFor [0x72] ⟨[0x61]⟩) (isChunkPath_pathFor _)
  have hvisible : (emptyPutRun.2.fs.contents (pathFor [0x72] ⟨[0x61]⟩)).isSome = true := by
    decide +kernel
  rw [hsame] at hvisible
  exact absurd hvisible (by decide +kernel)

/-! ## What a `Put` touches

`Put` has more than ten exits and cleans up by hand on each of them. -/

/-- The `unlink` of a temporary file that is there succeeds. Everything else may fail. -/
def CleanupWorks (me : ℕ) (temp : Path) : (op : StoreSig.Op) → StoreWorld σ τ → Outcome → Prop
  | .inl (.unlink p), w, o =>
      p = temp → w.fs.dir p ≠ none → ((Syscall.unlink p).exec me w.fds w.fs o).1 = .ok ()
  | _, _, _ => True

section Cleanup

variable {input : ChunkInputStream σ} {output : ChunkOutputStream τ} {me : ℕ}

/-- The cleanup of a temporary file that is there. -/
theorem cleanup_works {temp : Path} {w w' : StoreWorld σ τ} {r : Except Errno Unit}
    (hH : (World.handler me (streams input output)).sem (CleanupWorks me temp) (.inl (.unlink temp))
      w r w') (htemp : w.fs.dir temp ≠ none) {l s : Bool} (hm : Marks w.trace l false s) :
    Marks w'.trace l false s := by
  obtain ⟨o, fds', fs', hok, hexec, rfl⟩ := World.sem_sys hH
  have hr := hok rfl htemp
  rw [hexec] at hr
  obtain rfl : r = .ok () := hr
  exact hm.cons rfl

/-- The commit never finds its temporary file missing, so the cleanup works. -/
theorem commit_unlinks {request : PutChunkRequest} {temp : Path} {w : StoreWorld σ τ}
    (htemp : w.fs.dir temp ≠ none) (hne : temp ≠ pathFor root request.chunkId)
    (hw : Preparing w.trace) :
    (commit root request temp).Always
      ((World.handler me (streams input output)).sem (CleanupWorks me temp)) w
      (fun _ w' => w'.trace.any unlinkFailed = false) := by
  unfold commit
  refine safe_perform.2 ?_
  rintro _ rfl r w₁ hH
  refine ⟨trivial, ?_⟩
  obtain ⟨o, fds', fs', hok, hexec, rfl⟩ := World.sem_sys hH
  obtain ⟨rfl, ⟨e, rfl, rfl, -⟩ | ⟨i, hi, -, -, rfl, rfl⟩⟩ := link_cases hexec
  · refine safe_perform.2 ?_
    rintro _ rfl r w₂ hH
    have hmarks := cleanup_works hH htemp (hw.cons rfl)
    refine ⟨trivial, ?_⟩
    by_cases he : e = .EEXIST
    · simp only [if_pos he]
      exact hmarks.2.1
    · simp only [if_neg he]
      exact hmarks.2.1
  · refine safe_perform.2 ?_
    rintro _ rfl r w₂ hH
    have hmarks := cleanup_works hH (by simp [hne.symm, htemp]) (hw.cons rfl)
    refine ⟨trivial, ?_⟩
    refine safe_sys fun w₃ hR o r fds fs _ _ => ⟨trivial, ?_⟩
    subst hR
    have hopened := hmarks.cons (handed_sys (.openDirectory root) r _)
    cases r with
    | error e => exact hopened.2.1
    | ok _ =>
        refine safe_sys fun w₄ hR o r fds fs _ _ => ⟨trivial, ?_⟩
        subst hR
        have hsynced := hopened.cons (handed_sys (.fsync root) r _)
        cases r with
        | error e => exact hsynced.2.1
        | ok _ => exact hsynced.2.1

/-- The temporary file is there whenever `Put` removes it. -/
theorem put_unlinks (request : PutChunkRequest) (pid address : ℕ) {w : StoreWorld σ τ}
    (hw : Preparing w.trace) :
    (put B root request pid address).Always ((World.handler me (streams input output)).sem
      (CleanupWorks me (tempPath root request.chunkId pid address))) w
      (fun _ w' => w'.trace.any unlinkFailed = false) := by
  have hne := tempPath_ne_pathFor root request.chunkId request.chunkId pid address
  unfold put
  dsimp only
  split_ifs
  · exact hw.2.1
  · exact hw.2.1
  · refine safe_sys fun w₁ hR o r fds fs _ hexec => ⟨trivial, ?_⟩
    subst hR
    obtain ⟨rfl, rfl, ⟨e, rfl, -⟩ | rfl⟩ := createDirectories_cases hexec
    · exact (hw.cons rfl).2.1
    · refine safe_sys fun w₂ hR o r fds fs _ hexec => ⟨trivial, ?_⟩
      subst hR
      rcases openExcl_cases hexec with ⟨e, rfl, rfl, rfl, -⟩ | ⟨rfl, rfl, rfl, -, -⟩
      · exact ((hw.cons rfl).cons rfl).2.1
      · refine safe_bind.2 ((fill_safe B request (Filling.syncs w.fs _ w.fds.length)
          ⟨Holds.create, by simp, (hw.cons rfl).cons rfl⟩).imp ?_)
        have hthere : ∀ {d : Bytes} {v : StoreWorld σ τ},
            Filling w.fs (tempPath root request.chunkId pid address) w.fds.length d v →
              v.fs.dir (tempPath root request.chunkId pid address) ≠ none := by
          intro d v hfilling
          simp [hfilling.holds.dir]
        rintro r w₃ (⟨p, rfl, -, hfilled⟩ | ⟨status, rfl, ⟨d, hfilled⟩, -⟩)
        · exact commit_unlinks (hthere hfilled) hne hfilled.preparing
        · refine safe_perform.2 ?_
          rintro _ rfl r w₄ hH
          exact ⟨trivial, (cleanup_works hH (hthere hfilled) hfilled.preparing).2.1⟩

end Cleanup

/-- What a `Put` that ran alone and could clean up has touched. -/
structure Touched (root : Bytes) (request : PutChunkRequest) (temp : Path) (fs : FS)
    (trace : List (Event StoreSig)) (fs' : FS) : Prop where
  /-- The temporary name is gone if it was not there before. -/
  cleaned : fs.dir temp = none → fs'.dir temp = none
  /-- Every entry but the chunk's own names the file it named, with the bytes it had. -/
  others : ∀ path, path ≠ pathFor root request.chunkId →
    fs'.dir path = fs.dir path ∧ fs'.contents path = fs.contents path
  /-- The chunk's own entry is as it was, or was absent and the commit `link` succeeded. -/
  final : (fs'.dir (pathFor root request.chunkId) = fs.dir (pathFor root request.chunkId) ∧
      fs'.contents (pathFor root request.chunkId) = fs.contents (pathFor root request.chunkId)) ∨
    (fs.dir (pathFor root request.chunkId) = none ∧ trace.any linked = true)

theorem PutDone.touched {ok : (op : StoreSig.Op) → StoreWorld σ τ → Outcome → Prop}
    {input : ChunkInputStream σ} {request : PutChunkRequest} {temp : Path} {w w' : StoreWorld σ τ}
    {status : Status} (hd : PutDone ok B root input request temp w status w')
    (hclean : w'.trace.any unlinkFailed = false) :
    Touched root request temp w.fs w'.trace w'.fs := by
  have same : ∀ {fs : FS}, fs = w.fs → Touched root request temp w.fs w'.trace fs := by
    rintro fs rfl
    exact ⟨id, fun _ _ => ⟨rfl, rfl⟩, Or.inl ⟨rfl, rfl⟩⟩
  have left : ∀ {leftover : Bool} {visible : Option Bytes},
      Left w.fs temp (pathFor root request.chunkId) leftover visible w'.fs → leftover = false →
      w.fs.dir temp = none → w'.fs.dir temp = none ∧
        ∀ path, path ≠ pathFor root request.chunkId →
          w'.fs.dir path = w.fs.dir path ∧ w'.fs.contents path = w.fs.contents path := by
    intro leftover visible hl hno hnone
    have htemp : w'.fs.dir temp = none := by
      rw [hl.temp_eq, hno]
      rfl
    refine ⟨htemp, fun path hpath => ?_⟩
    have hdir : w'.fs.dir path = w.fs.dir path := by
      by_cases ht : temp = path
      · rw [← ht, htemp, hnone]
      · exact hl.others path ht (Ne.symm hpath)
    exact ⟨hdir, FS.contents_congr hdir hl.old⟩
  cases hd with
  | invalid _ _ => exact same rfl
  | refused _ hfs _ _ => exact same hfs
  | dropped _ hnone _ hl hm _ _ =>
      obtain ⟨htemp, hothers⟩ := left hl (hm.2.1.symm.trans hclean) hnone
      exact ⟨fun _ => htemp, hothers,
        Or.inl ⟨hl.final_eq, FS.contents_congr hl.final_eq hl.old⟩⟩
  | committed _ hnone _ hfree hl hm _ _ _ =>
      obtain ⟨htemp, hothers⟩ := left hl (hm.2.1.symm.trans hclean) hnone
      exact ⟨fun _ => htemp, hothers, Or.inr ⟨hfree, hm.1⟩⟩

/-- **`Put` cleans up on every path and touches nothing else**: for every file system, request,
    stream and schedule of outcomes on which the `unlink` of a temporary file that is there succeeds,
    when `Put` returns, with any status, the temporary name is as it was before, absent or of another
    file, no other entry was created, removed or changed, and the chunk's own entry has changed only
    if it was absent and the commit `link` succeeded. -/
theorem put_cleans_up (B : Blake3) (root : Bytes) (fs : FS) (v : Invocation σ τ)
    (request : PutChunkRequest) (pid address me : ℕ) (ω : ℕ → Outcome) (status : Status)
    (w' : StoreWorld σ τ) (hcall : v.call = .put request pid address)
    (hunlink : Config.Admits (v.handler me)
      (CleanupWorks me (tempPath root request.chunkId pid address))
      (v.call.program B root, v.start fs) ω)
    (hret : Config.Returns (v.handler me) (v.call.program B root, v.start fs) ω (.status status)
      w') :
    Touched root request (tempPath root request.chunkId pid address) fs w'.trace w'.fs := by
  have hstart : Preparing (v.start fs).trace := ⟨rfl, rfl, rfl, rfl⟩
  rw [hcall] at hunlink hret
  have hdone := (put_call_always (put_always request pid address hstart)).of_returns hunlink hret
  have hclean := (put_call_always (put_unlinks request pid address hstart)).of_returns hunlink hret
  obtain ⟨status', hstatus, hd⟩ := hdone
  obtain ⟨-, -, hno⟩ := hclean
  obtain rfl := Answer.status.inj hstatus
  exact hd.touched hno

/-- A check of `CleanupWorks` for a given outcome. -/
def cleanupWorks : (op : StoreSig.Op) → StoreWorld Unit Unit → Outcome → Bool
  | .inl (.unlink p), w, o => ((Syscall.unlink p).exec 0 w.fds w.fs o).1.toBool
  | _, _, _ => true

theorem cleanupWorks_spec (temp : Path) {op : StoreSig.Op} {w : StoreWorld Unit Unit} {o : Outcome}
    (h : cleanupWorks op w o = true) : CleanupWorks 0 temp op w o := by
  unfold CleanupWorks
  split
  · intro _ _
    simp only [cleanupWorks] at h
    revert h
    cases ((Syscall.unlink _).exec 0 w.fds w.fs o).1 with
    | error e => exact fun h => absurd h (by simp [Except.toBool])
    | ok _ => exact fun _ => rfl
  · trivial

/-- The stream times out after the temporary file was created: it is gone. -/
theorem put_cleans_up_timeout :
    ∃ status w', Config.Returns (failingPut.handler 0)
        (failingPut.call.program Blake3.sample [0x72], failingPut.start (FS.empty 255))
        (fun _ => .done) (.status status) w' ∧ status.code = .kTimeout ∧
      Touched [0x72] (samplePut []) (tempPath [0x72] ⟨[0x61]⟩ 1 2) (FS.empty 255) w'.trace w'.fs := by
  obtain ⟨status, w', hret, hcode, -⟩ := failingPut_returns
  have hadmits := (Config.ends_spec cleanupWorks
    (cleanupWorks_spec (tempPath [0x72] ⟨[0x61]⟩ 1 2))
    (show Config.ends (failingPut.handler 0) cleanupWorks 5
      (failingPut.call.program Blake3.sample [0x72], failingPut.start (FS.empty 255))
      (fun _ => .done) = true by decide +kernel)).1
  exact ⟨status, w', hret, hcode, put_cleans_up Blake3.sample [0x72] (FS.empty 255) failingPut
    (samplePut []) 1 2 0 _ status w' rfl hadmits hret⟩

end ChunkStorage
