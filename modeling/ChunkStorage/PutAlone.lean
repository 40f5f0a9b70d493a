import ChunkStorage.Names
import ChunkStorage.Writing

set_option autoImplicit false

/-! # `Put` with no other call running

`PutDone` lists the ways a `Put` ends, with what it left in the file system and which of its last
calls succeeded. The calls that decide what others can see are the commit `link`, the `unlink` of
the temporary name and the `fsync` of the root, so these are read off the trace. -/

namespace ChunkStorage

open Effects Posix Program

variable {σ τ : Type}

/-- The request passes the checks `Put` makes before anything else. -/
def PutChunkRequest.Valid (request : PutChunkRequest) : Prop :=
  (validateId request.chunkId).ok = true ∧ request.expectedChecksum.WellFormed

/-! ## The calls that matter to others -/

/-- The commit: a `link` that succeeded. -/
def linked : Event StoreSig → Bool
  | ⟨.inl (.link _ _), .ok _⟩ => true
  | _ => false

/-- A cleanup that did not work: an `unlink` that failed. -/
def unlinkFailed : Event StoreSig → Bool
  | ⟨.inl (.unlink _), .error _⟩ => true
  | _ => false

/-- The directory was made durable: an `fsync` that succeeded. -/
def synced : Event StoreSig → Bool
  | ⟨.inl (.fsync _), .ok _⟩ => true
  | _ => false

/-- Which of these calls are in the trace of a call that hands out nothing. -/
def Marks (trace : List (Event StoreSig)) (link unlinkFail sync : Bool) : Prop :=
  trace.any linked = link ∧ trace.any unlinkFailed = unlinkFail ∧ trace.any synced = sync ∧
    handed trace = []

/-- None of the calls of the trace is one of these. -/
abbrev Preparing (trace : List (Event StoreSig)) : Prop := Marks trace false false false

theorem Marks.cons {trace : List (Event StoreSig)} {l u s : Bool} (h : Marks trace l u s)
    {e : Event StoreSig} (he : handed (e :: trace) = handed trace) :
    Marks (e :: trace) (linked e || l) (unlinkFailed e || u) (synced e || s) := by
  obtain ⟨rfl, rfl, rfl, hhanded⟩ := h
  exact ⟨rfl, rfl, rfl, he.trans hhanded⟩

/-- A call that is none of these keeps a trace preparing. -/
theorem Marks.answered {w : StoreWorld σ τ} (h : Preparing w.trace) (s : Syscall) (r : s.Ret)
    (fds : List OpenFile) (fs : FS)
    (he : linked ⟨.inl s, r⟩ = false ∧ unlinkFailed ⟨.inl s, r⟩ = false ∧ synced ⟨.inl s, r⟩ = false) :
    Preparing (w.answered s r fds fs).trace := by
  unfold World.answered
  dsimp only
  split
  · exact h
  · have hcons := h.cons (handed_sys s r w.trace)
    rwa [he.1, he.2.1, he.2.2] at hcons

/-! ## What `Put` leaves behind -/

/-- `fs` is `fs₀` with a file of its own at `temp`, holding `d`. -/
structure Holds (fs₀ : FS) (temp : Path) (d : Bytes) (fs : FS) : Prop where
  nameMax : fs.nameMax = fs₀.nameMax
  dir : ∀ q, fs.dir q = if temp = q then some fs₀.inodes.length else fs₀.dir q
  old : ∀ (i : ℕ) n, fs₀.inodes[i]? = some n → fs.inodes[i]? = some n
  own : ∃ n, fs.inodes[fs₀.inodes.length]? = some n ∧ n.data = d

/-- The state of `Put` while it fills its file through `fd`. -/
structure Filling (fs₀ : FS) (temp : Path) (fd : ℕ) (d : Bytes) (w : StoreWorld σ τ) : Prop where
  holds : Holds fs₀ temp d w.fs
  opened : w.fds[fd]? = some ⟨fs₀.inodes.length, d.length⟩
  preparing : Preparing w.trace

theorem Holds.modify {fs₀ fs : FS} {temp : Path} {d : Bytes} (h : Holds fs₀ temp d fs)
    (f : Inode → Inode) {d' : Bytes} (hf : ∀ n, n.data = d → (f n).data = d') :
    Holds fs₀ temp d' (fs.modify fs₀.inodes.length f) where
  nameMax := h.nameMax
  dir := h.dir
  old i n hi := by
    have hne : fs₀.inodes.length ≠ i := by
      have := (List.getElem?_eq_some_iff.1 hi).1
      omega
    simp [h.old i n hi, hne]
  own := by
    obtain ⟨n, hn, hd⟩ := h.own
    exact ⟨f n, by simp [hn], hf n hd⟩

/-- Filling the file keeps what holds of every state in which it is filled. -/
theorem Filling.syncs_keeping {fs₀ : FS} {temp : Path} {fd : ℕ} {J : StoreWorld σ τ → Prop}
    (hJ : ∀ {d w}, Filling fs₀ temp fd d w → J w) :
    Syncs (σ := σ) (τ := τ) Eq (fun _ => J) (Filling fs₀ temp fd) (Filling fs₀ temp fd) fd where
  env hw hR := hR ▸ hw
  opened hw := ⟨_, hw.opened, rfl⟩
  wrote {d w f n} data hw hf hn hmax w' hw' := by
    obtain rfl : ⟨fs₀.inodes.length, d.length⟩ = f := Option.some.inj (hw.opened.symm.trans hf)
    have hnext : Filling fs₀ temp fd (d ++ data.take n) w' := by
      subst hw'
      refine ⟨hw.holds.modify _ fun i hi => ?_, ?_, hw.preparing.answered _ _ _ _ ⟨rfl, rfl, rfl⟩⟩
      · subst hi
        refine i.write_end _ ?_
        rw [List.length_take]
        omega
      · have hlt := (List.getElem?_eq_some_iff.1 hf).1
        simp [hlt, hn]
    exact ⟨hnext, hJ hnext⟩
  refused {d w} data r hw hr := by
    have hnext : Filling fs₀ temp fd d (w.answered (.write fd data) r w.fds w.fs) :=
      ⟨hw.holds, hw.opened, hw.preparing.answered _ _ _ _ ⟨rfl, rfl, rfl⟩⟩
    exact ⟨hnext, hJ hnext⟩
  rest hR := by rw [hR]
  read {d w} size r rest hw := by
    have hnext : Filling fs₀ temp fd d (w.replied (.read size) r rest) :=
      ⟨hw.holds, hw.opened, hw.preparing.cons rfl⟩
    exact ⟨hnext, hJ hnext⟩
  synced {d w f} hw hf w' hw' := by
    obtain rfl : ⟨fs₀.inodes.length, d.length⟩ = f := Option.some.inj (hw.opened.symm.trans hf)
    have hnext : Filling fs₀ temp fd d w' := by
      subst hw'
      exact ⟨hw.holds.modify _ fun i hi => hi, hw.opened,
        hw.preparing.answered _ _ _ _ ⟨rfl, rfl, rfl⟩⟩
    exact ⟨hnext, hJ hnext⟩
  unsynced {d w} e hw := by
    have hnext : Filling fs₀ temp fd d (w.answered (.fdatasync fd) (.error e) w.fds w.fs) :=
      ⟨hw.holds, hw.opened, hw.preparing.answered _ _ _ _ ⟨rfl, rfl, rfl⟩⟩
    exact ⟨hnext, hJ hnext⟩

theorem Filling.syncs (fs₀ : FS) (temp : Path) (fd : ℕ) :
    Syncs (σ := σ) (τ := τ) Eq (fun _ _ => True) (Filling fs₀ temp fd) (Filling fs₀ temp fd) fd :=
  Filling.syncs_keeping fun _ => trivial

/-- The file system after a `Put` that created its temporary file: whether the temporary name is
    left over, and the file that became visible, if any. -/
structure Left (fs₀ : FS) (temp finalPath : Path) (leftover : Bool) (visible : Option Bytes)
    (fs : FS) : Prop where
  nameMax : fs.nameMax = fs₀.nameMax
  old : ∀ (i : ℕ) n, fs₀.inodes[i]? = some n → fs.inodes[i]? = some n
  others : ∀ q, temp ≠ q → finalPath ≠ q → fs.dir q = fs₀.dir q
  temp_eq : fs.dir temp = if leftover then some fs₀.inodes.length else none
  final_eq : fs.dir finalPath = if visible.isSome then some fs₀.inodes.length else fs₀.dir finalPath
  own : ∀ file, visible = some file →
    ∃ n, fs.inodes[fs₀.inodes.length]? = some n ∧ n.data = file

/-- A `Put` is not turned down before it comes to its stream: the request is valid and the temporary
    file can be created. -/
structure PutStarts (request : PutChunkRequest) (temp : Path) (fs : FS) : Prop where
  valid : request.Valid
  fits : fs.Fits temp
  free : fs.dir temp = none

/-- What the chunk shows while a `Put` of it runs alone: what it showed before, or the file of the
    payload that the stream delivers. -/
def Showing (B : Blake3) (root : Bytes) (input : ChunkInputStream σ) (request : PutChunkRequest)
    (temp : Path) (w₀ w : StoreWorld σ τ) : Prop :=
  w.fs.contents (pathFor root request.chunkId) = w₀.fs.contents (pathFor root request.chunkId) ∨
    PutStarts request temp w₀.fs ∧ w₀.fs.dir (pathFor root request.chunkId) = none ∧ ∃ p, Accepts B input w₀.rest.1 request p ∧
      w.fs.contents (pathFor root request.chunkId)
        = some (makeHeader request.expectedSize request.expectedChecksum ++ p)

/-- The ways a `Put` that runs alone ends. -/
inductive PutDone (ok : (op : StoreSig.Op) → StoreWorld σ τ → Outcome → Prop) (B : Blake3)
    (root : Bytes) (input : ChunkInputStream σ) (request : PutChunkRequest) (temp : Path)
    (w : StoreWorld σ τ) : Status → StoreWorld σ τ → Prop
  /-- The request is turned down before anything is done. -/
  | invalid {status : Status} : ¬ request.Valid → status.code = .kInvalidArgument →
      PutDone ok B root input request temp w status w
  /-- The temporary file could not be created. -/
  | refused {status : Status} {w' : StoreWorld σ τ} : request.Valid → w'.fs = w.fs →
      Preparing w'.trace →
      (status.code = .kUnavailable ∧ w.fs.dir temp ≠ none) ∨
        (status.code = .kIoError ∧ ¬ (World.NeverFails ok ∧ w.fs.Fits temp)) →
      PutDone ok B root input request temp w status w'
  /-- The temporary file was given up. -/
  | dropped {status : Status} {w' : StoreWorld σ τ} {leftover : Bool} : request.Valid →
      w.fs.dir temp = none → w.fs.Fits temp →
      Left w.fs temp (pathFor root request.chunkId) leftover none w'.fs →
      Marks w'.trace false leftover false → (leftover = true → ¬ World.NeverFails ok) →
      Rejects B input w.rest.1 request status ∨
        (∃ p, Accepts B input w.rest.1 request p ∧ status.code = .kAlreadyExists ∧
          w.fs.dir (pathFor root request.chunkId) ≠ none) ∨
        (status.code = .kIoError ∧ ¬ World.NeverFails ok) →
      PutDone ok B root input request temp w status w'
  /-- The chunk was committed. -/
  | committed {status : Status} {w' : StoreWorld σ τ} {leftover sync : Bool} {p : Bytes} :
      request.Valid → w.fs.dir temp = none → w.fs.Fits temp →
      w.fs.dir (pathFor root request.chunkId) = none →
      Left w.fs temp (pathFor root request.chunkId) leftover
        (some (makeHeader request.expectedSize request.expectedChecksum ++ p)) w'.fs →
      Marks w'.trace true leftover sync → (leftover = true → ¬ World.NeverFails ok) →
      Accepts B input w.rest.1 request p →
      (status = .Ok ∧ sync = true) ∨
        (status.code = .kIoError ∧ sync = false ∧ ¬ World.NeverFails ok) →
      PutDone ok B root input request temp w status w'

section Proofs

variable {B : Blake3} {root : Bytes} {input : ChunkInputStream σ} {output : ChunkOutputStream τ}
  {me : ℕ} {ok : (op : StoreSig.Op) → StoreWorld σ τ → Outcome → Prop}

theorem PutDone.nameMax {request : PutChunkRequest} {temp : Path} {w w' : StoreWorld σ τ}
    {status : Status} (h : PutDone ok B root input request temp w status w') :
    w'.fs.nameMax = w.fs.nameMax := by
  cases h with
  | invalid _ _ => rfl
  | refused _ hfs _ _ => rw [hfs]
  | dropped _ _ _ hleft _ _ _ => exact hleft.nameMax
  | committed _ _ _ _ hleft _ _ _ _ => exact hleft.nameMax

theorem Holds.left {fs₀ fs : FS} {temp finalPath : Path} {d : Bytes} (h : Holds fs₀ temp d fs)
    (hne : temp ≠ finalPath) : Left fs₀ temp finalPath true none fs where
  nameMax := h.nameMax
  old := h.old
  others q hq _ := by simp [h.dir q, hq]
  temp_eq := by simp [h.dir]
  final_eq := by simp [h.dir, hne]
  own file hfile := absurd hfile (by simp)

theorem Holds.left_bind {fs₀ fs : FS} {temp finalPath : Path} {d : Bytes} (h : Holds fs₀ temp d fs)
    (hne : temp ≠ finalPath) (hi : fs₀.inodes.length < fs.inodes.length) :
    Left fs₀ temp finalPath true (some d) (fs.bind finalPath fs₀.inodes.length hi) where
  nameMax := h.nameMax
  old i n hn := by
    have hlt := (List.getElem?_eq_some_iff.1 hn).1
    have hne' : fs₀.inodes.length ≠ i := by omega
    simp [h.old i n hn, hne']
  others q hq hq' := by simp [h.dir q, hq, hq']
  temp_eq := by simp [h.dir, hne.symm]
  final_eq := by simp
  own file hfile := by
    obtain ⟨n, hn, hd⟩ := h.own
    obtain rfl : d = file := Option.some.inj hfile
    exact ⟨n.link, by simp [hn], hd⟩

theorem Left.remove {fs₀ fs : FS} {temp finalPath : Path} {visible : Option Bytes}
    (h : Left fs₀ temp finalPath true visible fs) (hne : temp ≠ finalPath) :
    Left fs₀ temp finalPath false visible (fs.remove temp) where
  nameMax := h.nameMax
  old := h.old
  others q hq hq' := by simpa [hq] using h.others q hq hq'
  temp_eq := by simp
  final_eq := by simpa [hne] using h.final_eq
  own := h.own

theorem Left.syncDir {fs₀ fs : FS} {temp finalPath : Path} {leftover : Bool}
    {visible : Option Bytes} (h : Left fs₀ temp finalPath leftover visible fs) (d : Bytes) :
    Left fs₀ temp finalPath leftover visible (fs.syncDir d) where
  nameMax := h.nameMax
  old := h.old
  others q hq hq' := by simpa using h.others q hq hq'
  temp_eq := by simpa using h.temp_eq
  final_eq := by simpa using h.final_eq
  own := h.own

theorem Holds.contents_eq {fs₀ fs : FS} {temp q : Path} {d : Bytes} (h : Holds fs₀ temp d fs)
    (hne : temp ≠ q) : fs.contents q = fs₀.contents q :=
  FS.contents_congr (by rw [h.dir, if_neg hne]) h.old

/-- What the final path of a `Put` shows at the end. -/
theorem Left.contents_final {fs₀ fs : FS} {temp finalPath : Path} {leftover : Bool}
    {visible : Option Bytes} (h : Left fs₀ temp finalPath leftover visible fs) :
    fs.contents finalPath = visible.or (fs₀.contents finalPath) := by
  cases visible with
  | none => exact FS.contents_congr h.final_eq h.old
  | some file =>
      obtain ⟨n, hn, rfl⟩ := h.own file rfl
      simp [FS.contents, h.final_eq, hn]

/-- What the cleanup can do: remove the temporary name, or fail and leave it. -/
theorem unlink_left {fs₀ : FS} {temp finalPath : Path} {visible : Option Bytes}
    (hne : temp ≠ finalPath) {w₁ w₂ : StoreWorld σ τ} {r : Except Errno Unit}
    (hH : (World.handler me (streams input output)).sem ok (.inl (.unlink temp)) w₁ r w₂)
    (h : Left fs₀ temp finalPath true visible w₁.fs) (hfit : fs₀.Fits temp) {link : Bool}
    (hm : Marks w₁.trace link false false) :
    ∃ leftover, Left fs₀ temp finalPath leftover visible w₂.fs ∧
      (leftover = true → ¬ World.NeverFails ok) ∧ Marks w₂.trace link leftover false := by
  obtain ⟨o, fds', fs', hok, hexec, rfl⟩ := World.sem_sys hH
  obtain ⟨rfl, ⟨e, rfl, rfl, hmissing, hcalm⟩ | ⟨i, hi, rfl, rfl⟩⟩ := unlink_cases hexec
  · refine ⟨true, h, fun _ hnever => ?_, hm.cons rfl⟩
    have hfit' : w₁.fs.Fits temp := by rw [FS.Fits, h.nameMax]; exact hfit
    have hsome := h.temp_eq
    rw [hmissing (hcalm (hnever _ _ _ hok).1 hfit')] at hsome
    exact absurd hsome (by simp)
  · exact ⟨false, h.remove hne, by simp, hm.cons rfl⟩

/-- A temporary name is longer than the chunk's. -/
theorem fits_pathFor {fs : FS} {chunkId : ChunkId} {pid address : ℕ}
    (h : fs.Fits (tempPath root chunkId pid address)) : fs.Fits (pathFor root chunkId) := by
  unfold FS.Fits tempPath at h
  rw [FS.Fits]
  simp only [List.length_append] at h
  omega

/-- The commit, from a synced temporary file with the accepted payload. -/
theorem commit_showing {request : PutChunkRequest} {pid address fd : ℕ} {p : Bytes}
    {w₀ w : StoreWorld σ τ} (hvalid : request.Valid)
    (hnone : w₀.fs.dir (tempPath root request.chunkId pid address) = none)
    (hfit : w₀.fs.Fits (tempPath root request.chunkId pid address))
    (hacc : Accepts B input w₀.rest.1 request p)
    (hw : Filling w₀.fs (tempPath root request.chunkId pid address) fd
      (makeHeader request.expectedSize request.expectedChecksum ++ p) w) :
    (commit root request (tempPath root request.chunkId pid address)).Safe
      ((World.handler me (streams input output)).sem ok) Eq
      (fun _ => Showing B root input request (tempPath root request.chunkId pid address) w₀)
      (PutDone ok B root input request (tempPath root request.chunkId pid address) w₀) w := by
  have hne := tempPath_ne_pathFor root request.chunkId request.chunkId pid address
  have hfit' : w.fs.Fits (tempPath root request.chunkId pid address) := by
    rw [FS.Fits, hw.holds.nameMax]
    exact hfit
  have htemp : w.fs.dir (tempPath root request.chunkId pid address) = some w₀.fs.inodes.length := by
    rw [hw.holds.dir, if_pos rfl]
  have hfinal : w.fs.dir (pathFor root request.chunkId)
      = w₀.fs.dir (pathFor root request.chunkId) := by
    rw [hw.holds.dir, if_neg hne]
  unfold commit
  refine safe_perform.2 ?_
  rintro _ rfl r w₁ hH
  obtain ⟨o, fds', fs', hok, hexec, rfl⟩ := World.sem_sys hH
  obtain ⟨rfl, ⟨e, rfl, rfl, hexists, hcalm⟩ | ⟨i, hi, hfree, -, rfl, rfl⟩⟩ := link_cases hexec
  · -- the link failed: nothing became visible
    refine ⟨Or.inl (hw.holds.contents_eq hne), safe_perform.2 ?_⟩
    rintro _ rfl r w₂ hH
    obtain ⟨leftover, hleft, hfail, hmarks⟩ :=
      unlink_left hne hH (hw.holds.left hne) hfit (hw.preparing.cons rfl)
    refine ⟨Or.inl hleft.contents_final, ?_⟩
    by_cases he : e = .EEXIST
    · simp only [if_pos he]
      exact .dropped hvalid hnone hfit hleft hmarks hfail
        (Or.inr (Or.inl ⟨p, hacc, rfl, hfinal ▸ hexists he⟩))
    · simp only [if_neg he]
      refine .dropped hvalid hnone hfit hleft hmarks hfail
        (Or.inr (Or.inr ⟨rfl, fun hnever => he ?_⟩))
      exact hcalm (hnever _ _ _ hok).1 hfit' (fits_pathFor hfit') (by simp [htemp])
  · -- the link succeeded: the chunk is visible whatever happens from here on
    obtain rfl : w₀.fs.inodes.length = i := Option.some.inj (htemp.symm.trans hi)
    rw [hfinal] at hfree
    have hstarts : PutStarts request (tempPath root request.chunkId pid address) w₀.fs :=
      ⟨hvalid, hfit, hnone⟩
    have hlinked := hw.holds.left_bind hne (w.fs.dir_lt hi)
    refine ⟨Or.inr ⟨hstarts, hfree, p, hacc, hlinked.contents_final⟩, safe_perform.2 ?_⟩
    rintro _ rfl r w₂ hH
    obtain ⟨leftover, hleft, hfail, hmarks⟩ :=
      unlink_left hne hH hlinked hfit (hw.preparing.cons rfl)
    refine ⟨Or.inr ⟨hstarts, hfree, p, hacc, hleft.contents_final⟩, safe_perform.2 ?_⟩
    rintro _ rfl r w₃ hH
    obtain ⟨o', fds', fs', hok', hexec', rfl⟩ := World.sem_sys hH
    obtain ⟨rfl, rfl, hopened⟩ := openDirectory_cases hexec'
    refine ⟨Or.inr ⟨hstarts, hfree, p, hacc, hleft.contents_final⟩, ?_⟩
    rcases hopened with ⟨e, rfl, hcalm⟩ | rfl
    · exact .committed hvalid hnone hfit hfree hleft (hmarks.cons rfl) hfail hacc
        (Or.inr ⟨rfl, rfl, fun hnever => hcalm (hnever _ _ _ hok').1⟩)
    · refine safe_perform.2 ?_
      rintro _ rfl r w₄ hH
      obtain ⟨o'', fds', fs', hok'', hexec'', rfl⟩ := World.sem_sys hH
      obtain ⟨rfl, ⟨e, rfl, rfl, hcalm⟩ | ⟨rfl, rfl⟩⟩ := fsync_cases hexec''
      · refine ⟨Or.inr ⟨hstarts, hfree, p, hacc, hleft.contents_final⟩, ?_⟩
        exact .committed hvalid hnone hfit hfree hleft ((hmarks.cons rfl).cons rfl) hfail hacc
          (Or.inr ⟨rfl, rfl, fun hnever => hcalm (hnever _ _ _ hok'').1⟩)
      · have hsynced := hleft.syncDir root
        refine ⟨Or.inr ⟨hstarts, hfree, p, hacc, hsynced.contents_final⟩, ?_⟩
        exact .committed hvalid hnone hfit hfree hsynced ((hmarks.cons rfl).cons rfl) hfail hacc
          (Or.inl ⟨rfl, rfl⟩)

theorem Holds.create {fs : FS} {temp : Path} : Holds fs temp [] (fs.create temp me) where
  nameMax := rfl
  dir q := by simp
  old i n hi := by simp [List.getElem?_append_left (List.getElem?_eq_some_iff.1 hi).1, hi]
  own := ⟨Inode.fresh me, by simp, rfl⟩

/-- **`Put` with no other call running** ends in one of the ways of `PutDone`, and in between shows
    nothing but what the stream delivers. -/
theorem put_showing (request : PutChunkRequest) (pid address : ℕ) {w : StoreWorld σ τ}
    (hw : Preparing w.trace) :
    (put B root request pid address).Safe ((World.handler me (streams input output)).sem ok) Eq
      (fun _ => Showing B root input request (tempPath root request.chunkId pid address) w)
      (PutDone ok B root input request (tempPath root request.chunkId pid address) w) w := by
  unfold put
  by_cases hid : (validateId request.chunkId).ok = true
  · by_cases hsum : request.expectedChecksum.WellFormed
    · have hvalid : request.Valid := ⟨hid, hsum⟩
      simp only [hid, (validateChecksum_ok _).2 hsum, Bool.not_true, Bool.false_eq_true, if_false]
      have hne := tempPath_ne_pathFor root request.chunkId request.chunkId pid address
      refine safe_perform.2 ?_
      rintro _ rfl r w₁ hH
      obtain ⟨o, fds', fs', hok, hexec, rfl⟩ := World.sem_sys hH
      obtain ⟨rfl, rfl, hcreated⟩ := createDirectories_cases hexec
      refine ⟨Or.inl rfl, ?_⟩
      rcases hcreated with ⟨e, rfl, hcalm⟩ | rfl
      · exact .refused hvalid rfl (hw.cons rfl)
          (Or.inr ⟨rfl, fun h => hcalm (h.1 _ _ _ hok).1⟩)
      · refine safe_perform.2 ?_
        rintro _ rfl r w₂ hH
        obtain ⟨o', fds', fs', hok', hexec', rfl⟩ := World.sem_sys hH
        rcases openExcl_cases hexec' with ⟨e, rfl, rfl, rfl, hexists, hcalm⟩ |
          ⟨rfl, rfl, rfl, hnone, hfit⟩
        · refine ⟨Or.inl rfl, ?_⟩
          by_cases he : e = .EEXIST
          · simp only [if_pos he]
            exact .refused hvalid rfl ((hw.cons rfl).cons rfl) (Or.inl ⟨rfl, hexists he⟩)
          · simp only [if_neg he]
            exact .refused hvalid rfl ((hw.cons rfl).cons rfl)
              (Or.inr ⟨rfl, fun h => he (hcalm (h.1 _ _ _ hok').1 h.2)⟩)
        · have hcreate : Holds w.fs (tempPath root request.chunkId pid address) []
              (w.fs.create (tempPath root request.chunkId pid address) me) := Holds.create
          refine ⟨Or.inl (hcreate.contents_eq hne), ?_⟩
          refine safe_bind.2 ((fill_safe B request
            (Filling.syncs_keeping fun hw' => Or.inl (hw'.holds.contents_eq hne))
            ⟨hcreate, by simp, (hw.cons rfl).cons rfl⟩).imp ?_)
          rintro r w₃ (⟨p, rfl, hacc, hfilled⟩ | ⟨status, rfl, ⟨d, hfilled⟩, hreason⟩)
          · exact commit_showing hvalid hnone hfit hacc hfilled
          · refine safe_perform.2 ?_
            rintro _ rfl r w₄ hH
            obtain ⟨leftover, hleft, hfail, hmarks⟩ :=
              unlink_left hne hH (hfilled.holds.left hne) hfit hfilled.preparing
            refine ⟨Or.inl hleft.contents_final, ?_⟩
            refine .dropped hvalid hnone hfit hleft hmarks hfail ?_
            rcases hreason with hrej | hio
            · exact Or.inl hrej
            · exact Or.inr (Or.inr hio)
    · have hno : (validateChecksum request.expectedChecksum).ok = false := by
        simpa using fun h => hsum ((validateChecksum_ok _).1 h)
      simp only [hid, hno, Bool.not_true, Bool.not_false, Bool.false_eq_true, if_false, if_true]
      exact .invalid (fun h => hsum h.2) (validateChecksum_code hsum)
  · have hno : (validateId request.chunkId).ok = false := by simpa using hid
    simp only [hno, Bool.not_false, if_true]
    exact .invalid (fun h => hid h.1) (validateId_code hid)

theorem put_always (request : PutChunkRequest) (pid address : ℕ) {w : StoreWorld σ τ}
    (hw : Preparing w.trace) :
    (put B root request pid address).Always ((World.handler me (streams input output)).sem ok) w
      (PutDone ok B root input request (tempPath root request.chunkId pid address) w) :=
  (put_showing request pid address hw).mono (fun _ _ h => h) (fun _ _ _ => trivial) fun _ _ h => h

end Proofs

end ChunkStorage
