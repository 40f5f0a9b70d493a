import ChunkStorage.Commits

set_option autoImplicit false

/-! # What `Get` answers among other calls

`Get` opens the chunk twice: `Head` reads the size through one descriptor and the bytes come through
another. A descriptor keeps showing the file it was opened on, so the bytes are always those of one
version. The range, however, was checked against the version of the first `open`, and the second may
find another one. -/

namespace ChunkStorage

open Effects Posix Program

variable {σ τ : Type}

section Moments

variable (B : Blake3) (root : Bytes) (nameMax : ℕ) (choices : List (Choice (Invocation σ τ))) (j : ℕ)
  (chunkId : ChunkId)

/-- At some moment at which call `j` is under way the chunk shows the version with payload `p`. -/
def ShownDuring (p : Bytes) : Prop :=
  ∃ (n : ℕ) (c : StoreProcess σ τ), (storeMoment B root nameMax choices n).procs[j]? = some c ∧
    ¬ c.prog.Returned ∧
    (storeMoment B root nameMax choices n).fs.contents (pathFor root chunkId)
      = some (chunkFile B p)

/-- At some moment at which call `j` is under way the chunk is absent. -/
def AbsentDuring : Prop :=
  ∃ (n : ℕ) (c : StoreProcess σ τ), (storeMoment B root nameMax choices n).procs[j]? = some c ∧
    ¬ c.prog.Returned ∧
    (storeMoment B root nameMax choices n).fs.dir (pathFor root chunkId) = none

/-- A `Put` of the run delivered the payload for the chunk. -/
def PutInRun (p : Bytes) : Prop :=
  ∃ (k : ℕ) (d : StoreProcess σ τ) (request : PutChunkRequest) (pid address : ℕ),
    (storeAfter B root nameMax choices).procs[k]? = some d ∧
    d.job.call = .put request pid address ∧ request.chunkId = chunkId ∧
    Accepts B d.job.input d.job.source request p

end Moments

section Seen

variable {B : Blake3} {root : Bytes} {nameMax : ℕ} {choices : List (Choice (Invocation σ τ))} {j : ℕ}
  {chunkId : ChunkId} {ok : (op : StoreSig.Op) → StoreWorld σ τ → Outcome → Prop}

/-- A file the call has seen is a version that was visible during it. -/
theorem shown_of_contents {e : Bytes} {w : StoreWorld σ τ} {file : Bytes}
    (hw : Watching B root (CallsOf B root nameMax choices) (During B root nameMax choices j) e w)
    (hfile : w.fs.contents (pathFor root chunkId) = some file) :
    ∃ p, file = chunkFile B p ∧ ShownDuring B root nameMax choices j chunkId p ∧
      PutInRun B root nameMax choices chunkId p := by
  obtain ⟨k, p, hversion, rfl⟩ := hw.tidy.contents (isChunkPath_pathFor chunkId) hfile
  obtain ⟨v, request, pid, address, ⟨d, hd, rfl⟩, hcall, -, hpath, hacc⟩ := hversion
  obtain ⟨n, c, hc, hret, hfs⟩ := hw.under
  refine ⟨p, rfl, ⟨n, c, hc, hret, ?_⟩,
    ⟨k, d, request, pid, address, hd, hcall, (pathFor_injective hpath).symm, hacc⟩⟩
  have hfs' : (storeMoment B root nameMax choices n).fs = w.fs := hfs
  rw [hfs']
  exact hfile

theorem absent_of_dir {e : Bytes} {w : StoreWorld σ τ}
    (hw : Watching B root (CallsOf B root nameMax choices) (During B root nameMax choices j) e w)
    (hnone : w.fs.dir (pathFor root chunkId) = none) :
    AbsentDuring B root nameMax choices j chunkId := by
  obtain ⟨n, c, hc, hret, hfs⟩ := hw.under
  have hfs' : (storeMoment B root nameMax choices n).fs = w.fs := hfs
  exact ⟨n, c, hc, hret, by rw [hfs']; exact hnone⟩

/-- The bytes of a range of the file, behind the header, are those of the payload. -/
theorem drop_chunkFile (p : Bytes) (n : ℕ) : (chunkFile B p).drop (n + 80) = p.drop n := by
  rw [Nat.add_comm, ← List.drop_drop, (chunkFile_spec B p).drop]

theorem length_chunkFile (p : Bytes) : (chunkFile B p).length = 80 + p.length :=
  (chunkFile_spec B p).length

end Seen

/-- **A `Get` that returns OK handed out the bytes of one version**: the range, and all of it, of a
    payload that was visible at some moment of the call. -/
theorem get_one_version (B : Blake3) (root : Bytes) (nameMax : ℕ)
    (choices : List (Choice (Invocation σ τ))) (j : ℕ) (c : StoreProcess σ τ)
    (request : GetChunkRequest) (status : Status)
    (hc : (storeAfter B root nameMax choices).procs[j]? = some c)
    (hcall : c.job.call = .get request) (hret : c.prog = .ret (.status status))
    (hok : status.ok = true) :
    ∃ p, ShownDuring B root nameMax choices j request.chunkId p ∧
      PutInRun B root nameMax choices request.chunkId p ∧
      request.range.offset.toNat + request.range.size.toNat ≤ p.length ∧
      handed c.trace = (p.drop request.range.offset.toNat).take request.range.size.toNat := by
  have hholds := store_holds_after B root anything nameMax choices
    (admits_anything B root nameMax choices)
  have hcode := (Status.ok_iff status).1 hok
  rcases hholds.get_end hc hcall hret with ⟨-, hinvalid⟩ | ⟨w₀, htrace, hdone⟩
  · exact absurd (hcode.symm.trans hinvalid) (by simp)
  · rcases hdone with ⟨-, hno, -⟩ | @⟨s, _, _, _, -, -, -⟩ | ⟨-, -, -, -, hinvalid⟩ |
      ⟨-, -, -, -, hno, -⟩ | @⟨_, _, fd, fd', n, file, file', q, p, hseen, hfile, hin, hseen', hn, hP, hlen,
        hanswer⟩
    · exact absurd hok (by simp [hno])
    · exact absurd hok (by simp [s.2])
    · exact absurd (hcode.symm.trans hinvalid) (by simp)
    · exact absurd hok (by simp [hno])
    · -- the loop ran to its end
      have hn' : n = request.range.size.toNat := by
        rcases hanswer with ⟨-, hn'⟩ | ⟨hbad, -⟩ | ⟨hbad, -⟩ | ⟨hbad, -⟩
        · exact hn'
        · exact absurd (hcode.symm.trans hbad) (by simp)
        · exact absurd (hcode.symm.trans hbad) (by simp)
        · exact absurd hok (by simp [hbad])
      obtain ⟨w, o, hw, -, hcontents⟩ := hseen
      obtain ⟨w', o', hw', -, hcontents'⟩ := hseen'
      obtain ⟨p₁, rfl, hshown, hput⟩ := shown_of_contents hw hcontents
      obtain ⟨p₂, rfl, hshown', hput'⟩ := shown_of_contents hw'.watching hcontents'
      obtain ⟨-, rfl⟩ := hfile.unique (chunkFile_spec B p₁)
      have hhanded := hP.watching.handed
      rw [htrace, drop_chunkFile, hn'] at hhanded
      by_cases hzero : request.range.size.toNat = 0
      · -- an empty range: `Head` checked it against the version it saw
        exact ⟨p, hshown, hput, hin, by rw [hhanded, hzero, List.take_zero, List.take_zero]⟩
      · refine ⟨p₂, hshown', hput', ?_, hhanded⟩
        rcases hlen with hlen | hlen
        · omega
        · rw [length_chunkFile] at hlen
          omega

/-- The `Get` of the one byte of the chunk `"a"`. -/
def sampleGet : GetChunkRequest := ⟨⟨[0x61]⟩, ⟨0, 1⟩⟩

/-- The `Get` as call 1, as far as its `Head`. -/
def sampleHeadTurns : List (Choice (Invocation Bytes Unit)) :=
  .start (sampleInvocation (.get sampleGet) []) :: List.replicate 3 (.act 1 .done)

/-- The `Get` has returned with the code. -/
theorem sampleGet_returned {rest : List (Choice (Invocation Bytes Unit))} {code : StatusCode}
    (h : ((storeAfter Blake3.sample [0x72] 255 (onePut ++ sampleHeadTurns ++ rest)).procs.map
      fun c => returnedCode c.prog)[1]? = some (some code)) :
    ∃ c status, (storeAfter Blake3.sample [0x72] 255
        (onePut ++ sampleHeadTurns ++ rest)).procs[1]? = some c ∧
      c.job = sampleInvocation (.get sampleGet) [] ∧ c.prog = .ret (.status status) ∧
      status.code = code := by
  rw [List.getElem?_map, Option.map_eq_some_iff] at h
  obtain ⟨c, hc, hcode⟩ := h
  obtain ⟨status, hret, hstatus⟩ := returnedCode_eq_some hcode
  refine ⟨c, status, hc, ?_, hret, hstatus⟩
  have hjob : ((storeAfter Blake3.sample [0x72] 255
      (onePut ++ sampleHeadTurns ++ rest)).procs.map Process.job)[1]? = some c.job := by
    rw [List.getElem?_map, hc]
    rfl
  rw [storeAfter, System.jobs_after, List.filterMap_append] at hjob
  exact (Option.some.inj hjob).symm

theorem get_one_version_sample :
    ∃ p, ShownDuring Blake3.sample [0x72] 255
        (onePut ++ sampleHeadTurns ++ List.replicate 4 (.act 1 .done)) 1 ⟨[0x61]⟩ p ∧
      0 + 1 ≤ p.length := by
  obtain ⟨c, status, hc, hjob, hret, hcode⟩ := sampleGet_returned
    (show ((storeAfter Blake3.sample [0x72] 255
      (onePut ++ sampleHeadTurns ++ List.replicate 4 (.act 1 .done))).procs.map
        fun c => returnedCode c.prog)[1]? = some (some .kOk) by decide +kernel)
  obtain ⟨p, hshown, -, hin, -⟩ := get_one_version Blake3.sample [0x72] 255 _ 1 c sampleGet status hc
    (by rw [hjob]; rfl) hret (by simp [Status.ok, hcode])
  exact ⟨p, hshown, hin⟩

/-! ## The error answers -/

/-- The error answers of a `Get` tell the truth: it says that the chunk is absent, or that the range
    exceeds it, only if that was so at some moment of the call, and never that it is corrupt. -/
structure Truthful (B : Blake3) (root : Bytes) (nameMax : ℕ)
    (choices : List (Choice (Invocation σ τ))) (j : ℕ) (request : GetChunkRequest) (status : Status) :
    Prop where
  notFound : status.code = .kNotFound → AbsentDuring B root nameMax choices j request.chunkId
  invalid : status.code = .kInvalidArgument → (validateId request.chunkId).ok = true →
    ∃ p, ShownDuring B root nameMax choices j request.chunkId p ∧
      ¬ request.range.offset.toNat + request.range.size.toNat ≤ p.length
  notCorrupt : status.code ≠ .kCorruption

/-- When a `Get` opens the chunk for the second time, the file it finds there, if any, is long enough
    for the range. -/
def ReopenCovers (v : Invocation σ τ) (op : StoreSig.Op) (w : StoreWorld σ τ) : Prop :=
  match op, v.call with
  | .inl (.openRead path), .get request => w.fds ≠ [] → ∀ file, w.fs.contents path = some file →
      request.range.size = 0 ∨
        request.range.offset.toNat + 80 + request.range.size.toNat ≤ file.length
  | _, _ => True

/-- No call fails, and the second `open` of a `Get` finds a file that covers the range. -/
def calmAndCovered (_ : ℕ) (v : Invocation σ τ) (op : StoreSig.Op) (w : StoreWorld σ τ) (o : Outcome) :
    Prop :=
  World.NoFailure op w o ∧ ReopenCovers v op w

/-- The same for call `j` only. -/
def calmAndCoveredAt (j k : ℕ) (v : Invocation σ τ) (op : StoreSig.Op) (w : StoreWorld σ τ)
    (o : Outcome) : Prop := k = j → calmAndCovered k v op w o

/-- **`Get` answers truthfully unless the chunk is replaced by a shorter one under it**, or the output
    stream itself refuses a block, whatever becomes of the calls beside it. -/
theorem get_truthful (B : Blake3) (root : Bytes) (nameMax : ℕ)
    (choices : List (Choice (Invocation σ τ))) (j : ℕ)
    (hadmits : StoreAdmits B root (calmAndCoveredAt j) nameMax choices) (c : StoreProcess σ τ)
    (request : GetChunkRequest) (status : Status)
    (hc : (storeAfter B root nameMax choices).procs[j]? = some c)
    (hcall : c.job.call = .get request) (hret : c.prog = .ret (.status status)) :
    Refused c.job.output c.trace status ∨ Truthful B root nameMax choices j request status := by
  have hholds := store_holds_after B root (calmAndCoveredAt j) nameMax choices hadmits
  have hnever : World.NeverFails (calmAndCoveredAt j j c.job) := fun op w o h => (h rfl).1
  -- an answer with one of the other codes is true of itself
  have other : status.code ≠ .kNotFound → status.code ≠ .kInvalidArgument →
      status.code ≠ .kCorruption → Truthful B root nameMax choices j request status :=
    fun h₁ h₂ h₃ => ⟨fun h => absurd h h₁, fun h => absurd h h₂, h₃⟩
  have opens : ∀ {P : StoreWorld σ τ → Prop}, (∀ w, P w → ∃ e, Watching B root
      (CallsOf B root nameMax choices) (During B root nameMax choices j) e w) →
      OpenFails (calmAndCoveredAt j j c.job) (pathFor root request.chunkId) P status →
      Truthful B root nameMax choices j request status := by
    rintro P hP ⟨w, hw, ⟨hcode, hnone⟩ | ⟨hcode, -⟩⟩
    · obtain ⟨e, hwatch⟩ := hP w hw
      exact ⟨fun _ => absent_of_dir hwatch hnone, fun h => absurd (hcode.symm.trans h) (by simp),
        by simp [hcode]⟩
    · exact other (by simp [hcode]) (by simp [hcode]) (by simp [hcode])
  rcases hholds.get_end hc hcall hret with ⟨hbad, hcode⟩ | ⟨w₀, htrace, hdone⟩
  · exact Or.inr ⟨fun h => absurd (hcode.symm.trans h) (by simp), fun _ hid => absurd hid hbad,
      by simp [hcode]⟩
  · rcases hdone with ⟨-, -, ⟨hbad, hcode⟩ | ⟨-, hopen⟩⟩ |
      @⟨s, _, _, file, -, ⟨w, o, hw, -, hcontents⟩, hanswer⟩ |
      @⟨_, _, _, file, q, p, -, ⟨w, o, hw, -, hcontents⟩, hfile, hout, hcode⟩ |
      ⟨-, -, -, -, -, hopen⟩ |
      @⟨_, _, fd, fd', n, file, file', q, p, -, -, -, ⟨w, o, hw, hok, hcontents⟩, -, -, -, hanswer⟩
    · exact Or.inr ⟨fun h => absurd (hcode.symm.trans h) (by simp), fun _ hid => absurd hid hbad,
        by simp [hcode]⟩
    · exact Or.inr (opens (fun w hw => ⟨[], hw⟩) hopen)
    · -- every file that was seen is a chunk file, so `ReadHeader` has nothing to complain about
      obtain ⟨p, rfl, -, -⟩ := shown_of_contents hw hcontents
      rcases hanswer with ⟨_, _, -, hr⟩ | ⟨hno, -⟩ | ⟨_, -, -, hfault⟩
      · exact absurd hr (by simp)
      · exact absurd ⟨_, _, chunkFile_spec B p⟩ hno
      · exact absurd hnever hfault
    · obtain ⟨p₁, rfl, hshown, -⟩ := shown_of_contents hw hcontents
      obtain ⟨-, rfl⟩ := hfile.unique (chunkFile_spec B p₁)
      exact Or.inr ⟨fun h => absurd (hcode.symm.trans h) (by simp), fun _ _ => ⟨p, hshown, hout⟩,
        by simp [hcode]⟩
    · exact Or.inr (opens (fun w hw => ⟨[], hw.watching⟩) hopen)
    · rcases hanswer with ⟨rfl, -⟩ | ⟨-, hlt, hend⟩ | ⟨-, hfault⟩ | hrefused
      · exact Or.inr (other (by simp) (by simp) (by simp))
      · -- the file ends before the range does, which the second `open` excluded
        have hopened : w.fds ≠ [] := by
          obtain ⟨f, m, hf, -⟩ := hw.opened
          exact List.ne_nil_of_mem (List.mem_of_getElem? hf)
        have hcovers := (hok rfl).2
        simp only [ReopenCovers, hcall] at hcovers
        rcases hcovers hopened file' hcontents with hzero | hlong
        · rw [hzero] at hlt
          exact absurd hlt (by simp)
        · omega
      · exact absurd hnever hfault
      · have hsame : w₀.trace = c.trace := htrace
        exact Or.inl (hsame ▸ hrefused)

/-- `ReopenCovers` as a check. -/
def reopenCovers (v : Invocation σ τ) (op : StoreSig.Op) (w : StoreWorld σ τ) : Bool :=
  match op, v.call with
  | .inl (.openRead path), .get request => w.fds.isEmpty || (w.fs.contents path).all fun file =>
      request.range.size = 0 ∨
        request.range.offset.toNat + 80 + request.range.size.toNat ≤ file.length
  | _, _ => true

theorem reopenCovers_spec {v : Invocation σ τ} {op : StoreSig.Op} {w : StoreWorld σ τ}
    (h : reopenCovers v op w = true) : ReopenCovers v op w := by
  unfold reopenCovers at h
  unfold ReopenCovers
  split
  · next path request hcall =>
      intro hne file hfile
      simpa [hcall, hfile, hne] using h
  · trivial

/-- The output of a sample takes everything. -/
theorem sampleInvocation_not_refused (call : Call) (payload : Bytes) (t : List (Event StoreSig))
    (status : Status) : ¬ Refused (sampleInvocation call payload).output t status := by
  rintro ⟨hno, state, data, houtput, -⟩
  rw [← houtput] at hno
  exact absurd hno (by simp [sampleInvocation])

/-- The chunk is deleted between the two `open`s of the `Get`. -/
def deleteTurns : List (Choice (Invocation Bytes Unit)) :=
  [.start (sampleInvocation (.delete ⟨[0x61]⟩) []), .act 2 .done, .act 1 .done]

theorem get_truthful_deleted :
    AbsentDuring Blake3.sample [0x72] 255 (onePut ++ sampleHeadTurns ++ deleteTurns) 1
      ⟨[0x61]⟩ := by
  have hadmits : StoreAdmits Blake3.sample [0x72] (calmAndCoveredAt 1) 255
      (onePut ++ sampleHeadTurns ++ deleteTurns) := by
    refine System.admits_of_admitted
      (fun _ v op w o => decide (World.NoFailure op w o) && reopenCovers v op w) ?_
      (by decide +kernel)
    intro j v op w o h _
    rw [Bool.and_eq_true, decide_eq_true_eq] at h
    exact ⟨h.1, reopenCovers_spec h.2⟩
  obtain ⟨c, status, hc, hjob, hret, hcode⟩ := sampleGet_returned
    (show ((storeAfter Blake3.sample [0x72] 255
      (onePut ++ sampleHeadTurns ++ deleteTurns)).procs.map
        fun c => returnedCode c.prog)[1]? = some (some .kNotFound) by decide +kernel)
  rcases get_truthful Blake3.sample [0x72] 255 _ 1 hadmits c sampleGet status hc
    (by rw [hjob]; rfl) hret with hrefused | htruthful
  · rw [hjob] at hrefused
    exact absurd hrefused (sampleInvocation_not_refused _ _ _ _)
  · exact htruthful.notFound hcode

/-- The chunk is replaced by an empty one between the two `open`s of the `Get`. -/
def replaceTurns : List (Choice (Invocation Bytes Unit)) :=
  [.start (sampleInvocation (.delete ⟨[0x61]⟩) []), .act 2 .done] ++
    .start (sampleInvocation (.put (samplePut []) 1 3) []) :: List.replicate 9 (.act 3 .done) ++
    List.replicate 2 (.act 1 .done)

/-- No call fails and nothing is corrupt, but the `Get` says so. -/
theorem get_not_truthful :
    ¬ ∀ (B : Blake3) (root : Bytes) (nameMax : ℕ) (choices : List (Choice (Invocation Bytes Unit)))
      (j : ℕ) (c : StoreProcess Bytes Unit) (request : GetChunkRequest) (status : Status),
      StoreAdmits B root (fun _ _ => World.NoFailure) nameMax choices →
      (storeAfter B root nameMax choices).procs[j]? = some c → c.job.call = .get request →
      c.prog = .ret (.status status) →
      Refused c.job.output c.trace status ∨ Truthful B root nameMax choices j request status := by
  intro hclaim
  have hadmits : StoreAdmits Blake3.sample [0x72] (fun _ _ => World.NoFailure) 255
      (onePut ++ sampleHeadTurns ++ replaceTurns) :=
    System.admits_of_admitted (fun _ _ op w o => decide (World.NoFailure op w o))
      (fun h => of_decide_eq_true h) (by decide +kernel)
  obtain ⟨c, status, hc, hjob, hret, hcode⟩ := sampleGet_returned
    (show ((storeAfter Blake3.sample [0x72] 255
      (onePut ++ sampleHeadTurns ++ replaceTurns)).procs.map
        fun c => returnedCode c.prog)[1]? = some (some .kCorruption) by decide +kernel)
  rcases hclaim Blake3.sample [0x72] 255 _ 1 c sampleGet status hadmits hc (by rw [hjob]; rfl) hret with
    hrefused | htruthful
  · rw [hjob] at hrefused
    exact absurd hrefused (sampleInvocation_not_refused _ _ _ _)
  · exact htruthful.notCorrupt hcode

end ChunkStorage
