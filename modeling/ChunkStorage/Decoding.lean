import ChunkStorage.Calls

set_option autoImplicit false

/-! # `ReadHeader` decodes what `MakeHeader` encodes

`Encodes s c p F` says that `F` is the encoding of the size `s`, the checksum `c` and the payload
`p`. It is the relation `ReadHeader` computes: on a descriptor of any file, and however the reads
are cut and interrupted, it finds the one `s` and `c` that fit, or reports corruption. -/

namespace ChunkStorage

open Effects Posix Program

/-- `MakeHeader(s, c)` followed by `p`, for an accepted checksum and a payload of the size. -/
def Encodes (s : UInt64) (c : Checksum) (p F : Bytes) : Prop :=
  (validateChecksum c).ok = true ∧ p.length = s.toNat ∧ F = makeHeader s c ++ p

theorem ChunkFile.encodes {c : Checksum} {p F : Bytes} (h : ChunkFile c p F)
    (hlen : F.length ≤ offMax) : Encodes (UInt64.ofNat p.length) c p F := by
  have hp : p.length ≤ offMax := by
    have := h.length
    omega
  exact ⟨(validateChecksum_ok c).2 h.1, (toNat_length hp).symm, h.2⟩

theorem Encodes.chunkFile {s : UInt64} {c : Checksum} {p F : Bytes} (h : Encodes s c p F) :
    s = UInt64.ofNat p.length ∧ ChunkFile c p F := by
  obtain ⟨hc, hp, rfl⟩ := h
  have hs : s = UInt64.ofNat p.length := by rw [hp, UInt64.ofNat_toNat]
  exact ⟨hs, (validateChecksum_ok c).1 hc, by rw [← hs]⟩

/-- A file encodes at most one size, checksum and payload. -/
theorem Encodes.unique {s s' : UInt64} {c c' : Checksum} {p p' F : Bytes} (h : Encodes s c p F)
    (h' : Encodes s' c' p' F) : s = s' ∧ c = c' ∧ p = p' := by
  obtain ⟨hs, hfile⟩ := h.chunkFile
  obtain ⟨hs', hfile'⟩ := h'.chunkFile
  obtain ⟨rfl, rfl⟩ := hfile.unique hfile'
  exact ⟨hs.trans hs'.symm, rfl, rfl⟩

theorem Encodes.take {s : UInt64} {c : Checksum} {p F : Bytes} (h : Encodes s c p F) :
    makeHeader s c = F.take 80 := by
  have hlen : (makeHeader s c).length = 80 := length_makeHeader ((validateChecksum_ok c).1 h.1)
  rw [h.2.2, ← hlen, List.take_left]

/-- The answer that decodes a file: the fields if there are any that encode to it, else
    corruption. -/
structure DecodesTo (chunkId : ChunkId) (F : Bytes) (r : StatusOr HeadChunkResponse) : Prop where
  sound : ∀ response, r = .ok response → response.chunkId = chunkId ∧
    makeHeader response.size response.checksum = F.take 80 ∧
    ∃ p, Encodes response.size response.checksum p F
  complete : ∀ s c p, Encodes s c p F → r = .ok ⟨chunkId, s, c⟩
  corrupt : (¬ ∃ s c p, Encodes s c p F) → ∃ e : ErrorStatus, r = .error e ∧ e.1.code = .kCorruption

theorem HeaderAnswer.decodesTo {σ τ : Type} {chunkId : ChunkId} {F : Bytes}
    {r : StatusOr HeadChunkResponse} (hlen : F.length ≤ offMax)
    (h : HeaderAnswer (σ := σ) (τ := τ) World.NoFailure chunkId F r) : DecodesTo chunkId F r := by
  rcases h with ⟨c, p, hfile, rfl⟩ | ⟨hnone, e, rfl, he⟩ | ⟨e, -, -, hfail⟩
  · have hcode := hfile.encodes hlen
    refine ⟨?_, ?_, fun hnone => absurd ⟨_, c, p, hcode⟩ hnone⟩
    · rintro response hr
      obtain rfl := Except.ok.inj hr
      exact ⟨rfl, hcode.take, p, hcode⟩
    · intro s' c' p' h'
      obtain ⟨rfl, rfl, -⟩ := hcode.unique h'
      rfl
  · refine ⟨fun response hr => absurd hr (by simp), ?_, fun _ => ⟨e, rfl, he⟩⟩
    intro s c p hcode
    exact absurd ⟨c, p, hcode.chunkFile.2⟩ hnone
  · exact absurd (fun _ _ _ hok => hok) hfail

/-- **`ReadHeader` decodes exactly the files that `MakeHeader` and a payload make**, on every
    schedule of interrupted and short reads. -/
theorem readHeader_decodes {σ τ : Type} (input : ChunkInputStream σ) (output : ChunkOutputStream τ)
    (me fd : ℕ) (chunkId : ChunkId) (w : StoreWorld σ τ) (f : OpenFile) (file : Inode)
    (hf : w.fds[fd]? = some f) (hfile : w.fs.inodes[f.ino]? = some file) (ω : ℕ → Outcome)
    (hcalm : Config.Admits (World.handler me (streams input output)) World.NoFailure
      (readHeader fd chunkId, w) ω)
    (hfair : Config.Fair (World.handler me (streams input output)) (readHeader fd chunkId, w) ω) :
    (∃ r w', Config.Returns (World.handler me (streams input output)) (readHeader fd chunkId, w) ω
        r w' ∧ DecodesTo chunkId file.data r) ∧
      ∀ s c p s' c' p', Encodes s c p file.data → Encodes s' c' p' file.data →
        s = s' ∧ c = c' ∧ p = p' := by
  have hlook : LookingAt w.fs (handed w.trace) fd file.data w :=
    ⟨⟨rfl, rfl⟩, f, file, hf, hfile, rfl⟩
  have hdone : (readHeader fd chunkId).Always
      ((World.handler me (streams input output)).sem World.NoFailure) w
      (fun r w' => LookingAt w.fs (handed w.trace) fd file.data w' ∧
        HeaderAnswer World.NoFailure chunkId file.data r) :=
    readHeader_safe (LookingAt.quiet w.fs _ fd file.data) (LookingAt.reads w.fs _ fd file.data)
      chunkId hlook
  obtain ⟨r, w', hret, -, hanswer⟩ := Always.returns hdone hcalm hfair
  exact ⟨⟨r, w', hret, hanswer.decodesTo file.data_le⟩, fun s c p s' c' p' h h' => h.unique h'⟩

/-- A process with a descriptor on a file of the given contents. -/
def sampleReader (data : Bytes) : StoreWorld Unit Unit :=
  ⟨[⟨0, 0⟩], ((FS.empty 255).create ⟨[0x72], [0x66]⟩ 0).modify 0 (·.write 0 data), [], ((), ())⟩

/-- Streams that `ReadHeader` does not use. -/
abbrev sampleReading : Handler StoreSig (StoreWorld Unit Unit) Outcome :=
  World.handler 0 (streams (fun s _ => (.ok [], s)) fun t _ => (.Ok, t))

/-- The first read is interrupted and the others return at most 50 bytes. -/
theorem readHeader_decodes_sample :
    ∃ w', Config.Returns sampleReading
      (readHeader 0 ⟨[0x61]⟩, sampleReader (chunkFile Blake3.sample [0x61]))
      (fun n => if n = 0 then .fails .EINTR else .short 50)
      (.ok ⟨⟨[0x61]⟩, 1, Blake3.sample.checksum [0x61]⟩) w' := by
  obtain ⟨hcalm, hfair⟩ : Config.Admits sampleReading World.NoFailure
        (readHeader 0 ⟨[0x61]⟩, sampleReader (chunkFile Blake3.sample [0x61]))
        (fun n => if n = 0 then .fails .EINTR else .short 50) ∧
      Config.Fair sampleReading
        (readHeader 0 ⟨[0x61]⟩, sampleReader (chunkFile Blake3.sample [0x61]))
        (fun n => if n = 0 then .fails .EINTR else .short 50) :=
    Config.ends_spec (fun op w o => decide (World.NoFailure op w o)) of_decide_eq_true (n := 5)
      (by decide +kernel)
  obtain ⟨⟨r, w', hret, hdecodes⟩, -⟩ := readHeader_decodes (fun s _ => (.ok [], s))
    (fun t _ => (.Ok, t)) 0 0 ⟨[0x61]⟩ (sampleReader (chunkFile Blake3.sample [0x61])) ⟨0, 0⟩
    ((Inode.fresh 0).write 0 (chunkFile Blake3.sample [0x61])) rfl rfl _ hcalm hfair
  have hcode : Encodes 1 (Blake3.sample.checksum [0x61]) [0x61]
      ((Inode.fresh 0).write 0 (chunkFile Blake3.sample [0x61])).data :=
    ⟨by decide +kernel, rfl, by decide +kernel⟩
  exact ⟨w', hdecodes.complete _ _ _ hcode ▸ hret⟩

end ChunkStorage
