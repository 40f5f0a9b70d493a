import ChunkStorage.Commits

set_option autoImplicit false

/-! # Power failure

What a power failure leaves of a store, at any moment of any run. The entries that may come back
are those of the invariant `Tidy`, durable or pending, and a file gets a chunk's name only when it
is synced; an OK of `Put` comes after the `fsync` of the root, which settles the entry. -/

namespace ChunkStorage

open Effects Posix Program

variable {σ τ : Type} {B : Blake3} {root : Bytes}

/-- `Head` of a chunk that is there, alone and with no failing call, answers with the size and the
    checksum of the payload. -/
theorem head_finds {fs : FS} {chunkId : ChunkId} {p : Bytes} (hid : (validateId chunkId).ok = true)
    (hfits : fs.Fits (pathFor root chunkId))
    (hfile : fs.contents (pathFor root chunkId) = some (chunkFile B p)) {v : Invocation σ τ}
    (hcall : v.call = .head chunkId) {me : ℕ} {ω : ℕ → Outcome}
    (hok : Config.Admits (v.handler me) World.NoFailure (v.call.program B root, v.start fs) ω)
    (hfair : Config.Fair (v.handler me) (v.call.program B root, v.start fs) ω) :
    ∃ w', Config.Returns (v.handler me) (v.call.program B root, v.start fs) ω
      (.head (.ok ⟨chunkId, UInt64.ofNat p.length, B.checksum p⟩)) w' := by
  have halways : (v.call.program B root).Always ((v.handler me).sem World.NoFailure) (v.start fs)
      (fun a _ => a = .head (.ok ⟨chunkId, UInt64.ofNat p.length, B.checksum p⟩)) := by
    rw [hcall]
    refine safe_bind.2 ((head_always chunkId rfl).imp fun r w' hdone => ?_)
    have hsome : fs.dir (pathFor root chunkId) ≠ none := fun hnone => by
      simp [FS.contents_eq_none_iff.2 hnone] at hfile
    rcases hdone with ⟨-, ⟨hbad, -⟩ | ⟨-, w₀, ⟨hfs, -⟩, ⟨-, hnone⟩ | ⟨-, hfault⟩⟩⟩ |
      ⟨-, ⟨w₀, o, ⟨hfs, -⟩, -, hseen⟩, -, hanswer⟩
    · exact absurd hid hbad
    · rw [hfs] at hnone
      exact absurd hnone hsome
    · rw [hfs] at hfault
      exact absurd ⟨fun _ _ _ h => h, hfits⟩ hfault
    · rw [hfs] at hseen
      obtain rfl := Option.some.inj (hseen.symm.trans hfile)
      rcases hanswer with ⟨c, q, hq, rfl⟩ | ⟨hno, -⟩ | ⟨s, -, -, hfault⟩
      · obtain ⟨rfl, rfl⟩ := hq.unique (chunkFile_spec B p)
        rfl
      · exact absurd ⟨_, _, chunkFile_spec B p⟩ hno
      · exact absurd (fun _ _ _ h => h) hfault
  obtain ⟨a, w', hret, rfl⟩ := halways.returns hok hfair
  exact ⟨w', hret⟩

/-- What a chunk's name shows after a power failure is what its file held before. -/
theorem Tidy.crash {T : ℕ → Invocation σ τ → Prop} {fs fs' : FS} (h : Tidy B root T fs)
    (hcrash : fs.Crash fs') {path : Path} (hpath : IsChunkPath root path) {i : ℕ}
    (hi : fs'.dir path = some i) :
    ∃ n, fs.inodes[i]? = some n ∧ Published B root T path n ∧ fs'.Fits path ∧
      fs'.contents path = some n.data := by
  obtain ⟨n, hn, hpub, hfits⟩ := h.published hpath (hcrash.binds hi)
  refine ⟨n, hn, hpub, by rw [FS.Fits, hcrash.nameMax]; exact hfits, ?_⟩
  have hn' : fs'.inodes[i]? = some n.crash := by
    rw [hcrash.inodes, List.getElem?_map, hn]
    rfl
  simp only [FS.contents, hi, Option.bind_some, hn', Option.map_some, Inode.crash, hpub.synced]

/-- **The store survives power failures.** After a crash at any moment of any run, every file under
    a chunk's name is a whole chunk file with the size and the checksum of its payload, and `Head`
    answers with them; and a chunk whose `Put` returned OK and that no call deletes is there with
    the bytes that were put. -/
theorem crash_consistent (B : Blake3) (root : Bytes) (nameMax : ℕ)
    (choices : List (Choice (Invocation σ τ))) (fs' : FS)
    (hcrash : (storeAfter B root nameMax choices).fs.Crash fs') :
    (∀ path file, IsChunkPath root path → fs'.contents path = some file →
      ∃ chunkId p, path = pathFor root chunkId ∧
        file = makeHeader (UInt64.ofNat p.length) (B.checksum p) ++ p ∧
        ∀ (v : Invocation σ τ) (me : ℕ) (ω : ℕ → Outcome), v.call = .head chunkId →
          Config.Admits (v.handler me) World.NoFailure (v.call.program B root, v.start fs') ω →
          Config.Fair (v.handler me) (v.call.program B root, v.start fs') ω →
          ∃ w', Config.Returns (v.handler me) (v.call.program B root, v.start fs') ω
            (.head (.ok ⟨chunkId, UInt64.ofNat p.length, B.checksum p⟩)) w') ∧
    (∀ (j : ℕ) (c : StoreProcess σ τ) (request : PutChunkRequest) (pid address : ℕ)
      (status : Status), (storeAfter B root nameMax choices).procs[j]? = some c →
      c.job.call = .put request pid address → c.prog = .ret (.status status) → status.ok = true →
      DeleteFree (storeAfter B root nameMax choices) request.chunkId →
      ∃ p, Accepts B c.job.input c.job.source request p ∧
        fs'.contents (pathFor root request.chunkId)
          = some (makeHeader request.expectedSize request.expectedChecksum ++ p)) := by
  have hholds := store_holds_after B root anything nameMax choices
    (admits_anything B root nameMax choices)
  refine ⟨fun path file hpath hfile => ?_, fun j c request pid address status hc hput hret hok hfree => ?_⟩
  · obtain ⟨i, hi⟩ := Option.ne_none_iff_exists'.1
      (fun hnone => by simp [FS.contents_eq_none_iff.2 hnone] at hfile : fs'.dir path ≠ none)
    obtain ⟨n, -, hpub, hfits, hcontents⟩ := hholds.inv.tidy.crash hcrash hpath hi
    obtain ⟨p, ⟨u, request, pid, address, -, -, hvalid, rfl, -⟩, hdata⟩ := hpub.version
    rw [hdata] at hcontents
    obtain rfl := Option.some.inj (hfile.symm.trans hcontents)
    refine ⟨request.chunkId, p, rfl, rfl, fun v me ω hcall hadmits hfair => ?_⟩
    exact head_finds hvalid.1 hfits hcontents hcall hadmits hfair
  · obtain ⟨i, n, hsettled, hn, howner⟩ := (hholds.put_end hc hput hret).kept hok hfree.undeleted
    obtain ⟨p, hacc, hcontents⟩ :=
      hholds.inv.bytes ⟨i, n, FS.Settled.dir hsettled, hn, howner⟩ ⟨c, hc, rfl⟩ hput
    obtain ⟨m, hm, -, -, hcontents'⟩ := hholds.inv.tidy.crash hcrash
      (isChunkPath_pathFor request.chunkId) (hsettled.crash hcrash)
    have hdir : (storeAfter B root nameMax choices).fs.dir (pathFor root request.chunkId) = some i :=
      hsettled.dir
    refine ⟨p, hacc, ?_⟩
    rw [hacc.2.chunkFile_eq, hcontents', ← hcontents]
    simp [FS.contents, hdir, hm]

/-- A power failure after `twoPuts` that loses what was not made durable. -/
theorem crash_consistent_twoPuts :
    (∃ chunkId p, pathFor [0x72] ⟨[0x61]⟩ = pathFor [0x72] chunkId ∧
      chunkFile Blake3.sample []
        = makeHeader (UInt64.ofNat p.length) (Blake3.sample.checksum p) ++ p) ∧
    ∃ p, Accepts Blake3.sample (fun s size => (.ok (s.take size), s.drop size)) [] (samplePut []) p ∧
      (storeAfter Blake3.sample [0x72] 255 twoPuts).fs.lose.contents (pathFor [0x72] ⟨[0x61]⟩)
        = some (makeHeader (samplePut []).expectedSize (samplePut []).expectedChecksum ++ p) := by
  obtain ⟨hchunks, hputs⟩ := crash_consistent Blake3.sample [0x72] 255 twoPuts _ (FS.crash_lose _)
  refine ⟨?_, ?_⟩
  · obtain ⟨chunkId, p, hpath, hfile, -⟩ := hchunks (pathFor [0x72] ⟨[0x61]⟩)
      (chunkFile Blake3.sample []) (isChunkPath_pathFor _) (by decide +kernel)
    exact ⟨chunkId, p, hpath, hfile⟩
  · have hcode : ((storeAfter Blake3.sample [0x72] 255 twoPuts).procs.map
        fun c => returnedCode c.prog)[1]? = some (some .kOk) := by decide +kernel
    rw [List.getElem?_map, Option.map_eq_some_iff] at hcode
    obtain ⟨c, hc, hcode⟩ := hcode
    obtain ⟨status, hret, hok⟩ := returnedCode_eq_some hcode
    obtain ⟨-, hjob⟩ := (twoPuts_jobs hc).resolve_left (by simp)
    have hput := hputs 1 c (samplePut []) 1 3 status hc (by rw [hjob]; rfl) hret
      (by simp [Status.ok, hok]) (twoPuts_deleteFree _)
    rw [hjob] at hput
    exact hput

end ChunkStorage
