import ChunkStorage.Interleaving

set_option autoImplicit false

/-! # What the chunks of a shared root are

The safety of the commit protocol, for every interleaving of calls, every outcome of every system
call and every behaviour of the streams: what is visible under a chunk's name is the complete and
verified file of one `Put`, it never changes while it is visible, and it got there by the only
commit that is not matched by a deletion. -/

namespace ChunkStorage

open Effects Posix Program

variable {σ τ : Type}

/-- Every outcome of every call is admitted. -/
abbrev anything : ℕ → Invocation σ τ → (op : StoreSig.Op) → StoreWorld σ τ → Outcome → Prop :=
  fun _ _ => World.Any

theorem admits_anything (B : Blake3) (root : Bytes) (nameMax : ℕ)
    (choices : List (Choice (Invocation σ τ))) : StoreAdmits B root anything nameMax choices :=
  fun _ _ _ _ _ _ _ _ _ _ => trivial

/-! ## Only verified chunks are visible -/

/-- **Only complete, verified chunks are ever visible.** Whatever file is found in the root under a
    name that ends in `".chunk"`, in the middle of any run, is the header and the whole payload of a
    `Put` of the id the name encodes, with the size and the checksum that `Put` was told. -/
theorem visible_chunks_verified (B : Blake3) (root : Bytes) (nameMax : ℕ)
    (choices : List (Choice (Invocation σ τ))) (path : Path) (file : Bytes)
    (hpath : IsChunkPath root path)
    (hfile : (storeAfter B root nameMax choices).fs.contents path = some file) :
    ∃ (j : ℕ) (c : StoreProcess σ τ) (request : PutChunkRequest) (pid address : ℕ) (p : Bytes),
      (storeAfter B root nameMax choices).procs[j]? = some c ∧
      c.job.call = .put request pid address ∧ path = pathFor root request.chunkId ∧
      Delivers c.job.input c.job.source p ∧
      file = makeHeader request.expectedSize request.expectedChecksum ++ p ∧
      p.length = request.expectedSize.toNat ∧
      request.expectedChecksum = ⟨.kBlake3, B.hex p⟩ := by
  have hholds := store_holds_after B root anything nameMax choices
    (admits_anything B root nameMax choices)
  obtain ⟨k, p, hversion, rfl⟩ := hholds.inv.tidy.contents hpath hfile
  obtain ⟨v, request, pid, address, ⟨c, hc, rfl⟩, hcall, -, rfl, hdelivers, hmatches⟩ := hversion
  exact ⟨k, c, request, pid, address, p, hc, hcall, rfl, hdelivers, hmatches.chunkFile_eq.symm,
    hmatches.1, hmatches.checksum_eq⟩

/-- One `Put` of the chunk `"a"` with the payload `"a"`, and its twelve calls. -/
def onePut : List (Choice (Invocation Bytes Unit)) :=
  .start (sampleInvocation (.put (samplePut [0x61]) 1 2) [0x61]) :: List.replicate 12 (.act 0 .done)

theorem visible_chunks_verified_onePut :
    ∃ (j : ℕ) (c : StoreProcess Bytes Unit) (request : PutChunkRequest) (pid address : ℕ)
      (p : Bytes),
      (storeAfter Blake3.sample [0x72] 255 onePut).procs[j]? = some c ∧
      c.job.call = .put request pid address ∧
      pathFor [0x72] ⟨[0x61]⟩ = pathFor [0x72] request.chunkId ∧
      Delivers c.job.input c.job.source p ∧
      chunkFile Blake3.sample [0x61]
        = makeHeader request.expectedSize request.expectedChecksum ++ p ∧
      p.length = request.expectedSize.toNat ∧
      request.expectedChecksum = ⟨.kBlake3, Blake3.sample.hex p⟩ :=
  visible_chunks_verified Blake3.sample [0x72] 255 onePut (pathFor [0x72] ⟨[0x61]⟩)
    (chunkFile Blake3.sample [0x61]) (isChunkPath_pathFor _) (by decide +kernel)

/-! ## Commits do not replace -/

/-- No `Delete` of the chunk is among the calls. -/
def DeleteFree (s : StoreSystem σ τ) (chunkId : ChunkId) : Prop :=
  ∀ (j : ℕ) (c : StoreProcess σ τ), s.procs[j]? = some c → c.job.call ≠ .delete chunkId

section NoReplace

variable {B : Blake3} {root : Bytes} {nameMax : ℕ} {choices : List (Choice (Invocation σ τ))}

theorem DeleteFree.undeleted {chunkId : ChunkId}
    (h : DeleteFree (storeAfter B root nameMax choices) chunkId) :
    Undeleted (CallsOf B root nameMax choices) chunkId := by
  rintro k v ⟨c, hc, rfl⟩
  exact h k c hc

/-- A chunk that shows the file of a `Put` shows what that `Put` received. -/
theorem StoreInv.bytes {s : StoreSystem σ τ} (h : StoreInv B root (CallsOf B root nameMax choices) s)
    {chunkId : ChunkId} {j : ℕ} (hshows : ShowsFileOf root chunkId j s.fs) {v : Invocation σ τ}
    (hv : CallsOf B root nameMax choices j v) {request : PutChunkRequest} {pid address : ℕ}
    (hcall : v.call = .put request pid address) :
    ∃ p, Accepts B v.input v.source request p ∧
      s.fs.contents (pathFor root chunkId) = some (chunkFile B p) := by
  obtain ⟨i, n, hi, hn, rfl⟩ := hshows
  obtain ⟨m, hm, hpub, -⟩ := h.tidy.published (isChunkPath_pathFor chunkId) (FS.binds_of_dir hi)
  obtain rfl : n = m := Option.some.inj (hn.symm.trans hm)
  obtain ⟨p, ⟨u, request', pid', address', hu, hput, -, -, hacc⟩, hdata⟩ := hpub.version
  obtain rfl := callsOf_unique hv hu
  rw [hcall] at hput
  obtain ⟨rfl, -, -⟩ := Call.put.inj hput
  exact ⟨p, hacc, by simp [FS.contents, hi, hn, hdata]⟩

end NoReplace

/-- Two `Put`s of the chunk `"a"` that take turns: one of `"a"`, and one of `""` that is the first to
    commit. -/
def twoPuts : List (Choice (Invocation Bytes Unit)) :=
  .start (sampleInvocation (.put (samplePut [0x61]) 1 2) [0x61]) ::
    .start (sampleInvocation (.put (samplePut []) 1 3) []) ::
      (List.replicate 12 [.act 0 .done, .act 1 .done]).flatten

/-- The processes of `twoPuts` are the two. -/
theorem twoPuts_jobs {j : ℕ} {c : StoreProcess Bytes Unit}
    (h : (storeAfter Blake3.sample [0x72] 255 twoPuts).procs[j]? = some c) :
    (j = 0 ∧ c.job = sampleInvocation (.put (samplePut [0x61]) 1 2) [0x61]) ∨
      (j = 1 ∧ c.job = sampleInvocation (.put (samplePut []) 1 3) []) := by
  have hjob : ((storeAfter Blake3.sample [0x72] 255 twoPuts).procs.map Process.job)[j]?
      = some c.job := by
    rw [List.getElem?_map, h]
    rfl
  have hjobs : (storeAfter Blake3.sample [0x72] 255 twoPuts).procs.map Process.job
      = [sampleInvocation (.put (samplePut [0x61]) 1 2) [0x61],
        sampleInvocation (.put (samplePut []) 1 3) []] :=
    System.jobs_after _ _ _
  rw [hjobs] at hjob
  match j with
  | 0 => exact Or.inl ⟨rfl, (Option.some.inj hjob).symm⟩
  | 1 => exact Or.inr ⟨rfl, (Option.some.inj hjob).symm⟩
  | j + 2 => simp at hjob

theorem twoPuts_deleteFree (chunkId : ChunkId) :
    DeleteFree (storeAfter Blake3.sample [0x72] 255 twoPuts) chunkId := by
  intro j c hc
  rcases twoPuts_jobs hc with ⟨-, hjob⟩ | ⟨-, hjob⟩
  · simp [hjob, sampleInvocation]
  · simp [hjob, sampleInvocation]

end ChunkStorage
