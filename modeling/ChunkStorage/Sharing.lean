import ChunkStorage.Calls
import ChunkStorage.Lib.System

set_option autoImplicit false

/-! # Calls that share a root

What one answered operation of a call can do to the files, for any call (`StoreStep`). Everything
a call may rely on while others run is read off this list: nobody writes a file that was linked or
that somebody else created, nobody else removes a temporary name, and only a `Delete` of the id
removes a chunk. `Tidy` is the invariant of the directory: an entry is a published chunk, complete
and synced, or the temporary file of a `Put`. -/

namespace ChunkStorage

open Effects Posix Program

variable {σ τ : Type}

/-- A `link` to the path that succeeded. -/
def linksTo (path : Path) : Event StoreSig → Bool
  | ⟨.inl (.link _ new), .ok _⟩ => new = path
  | _ => false

/-- An `unlink` of the path that succeeded. -/
def unlinks (path : Path) : Event StoreSig → Bool
  | ⟨.inl (.unlink p), .ok _⟩ => p = path
  | _ => false

/-- Neither a `link` nor an `unlink` that succeeded. -/
def silent : Event StoreSig → Bool
  | ⟨.inl (.link _ _), .ok _⟩ => false
  | ⟨.inl (.unlink _), .ok _⟩ => false
  | _ => true

theorem linksTo_of_silent {e : Event StoreSig} (h : silent e = true) (path : Path) :
    linksTo path e = false := by
  unfold linksTo
  split
  · exact absurd h (by simp [silent])
  · rfl

theorem unlinks_of_silent {e : Event StoreSig} (h : silent e = true) (path : Path) :
    unlinks path e = false := by
  unfold unlinks
  split
  · exact absurd h (by simp [silent])
  · rfl

/-- What the call `v` of process `me` does to the files with one operation, and the event it leaves
    in its trace. -/
inductive StoreStep (B : Blake3) (root : Bytes) (me : ℕ) (v : Invocation σ τ) :
    Event StoreSig → FS → FS → Prop
  | looks {e : Event StoreSig} {fs : FS} (hsilent : silent e = true) : StoreStep B root me v e fs fs
  /-- A `Put` creates its temporary file. -/
  | creates {e : Event StoreSig} {fs : FS} {request : PutChunkRequest} {pid address : ℕ}
      (hsilent : silent e = true) (hcall : v.call = .put request pid address)
      (hnone : fs.dir (tempPath root request.chunkId pid address) = none) :
      StoreStep B root me v e fs (fs.create (tempPath root request.chunkId pid address) me)
  /-- A `Put` writes or syncs the file it created, before it is linked. -/
  | modifies {e : Event StoreSig} {fs : FS} {i : ℕ} {n : Inode} {f : Inode → Inode}
      (hsilent : silent e = true) (hn : fs.inodes[i]? = some n) (howner : n.owner = me)
      (hfresh : n.linked = false) (hf : ∀ n, (f n).owner = n.owner ∧ (f n).linked = n.linked) :
      StoreStep B root me v e fs (fs.modify i f)
  /-- A `Put` links its file, which is complete, verified and synced. -/
  | commits {fs : FS} {request : PutChunkRequest} {pid address i : ℕ} {n : Inode} {p : Bytes}
      (hcall : v.call = .put request pid address) (hvalid : request.Valid)
      (hacc : Accepts B v.input v.source request p)
      (hi : fs.dir (tempPath root request.chunkId pid address) = some i)
      (hn : fs.inodes[i]? = some n) (howner : n.owner = me) (hfresh : n.linked = false)
      (hdata : n.data = makeHeader request.expectedSize request.expectedChecksum ++ p)
      (hsynced : n.synced = n.data) (hnone : fs.dir (pathFor root request.chunkId) = none)
      (hfits : fs.Fits (pathFor root request.chunkId)) :
      StoreStep B root me v
        ⟨.inl (.link (tempPath root request.chunkId pid address) (pathFor root request.chunkId)),
          .ok ()⟩
        fs (fs.bind (pathFor root request.chunkId) i (fs.dir_lt hi))
  /-- A `Put` removes its temporary name. -/
  | drops {fs : FS} {request : PutChunkRequest} {pid address i : ℕ} {n : Inode}
      (hcall : v.call = .put request pid address)
      (hi : fs.dir (tempPath root request.chunkId pid address) = some i)
      (hn : fs.inodes[i]? = some n) (howner : n.owner = me) :
      StoreStep B root me v ⟨.inl (.unlink (tempPath root request.chunkId pid address)), .ok ()⟩
        fs (fs.remove (tempPath root request.chunkId pid address))
  /-- A `Delete` removes the chunk. -/
  | deletes {fs : FS} {chunkId : ChunkId} (hcall : v.call = .delete chunkId)
      (hsome : fs.dir (pathFor root chunkId) ≠ none) :
      StoreStep B root me v ⟨.inl (.unlink (pathFor root chunkId)), .ok ()⟩
        fs (fs.remove (pathFor root chunkId))
  /-- A `Put` makes the directory durable. -/
  | publishes {e : Event StoreSig} {fs : FS} (hsilent : silent e = true) :
      StoreStep B root me v e fs (fs.syncDir root)

/-! ## What a step leaves alone -/

section Step

variable {B : Blake3} {root : Bytes} {k : ℕ} {v : Invocation σ τ} {e : Event StoreSig} {fs fs' : FS}

theorem StoreStep.nameMax (h : StoreStep B root k v e fs fs') : fs'.nameMax = fs.nameMax := by
  cases h <;> rfl

/-- A file keeps its owner, and stays as it is if it was linked or is somebody else's. -/
theorem StoreStep.file (h : StoreStep B root k v e fs fs') {i : ℕ} {n : Inode}
    (hn : fs.inodes[i]? = some n) : ∃ n', fs'.inodes[i]? = some n' ∧ n'.owner = n.owner ∧
      (n.linked = true ∨ n.owner ≠ k → n' = n) := by
  -- the two steps that change a file change one of `k` that was not linked
  have other : ∀ {j : ℕ} {m : Inode} (f : Inode → Inode), fs.inodes[j]? = some m → m.owner = k →
      m.linked = false → (f m).owner = m.owner → ∃ n',
      (fs.inodes[i]?).map (fun n => if j = i then f n else n) = some n' ∧ n'.owner = n.owner ∧
        (n.linked = true ∨ n.owner ≠ k → n' = n) := by
    intro j m f hm howner hfresh hf
    by_cases hji : j = i
    · subst hji
      obtain rfl : m = n := Option.some.inj (hm.symm.trans hn)
      refine ⟨f m, by simp [hn], hf, ?_⟩
      intro hkeep
      rcases hkeep with hlinked | hne
      · exact absurd hlinked (by simp [hfresh])
      · exact absurd howner hne
    · exact ⟨n, by simp [hn, hji], rfl, fun _ => rfl⟩
  cases h with
  | looks _ => exact ⟨n, hn, rfl, fun _ => rfl⟩
  | creates _ _ _ =>
      have hlt := (List.getElem?_eq_some_iff.1 hn).1
      exact ⟨n, by simp [List.getElem?_append_left hlt, hn], rfl, fun _ => rfl⟩
  | modifies _ hm howner hfresh hf =>
      rw [FS.modify_inodes]
      exact other _ hm howner hfresh (hf _).1
  | commits _ _ _ _ hm howner hfresh _ _ _ _ =>
      rw [FS.bind_inodes]
      exact other Inode.link hm howner hfresh rfl
  | drops _ _ _ _ => exact ⟨n, hn, rfl, fun _ => rfl⟩
  | deletes _ _ => exact ⟨n, hn, rfl, fun _ => rfl⟩
  | publishes _ => exact ⟨n, hn, rfl, fun _ => rfl⟩

/-- A file that is there after the step was there before, or the process created it. -/
theorem StoreStep.owner (h : StoreStep B root k v e fs fs') {i : ℕ} {n' : Inode}
    (hn' : fs'.inodes[i]? = some n') :
    (∃ n, fs.inodes[i]? = some n ∧ n'.owner = n.owner) ∨ n'.owner = k := by
  cases hn : fs.inodes[i]? with
  | some n =>
      obtain ⟨n₁, hn₁, howner, -⟩ := h.file hn
      obtain rfl : n₁ = n' := Option.some.inj (hn₁.symm.trans hn')
      exact Or.inl ⟨n, rfl, howner⟩
  | none =>
      right
      cases h with
      | creates _ _ _ =>
          rw [FS.create_inodes, List.getElem?_append_right (List.getElem?_eq_none_iff.1 hn)] at hn'
          have hmem := List.mem_of_getElem? hn'
          rw [List.mem_singleton.1 hmem]
          rfl
      | modifies _ _ _ _ _ => simp [hn] at hn'
      | commits _ _ _ _ _ _ _ _ _ _ _ => simp [hn] at hn'
      | looks _ => simp [hn] at hn'
      | drops _ _ _ _ => simp [hn] at hn'
      | deletes _ _ => simp [hn] at hn'
      | publishes _ => simp [hn] at hn'

/-- An entry stays, unless its owner drops a temporary name or a `Delete` removes a chunk. -/
theorem StoreStep.entry (h : StoreStep B root k v e fs fs') {p : Path} {i : ℕ}
    (hi : fs.dir p = some i) : fs'.dir p = some i ∨
      (¬ IsChunkPath root p ∧ ∃ n, fs.inodes[i]? = some n ∧ n.owner = k) ∨
      ∃ chunkId, v.call = .delete chunkId ∧ p = pathFor root chunkId ∧ fs'.dir p = none := by
  cases h with
  | looks _ => exact Or.inl hi
  | creates _ _ hnone =>
      refine Or.inl ?_
      rw [FS.create_dir, if_neg (fun hp => by simp [← hp, hnone] at hi)]
      exact hi
  | modifies _ _ _ _ _ => exact Or.inl hi
  | commits _ _ _ _ _ _ _ _ _ hnone _ =>
      refine Or.inl ?_
      rw [FS.bind_dir, if_neg (fun hp => by simp [← hp, hnone] at hi)]
      exact hi
  | @drops _ request pid address j n _ hj hn howner =>
      by_cases hp : tempPath root request.chunkId pid address = p
      · subst hp
        obtain rfl : j = i := Option.some.inj (hj.symm.trans hi)
        exact Or.inr (Or.inl ⟨not_isChunkPath_tempPath _ _ _, n, hn, howner⟩)
      · exact Or.inl (by rw [FS.remove_dir, if_neg hp]; exact hi)
  | @deletes _ chunkId hcall _ =>
      by_cases hp : pathFor root chunkId = p
      · exact Or.inr (Or.inr ⟨chunkId, hcall, hp.symm, by rw [FS.remove_dir, if_pos hp]⟩)
      · exact Or.inl (by rw [FS.remove_dir, if_neg hp]; exact hi)
  | publishes _ => exact Or.inl (by rw [FS.syncDir_dir]; exact hi)

/-- A chunk that survives every power failure goes on doing so, unless it is deleted. -/
theorem StoreStep.settled (h : StoreStep B root k v e fs fs') {p : Path} {i : ℕ}
    (hp : IsChunkPath root p) (hs : fs.Settled p i) :
    fs'.Settled p i ∨ ∃ chunkId, v.call = .delete chunkId ∧ p = pathFor root chunkId := by
  have hdir : fs.dir p = some i := hs.dir
  have keeps : ∀ {q : Path} {j : Option ℕ}, q ≠ p → ∀ c ∈ (q, j) :: fs.pending, c.1 ≠ p := by
    intro q j hq c hc
    rcases List.mem_cons.1 hc with rfl | hc
    · exact hq
    · exact hs.2 c hc
  cases h with
  | looks _ => exact Or.inl hs
  | creates _ _ hnone => exact Or.inl ⟨hs.1, keeps fun hq => by simp [← hq, hnone] at hdir⟩
  | modifies _ _ _ _ _ => exact Or.inl hs
  | commits _ _ _ _ _ _ _ _ _ hnone _ =>
      exact Or.inl ⟨hs.1, keeps fun hq => by simp [← hq, hnone] at hdir⟩
  | drops _ _ _ _ =>
      exact Or.inl ⟨hs.1, keeps fun hq => not_isChunkPath_tempPath _ _ _ (hq ▸ hp)⟩
  | @deletes _ chunkId hcall _ =>
      by_cases hq : pathFor root chunkId = p
      · exact Or.inr ⟨chunkId, hcall, hq.symm⟩
      · exact Or.inl ⟨hs.1, keeps hq⟩
  | publishes _ =>
      refine Or.inl ⟨?_, fun c hc => hs.2 c (List.mem_of_mem_filter hc)⟩
      simp only [FS.syncDir, hp.1, if_true]
      exact hdir

end Step

/-! ## The directory -/

section Directory

variable (B : Blake3) (root : Bytes) (T : ℕ → Invocation σ τ → Prop)

/-- Process `k` is a `Put` whose stream delivers `p`, as its request announces, for the chunk at
    the path. -/
def Version (k : ℕ) (path : Path) (p : Bytes) : Prop :=
  ∃ v request pid address, T k v ∧ v.call = .put request pid address ∧ request.Valid ∧
    path = pathFor root request.chunkId ∧ Accepts B v.input v.source request p

/-- The file of a chunk: linked, synced, and the whole file of a version. -/
structure Published (path : Path) (n : Inode) : Prop where
  linked : n.linked = true
  synced : n.synced = n.data
  version : ∃ p, Version B root T n.owner path p ∧ n.data = chunkFile B p

/-- The file is named by the temporary path of the `Put` that created it. -/
def Tempfile (path : Path) (n : Inode) : Prop :=
  ∃ v request pid address, T n.owner v ∧ v.call = .put request pid address ∧
    path = tempPath root request.chunkId pid address

/-- Every entry, also one that a power failure may bring back, is a chunk or a temporary file. -/
def Tidy (fs : FS) : Prop :=
  ∀ p i, fs.Binds p i → ∃ n, fs.inodes[i]? = some n ∧
    ((Published B root T p n ∧ fs.Fits p) ∨ Tempfile root T p n)

variable {B root T}

theorem Published.isChunkPath {path : Path} {n : Inode} (h : Published B root T path n) :
    IsChunkPath root path := by
  obtain ⟨p, ⟨v, request, pid, address, -, -, -, rfl, -⟩, -⟩ := h.version
  exact isChunkPath_pathFor _

/-- The entry of a chunk is a published one. -/
theorem Tidy.published {fs : FS} (h : Tidy B root T fs) {p : Path} {i : ℕ}
    (hp : IsChunkPath root p) (hb : fs.Binds p i) :
    ∃ n, fs.inodes[i]? = some n ∧ Published B root T p n ∧ fs.Fits p := by
  obtain ⟨n, hn, hpub | ⟨v, request, pid, address, -, -, rfl⟩⟩ := h p i hb
  · exact ⟨n, hn, hpub.1, hpub.2⟩
  · exact absurd hp (not_isChunkPath_tempPath _ _ _)

/-- What a chunk's path shows is the file of a version. -/
theorem Tidy.contents {fs : FS} (h : Tidy B root T fs) {p : Path} (hp : IsChunkPath root p)
    {file : Bytes} (hfile : fs.contents p = some file) :
    ∃ k payload, Version B root T k p payload ∧ file = chunkFile B payload := by
  unfold FS.contents at hfile
  cases hi : fs.dir p with
  | none => simp [hi] at hfile
  | some i =>
      obtain ⟨n, hn, hpub, -⟩ := h.published hp (FS.binds_of_dir hi)
      obtain ⟨payload, hversion, hdata⟩ := hpub.version
      simp only [hi, Option.bind_some, hn, Option.map_some, Option.some.injEq] at hfile
      exact ⟨n.owner, payload, hversion, hfile ▸ hdata⟩

/-- An entry that is there after a step was there before, or is as it should be. -/
theorem StoreStep.binds {k : ℕ} {v : Invocation σ τ} {e : Event StoreSig} {fs fs' : FS}
    (h : StoreStep B root k v e fs fs') (hT : T k v) {p : Path} {i : ℕ} (hb : fs'.Binds p i) :
    fs.Binds p i ∨ ∃ n, fs'.inodes[i]? = some n ∧
      ((Published B root T p n ∧ fs'.Fits p) ∨ Tempfile root T p n) := by
  cases h with
  | looks _ => exact Or.inl hb
  | creates _ hcall _ =>
      rcases hb with hd | hmem
      · exact Or.inl (Or.inl hd)
      · rcases List.mem_cons.1 hmem with heq | hmem
        · obtain ⟨rfl, hi⟩ := Prod.mk.inj heq
          obtain rfl := Option.some.inj hi
          exact Or.inr ⟨Inode.fresh k, by simp, Or.inr ⟨v, _, _, _, hT, hcall, rfl⟩⟩
        · exact Or.inl (Or.inr hmem)
  | modifies _ _ _ _ _ => exact Or.inl hb
  | @commits _ request pid address j n payload hcall hvalid hacc hj hn howner _ hdata hsynced _
      hfits =>
      rcases hb with hd | hmem
      · exact Or.inl (Or.inl hd)
      · rcases List.mem_cons.1 hmem with heq | hmem
        · obtain ⟨rfl, hi⟩ := Prod.mk.inj heq
          obtain rfl := Option.some.inj hi
          refine Or.inr ⟨n.link, by simp [hn], Or.inl ⟨⟨rfl, hsynced, payload, ?_, ?_⟩, hfits⟩⟩
          · exact ⟨v, request, pid, address, howner ▸ hT, hcall, hvalid, rfl, hacc⟩
          · exact hdata.trans hacc.2.chunkFile_eq
        · exact Or.inl (Or.inr hmem)
  | drops _ _ _ _ =>
      rcases hb with hd | hmem
      · exact Or.inl (Or.inl hd)
      · rcases List.mem_cons.1 hmem with heq | hmem
        · simp at heq
        · exact Or.inl (Or.inr hmem)
  | deletes _ _ =>
      rcases hb with hd | hmem
      · exact Or.inl (Or.inl hd)
      · rcases List.mem_cons.1 hmem with heq | hmem
        · simp at heq
        · exact Or.inl (Or.inr hmem)
  | publishes _ =>
      rcases hb with hd | hmem
      · simp only [FS.syncDir] at hd
        split at hd
        · exact Or.inl (FS.binds_of_dir hd)
        · exact Or.inl (Or.inl hd)
      · exact Or.inl (Or.inr (List.mem_of_mem_filter hmem))

/-- **A step of any call keeps the directory tidy.** -/
theorem StoreStep.tidy {k : ℕ} {v : Invocation σ τ} {e : Event StoreSig} {fs fs' : FS}
    (h : StoreStep B root k v e fs fs') (hT : T k v) (htidy : Tidy B root T fs) :
    Tidy B root T fs' := by
  intro p i hb
  rcases h.binds hT hb with hold | hnew
  · obtain ⟨n, hn, hentry⟩ := htidy p i hold
    obtain ⟨n', hn', howner, hsame⟩ := h.file hn
    refine ⟨n', hn', ?_⟩
    rcases hentry with ⟨hpub, hfits⟩ | ⟨u, request, pid, address, hu, hcall, hp⟩
    · rw [hsame (Or.inl hpub.linked)]
      exact Or.inl ⟨hpub, by rw [FS.Fits, h.nameMax]; exact hfits⟩
    · exact Or.inr ⟨u, request, pid, address, by rw [howner]; exact hu, hcall, hp⟩
  · exact hnew

/-- While a chunk stays visible its file stays the same. -/
theorem StoreStep.contents_eq {k : ℕ} {v : Invocation σ τ} {e : Event StoreSig} {fs fs' : FS}
    (h : StoreStep B root k v e fs fs') (htidy : Tidy B root T fs) {p : Path}
    (hp : IsChunkPath root p) {file file' : Bytes} (hfile : fs.contents p = some file)
    (hfile' : fs'.contents p = some file') : file' = file := by
  cases hi : fs.dir p with
  | none => simp [FS.contents, hi] at hfile
  | some i =>
      obtain ⟨n, hn, hpub, -⟩ := htidy.published hp (FS.binds_of_dir hi)
      obtain ⟨n', hn', -, hsame⟩ := h.file hn
      obtain rfl := hsame (Or.inl hpub.linked)
      rcases h.entry hi with hi' | ⟨hno, -⟩ | ⟨chunkId, -, -, hgone⟩
      · simp only [FS.contents, hi, hi', Option.bind_some, hn, hn', Option.map_some,
          Option.some.injEq] at hfile hfile'
        exact hfile'.symm.trans hfile
      · exact absurd hp hno
      · simp [FS.contents, hgone] at hfile'

end Directory

end ChunkStorage
