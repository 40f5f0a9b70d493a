import ChunkStorage.Sharing

set_option autoImplicit false

/-! # Each call among others

The calls of the store, one at a time, under interference by any number of others. `Guarantee` is
what a step of a call does and `Interference` what the others may do between two of its steps; both
are `StoreStep`s. `T` tells which calls run. -/

namespace ChunkStorage

open Effects Posix Program

variable {σ τ : Type} {B : Blake3} {root : Bytes} {T : ℕ → Invocation σ τ → Prop} {j : ℕ}
  {v : Invocation σ τ} {O : ℕ → FS → Prop}
  {ok : (op : StoreSig.Op) → StoreWorld σ τ → Outcome → Prop}

/-- One step of the call `v` of process `j`: interrupted, or a step that leaves an event. -/
def Guarantee (B : Blake3) (root : Bytes) (j : ℕ) (v : Invocation σ τ) (w w' : StoreWorld σ τ) :
    Prop :=
  (w'.trace = w.trace ∧ w'.fs = w.fs) ∨
    ∃ e, w'.trace = e :: w.trace ∧ StoreStep B root j v e w.fs w'.fs

theorem Guarantee.looks {w : StoreWorld σ τ} (s : Syscall) (r : s.Ret) (fds : List OpenFile)
    (h : silent ⟨.inl s, r⟩ = true) : Guarantee B root j v w (w.answered s r fds w.fs) := by
  unfold Guarantee World.answered
  dsimp only
  split
  · exact Or.inl ⟨rfl, rfl⟩
  · exact Or.inr ⟨_, rfl, .looks h⟩

theorem Guarantee.replied {w : StoreWorld σ τ} (op : StreamOp) (r : op.Ret) (rest : σ × τ) :
    Guarantee B root j v w (w.replied op r rest) := Or.inr ⟨_, rfl, .looks rfl⟩

theorem silent_of_looks {s : Syscall} (h : s.looks = true) (r : s.Ret) :
    silent ⟨.inl s, r⟩ = true := by
  cases s with
  | createDirectories _ | pread _ _ _ | fstat _ | openDirectory _ | «exists» _ => rfl
  | openExcl _ | openRead _ | write _ _ | read _ _ | fdatasync _ | link _ _ | unlink _ | fsync _ =>
      exact absurd h (by simp [Syscall.looks])

/-- What the other calls may do to the files between two steps of process `j`. -/
def Interference (B : Blake3) (root : Bytes) (T : ℕ → Invocation σ τ → Prop) (j : ℕ) :
    FS → FS → Prop :=
  Relation.ReflTransGen fun fs fs' => ∃ k v e, k ≠ j ∧ T k v ∧ StoreStep B root k v e fs fs'

/-- What every step of another call keeps is kept by the interference. -/
theorem Interference.keeps {A : FS → Prop} {fs fs' : FS} (hI : Interference B root T j fs fs')
    (hstep : ∀ {k v e fs fs'}, k ≠ j → T k v → StoreStep B root k v e fs fs' → A fs → A fs')
    (hA : A fs) : A fs' := by
  induction hI with
  | refl => exact hA
  | tail _ hlast ih =>
      obtain ⟨k, v, e, hk, hT, hs⟩ := hlast
      exact hstep hk hT hs ih

theorem Tidy.interference {fs fs' : FS} (h : Tidy B root T fs) (hI : Interference B root T j fs fs') :
    Tidy B root T fs' :=
  hI.keeps (fun _ hT hs htidy => hs.tidy hT htidy) h

/-- The process has not created a file yet. -/
def Unborn (j : ℕ) (fs : FS) : Prop := ∀ (i : ℕ) n, fs.inodes[i]? = some n → n.owner ≠ j

theorem Unborn.interference {fs fs' : FS} (h : Unborn j fs) (hI : Interference B root T j fs fs') :
    Unborn j fs' := by
  refine hI.keeps (fun {k _ _ _ _} hk _ hs hunborn => ?_) h
  intro i n' hn'
  rcases hs.owner hn' with ⟨n, hn, howner⟩ | howner
  · rw [howner]
    exact hunborn i n hn
  · rw [howner]
    exact hk

/-! ## The file a `Put` fills -/

/-- The temporary file of process `j`: its own, not linked, holding `d`, and synced if `sync`. -/
structure OwnFile (j : ℕ) (temp : Path) (i : ℕ) (sync : Bool) (d : Bytes) (fs : FS) : Prop where
  entry : fs.dir temp = some i
  file : ∃ n, fs.inodes[i]? = some n ∧ n.owner = j ∧ n.linked = false ∧ n.data = d ∧
    (sync = true → n.synced = n.data)

/-- An entry of a file of process `j` that is no chunk stays. -/
theorem StoreStep.own_entry {k : ℕ} {e : Event StoreSig} {fs fs' : FS} (h : StoreStep B root k v e fs fs')
    (hk : k ≠ j) {p : Path} {i : ℕ} {n : Inode} (hp : ¬ IsChunkPath root p) (hi : fs.dir p = some i)
    (hn : fs.inodes[i]? = some n) (howner : n.owner = j) : fs'.dir p = some i := by
  rcases h.entry hi with hi' | ⟨-, m, hm, hmk⟩ | ⟨chunkId, -, rfl, -⟩
  · exact hi'
  · obtain rfl : m = n := Option.some.inj (hm.symm.trans hn)
    exact absurd (hmk.symm.trans howner) hk
  · exact absurd (isChunkPath_pathFor chunkId) hp

theorem OwnFile.interference {temp : Path} {i : ℕ} {sync : Bool} {d : Bytes} {fs fs' : FS}
    (h : OwnFile j temp i sync d fs) (hp : ¬ IsChunkPath root temp)
    (hI : Interference B root T j fs fs') : OwnFile j temp i sync d fs' := by
  refine hI.keeps (fun {k _ _ _ _} hk _ hs hown => ?_) h
  obtain ⟨n, hn, howner, hfresh, hdata, hsynced⟩ := hown.file
  obtain ⟨n', hn', -, hsame⟩ := hs.file hn
  obtain rfl := hsame (Or.inr (by rw [howner]; exact hk.symm))
  exact ⟨hs.own_entry hk hp hown.entry hn howner, n', hn', howner, hfresh, hdata, hsynced⟩

theorem OwnFile.modify {temp : Path} {i : ℕ} {sync sync' : Bool} {d d' : Bytes} {fs : FS}
    (h : OwnFile j temp i sync d fs) (f : Inode → Inode)
    (hf : ∀ n, (f n).owner = n.owner ∧ (f n).linked = n.linked)
    (hd : ∀ n, n.data = d → (f n).data = d' ∧ (sync' = true → (f n).synced = (f n).data)) :
    OwnFile j temp i sync' d' (fs.modify i f) := by
  obtain ⟨n, hn, howner, hfresh, hdata, -⟩ := h.file
  refine ⟨h.entry, f n, by simp [hn], ?_, ?_, (hd n hdata).1, (hd n hdata).2⟩
  · rw [(hf n).1, howner]
  · rw [(hf n).2, hfresh]

theorem OwnFile.modifies {temp : Path} {i : ℕ} {sync : Bool} {d : Bytes} {fs : FS}
    (h : OwnFile j temp i sync d fs) {e : Event StoreSig} (he : silent e = true) (f : Inode → Inode)
    (hf : ∀ n, (f n).owner = n.owner ∧ (f n).linked = n.linked) :
    StoreStep B root j v e fs (fs.modify i f) := by
  obtain ⟨n, hn, howner, hfresh, -⟩ := h.file
  exact .modifies he hn howner hfresh hf

/-- The state of `Put` while it fills its file through `fd`. -/
structure Working (j : ℕ) (temp : Path) (i fd : ℕ) (sync : Bool) (d : Bytes) (w : StoreWorld σ τ) :
    Prop where
  own : OwnFile j temp i sync d w.fs
  opened : w.fds[fd]? = some ⟨i, d.length⟩

theorem Working.syncs (temp : Path) (hp : ¬ IsChunkPath root temp) (i fd : ℕ) :
    Syncs (Interferes (Interference B root T j) (O j)) (Guarantee B root j v)
      (Working j temp i fd false) (Working j temp i fd true) fd where
  env hw hR := ⟨hw.own.interference hp hR.2.1, by rw [hR.1.1]; exact hw.opened⟩
  opened hw := ⟨_, hw.opened, rfl⟩
  wrote {d w f n} data hw hf hn hmax w' hw' := by
    obtain rfl : ⟨i, d.length⟩ = f := Option.some.inj (hw.opened.symm.trans hf)
    subst hw'
    refine ⟨⟨hw.own.modify _ (fun m => ⟨by simp, by simp⟩) fun m hm => ⟨?_, by simp⟩, ?_⟩,
      Or.inr ⟨_, rfl, hw.own.modifies rfl _ fun m => ⟨by simp, by simp⟩⟩⟩
    · subst hm
      refine m.write_end _ ?_
      rw [List.length_take]
      omega
    · have hlt := (List.getElem?_eq_some_iff.1 hf).1
      simp [hlt, hn]
  refused data r hw hr := ⟨⟨hw.own, hw.opened⟩, Guarantee.looks (.write fd data) r _ rfl⟩
  rest hR := hR.1.2.2
  read size r rest hw := ⟨⟨hw.own, hw.opened⟩, Guarantee.replied (.read size) r rest⟩
  synced {d w f} hw hf w' hw' := by
    obtain rfl : ⟨i, d.length⟩ = f := Option.some.inj (hw.opened.symm.trans hf)
    subst hw'
    refine ⟨⟨hw.own.modify _ (fun m => ⟨rfl, rfl⟩) fun m hm => ⟨hm, fun _ => rfl⟩, hw.opened⟩, ?_⟩
    exact Or.inr ⟨_, rfl, hw.own.modifies rfl _ fun m => ⟨rfl, rfl⟩⟩
  unsynced e hw := ⟨⟨hw.own, hw.opened⟩, Guarantee.looks _ _ _ rfl⟩

/-! ## How a `Put` ends -/

/-- No `Delete` of the chunk runs. -/
def Undeleted (T : ℕ → Invocation σ τ → Prop) (chunkId : ChunkId) : Prop :=
  ∀ k v, T k v → v.call ≠ .delete chunkId

/-- Another `Put` has the same temporary path. -/
def Collides (root : Bytes) (T : ℕ → Invocation σ τ → Prop) (j : ℕ) (temp : Path) : Prop :=
  ∃ k v request pid address, k ≠ j ∧ T k v ∧ v.call = .put request pid address ∧
    temp = tempPath root request.chunkId pid address

/-- The chunk is a file of process `j`, also after any power failure. -/
def Kept (root : Bytes) (j : ℕ) (chunkId : ChunkId) (fs : FS) : Prop :=
  ∃ i n, fs.Settled (pathFor root chunkId) i ∧ fs.inodes[i]? = some n ∧ n.owner = j

/-- What holds when a `Put` has returned. -/
structure PutEnd (B : Blake3) (root : Bytes) (T : ℕ → Invocation σ τ → Prop) (j : ℕ)
    (v : Invocation σ τ) (request : PutChunkRequest) (pid address : ℕ) (status : Status)
    (w : StoreWorld σ τ) : Prop where
  committed : status.ok = true → ∃ e ∈ w.trace, linksTo (pathFor root request.chunkId) e = true
  kept : status.ok = true → Undeleted T request.chunkId → Kept root j request.chunkId w.fs
  code : status.ok = true ∨ ¬ request.Valid ∨ Rejects B v.input v.source request status ∨
    status.code = .kAlreadyExists ∨ status.code = .kIoError ∨
    Collides root T j (tempPath root request.chunkId pid address)

/-- A `Put` that fails has nothing to answer for but its code. -/
theorem PutEnd.failed {request : PutChunkRequest} {pid address : ℕ} {status : Status}
    {w : StoreWorld σ τ} (hno : status.ok = false)
    (hcode : ¬ request.Valid ∨ Rejects B v.input v.source request status ∨
      status.code = .kAlreadyExists ∨ status.code = .kIoError ∨
      Collides root T j (tempPath root request.chunkId pid address)) :
    PutEnd B root T j v request pid address status w where
  committed h := absurd h (by simp [hno])
  kept h := absurd h (by simp [hno])
  code := Or.inr hcode

theorem PutEnd.interference {request : PutChunkRequest} {pid address : ℕ} {status : Status}
    {w : StoreWorld σ τ} {fs' : FS} (h : PutEnd B root T j v request pid address status w)
    (hI : Interference B root T j w.fs fs') :
    PutEnd B root T j v request pid address status ⟨w.fds, fs', w.trace, w.rest⟩ where
  committed := h.committed
  kept hok hun := by
    refine hI.keeps (A := Kept root j request.chunkId) ?_ (h.kept hok hun)
    intro k u e fs fs' _ hT hs hkept
    obtain ⟨i, n, hset, hn, howner⟩ := hkept
    obtain ⟨n', hn', howner', -⟩ := hs.file hn
    rcases hs.settled (isChunkPath_pathFor _) hset with hset' | ⟨chunkId, hcall, hpath⟩
    · exact ⟨i, n', hset', hn', howner'.trans howner⟩
    · obtain rfl := pathFor_injective hpath
      exact absurd hcall (hun _ _ hT)
  code := h.code

/-- The file of process `j` after the commit: under its temporary name if `kept`, and under the
    chunk's unless that may be deleted. -/
structure Committed (root : Bytes) (T : ℕ → Invocation σ τ → Prop) (j : ℕ) (chunkId : ChunkId)
    (temp : Path) (kept : Bool) (i : ℕ) (fs : FS) : Prop where
  entry : kept = true → fs.dir temp = some i
  file : ∃ n, fs.inodes[i]? = some n ∧ n.owner = j
  visible : Undeleted T chunkId → fs.dir (pathFor root chunkId) = some i

theorem Committed.interference {chunkId : ChunkId} {temp : Path} {kept : Bool} {i : ℕ} {fs fs' : FS}
    (h : Committed root T j chunkId temp kept i fs) (hp : ¬ IsChunkPath root temp)
    (hI : Interference B root T j fs fs') : Committed root T j chunkId temp kept i fs' := by
  refine hI.keeps (fun {k _ _ _ _} hk hT hs hcom => ?_) h
  obtain ⟨n, hn, howner⟩ := hcom.file
  obtain ⟨n', hn', howner', -⟩ := hs.file hn
  refine ⟨fun hkept => hs.own_entry hk hp (hcom.entry hkept) hn howner,
    ⟨n', hn', howner'.trans howner⟩, fun hun => ?_⟩
  rcases hs.entry (hcom.visible hun) with hi' | ⟨hno, -⟩ | ⟨other, hcall, hpath, -⟩
  · exact hi'
  · exact absurd (isChunkPath_pathFor chunkId) hno
  · obtain rfl := pathFor_injective hpath
    exact absurd hcall (hun _ _ hT)

theorem Committed.drop {chunkId : ChunkId} {temp : Path} {i : ℕ} {fs : FS}
    (h : Committed root T j chunkId temp true i fs) (hne : temp ≠ pathFor root chunkId) :
    Committed root T j chunkId temp false i (fs.remove temp) where
  entry hkept := absurd hkept (by simp)
  file := h.file
  visible hun := by rw [FS.remove_dir, if_neg hne]; exact h.visible hun

/-- After the directory is synced the chunk is there to stay. -/
theorem Committed.kept {chunkId : ChunkId} {temp : Path} {kept : Bool} {i : ℕ} {fs : FS}
    (h : Committed root T j chunkId temp kept i fs) (hun : Undeleted T chunkId) :
    Kept root j chunkId (fs.syncDir root) := by
  obtain ⟨n, hn, howner⟩ := h.file
  refine ⟨i, n, ⟨?_, ?_⟩, hn, howner⟩
  · have hdir : (pathFor root chunkId).dir = root := rfl
    simp only [FS.syncDir, hdir, if_true]
    exact h.visible hun
  · intro c hc hp
    have hkeep := (List.mem_filter.1 hc).2
    simp [hp, pathFor] at hkeep

section Put

variable {request : PutChunkRequest} {pid address : ℕ}

/-- The cleanup of a `Put`: its temporary name goes, unless the call fails. -/
theorem drop_step (hcall : v.call = .put request pid address) {w₁ w₂ : StoreWorld σ τ} {i : ℕ}
    {n : Inode} (hi : w₁.fs.dir (tempPath root request.chunkId pid address) = some i)
    (hn : w₁.fs.inodes[i]? = some n) (howner : n.owner = j) {r : Except Errno Unit}
    (hH : (v.handler j).sem ok (.inl (.unlink (tempPath root request.chunkId pid address))) w₁ r w₂) :
    Guarantee B root j v w₁ w₂ ∧ (∃ e, w₂.trace = e :: w₁.trace) ∧
      (w₂.fs = w₁.fs ∨ w₂.fs = w₁.fs.remove (tempPath root request.chunkId pid address)) := by
  obtain ⟨o, fds', fs', hok, hexec, rfl⟩ := World.sem_sys hH
  obtain ⟨rfl, ⟨e, rfl, rfl, -⟩ | ⟨i', hi', rfl, rfl⟩⟩ := unlink_cases hexec
  · exact ⟨Guarantee.looks _ _ _ rfl, ⟨_, rfl⟩, Or.inl rfl⟩
  · exact ⟨Or.inr ⟨_, rfl, .drops hcall hi hn howner⟩, ⟨_, rfl⟩, Or.inr rfl⟩

/-- The commit among other calls. -/
theorem commit_safe (hcall : v.call = .put request pid address) (hvalid : request.Valid) {p : Bytes}
    (hacc : Accepts B v.input v.source request p) {i fd : ℕ} {w : StoreWorld σ τ}
    (hw : Working j (tempPath root request.chunkId pid address) i fd true
      (makeHeader request.expectedSize request.expectedChecksum ++ p) w) :
    (commit root request (tempPath root request.chunkId pid address)).Safe ((v.handler j).sem ok)
      (Interferes (Interference B root T j) (O j)) (Guarantee B root j v)
      (PutEnd B root T j v request pid address) w := by
  have hp : ¬ IsChunkPath root (tempPath root request.chunkId pid address) :=
    not_isChunkPath_tempPath _ _ _
  have hne := tempPath_ne_pathFor root request.chunkId request.chunkId pid address
  unfold commit
  refine safe_perform.2 fun w₁ hR r w₂ hH => ?_
  have hown := hw.own.interference hp hR.2.1
  obtain ⟨n, hn, howner, hfresh, hdata, hsynced⟩ := hown.file
  obtain ⟨o, fds', fs', hok, hexec, rfl⟩ := World.sem_sys hH
  obtain ⟨rfl, ⟨e, rfl, rfl, -⟩ | ⟨i', hi', hfree, hfits, rfl, rfl⟩⟩ := link_cases hexec
  · -- the link failed, so the file is dropped
    refine ⟨Guarantee.looks _ _ _ rfl, safe_perform.2 fun w₃ hR r w₄ hH => ?_⟩
    have hown' := hown.interference hp hR.2.1
    obtain ⟨n', hn', howner', -⟩ := hown'.file
    obtain ⟨hG, -, -⟩ := drop_step hcall hown'.entry hn' howner' hH
    refine ⟨hG, ?_⟩
    by_cases he : e = .EEXIST
    · simp only [if_pos he]
      exact .failed rfl (Or.inr (Or.inr (Or.inl rfl)))
    · simp only [if_neg he]
      exact .failed rfl (Or.inr (Or.inr (Or.inr (Or.inl rfl))))
  · obtain rfl : i = i' := Option.some.inj (hown.entry.symm.trans hi')
    have hcommitted : Committed root T j request.chunkId
        (tempPath root request.chunkId pid address) true i
        (w₁.fs.bind (pathFor root request.chunkId) i (w₁.fs.dir_lt hi')) := by
      refine ⟨fun _ => ?_, ⟨n.link, by simp [hn], howner⟩, fun _ => by simp⟩
      rw [FS.bind_dir, if_neg hne.symm]
      exact hi'
    refine ⟨Or.inr ⟨_, rfl, .commits hcall hvalid hacc hi' hn howner hfresh hdata (hsynced rfl) hfree
      hfits⟩, safe_perform.2 fun w₃ hR r w₄ hH => ?_⟩
    obtain ⟨⟨-, htrace, -⟩, hI, -⟩ := hR
    have hcommitted' := hcommitted.interference hp hI
    obtain ⟨n', hn', howner'⟩ := hcommitted'.file
    obtain ⟨hG, ⟨e, htrace'⟩, hfs⟩ := drop_step hcall (hcommitted'.entry rfl) hn' howner' hH
    -- from here on the temporary name does not matter
    have hdropped : Committed root T j request.chunkId
        (tempPath root request.chunkId pid address) false i w₄.fs := by
      rcases hfs with hfs | hfs
      · rw [hfs]
        exact ⟨fun h => absurd h (by simp), hcommitted'.file, hcommitted'.visible⟩
      · rw [hfs]
        exact hcommitted'.drop hne
    refine ⟨hG, safe_perform.2 fun w₅ hR r w₆ hH => ?_⟩
    obtain ⟨⟨-, htrace₅, -⟩, hI₅, -⟩ := hR
    obtain ⟨o', fds', fs', hok', hexec', rfl⟩ := World.sem_sys hH
    obtain ⟨rfl, rfl, ⟨e', rfl, -⟩ | rfl⟩ := openDirectory_cases hexec'
    · exact ⟨Guarantee.looks _ _ _ rfl, .failed rfl (Or.inr (Or.inr (Or.inr (Or.inl rfl))))⟩
    · refine ⟨Guarantee.looks _ _ _ rfl, safe_perform.2 fun w₇ hR r w₈ hH => ?_⟩
      obtain ⟨⟨-, htrace₇, -⟩, hI₇, -⟩ := hR
      obtain ⟨o'', fds', fs', hok'', hexec'', rfl⟩ := World.sem_sys hH
      obtain ⟨rfl, ⟨e', rfl, rfl, -⟩ | ⟨rfl, rfl⟩⟩ := fsync_cases hexec''
      · exact ⟨Guarantee.looks _ _ _ rfl, .failed rfl (Or.inr (Or.inr (Or.inr (Or.inl rfl))))⟩
      · have hlast := (hdropped.interference hp hI₅).interference hp hI₇
        refine ⟨Or.inr ⟨_, rfl, .publishes rfl⟩, ⟨fun _ => ?_, fun _ => hlast.kept, Or.inl rfl⟩⟩
        -- the event of the link is still in the trace
        refine ⟨⟨.inl (.link (tempPath root request.chunkId pid address)
          (pathFor root request.chunkId)), .ok ()⟩, List.mem_cons_of_mem _ ?_, decide_eq_true rfl⟩
        rw [htrace₇]
        refine List.mem_cons_of_mem _ ?_
        rw [htrace₅, htrace', htrace]
        exact List.mem_cons_of_mem _ List.mem_cons_self

/-- **`Put` among other calls.** -/
theorem put_safe (hcall : v.call = .put request pid address) {w : StoreWorld σ τ}
    (htidy : Tidy B root T w.fs) (hunborn : Unborn j w.fs) (hsource : w.rest.1 = v.source) :
    (put B root request pid address).Safe ((v.handler j).sem ok)
      (Interferes (Interference B root T j) (O j)) (Guarantee B root j v)
      (PutEnd B root T j v request pid address) w := by
  have hp : ¬ IsChunkPath root (tempPath root request.chunkId pid address) :=
    not_isChunkPath_tempPath _ _ _
  unfold put
  by_cases hid : (validateId request.chunkId).ok = true
  · by_cases hsum : request.expectedChecksum.WellFormed
    · have hvalid : request.Valid := ⟨hid, hsum⟩
      simp only [hid, (validateChecksum_ok _).2 hsum, Bool.not_true, Bool.false_eq_true, if_false]
      refine safe_perform.2 fun w₁ hR r w₂ hH => ?_
      obtain ⟨⟨-, -, hrest⟩, hI, -⟩ := hR
      obtain ⟨o, fds', fs', hok, hexec, rfl⟩ := World.sem_sys hH
      obtain ⟨rfl, rfl, ⟨e, rfl, -⟩ | rfl⟩ := createDirectories_cases hexec
      · exact ⟨Guarantee.looks _ _ _ rfl, .failed rfl (Or.inr (Or.inr (Or.inr (Or.inl rfl))))⟩
      · refine ⟨Guarantee.looks _ _ _ rfl, safe_perform.2 fun w₃ hR r w₄ hH => ?_⟩
        obtain ⟨⟨-, -, hrest₃⟩, hI₃, -⟩ := hR
        have htidy₃ := (htidy.interference hI).interference hI₃
        have hunborn₃ := (hunborn.interference hI).interference hI₃
        obtain ⟨o', fds', fs', hok', hexec', rfl⟩ := World.sem_sys hH
        rcases openExcl_cases hexec' with ⟨e, rfl, rfl, rfl, hexists, -⟩ | ⟨rfl, rfl, rfl, hnone, -⟩
        · refine ⟨Guarantee.looks _ _ _ rfl, ?_⟩
          by_cases he : e = .EEXIST
          · simp only [if_pos he]
            -- the file in the way is a temporary file, and not of this process
            obtain ⟨i, hi⟩ := Option.ne_none_iff_exists'.1 (hexists he)
            obtain ⟨n, hn, ⟨hpub, -⟩ | ⟨u, request', pid', address', hu, hput, htemp⟩⟩ :=
              htidy₃ _ i (FS.binds_of_dir hi)
            · exact absurd hpub.isChunkPath hp
            · exact .failed rfl (Or.inr (Or.inr (Or.inr (Or.inr
                ⟨n.owner, u, request', pid', address', hunborn₃ i n hn, hu, hput, htemp⟩))))
          · simp only [if_neg he]
            exact .failed rfl (Or.inr (Or.inr (Or.inr (Or.inl rfl))))
        · refine ⟨Or.inr ⟨_, rfl, .creates rfl hcall hnone⟩, ?_⟩
          have hstart : Working j (tempPath root request.chunkId pid address) w₃.fs.inodes.length
              w₃.fds.length false [] (w₃.answered (.openExcl (tempPath root request.chunkId pid
                address)) (.ok w₃.fds.length) (w₃.fds ++ [⟨w₃.fs.inodes.length, 0⟩])
                (w₃.fs.create (tempPath root request.chunkId pid address) j)) :=
            ⟨⟨by simp, Inode.fresh j, by simp, rfl, rfl, rfl, by simp⟩, by simp⟩
          have hstream : w₃.rest.1 = v.source := by
            rw [hrest₃, World.answered_rest, hrest, hsource]
          refine safe_bind.2 ((fill_safe B request (Working.syncs _ hp _ _) hstart).imp ?_)
          rw [World.answered_rest, hstream]
          rintro r w₅ (⟨p, rfl, hacc, hfilled⟩ | ⟨status, rfl, ⟨d, hfilled⟩, hreason⟩)
          · exact commit_safe hcall hvalid hacc hfilled
          · refine safe_perform.2 fun w₆ hR r w₇ hH => ?_
            have hown := hfilled.own.interference hp hR.2.1
            obtain ⟨n, hn, howner, -⟩ := hown.file
            obtain ⟨hG, -, -⟩ := drop_step hcall hown.entry hn howner hH
            refine ⟨hG, .failed ?_ ?_⟩
            · rcases hreason with hrej | ⟨hio, -⟩
              · exact hrej.not_ok
              · simp [Status.ok, hio]
            · rcases hreason with hrej | ⟨hio, -⟩
              · exact Or.inr (Or.inl hrej)
              · exact Or.inr (Or.inr (Or.inr (Or.inl hio)))
    · have hno : (validateChecksum request.expectedChecksum).ok = false := by
        simpa using fun h => hsum ((validateChecksum_ok _).1 h)
      simp only [hid, hno, Bool.not_true, Bool.not_false, Bool.false_eq_true, if_false, if_true]
      exact .failed hno (Or.inl fun h => hsum h.2)
  · have hno : (validateId request.chunkId).ok = false := by simpa using hid
    simp only [hno, Bool.not_false, if_true]
    exact .failed hno (Or.inl fun h => hid h.1)

end Put

/-! ## Calls that read or delete -/

/-- A call that reads: the directory is tidy, the moment is one of the call, and the bytes `e` were
    handed out. -/
structure Watching (B : Blake3) (root : Bytes) (T : ℕ → Invocation σ τ → Prop) (O : FS → Prop)
    (e : Bytes) (w : StoreWorld σ τ) : Prop where
  tidy : Tidy B root T w.fs
  under : O w.fs
  handed : ChunkStorage.handed w.trace = e

/-- The same with a descriptor open on a file that was linked, so nobody writes it. -/
structure WatchingFile (B : Blake3) (root : Bytes) (T : ℕ → Invocation σ τ → Prop) (O : FS → Prop)
    (e : Bytes) (fd : ℕ) (file : Bytes) (w : StoreWorld σ τ) : Prop where
  watching : Watching B root T O e w
  opened : ∃ f n, w.fds[fd]? = some f ∧ w.fs.inodes[f.ino]? = some n ∧ n.linked = true ∧
    n.data = file

theorem Watching.interference {e : Bytes} {w w' : StoreWorld σ τ} (h : Watching B root T (O j) e w)
    (hR : Interferes (Interference B root T j) (O j) w w') : Watching B root T (O j) e w' :=
  ⟨h.tidy.interference hR.2.1, hR.2.2, by rw [hR.1.2.1]; exact h.handed⟩

theorem WatchingFile.interference {e : Bytes} {fd : ℕ} {file : Bytes} {w w' : StoreWorld σ τ}
    (h : WatchingFile B root T (O j) e fd file w)
    (hR : Interferes (Interference B root T j) (O j) w w') :
    WatchingFile B root T (O j) e fd file w' := by
  refine ⟨h.watching.interference hR, ?_⟩
  obtain ⟨f, n, hf, hn, hlinked, hdata⟩ := h.opened
  refine ⟨f, n, by rw [hR.1.1]; exact hf, ?_, hlinked, hdata⟩
  refine hR.2.1.keeps (A := fun fs => fs.inodes[f.ino]? = some n) (fun _ _ hs hn => ?_) hn
  obtain ⟨n', hn', -, hsame⟩ := hs.file hn
  rw [hn', hsame (Or.inl hlinked)]

theorem WatchingFile.quiet (e : Bytes) (fd : ℕ) (file : Bytes) :
    World.Quiet (Interferes (Interference B root T j) (O j)) (Guarantee B root j v)
      (WatchingFile B root T (O j) e fd file) where
  env hw hR := hw.interference hR
  looks s r hs hw := by
    refine ⟨⟨⟨hw.watching.tidy, hw.watching.under, ?_⟩, hw.opened⟩,
      Guarantee.looks s r _ (silent_of_looks hs r)⟩
    rw [handed_answered]
    exact hw.watching.handed

theorem WatchingFile.reads (e : Bytes) (fd : ℕ) (file : Bytes) :
    Reads (WatchingFile B root T (O j) e fd file) fd file := by
  intro w hw
  obtain ⟨f, n, hf, hn, -, hdata⟩ := hw.opened
  exact ⟨f, n, hf, hn, hdata⟩

theorem WatchingFile.hands (fd : ℕ) (file : Bytes) :
    Hands (Guarantee B root j v) fun e => WatchingFile B root T (O j) e fd file := by
  intro e w data status rest hw
  refine ⟨⟨⟨hw.watching.tidy, hw.watching.under, ?_⟩, hw.opened⟩,
    Guarantee.replied (.write data) status rest⟩
  rw [World.replied_trace, handed_write, hw.watching.handed]

theorem Watching.opening (e : Bytes) (chunkId : ChunkId) :
    Opening (Interferes (Interference B root T j) (O j)) (Guarantee B root j v)
      (pathFor root chunkId) (Watching B root T (O j) e) (WatchingFile B root T (O j) e) where
  env hw hR := hw.interference hR
  failed er hw := by
    refine ⟨⟨hw.tidy, hw.under, ?_⟩, Guarantee.looks (.openRead _) _ _ rfl⟩
    rw [handed_answered]
    exact hw.handed
  opened {w i n} hw hi hn w' hw' := by
    subst hw'
    obtain ⟨m, hm, hpub, -⟩ := hw.tidy.published (isChunkPath_pathFor chunkId) (FS.binds_of_dir hi)
    obtain rfl : n = m := Option.some.inj (hn.symm.trans hm)
    refine ⟨⟨⟨hw.tidy, hw.under, ?_⟩, ⟨i, 0⟩, n, by simp, hn, hpub.linked, rfl⟩,
      Guarantee.looks (.openRead _) _ _ rfl⟩
    rw [handed_answered]
    exact hw.handed
  quiet := WatchingFile.quiet e
  reads := WatchingFile.reads e

/-- A second descriptor on the same path. -/
theorem WatchingFile.opening (fd : ℕ) (file : Bytes) (chunkId : ChunkId) :
    Opening (Interferes (Interference B root T j) (O j)) (Guarantee B root j v)
      (pathFor root chunkId) (WatchingFile B root T (O j) [] fd file)
      (WatchingFile B root T (O j) []) where
  env hw hR := hw.interference hR
  failed er hw := by
    obtain ⟨hwatch, hG⟩ := (Watching.opening (B := B) (v := v) [] chunkId).failed er hw.watching
    exact ⟨⟨hwatch, hw.opened⟩, hG⟩
  opened hw hi hn w' hw' := (Watching.opening [] chunkId).opened hw.watching hi hn w' hw'
  quiet := WatchingFile.quiet []
  reads := WatchingFile.reads []

/-- `Head` among other calls. -/
theorem head_shared (chunkId : ChunkId) {w : StoreWorld σ τ} (hw : Watching B root T (O j) [] w) :
    (head root chunkId).Safe ((v.handler j).sem ok)
      (Interferes (Interference B root T j) (O j)) (Guarantee B root j v)
      (HeadDone ok root chunkId (Watching B root T (O j) []) (WatchingFile B root T (O j) [])) w :=
  head_safe (Watching.opening [] chunkId) hw

/-- `Get` among other calls. -/
theorem get_shared (request : GetChunkRequest) {w : StoreWorld σ τ}
    (hw : Watching B root T (O j) [] w) :
    (get root request).Safe ((v.handler j).sem ok)
      (Interferes (Interference B root T j) (O j)) (Guarantee B root j v)
      (GetDone ok v.output root request (Watching B root T (O j) [])
        (WatchingFile B root T (O j) []) (WatchingFile B root T (O j))) w :=
  get_safe (Watching.opening [] _) (fun fd file => WatchingFile.opening fd file _)
    WatchingFile.quiet WatchingFile.reads WatchingFile.hands hw

/-- `Delete` among other calls. -/
theorem delete_shared {chunkId : ChunkId} (hcall : v.call = .delete chunkId) {w : StoreWorld σ τ} :
    (delete root chunkId).Safe ((v.handler j).sem ok)
      (Interferes (Interference B root T j) (O j)) (Guarantee B root j v) (fun _ _ => True) w := by
  unfold delete
  by_cases hid : (validateId chunkId).ok = true
  · simp only [hid, Bool.not_true, Bool.false_eq_true, if_false]
    refine safe_perform.2 fun w₁ _ r w₂ hH => ?_
    obtain ⟨o, fds', fs', hok, hexec, rfl⟩ := World.sem_sys hH
    obtain ⟨rfl, ⟨e, rfl, rfl, -⟩ | ⟨i, hi, rfl, rfl⟩⟩ := unlink_cases hexec
    · exact ⟨Guarantee.looks _ _ _ rfl, trivial⟩
    · exact ⟨Or.inr ⟨_, rfl, .deletes hcall (by simp [hi])⟩, trivial⟩
  · have hno : (validateId chunkId).ok = false := by simpa using hid
    simp only [hno, Bool.not_false, if_true]
    exact trivial

end ChunkStorage
