import ChunkStorage.Interleaving

set_option autoImplicit false

/-! # How a `Put` ends among other calls

`PutEnd` says what a `Put` has done when it returns. Here is why it returns what it returns: which
moment of the call the answer is about, and that the temporary name is given up on every way out. -/

namespace ChunkStorage

open Effects Posix Program

variable {σ τ : Type} {B : Blake3} {root : Bytes} {T : ℕ → Invocation σ τ → Prop} {j : ℕ}
  {v : Invocation σ τ} {O : ℕ → FS → Prop}
  {ok : (op : StoreSig.Op) → StoreWorld σ τ → Outcome → Prop}

/-- Why a `Put` among other calls returns the status. The file systems are those of moments at which
    it was under way. -/
inductive PutAnswer (ok : (op : StoreSig.Op) → StoreWorld σ τ → Outcome → Prop) (B : Blake3)
    (root : Bytes) (O : FS → Prop) (j : ℕ) (v : Invocation σ τ) (request : PutChunkRequest)
    (temp : Path) (status : Status) : Prop
  | invalid : ¬ request.Valid → status.code = .kInvalidArgument →
      PutAnswer ok B root O j v request temp status
  /-- The temporary name was taken by a file of somebody else. -/
  | collided {fs : FS} {i : ℕ} {n : Inode} : request.Valid → O fs → fs.dir temp = some i →
      fs.inodes[i]? = some n → n.owner ≠ j → PutAnswer ok B root O j v request temp status
  | rejected : request.Valid → Rejects B v.input v.source request status →
      PutAnswer ok B root O j v request temp status
  /-- The chunk was there when it was to be committed. -/
  | present {fs : FS} {p : Bytes} : request.Valid → Accepts B v.input v.source request p → O fs →
      fs.dir (pathFor root request.chunkId) ≠ none → status.code = .kAlreadyExists →
      PutAnswer ok B root O j v request temp status
  | stored {p : Bytes} : request.Valid → Accepts B v.input v.source request p → status = .Ok →
      PutAnswer ok B root O j v request temp status
  | faulty {fs : FS} : request.Valid → O fs → status.code = .kIoError →
      ¬ (World.NeverFails ok ∧ fs.Fits temp) → PutAnswer ok B root O j v request temp status

/-- The temporary name leads to no file of process `j`, unless it could not be removed. -/
def Vacated (ok : (op : StoreSig.Op) → StoreWorld σ τ → Outcome → Prop) (j : ℕ) (temp : Path)
    (w : StoreWorld σ τ) : Prop :=
  (w.trace.any unlinkFailed = true ∧ ¬ (World.NeverFails ok ∧ w.fs.Fits temp)) ∨
    ∀ i n, w.fs.dir temp = some i → w.fs.inodes[i]? = some n → n.owner ≠ j

/-- An entry that appears leads to a file of the process that made it appear. -/
theorem StoreStep.appears {k : ℕ} {e : Event StoreSig} {fs fs' : FS} (h : StoreStep B root k v e fs fs')
    {p : Path} {i : ℕ} (hi : fs'.dir p = some i) :
    fs.dir p = some i ∨ ∃ n, fs'.inodes[i]? = some n ∧ n.owner = k := by
  cases h with
  | looks _ => exact Or.inl hi
  | @creates _ _ request pid address _ _ _ =>
      rw [FS.create_dir] at hi
      split at hi
      · obtain rfl := Option.some.inj hi
        exact Or.inr ⟨Inode.fresh k, by simp, rfl⟩
      · exact Or.inl hi
  | modifies _ _ _ _ _ => exact Or.inl hi
  | @commits _ request pid address i' n _ _ _ _ _ hn howner _ _ _ _ _ =>
      rw [FS.bind_dir] at hi
      split at hi
      · obtain rfl := Option.some.inj hi
        exact Or.inr ⟨n.link, by simp [hn], howner⟩
      · exact Or.inl hi
  | drops _ _ _ _ =>
      rw [FS.remove_dir] at hi
      split at hi
      · exact absurd hi (by simp)
      · exact Or.inl hi
  | deletes _ _ =>
      rw [FS.remove_dir] at hi
      split at hi
      · exact absurd hi (by simp)
      · exact Or.inl hi
  | publishes _ =>
      rw [FS.syncDir_dir] at hi
      exact Or.inl hi

/-- Files of others may take the name. -/
theorem Vacated.interference {temp : Path} {w : StoreWorld σ τ} {fs' : FS} (h : Vacated ok j temp w)
    (hI : Interference B root T j w.fs fs') : Vacated ok j temp ⟨w.fds, fs', w.trace, w.rest⟩ := by
  rcases h with ⟨hfailed, hfault⟩ | hfree
  · refine Or.inl ⟨hfailed, ?_⟩
    refine hI.keeps (A := fun fs => ¬ (World.NeverFails ok ∧ fs.Fits temp)) ?_ hfault
    intro k u e fs fs' _ _ hs hfault
    rwa [FS.Fits, hs.nameMax]
  · right
    refine hI.keeps (A := fun fs => ∀ i n, fs.dir temp = some i → fs.inodes[i]? = some n →
      n.owner ≠ j) ?_ hfree
    intro k u e fs fs' hk _ hs hfree i n' hi hn'
    rcases hs.appears hi with hold | ⟨n, hn, howner⟩
    · obtain ⟨n, hn⟩ := fs.dir_eq_some hold
      obtain ⟨n₁, hn₁, howner, -⟩ := hs.file hn
      obtain rfl : n₁ = n' := Option.some.inj (hn₁.symm.trans hn')
      rw [howner]
      exact hfree i n hold hn
    · obtain rfl : n = n' := Option.some.inj (hn.symm.trans hn')
      rw [howner]
      exact hk

/-- A call of the process itself that moves no entry. -/
theorem Vacated.answered {temp : Path} {w : StoreWorld σ τ} (h : Vacated ok j temp w) (s : Syscall)
    (r : s.Ret) (fds : List OpenFile) {fs' : FS} (hdir : fs'.dir temp = w.fs.dir temp)
    (hinodes : fs'.inodes = w.fs.inodes) (hmax : fs'.nameMax = w.fs.nameMax) :
    Vacated ok j temp (w.answered s r fds fs') := by
  rcases h with ⟨hfailed, hfault⟩ | hfree
  · refine Or.inl ⟨?_, by rwa [World.answered_fs, FS.Fits, hmax]⟩
    unfold World.answered
    dsimp only
    split
    · exact hfailed
    · rw [List.any_cons, hfailed, Bool.or_true]
  · right
    intro i n hi hn
    exact hfree i n (hdir ▸ hi) (hinodes ▸ hn)

section Put

variable {request : PutChunkRequest} {pid address : ℕ}

/-- The chunk is the file of the request and the payload, also after any power failure. -/
def Lasting (root : Bytes) (request : PutChunkRequest) (p : Bytes) (fs : FS) : Prop :=
  ∃ i n, fs.Settled (pathFor root request.chunkId) i ∧ fs.inodes[i]? = some n ∧ n.linked = true ∧
    n.synced = n.data ∧ n.data = makeHeader request.expectedSize request.expectedChecksum ++ p

theorem Lasting.interference {p : Bytes} {fs fs' : FS} (h : Lasting root request p fs)
    (hun : Undeleted T request.chunkId) (hI : Interference B root T j fs fs') :
    Lasting root request p fs' := by
  refine hI.keeps (A := Lasting root request p) ?_ h
  intro k u e fs fs' _ hT hs hlasting
  obtain ⟨i, n, hset, hn, hlinked, hsynced, hdata⟩ := hlasting
  obtain ⟨n', hn', -, hsame⟩ := hs.file hn
  obtain rfl := hsame (Or.inl hlinked)
  rcases hs.settled (isChunkPath_pathFor _) hset with hset' | ⟨chunkId, hcall, hpath⟩
  · exact ⟨i, n', hset', hn', hlinked, hsynced, hdata⟩
  · obtain rfl := pathFor_injective hpath
    exact absurd hcall (hun _ _ hT)

/-- What a lasting chunk shows, now and after a power failure. -/
theorem Lasting.contents {p : Bytes} {fs : FS} (h : Lasting root request p fs) :
    fs.contents (pathFor root request.chunkId)
        = some (makeHeader request.expectedSize request.expectedChecksum ++ p) ∧
      ∀ fs', fs.Crash fs' → fs'.contents (pathFor root request.chunkId)
        = some (makeHeader request.expectedSize request.expectedChecksum ++ p) := by
  obtain ⟨i, n, hset, hn, -, hsynced, hdata⟩ := h
  refine ⟨by simp [FS.contents, hset.dir, hn, hdata], fun fs' hcrash => ?_⟩
  have hn' : fs'.inodes[i]? = some n.crash := by
    rw [hcrash.inodes, List.getElem?_map, hn]
    rfl
  simp only [FS.contents, hset.crash hcrash, Option.bind_some, hn', Option.map_some, Inode.crash, hsynced,
    hdata]

/-- The cleanup of a `Put` removes its temporary name, or fails. -/
theorem drop_vacates (hcall : v.call = .put request pid address) {w₁ w₂ : StoreWorld σ τ} {i : ℕ}
    {n : Inode} (hi : w₁.fs.dir (tempPath root request.chunkId pid address) = some i)
    (hn : w₁.fs.inodes[i]? = some n) (howner : n.owner = j) {r : Except Errno Unit}
    (hH : (v.handler j).sem ok (.inl (.unlink (tempPath root request.chunkId pid address))) w₁ r w₂) :
    Guarantee B root j v w₁ w₂ ∧ Vacated ok j (tempPath root request.chunkId pid address) w₂ ∧
      (w₂.fs = w₁.fs ∨ w₂.fs = w₁.fs.remove (tempPath root request.chunkId pid address)) := by
  obtain ⟨hG, -, hfs⟩ := drop_step (B := B) hcall hi hn howner hH
  refine ⟨hG, ?_, hfs⟩
  obtain ⟨o, fds', fs', hok, hexec, rfl⟩ := World.sem_sys hH
  obtain ⟨rfl, ⟨e, rfl, rfl, hmissing, hcalm⟩ | ⟨i', hi', rfl, rfl⟩⟩ := unlink_cases hexec
  · refine Or.inl ⟨rfl, fun hnever => ?_⟩
    have hnone := hmissing (hcalm (hnever.1 _ _ _ hok).1 hnever.2)
    rw [hi] at hnone
    exact absurd hnone (by simp)
  · right
    intro k m hk
    rw [World.answered_fs, FS.remove_dir, if_pos rfl] at hk
    exact absurd hk (by simp)

/-- What is proved of a `Put` that has returned. -/
structure PutLeaves (ok : (op : StoreSig.Op) → StoreWorld σ τ → Outcome → Prop) (B : Blake3)
    (root : Bytes) (T : ℕ → Invocation σ τ → Prop) (O : FS → Prop) (j : ℕ) (v : Invocation σ τ)
    (request : PutChunkRequest) (pid address : ℕ) (status : Status) (w : StoreWorld σ τ) : Prop where
  answer : PutAnswer ok B root O j v request (tempPath root request.chunkId pid address) status
  vacated : Vacated ok j (tempPath root request.chunkId pid address) w
  lasting : status.ok = true → Undeleted T request.chunkId →
    ∃ p, Accepts B v.input v.source request p ∧ Lasting root request p w.fs

/-- A `Put` that fails leaves nothing to last. -/
theorem PutLeaves.failed {O : FS → Prop} {status : Status} {w : StoreWorld σ τ} (hno : status.ok = false)
    (hanswer : PutAnswer ok B root O j v request (tempPath root request.chunkId pid address) status)
    (hvacated : Vacated ok j (tempPath root request.chunkId pid address) w) :
    PutLeaves ok B root T O j v request pid address status w where
  answer := hanswer
  vacated := hvacated
  lasting hok := absurd hok (by simp [hno])

theorem PutLeaves.interference {O : FS → Prop} {status : Status} {w : StoreWorld σ τ} {fs' : FS}
    (h : PutLeaves ok B root T O j v request pid address status w)
    (hI : Interference B root T j w.fs fs') :
    PutLeaves ok B root T O j v request pid address status ⟨w.fds, fs', w.trace, w.rest⟩ where
  answer := h.answer
  vacated := h.vacated.interference hI
  lasting hok hun := by
    obtain ⟨p, hacc, hlasting⟩ := h.lasting hok hun
    exact ⟨p, hacc, hlasting.interference hun hI⟩

/-- The commit among other calls. -/
theorem commit_leaves (hcall : v.call = .put request pid address) (hvalid : request.Valid) {p : Bytes}
    (hacc : Accepts B v.input v.source request p) {i fd : ℕ} {w : StoreWorld σ τ}
    (hw : Working j (tempPath root request.chunkId pid address) i fd true
      (makeHeader request.expectedSize request.expectedChecksum ++ p) w) :
    (commit root request (tempPath root request.chunkId pid address)).Safe ((v.handler j).sem ok)
      (Interferes (Interference B root T j) (O j)) (Guarantee B root j v)
      (PutLeaves ok B root T (O j) j v request pid address) w := by
  have hp : ¬ IsChunkPath root (tempPath root request.chunkId pid address) :=
    not_isChunkPath_tempPath _ _ _
  have hne := tempPath_ne_pathFor root request.chunkId request.chunkId pid address
  unfold commit
  refine safe_perform.2 fun w₁ hR r w₂ hH => ?_
  have hown := hw.own.interference hp hR.2.1
  obtain ⟨n, hn, howner, hfresh, hdata, hsynced⟩ := hown.file
  obtain ⟨o, fds', fs', hok, hexec, rfl⟩ := World.sem_sys hH
  obtain ⟨rfl, ⟨e, rfl, rfl, hexists, hcalm⟩ | ⟨i', hi', hfree, hfits, rfl, rfl⟩⟩ := link_cases hexec
  · -- the link failed, and the answer is about the moment at which it did
    refine ⟨Guarantee.looks _ _ _ rfl, safe_perform.2 fun w₃ hR₃ r w₄ hH => ?_⟩
    have hown' := hown.interference hp hR₃.2.1
    obtain ⟨n', hn', howner', -⟩ := hown'.file
    obtain ⟨hG, hvacated, -⟩ := drop_vacates (B := B) hcall hown'.entry hn' howner' hH
    refine ⟨hG, ?_⟩
    by_cases he : e = .EEXIST
    · simp only [if_pos he]
      exact .failed rfl (.present hvalid hacc hR.2.2 (hexists he) rfl) hvacated
    · simp only [if_neg he]
      refine .failed rfl (.faulty hvalid hR.2.2 rfl fun hnever => he ?_) hvacated
      exact hcalm (hnever.1 _ _ _ hok).1 hnever.2 (fits_pathFor hnever.2) (by simp [hown.entry])
  · obtain rfl : i = i' := Option.some.inj (hown.entry.symm.trans hi')
    have hcommitted : Committed root T j request.chunkId
        (tempPath root request.chunkId pid address) true i
        (w₁.fs.bind (pathFor root request.chunkId) i (w₁.fs.dir_lt hi')) := by
      refine ⟨fun _ => ?_, ⟨n.link, by simp [hn], howner⟩, fun _ => by simp⟩
      rw [FS.bind_dir, if_neg hne.symm]
      exact hi'
    refine ⟨Or.inr ⟨_, rfl, .commits hcall hvalid hacc hi' hn howner hfresh hdata (hsynced rfl) hfree
      hfits⟩, safe_perform.2 fun w₃ hR₃ r w₄ hH => ?_⟩
    have hcommitted' := hcommitted.interference hp hR₃.2.1
    obtain ⟨n', hn', howner'⟩ := hcommitted'.file
    obtain ⟨hG, hvacated, hfs⟩ := drop_vacates (B := B) hcall (hcommitted'.entry rfl) hn' howner' hH
    have hdropped : Committed root T j request.chunkId
        (tempPath root request.chunkId pid address) false i w₄.fs := by
      rcases hfs with hfs | hfs
      · rw [hfs]
        exact ⟨fun h => absurd h (by simp), hcommitted'.file, hcommitted'.visible⟩
      · rw [hfs]
        exact hcommitted'.drop hne
    -- nobody changes a file that is linked
    have hkeeps : ∀ {fs fs' : FS}, Interference B root T j fs fs' → fs.inodes[i]? = some n.link →
        fs'.inodes[i]? = some n.link := by
      intro fs fs' hI
      refine hI.keeps (A := fun fs => fs.inodes[i]? = some n.link) fun _ _ hs hfile => ?_
      obtain ⟨m, hm, -, hsame⟩ := hs.file hfile
      rw [hm, hsame (Or.inl rfl)]
    have hfile₄ : w₄.fs.inodes[i]? = some n.link := by
      have hfile₃ : w₃.fs.inodes[i]? = some n.link := hkeeps hR₃.2.1 (by simp [hn])
      rcases hfs with hfs | hfs
      · rw [hfs, hfile₃]
      · rw [hfs]
        exact hfile₃
    refine ⟨hG, safe_perform.2 fun w₅ hR₅ r w₆ hH => ?_⟩
    have hvacated₅ : Vacated ok j (tempPath root request.chunkId pid address) w₅ := by
      have hnext := hvacated.interference hR₅.2.1
      rwa [← hR₅.1.2.1] at hnext
    obtain ⟨o', fds', fs', hok', hexec', rfl⟩ := World.sem_sys hH
    obtain ⟨rfl, rfl, ⟨e', rfl, hcalm⟩ | rfl⟩ := openDirectory_cases hexec'
    · refine ⟨Guarantee.looks _ _ _ rfl, .failed rfl (.faulty hvalid hR.2.2 rfl ?_)
        (hvacated₅.answered _ _ _ rfl rfl rfl)⟩
      exact fun hnever => hcalm (hnever.1 _ _ _ hok').1
    · refine ⟨Guarantee.looks _ _ _ rfl, safe_perform.2 fun w₇ hR₇ r w₈ hH => ?_⟩
      have hvacated₇ : Vacated ok j (tempPath root request.chunkId pid address) w₇ := by
        have hnext := (hvacated₅.answered _ _ _ rfl rfl rfl).interference hR₇.2.1
        rwa [← hR₇.1.2.1] at hnext
      obtain ⟨o'', fds', fs', hok'', hexec'', rfl⟩ := World.sem_sys hH
      obtain ⟨rfl, ⟨e', rfl, rfl, hcalm⟩ | ⟨rfl, rfl⟩⟩ := fsync_cases hexec''
      · refine ⟨Guarantee.looks _ _ _ rfl, .failed rfl (.faulty hvalid hR.2.2 rfl ?_)
          (hvacated₇.answered _ _ _ rfl rfl rfl)⟩
        exact fun hnever => hcalm (hnever.1 _ _ _ hok'').1
      · refine ⟨Or.inr ⟨_, rfl, .publishes rfl⟩, .stored hvalid hacc rfl,
          hvacated₇.answered _ _ _ (FS.syncDir_dir _ _ _) rfl rfl, fun _ hun => ⟨p, hacc, ?_⟩⟩
        have hlast := (hdropped.interference hp hR₅.2.1).interference hp hR₇.2.1
        have hfile := hkeeps hR₇.2.1 (hkeeps hR₅.2.1 hfile₄)
        obtain ⟨i', m, hset, hm, -⟩ := hlast.kept hun
        obtain rfl : i' = i := by
          have hdir := hset.dir
          rw [FS.syncDir_dir, hlast.visible hun] at hdir
          exact (Option.some.inj hdir).symm
        exact ⟨i', n.link, hset, hfile, rfl, hsynced rfl, hdata⟩

/-- **`Put` among other calls** ends for one of the reasons of `PutAnswer`, and gives up its temporary
    name. -/
theorem put_leaves (hcall : v.call = .put request pid address) {w : StoreWorld σ τ}
    (hunborn : Unborn j w.fs) (hsource : w.rest.1 = v.source) :
    (put B root request pid address).Safe ((v.handler j).sem ok)
      (Interferes (Interference B root T j) (O j)) (Guarantee B root j v)
      (PutLeaves ok B root T (O j) j v request pid address) w := by
  have hp : ¬ IsChunkPath root (tempPath root request.chunkId pid address) :=
    not_isChunkPath_tempPath _ _ _
  have hnothing : ∀ {w' : StoreWorld σ τ}, Unborn j w'.fs →
      Vacated ok j (tempPath root request.chunkId pid address) w' :=
    fun hunborn' => Or.inr fun i n _ hn => hunborn' i n hn
  unfold put
  by_cases hid : (validateId request.chunkId).ok = true
  · by_cases hsum : request.expectedChecksum.WellFormed
    · have hvalid : request.Valid := ⟨hid, hsum⟩
      simp only [hid, (validateChecksum_ok _).2 hsum, Bool.not_true, Bool.false_eq_true, if_false]
      refine safe_perform.2 fun w₁ hR r w₂ hH => ?_
      have hunborn₁ := hunborn.interference hR.2.1
      obtain ⟨o, fds', fs', hok, hexec, rfl⟩ := World.sem_sys hH
      obtain ⟨rfl, rfl, ⟨e, rfl, hcalm⟩ | rfl⟩ := createDirectories_cases hexec
      · refine ⟨Guarantee.looks _ _ _ rfl, .failed rfl (.faulty hvalid hR.2.2 rfl ?_)
          (hnothing hunborn₁)⟩
        exact fun hnever => hcalm (hnever.1 _ _ _ hok).1
      · refine ⟨Guarantee.looks _ _ _ rfl, safe_perform.2 fun w₃ hR₃ r w₄ hH => ?_⟩
        have hunborn₃ := hunborn₁.interference hR₃.2.1
        obtain ⟨o', fds', fs', hok', hexec', rfl⟩ := World.sem_sys hH
        rcases openExcl_cases hexec' with ⟨e, rfl, rfl, rfl, hexists, hcalm⟩ | ⟨rfl, rfl, rfl, hnone, -⟩
        · refine ⟨Guarantee.looks _ _ _ rfl, ?_⟩
          by_cases he : e = .EEXIST
          · simp only [if_pos he]
            obtain ⟨i, hi⟩ := Option.ne_none_iff_exists'.1 (hexists he)
            obtain ⟨n, hn⟩ := w₃.fs.dir_eq_some hi
            exact .failed rfl (.collided hvalid hR₃.2.2 hi hn (hunborn₃ i n hn)) (hnothing hunborn₃)
          · simp only [if_neg he]
            refine .failed rfl (.faulty hvalid hR₃.2.2 rfl fun hnever => he ?_) (hnothing hunborn₃)
            exact hcalm (hnever.1 _ _ _ hok').1 hnever.2
        · refine ⟨Or.inr ⟨_, rfl, .creates rfl hcall hnone⟩, ?_⟩
          have hstart : Working j (tempPath root request.chunkId pid address) w₃.fs.inodes.length
              w₃.fds.length false [] (w₃.answered (.openExcl (tempPath root request.chunkId pid
                address)) (.ok w₃.fds.length) (w₃.fds ++ [⟨w₃.fs.inodes.length, 0⟩])
                (w₃.fs.create (tempPath root request.chunkId pid address) j)) :=
            ⟨⟨by simp, Inode.fresh j, by simp, rfl, rfl, rfl, by simp⟩, by simp⟩
          have hstream : w₃.rest.1 = v.source := by
            rw [hR₃.1.2.2, World.answered_rest, hR.1.2.2, hsource]
          refine safe_bind.2 ((fill_safe B request (Working.syncs _ hp _ _) hstart).imp ?_)
          rw [World.answered_rest, hstream]
          rintro r w₅ (⟨p, rfl, hacc, hfilled⟩ | ⟨status, rfl, ⟨d, hfilled⟩, hreason⟩)
          · exact commit_leaves hcall hvalid hacc hfilled
          · refine safe_perform.2 fun w₆ hR₆ r w₇ hH => ?_
            have hown := hfilled.own.interference hp hR₆.2.1
            obtain ⟨n, hn, howner, -⟩ := hown.file
            obtain ⟨hG, hvacated, -⟩ := drop_vacates (B := B) hcall hown.entry hn howner hH
            refine ⟨hG, ?_⟩
            rcases hreason with hrej | ⟨hio, hfail⟩
            · exact .failed hrej.not_ok (.rejected hvalid hrej) hvacated
            · exact .failed (by simp [Status.ok, hio])
                (.faulty hvalid hR₆.2.2 hio fun hnever => hfail hnever.1) hvacated
    · have hno : (validateChecksum request.expectedChecksum).ok = false := by
        simpa using fun h => hsum ((validateChecksum_ok _).1 h)
      simp only [hid, hno, Bool.not_true, Bool.not_false, Bool.false_eq_true, if_false, if_true]
      exact .failed hno (.invalid (fun h => hsum h.2) (validateChecksum_code hsum)) (hnothing hunborn)
  · have hno : (validateId request.chunkId).ok = false := by simpa using hid
    simp only [hno, Bool.not_false, if_true]
    exact .failed hno (.invalid (fun h => hid h.1) (validateId_code hid)) (hnothing hunborn)

end Put

end ChunkStorage
