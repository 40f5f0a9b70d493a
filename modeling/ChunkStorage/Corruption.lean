import ChunkStorage.FileHost

set_option autoImplicit false

/-! # Downloads of files that may be corrupted

`StorageClient::Get` over the network to a worker that keeps its chunks in files, where the file of
the chunk may hold anything. The header is checked by the worker and the payload by the client, and
together they accept exactly the files that `Put` writes. -/

namespace ChunkStorage

open Effects Posix Program

section Calls

variable {B : Blake3} {root : Bytes} {pid server : ℕ} {net net' : Net FS ℕ Decision} {id file : Bytes}

/-- `HeadChunk` reports what the header of the file says. -/
theorem filePath_head (B : Blake3) (pid server : ℕ) (hid : (validateId ⟨id⟩).ok = true)
    (hfile : net.store.contents (pathFor root ⟨id⟩) = some file)
    (hfits : net.store.Fits (pathFor root ⟨id⟩)) (hcalm : net.plan.Calm) :
    ∃ r net', filePath B root pid server (.headChunk id) net = (headChunkReply r, net') ∧
      net'.store = net.store ∧ net'.plans = net.next.plans ∧
      ((∃ c p, ChunkFile c p file ∧ r = .ok ⟨⟨id⟩, UInt64.ofNat p.length, c⟩) ∨
        ((¬ ∃ c p, ChunkFile c p file) ∧ ∃ s : ErrorStatus, r = .error s ∧
          s.1.code = .kCorruption)) := by
  obtain ⟨r, w, hhandles, hstore, hr⟩ := fileHost_head (B := B) hid hfile hfits hcalm
  exact ⟨r, _, network_headChunk hhandles, hstore, rfl, hr⟩

/-- `GetChunk` of a whole chunk has its payload to deliver. -/
theorem filePath_get (B : Blake3) (pid server : ℕ) {c : Checksum} {p : Bytes}
    (hid : (validateId ⟨id⟩).ok = true)
    (hfile : net.store.contents (pathFor root ⟨id⟩) = some file) (hchunk : ChunkFile c p file)
    (hfits : net.store.Fits (pathFor root ⟨id⟩)) (hcalm : net.plan.Calm) :
    ∃ net', filePath B root pid server (.getChunk ⟨id, 0, UInt64.ofNat p.length⟩) net = ((), net') ∧
      net'.blocks.flatten = p ∧ net'.status = .Ok ∧ net'.store = net.store ∧
      net'.plans = net.next.plans := by
  obtain ⟨w, hhandles, hstore, hsent⟩ := fileHost_get (B := B) hid hfile hchunk hfits hcalm
  exact ⟨_, network_getChunk hhandles, hsent, rfl, hstore, rfl⟩

/-- It delivers that payload. -/
theorem filePath_served {c : Checksum} {p d : Bytes} {g : GrpcStatus}
    (hid : (validateId ⟨id⟩).ok = true)
    (hfile : net.store.contents (pathFor root ⟨id⟩) = some file) (hchunk : ChunkFile c p file)
    (hfits : net.store.Fits (pathFor root ⟨id⟩)) (hcalm : net.plan.Calm)
    (h : Served (filePath B root pid server) ⟨id, 0, UInt64.ofNat p.length⟩ net d g net') :
    d = p ∧ g = .Ok ∧ net'.store = net.store ∧ net'.plans = net.next.plans := by
  obtain ⟨net₁, hstart, hblocks, hstatus, hstore, hplans⟩ :=
    filePath_get B pid server hid hfile hchunk hfits hcalm
  obtain ⟨net₂, hdelivered, hfinish⟩ := h
  rw [hstart] at hdelivered
  obtain ⟨hd, rfl⟩ := network_delivered hdelivered
  obtain ⟨rfl, rfl⟩ := Prod.mk.inj hfinish
  exact ⟨hd.trans hblocks, hstatus, hstore, hplans⟩

end Calls

/-- What `Get` makes of a file: the payload of one that `Put` writes, and an error for any other. -/
inductive Verdict (B : Blake3) (file : Bytes) (destination : Path) (status : Status) (fs : FS) : Prop
  | intact {p : Bytes} (hfile : file = chunkFile B p) (hok : status = .Ok)
      (hcontents : fs.contents destination = some p)
  | corrupt (hno : ¬ ∃ p, file = chunkFile B p) (hcode : status.code = .kCorruption)
      (hnone : fs.dir destination = none)

/-- A file with a header is one that `Put` writes if the checksum is right. -/
theorem ChunkFile.eq_chunkFile_iff {B : Blake3} {c : Checksum} {p q file : Bytes}
    (h : ChunkFile c p file) : file = chunkFile B q ↔ p = q ∧ c = B.checksum q := by
  constructor
  · rintro rfl
    obtain ⟨hc, hp⟩ := h.unique (chunkFile_spec B q)
    exact ⟨hp, hc⟩
  · rintro ⟨rfl, rfl⟩
    exact h.2

/-- **`Get` over a calm network**, with its two paths free. -/
theorem clientGet_verdict {B : Blake3} {root : Bytes} {pid server me : ℕ} {net : Net FS ℕ Decision}
    {objectId : ObjectId} {file : Bytes} {fs : FS} {destination : Path} {clientPid tempId : ℕ}
    {ω : ℕ → Outcome} (hid : (validateId ⟨objectId.value⟩).ok = true)
    (hfile : net.store.contents (pathFor root ⟨objectId.value⟩) = some file)
    (hfits : net.store.Fits (pathFor root ⟨objectId.value⟩)) (hcalm : ∀ k, (net.plans k).Calm)
    (hfree : fs.dir destination = none) (hname : fs.Fits destination)
    (hfreeTemp : fs.dir (StorageClient.tempFor destination clientPid tempId) = none)
    (hnameTemp : fs.Fits (StorageClient.tempFor destination clientPid tempId))
    (hadmits : Config.Admits (World.handler me (filePath B root pid server)) World.NoFailure
      (StorageClient.get B objectId destination clientPid tempId, ⟨[], fs, [], net⟩) ω)
    (hfair : Config.Fair (World.handler me (filePath B root pid server))
      (StorageClient.get B objectId destination clientPid tempId, ⟨[], fs, [], net⟩) ω) :
    ∃ status w', Config.Returns (World.handler me (filePath B root pid server))
        (StorageClient.get B objectId destination clientPid tempId, ⟨[], fs, [], net⟩) ω
        (.ok status) w' ∧
      w'.rest.store = net.store ∧
      w'.fs.dir (StorageClient.tempFor destination clientPid tempId) = none ∧
      Verdict B file destination status w'.fs := by
  have hne := tempFor_ne destination clientPid tempId
  have hnever : World.NeverFails (B := Rpc) (β := Net FS ℕ Decision) World.NoFailure :=
    World.neverFails_noFailure
  have hsurroundings : Surroundings (β := Net FS ℕ Decision) Eq me
      (StorageClient.tempFor destination clientPid tempId) destination (fun fs' => fs' = fs)
      (fun fs' => fs'.nameMax = fs.nameMax ∧ fs'.dir destination = none)
      (fun d fs' => fs'.contents destination = some d) := by
    refine .alone hne ?_ ?_ ?_
    · intro fs' hfs'
      exact ⟨hfs'.1, by rw [FS.create_dir, if_neg hne]; exact hfs'.2⟩
    · intro fs' i f hfs'
      exact hfs'
    · intro fs' hfs'
      exact ⟨hfs'.1, by rw [FS.remove_dir, if_neg hne]; exact hfs'.2⟩
  have halways : Always ((World.handler me (filePath B root pid server)).sem World.NoFailure)
      (StorageClient.get B objectId destination clientPid tempId) ⟨[], fs, [], net⟩ _ :=
    (clientGet_safe (B := B) (w := ⟨[], fs, [], net⟩) hsurroundings hne objectId rfl
      ⟨rfl, hfree⟩).mono (fun _ _ h => h) (fun _ _ _ => trivial) (fun _ _ h => h)
  obtain ⟨r, w', hret, -, hgone, hanswer⟩ := halways.returns hadmits hfair
  have htemp : w'.fs.dir (StorageClient.tempFor destination clientPid tempId) = none := by
    refine hgone (fun _ _ h => h.1) ?_
    intro fs' hfs'
    rw [hfs']
    exact hfreeTemp
  obtain ⟨head, net₁, hhead, hstore, hplans, hr⟩ :=
    filePath_head B pid server hid hfile hfits (hcalm 0)
  cases hanswer with
  | invalid hno _ _ => exact absurd (validateId_valid hid) (by simpa [ChunkId.valid, ObjectId.valid] using hno)
  | occupied _ _ hfail =>
      refine absurd ⟨hnever, fun fs' hfs' => ?_⟩ hfail
      rw [hfs']
      exact ⟨hname, hnameTemp, hfree, hfreeTemp⟩
  | @head reply s _ _ hreply herror hK =>
      obtain ⟨rfl, hnet⟩ := Prod.mk.inj (hhead.symm.trans hreply)
      rcases hr with ⟨c, p, -, rfl⟩ | ⟨hno, s', rfl, hcode⟩
      · rw [headReply_ok] at herror
        exact absurd herror (by simp)
      · obtain ⟨s'', hs'', hsame⟩ := headReply_error s'
        obtain rfl := Except.error.inj (hs''.symm.trans herror)
        refine ⟨_, w', hret, by rw [← hnet]; exact hstore, htemp, .corrupt ?_ (hsame.trans hcode) hK.2⟩
        rintro ⟨p, rfl⟩
        exact hno ⟨_, _, chunkFile_spec B p⟩
  | @fetched reply response status net₂ _ _ hreply hresponse hdone =>
      obtain ⟨rfl, rfl⟩ := Prod.mk.inj (hhead.symm.trans hreply)
      rcases hr with ⟨c, p, hchunk, rfl⟩ | ⟨-, s', rfl, -⟩
      · rw [headReply_ok] at hresponse
        obtain rfl := Except.ok.inj hresponse
        -- the second RPC finds the same file
        have served : ∀ {d : Bytes} {g : GrpcStatus}, Served (filePath B root pid server)
            ⟨objectId.value, 0, UInt64.ofNat p.length⟩ net₁ d g w'.rest →
            d = p ∧ g = .Ok ∧ w'.rest.store = net.store := by
          intro d g hserved
          obtain ⟨hd, hg, hstore', -⟩ := filePath_served hid (by rw [hstore]; exact hfile) hchunk
            (by rw [hstore]; exact hfits) (by rw [Net.plan, hplans]; exact hcalm 1) hserved
          exact ⟨hd, hg, hstore'.trans hstore⟩
        cases hdone with
        | committed hserved _ hverified hlanded _ =>
            obtain ⟨rfl, -, hstore'⟩ := served hserved
            refine ⟨_, w', hret, hstore', htemp, .intact ?_ rfl hlanded⟩
            exact hchunk.eq_chunkFile_iff.2 ⟨rfl, hverified.2.symm⟩
        | mismatch hserved _ hbad hK hcode =>
            obtain ⟨rfl, -, hstore'⟩ := served hserved
            refine ⟨_, w', hret, hstore', htemp, .corrupt ?_ hcode hK.2⟩
            rintro ⟨q, hq⟩
            obtain ⟨rfl, hsum⟩ := hchunk.eq_chunkFile_iff.1 hq
            exact hbad ⟨rfl, hsum.symm⟩
        | refused hserved hno _ =>
            obtain ⟨-, rfl, -⟩ := served hserved
            exact absurd hno (by simp)
        | failed _ _ hfail =>
            refine absurd ⟨hnever, fun fs' hfs' => ?_⟩ hfail
            refine ⟨?_, ?_, hfs'.2⟩
            · rw [FS.Fits, hfs'.1]
              exact hnameTemp
            · rw [FS.Fits, hfs'.1]
              exact hname
      · obtain ⟨s'', hs'', -⟩ := headReply_error s'
        exact absurd (hs''.symm.trans hresponse) (by simp)

/-- **Downloads detect every corruption.** Whatever the file of a chunk holds, a `Get` to a fresh
    destination in which nothing fails returns, and returns OK exactly if the file is the header of
    some payload followed by that payload. Then the destination holds the payload. For any other file
    it returns `kCorruption`, and neither the destination nor the temporary file is there. -/
theorem get_detects_corruption (B : Blake3) (root : Bytes) (pid server : ℕ) (net : Net FS ℕ Decision)
    (me : ℕ) (fs : FS) (objectId : ObjectId) (destination : Path) (clientPid tempId : ℕ)
    (ω : ℕ → Outcome) (file : Bytes) (hid : (validateId ⟨objectId.value⟩).ok = true)
    (hfile : net.store.contents (pathFor root ⟨objectId.value⟩) = some file)
    (hfits : net.store.Fits (pathFor root ⟨objectId.value⟩)) (hcalm : ∀ k, (net.plans k).Calm)
    (hfree : fs.dir destination = none) (hname : fs.Fits destination)
    (hfreeTemp : fs.dir (StorageClient.tempFor destination clientPid tempId) = none)
    (hnameTemp : fs.Fits (StorageClient.tempFor destination clientPid tempId))
    (hadmits : Config.Admits (World.handler me (filePath B root pid server)) World.NoFailure
      (StorageClient.get B objectId destination clientPid tempId, ⟨[], fs, [], net⟩) ω)
    (hfair : Config.Fair (World.handler me (filePath B root pid server))
      (StorageClient.get B objectId destination clientPid tempId, ⟨[], fs, [], net⟩) ω) :
    ∃ status w', Config.Returns (World.handler me (filePath B root pid server))
        (StorageClient.get B objectId destination clientPid tempId, ⟨[], fs, [], net⟩) ω
        (.ok status) w' ∧
      (status.ok = true ↔ ∃ p, file = makeHeader (UInt64.ofNat p.length) (B.checksum p) ++ p) ∧
      (∀ p, file = makeHeader (UInt64.ofNat p.length) (B.checksum p) ++ p →
        w'.fs.contents destination = some p) ∧
      ((¬ ∃ p, file = makeHeader (UInt64.ofNat p.length) (B.checksum p) ++ p) →
        status.code = .kCorruption ∧ w'.fs.dir destination = none ∧
          w'.fs.dir (StorageClient.tempFor destination clientPid tempId) = none) := by
  obtain ⟨status, w', hret, -, htemp, hverdict⟩ := clientGet_verdict hid hfile hfits hcalm hfree hname
    hfreeTemp hnameTemp hadmits hfair
  refine ⟨status, w', hret, ?_⟩
  cases hverdict with
  | @intact p hfile hok hcontents =>
      have hsome : ∃ p, file = makeHeader (UInt64.ofNat p.length) (B.checksum p) ++ p := ⟨p, hfile⟩
      refine ⟨⟨fun _ => hsome, fun _ => by rw [hok]; rfl⟩, ?_, fun hno => absurd hsome hno⟩
      intro q hq
      have hchunk : ChunkFile (B.checksum p) p file := by
        rw [hfile]
        exact chunkFile_spec B p
      obtain ⟨rfl, -⟩ := hchunk.eq_chunkFile_iff.1 hq
      exact hcontents
  | corrupt hno hcode hnone =>
      refine ⟨⟨fun hok => ?_, fun hsome => absurd hsome hno⟩, fun q hq => absurd ⟨q, hq⟩ hno,
        fun _ => ⟨hcode, hnone, htemp⟩⟩
      exact absurd hok (by simp [Status.ok, hcode])

/-! ## A flipped byte -/

/-- A root `"r"` whose chunk `"a"` has the header of `"a"` and the payload `"b"`. -/
def flippedStore : FS :=
  ((FS.empty 255).create (pathFor [0x72] ⟨[0x61]⟩) 0).modify 0 fun n =>
    n.write 0 (makeHeader 1 (Blake3.sample.checksum [0x61]) ++ [0x62])

/-- A network to it in which nothing goes wrong. -/
def flippedNet : Net FS ℕ Decision :=
  ⟨flippedStore, fun _ => ⟨0, fun _ _ => .done, fun _ => false, 0⟩, [], false, [], .Ok⟩

theorem flippedNet_calm (k : ℕ) : (flippedNet.plans k).Calm :=
  ⟨fun _ _ => trivial, fun n => ⟨n, le_rfl, fun _ => nofun⟩⟩

theorem flippedStore_contents : flippedStore.contents (pathFor [0x72] ⟨[0x61]⟩)
    = some (makeHeader 1 (Blake3.sample.checksum [0x61]) ++ [0x62]) := by decide +kernel

theorem flipped_chunkFile : ChunkFile (Blake3.sample.checksum [0x61]) [0x62]
    (makeHeader 1 (Blake3.sample.checksum [0x61]) ++ [0x62]) :=
  ⟨Blake3.sample.wellFormed_checksum [0x61], rfl⟩

/-- A `Get` whose download delivers `"b"` where `HeadChunk` reported `"a"` runs to its end. -/
theorem flippedGet_runs {β : Type} {transport : Transport β} {b₀ b₁ b₂ b₃ b₄ b₅ : β}
    (hhead : transport (.headChunk [0x61]) b₀
      = (headChunkReply (.ok ⟨⟨[0x61]⟩, 1, Blake3.sample.checksum [0x61]⟩), b₁))
    (hget : transport (.getChunk ⟨[0x61], 0, 1⟩) b₁ = ((), b₂))
    (hread : transport .read b₂ = (some ⟨[0x62], nofun⟩, b₃))
    (hend : transport .read b₃ = (none, b₄)) (hfinish : transport .finishGet b₄ = (.Ok, b₅)) :
    (StorageClient.get Blake3.sample ⟨[0x61]⟩ ⟨[0x64], [0x66]⟩ 1 0).Runs (World.handler 0 transport)
      World.NoFailure .done ⟨[], FS.empty 255, [], b₀⟩ := by
  have replies : ∀ {op : RpcOp} {w : ClientWorld β} {r : op.Ret} {b : β},
      transport op w.rest = (r, b) →
      World.handler 0 transport (.inr op) w .done = (r, w.replied op r b) := by
    intro op w r b h
    simp only [World.handler, h]
    rfl
  have hroom : ∀ f, [(⟨0, 0⟩ : OpenFile)][0]? = some f → f.offset < offMax := by decide
  -- until the temporary file is there
  refine .call ⟨trivial, trivial⟩ (World.handler_sys (show _ = (.ok false, [], _) from rfl)) rfl ?_
  refine .call trivial (replies hhead) rfl ?_
  refine .call ⟨trivial, trivial⟩ (World.handler_sys (show _ = (.ok false, [], _) from rfl)) rfl ?_
  refine .call ⟨trivial, trivial⟩ (World.handler_sys (show _ = (.ok 0, [⟨0, 0⟩], _) from rfl)) rfl ?_
  -- the download
  refine .call trivial (replies hget) rfl ?_
  refine .call trivial (replies hread) rfl ?_
  refine .call ⟨trivial, hroom⟩ (World.handler_sys (show _ = (.wrote 1, [⟨0, 1⟩], _) from rfl)) rfl ?_
  refine .call trivial (replies hend) rfl ?_
  refine .call trivial (replies hfinish) rfl ?_
  refine .call ⟨trivial, trivial⟩ (World.handler_sys (show _ = (.ok (), [⟨0, 1⟩], _) from rfl)) rfl ?_
  -- the check, and the temporary file is removed
  refine .call ⟨trivial, trivial⟩
    (World.handler_sys (show _ = (.ok 1, [⟨0, 1⟩, ⟨0, 0⟩], _) from rfl)) rfl ?_
  refine .call ⟨trivial, trivial⟩
    (World.handler_sys (show _ = (.ok [0x62], [⟨0, 1⟩, ⟨0, 1⟩], _) from rfl)) rfl ?_
  refine .call ⟨trivial, trivial⟩
    (World.handler_sys (show _ = (.ok [], [⟨0, 1⟩, ⟨0, 1⟩], _) from rfl)) rfl ?_
  refine .call ⟨trivial, trivial⟩
    (World.handler_sys (show _ = (.ok (), [⟨0, 1⟩, ⟨0, 1⟩], _) from rfl)) rfl ?_
  exact .ret

/-- A download of one byte is one frame. -/
theorem reads_singleton {net : Net FS ℕ Decision} {c : UInt8} (h : net.blocks.flatten = [c]) :
    ∃ net₁ net₂, net.read = (some ⟨[c], nofun⟩, net₁) ∧ net₁.read = (none, net₂) ∧
      net₂.status = net.status := by
  rcases net.read_cases with ⟨-, hnil⟩ | ⟨⟨block, hne⟩, blocks, hread, hflat⟩
  · rw [h] at hnil
    exact absurd hnil (by simp)
  · obtain ⟨d, rest, rfl⟩ := List.exists_cons_of_ne_nil hne
    rw [h, List.cons_append] at hflat
    obtain ⟨rfl, hrest⟩ := List.cons.inj hflat
    obtain ⟨rfl, hblocks⟩ := List.append_eq_nil_iff.1 hrest.symm
    rcases Net.read_cases { net with blocks := blocks } with ⟨hend, -⟩ | ⟨⟨b, hb⟩, more, -, hmore⟩
    · exact ⟨_, _, hread, hend, rfl⟩
    · replace hmore : blocks.flatten = b ++ more.flatten := hmore
      rw [hblocks] at hmore
      exact absurd (List.append_eq_nil_iff.1 hmore.symm).1 hb

theorem get_detects_corruption_flipped :
    ∃ status w', Config.Returns (World.handler 0 (filePath Blake3.sample [0x72] 1 0))
        (StorageClient.get Blake3.sample ⟨[0x61]⟩ ⟨[0x64], [0x66]⟩ 1 0,
          ⟨[], FS.empty 255, [], flippedNet⟩) (fun _ => .done) (.ok status) w' ∧
      status.code = .kCorruption ∧ w'.fs.dir ⟨[0x64], [0x66]⟩ = none := by
  have hid : (validateId ⟨[0x61]⟩).ok = true := by decide
  have hfits : flippedNet.store.Fits (pathFor [0x72] ⟨[0x61]⟩) := by decide
  -- what the RPCs reply
  obtain ⟨r, net₁, hhead, hstore, hplans, ⟨c, p, hchunk, rfl⟩ | ⟨hno, -⟩⟩ :=
    filePath_head Blake3.sample 1 0 hid flippedStore_contents hfits (flippedNet_calm 0)
  swap
  · exact absurd ⟨_, _, flipped_chunkFile⟩ hno
  obtain ⟨rfl, rfl⟩ := flipped_chunkFile.unique hchunk
  have hcalm : net₁.plan.Calm := by
    rw [Net.plan, hplans]
    exact flippedNet_calm 1
  obtain ⟨net₂, hget, hblocks, hstatus, -, -⟩ := filePath_get Blake3.sample 1 0 hid
    (by rw [hstore]; exact flippedStore_contents) flipped_chunkFile (by rw [hstore]; exact hfits) hcalm
  obtain ⟨net₃, net₄, hread, hend, hsame⟩ := reads_singleton hblocks
  have hfinish : filePath Blake3.sample [0x72] 1 0 .finishGet net₄ = (.Ok, net₄) :=
    Prod.ext (hsame.trans hstatus) rfl
  obtain ⟨hadmits, hfair⟩ := (flippedGet_runs hhead hget hread hend hfinish).schedule
  obtain ⟨status, w', hret, -, -, hcorrupt⟩ := get_detects_corruption Blake3.sample [0x72] 1 0
    flippedNet 0 (FS.empty 255) ⟨[0x61]⟩ ⟨[0x64], [0x66]⟩ 1 0 _ _ hid flippedStore_contents hfits
    flippedNet_calm rfl (by decide) rfl (by decide) hadmits hfair
  refine ⟨status, w', hret, ?_⟩
  obtain ⟨hcode, hnone, -⟩ := hcorrupt (by
    rintro ⟨q, hq⟩
    obtain ⟨rfl, hsum⟩ := flipped_chunkFile.eq_chunkFile_iff.1 hq
    exact absurd hsum (by decide +kernel))
  exact ⟨hcode, hnone⟩

end ChunkStorage
