import ChunkStorage.Snapshots
import ChunkStorage.Destinations

set_option autoImplicit false

/-! # What a download among other calls is a copy of

`StorageClient::Get` makes two RPCs, and the worker's `Get` opens the chunk twice, so a download may
meet several versions. What ties it to one is the last check of the client, of the size and the
checksum that `HeadChunk` reported. -/

namespace ChunkStorage

open Effects Posix Program

variable {σ τ : Type}

/-! ## `Head` among other calls -/

section Head

variable {B : Blake3} {root : Bytes} {T : ℕ → Invocation σ τ → Prop} {O : ℕ → FS → Prop}
  {ok : ℕ → Invocation σ τ → (op : StoreSig.Op) → StoreWorld σ τ → Outcome → Prop}

/-- What holds of a `Head` that has returned. -/
def HeadEnds (B : Blake3) (root : Bytes)
    (ok : ℕ → Invocation σ τ → (op : StoreSig.Op) → StoreWorld σ τ → Outcome → Prop)
    (T : ℕ → Invocation σ τ → Prop) (O : ℕ → FS → Prop) (j : ℕ) (v : Invocation σ τ) (a : Answer)
    (_ : StoreWorld σ τ) : Prop :=
  ∀ chunkId response, v.call = .head chunkId → a = .head (.ok response) →
    ∃ w, HeadDone (ok j v) root chunkId (Watching B root T (O j) []) (WatchingFile B root T (O j) [])
      (.ok response) w

/-- The calls of a store keep the obligations of a `Protocol`, with what `Head` answers. -/
theorem headProtocol (B : Blake3) (root : Bytes)
    (ok : ℕ → Invocation σ τ → (op : StoreSig.Op) → StoreWorld σ τ → Outcome → Prop)
    (T : ℕ → Invocation σ τ → Prop) (O : ℕ → FS → Prop) :
    Protocol (storeJob B root) ok T (StoreInv B root T) (Interference B root T) O
      (Guarantee B root) (HeadEnds B root ok T O) where
  refl := (storeProtocol B root ok T O).refl
  trans := (storeProtocol B root ok T O).trans
  others := (storeProtocol B root ok T O).others
  post hQ _ := hQ
  start := (storeProtocol B root ok T O).start
  step := (storeProtocol B root ok T O).step
  safe {s} v hT hinv hunder := by
    have hsafe := (storeProtocol B root ok T O).safe v hT hinv hunder
    cases hcall : v.call with
    | head chunkId =>
        have hprog : (storeJob B root v).prog = (return .head (← head root chunkId)) := by
          simp only [storeJob, hcall, Call.program]
        by_cases hid : (validateId chunkId).ok = true
        · have hO : O s.procs.length s.fs := by
            have hcalls : ¬ (head root chunkId).Returned := head_not_returned hid
            refine hunder fun hret => hcalls ?_
            rw [hprog] at hret
            exact hret.of_bind
          have hwatching : Watching B root T (O s.procs.length) []
              ((System.boot (storeJob B root) v).world s.fs) := ⟨hinv.tidy, hO, rfl⟩
          rw [hprog]
          refine safe_bind.2 ((head_shared chunkId hwatching).imp fun r w' hdone => ?_)
          intro chunkId' response hcall' ha
          rw [hcall] at hcall'
          obtain rfl := Call.head.inj hcall'
          obtain rfl := Answer.head.inj ha
          exact ⟨w', hdone⟩
        · rw [hprog, head_of_invalid hid]
          intro chunkId' response _ ha
          exact absurd (Answer.head.inj ha) (by simp [StatusOr.ofStatus])
    | put _ _ _ | get _ | size _ | «exists» _ | delete _ =>
        refine hsafe.imp fun a w' _ chunkId response hcall' _ => ?_
        rw [hcall] at hcall'
        exact absurd hcall' (by simp)

/-- **A `Head` that returns OK describes one version**: the size and the checksum of a payload that
    was visible at some moment of the call. -/
theorem head_one_version (B : Blake3) (root : Bytes) (nameMax : ℕ)
    (choices : List (Choice (Invocation σ τ))) {j : ℕ} {c : StoreProcess σ τ} {chunkId : ChunkId}
    {response : HeadChunkResponse} (hc : (storeAfter B root nameMax choices).procs[j]? = some c)
    (hcall : c.job.call = .head chunkId) (hret : c.prog = .ret (.head (.ok response))) :
    ∃ p, ShownDuring B root nameMax choices j chunkId p ∧
      PutInRun B root nameMax choices chunkId p ∧
      response = ⟨chunkId, UInt64.ofNat p.length, B.checksum p⟩ := by
  have hholds := (headProtocol B root anything (CallsOf B root nameMax choices)
    (During B root nameMax choices)).sound (StoreInv.empty nameMax)
    (.of_admits (admits_anything B root nameMax choices)) choices.length
  rw [System.moment_length] at hholds
  have hfine := hholds.fine hc
  unfold Protocol.Fine at hfine
  rw [hret] at hfine
  obtain ⟨w, hdone⟩ := hfine chunkId response hcall rfl
  cases hdone with
  | @read _ _ fd file hid hseen hP hanswer =>
      obtain ⟨w₁, o, hw₁, -, hcontents⟩ := hseen
      obtain ⟨p, rfl, hshown, hput⟩ := shown_of_contents hw₁ hcontents
      refine ⟨p, hshown, hput, ?_⟩
      rcases hanswer with ⟨checksum, q, hfile, hr⟩ | ⟨-, s, hr, -⟩ | ⟨s, hr, -⟩
      · obtain ⟨rfl, rfl⟩ := hfile.unique (chunkFile_spec B p)
        exact Except.ok.inj hr
      · exact absurd hr (by simp)
      · exact absurd hr (by simp)

end Head

/-! ## Downloads -/

/-- **A `Get` of the client that runs alone on its machine and returns OK** leaves at the destination
    what was delivered, and that is what `HeadChunk` reported. -/
theorem clientGet_ok {β : Type} (B : Blake3) (transport : Transport β) (me : ℕ) (objectId : ObjectId)
    (destination : Path) (pid tempId : ℕ) {w w' : ClientWorld β} {ω : ℕ → Outcome} {status : Status}
    (hret : Config.Returns (World.handler me transport)
      (StorageClient.get B objectId destination pid tempId, w) ω (.ok status) w')
    (hok : status.ok = true) :
    ∃ response d g, GrpcDataPlaneClient.headReply (transport (.headChunk objectId.value) w.rest).1
        = .ok response ∧
      Served transport ⟨objectId.value, 0, response.size⟩
        (transport (.headChunk objectId.value) w.rest).2 d g w'.rest ∧
      Verified B response d ∧ w'.fs.contents destination = some d := by
  have hsafe : (StorageClient.get B objectId destination pid tempId).Safe
      ((World.handler me transport).sem World.Any) Eq _ _ w :=
    clientGet_safe (B := B) (A := fun _ => True) (K := fun _ => True)
      (Surroundings.alone (tempFor_ne destination pid tempId) (fun _ => trivial)
        (fun _ _ _ => trivial) (fun _ => trivial)) (tempFor_ne _ _ _) objectId trivial trivial
  have halways := hsafe.mono (fun _ _ hR => hR) (fun _ _ _ => trivial) (fun _ _ hQ => hQ)
  obtain ⟨-, -, hanswer⟩ := Always.of_returns halways (fun _ _ _ _ _ => trivial) hret
  cases hanswer with
  | invalid _ hcode _ => exact absurd hok (by simp [Status.ok, hcode])
  | occupied hno _ _ => exact absurd hok (by simp [hno status rfl])
  | @head _ s _ _ _ _ _ => exact absurd hok (by simp [s.2])
  | @fetched reply response _ b₁ _ _ hreply hhead hdone =>
      cases hdone with
      | @committed d g _ hserved _ hverified hcontents _ =>
          refine ⟨response, d, g, ?_, ?_, hverified, hcontents⟩
          · rw [hreply]
            exact hhead
          · rw [hreply]
            exact hserved
      | mismatch _ _ _ _ hcode => exact absurd hok (by simp [Status.ok, hcode])
      | refused _ hg _ => exact absurd hok (by rw [fromGrpcStatus_ok, hg]; simp)
      | failed hno _ _ => exact absurd hok (by simp [hno])

section Download

variable {β : Type} (B : Blake3) (root : Bytes) (nameMax : ℕ)
  (choices : List (Choice (Invocation σ τ))) (objectId : ObjectId) (transport : Transport β) (b : β)
  (answer : StatusOr HeadChunkResponse)

/-- The payloads a download may have to do with: those of the `Put`s of the chunk, and what the
    `GetChunk` RPC delivers. -/
def Involved (p : Bytes) : Prop :=
  PutInRun B root nameMax choices ⟨objectId.value⟩ p ∨
    ∃ response g b', answer = .ok response ∧
      Served transport ⟨objectId.value, 0, response.size⟩
        (transport (.headChunk objectId.value) b).2 p g b'

/-- No two different payloads of the download have one hash. -/
def NoCollision : Prop :=
  ∀ p q, Involved B root nameMax choices objectId transport b answer p →
    Involved B root nameMax choices objectId transport b answer q → B.hex p = B.hex q → p = q

/-- **A successful download is one version in full**: the one that the `HeadChunk` RPC saw. The worker
    serves any calls in any order around that RPC, and the `GetChunk` RPC may deliver anything. -/
theorem download_one_version (j : ℕ) (c : StoreProcess σ τ) (me : ℕ) (destination : Path)
    (pid tempId : ℕ) (fs : FS) (ω : ℕ → Outcome) (status : Status) (w' : ClientWorld β)
    (hc : (storeAfter B root nameMax choices).procs[j]? = some c)
    (hcall : c.job.call = .head ⟨objectId.value⟩) (hanswer : c.prog = .ret (.head answer))
    (hhead : (transport (.headChunk objectId.value) b).1 = headChunkReply answer)
    (hcollide : NoCollision B root nameMax choices objectId transport b answer)
    (hret : Config.Returns (World.handler me transport)
      (StorageClient.get B objectId destination pid tempId, ⟨[], fs, [], b⟩) ω (.ok status) w')
    (hok : status.ok = true) :
    ∃ p, ShownDuring B root nameMax choices j ⟨objectId.value⟩ p ∧
      PutInRun B root nameMax choices ⟨objectId.value⟩ p ∧
      w'.fs.contents destination = some p := by
  obtain ⟨response, d, g, hreply, hserved, hverified, hcontents⟩ :=
    clientGet_ok B transport me objectId destination pid tempId hret hok
  rw [hhead] at hreply
  cases answer with
  | error s =>
      obtain ⟨s', hs', -⟩ := headReply_error s
      exact absurd (hs'.symm.trans hreply) (by simp)
  | ok value =>
      rw [headReply_ok] at hreply
      obtain rfl := Except.ok.inj hreply
      obtain ⟨p, hshown, hput, rfl⟩ := head_one_version B root nameMax choices hc hcall hanswer
      refine ⟨p, hshown, hput, ?_⟩
      -- the checksums agree, so the bytes do
      have hhex : B.hex d = B.hex p := congrArg Checksum.value hverified.2
      have hsame : d = p :=
        hcollide d p (Or.inr ⟨_, g, w'.rest, rfl, hserved⟩) (Or.inl hput) hhex
      rw [hcontents, hsame]

end Download

/-- The `Put` of `"a"` and then a `Head` of it. -/
def putThenHead : List (Choice (Invocation Bytes Unit)) :=
  onePut ++ .start (sampleInvocation (.head ⟨[0x61]⟩) []) :: List.replicate 3 (.act 1 .done)

/-- The fields of a `Head` that has returned OK. -/
def returnedHead : Program StoreSig Answer → Option (Bytes × UInt64 × Bytes)
  | .ret (.head (.ok response)) =>
      some (response.chunkId.value, response.size, response.checksum.value)
  | _ => none

theorem returnedHead_eq_some {p : Program StoreSig Answer} {id : Bytes} {size : UInt64}
    {checksum : Bytes} (h : returnedHead p = some (id, size, checksum)) :
    p = .ret (.head (.ok ⟨⟨id⟩, size, ⟨.kBlake3, checksum⟩⟩)) := by
  unfold returnedHead at h
  split at h
  · next response =>
      obtain ⟨⟨id'⟩, size', ⟨⟨⟩, checksum'⟩⟩ := response
      simp only [Option.some.injEq, Prod.mk.injEq] at h
      obtain ⟨rfl, rfl, rfl⟩ := h
      rfl
  · exact absurd h (by simp)

/-- The sample hash does not collide with that of `"a"`. -/
theorem sample_hex_injective {p : Bytes} (h : Blake3.sample.hex p = Blake3.sample.hex [0x61]) :
    p = [0x61] := by
  have hdigest : Blake3.sampleDigest p = Blake3.sampleDigest [0x61] := hexEncode_injective h
  unfold Blake3.sampleDigest at hdigest
  by_cases hnil : p = []
  · rw [if_pos hnil] at hdigest
    exact absurd hdigest (by decide)
  · by_cases ha : p = [0x61]
    · exact ha
    · rw [if_neg hnil, if_neg ha] at hdigest
      exact absurd hdigest (by decide)

theorem putThenHead_noCollision : NoCollision Blake3.sample [0x72] 255 putThenHead ⟨[0x61]⟩
    sampleTransport false (.ok ⟨⟨[0x61]⟩, 1, Blake3.sample.checksum [0x61]⟩) := by
  -- every payload involved is `"a"`
  have hall : ∀ p, Involved Blake3.sample [0x72] 255 putThenHead ⟨[0x61]⟩ sampleTransport false
      (.ok ⟨⟨[0x61]⟩, 1, Blake3.sample.checksum [0x61]⟩) p → p = [0x61] := by
    rintro p (⟨k, d, request, pid, address, hd, hcall, -, -, hmatches⟩ |
      ⟨response, g, b', -, b₁, hdelivered, -⟩)
    · have hjob : ((storeAfter Blake3.sample [0x72] 255 putThenHead).procs.map Process.job)[k]?
          = some d.job := by
        rw [List.getElem?_map, hd]
        rfl
      have hjobs : (storeAfter Blake3.sample [0x72] 255 putThenHead).procs.map Process.job
          = [sampleInvocation (.put (samplePut [0x61]) 1 2) [0x61],
            sampleInvocation (.head ⟨[0x61]⟩) []] :=
        System.jobs_after _ _ _
      rw [hjobs] at hjob
      match k with
      | 0 =>
          rw [← Option.some.inj hjob] at hcall
          obtain ⟨rfl, -, -⟩ := Call.put.inj hcall
          exact sample_hex_injective hmatches.2
      | 1 =>
          rw [← Option.some.inj hjob] at hcall
          exact absurd hcall (by simp [sampleInvocation])
      | k + 2 => simp at hjob
    · have hframe : Delivered sampleTransport true ((⟨[0x61], by simp⟩ : FrameData).1 ++ []) false :=
        .more rfl (.ended rfl)
      exact (hdelivered.unique hframe).1
  intro p q hp hq _
  rw [hall p hp, hall q hq]

theorem download_one_version_sample :
    ∃ (w' : ClientWorld Bool) (p : Bytes),
      ShownDuring Blake3.sample [0x72] 255 putThenHead 1 ⟨[0x61]⟩ p ∧
      w'.fs.contents sampleDestination = some p := by
  have hfields : ((storeAfter Blake3.sample [0x72] 255 putThenHead).procs.map
      fun c => returnedHead c.prog)[1]? = some (some ([0x61], 1, Blake3.sample.hex [0x61])) := by
    decide +kernel
  rw [List.getElem?_map, Option.map_eq_some_iff] at hfields
  obtain ⟨c, hc, hanswer⟩ := hfields
  have hjob : ((storeAfter Blake3.sample [0x72] 255 putThenHead).procs.map Process.job)[1]?
      = some c.job := by
    rw [List.getElem?_map, hc]
    rfl
  rw [storeAfter, System.jobs_after] at hjob
  have hcall : c.job.call = .head ⟨[0x61]⟩ := by
    rw [← Option.some.inj hjob]
    rfl
  obtain ⟨p, hshown, -, hcontents⟩ := download_one_version Blake3.sample [0x72] 255 putThenHead
    ⟨[0x61]⟩ sampleTransport false (.ok ⟨⟨[0x61]⟩, 1, Blake3.sample.checksum [0x61]⟩) 1 c 0
    sampleDestination 1 0 (FS.empty 255) (fun _ => .done) .Ok
    (Config.exec (World.handler 0 sampleTransport)
      (StorageClient.get Blake3.sample ⟨[0x61]⟩ sampleDestination 1 0,
        ⟨[], FS.empty 255, [], false⟩) (fun _ => .done) 15).2
    hc hcall (returnedHead_eq_some hanswer) rfl putThenHead_noCollision ⟨15, rfl⟩ rfl
  exact ⟨_, p, hshown, hcontents⟩

end ChunkStorage
