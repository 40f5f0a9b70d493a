import ChunkStorage.Calls

set_option autoImplicit false

/-! # The store is a map

What a `FileChunkStore` is for: an immutable map from chunk ids to byte strings. `MapStore` gives
the calls on such a map, `Represents` says that a directory of chunk files holds one, and
`store_refines_map` that a sequence of calls cannot be told from the same calls on the map as long
as no system call fails. -/

namespace ChunkStorage

open Effects Posix Program

/-! ## The map -/

namespace MapStore

/-- Chunk ids to payloads. -/
abbrev Map := ChunkId → Option Bytes

instance (checksum : Checksum) : Decidable checksum.WellFormed :=
  inferInstanceAs (Decidable (_ ∧ _))

instance (request : PutChunkRequest) : Decidable request.Valid :=
  inferInstanceAs (Decidable (_ ∧ _))

instance (B : Blake3) (request : PutChunkRequest) (p : Bytes) : Decidable (Matches B request p) :=
  inferInstanceAs (Decidable (_ ∧ _))

/-- `Put`, given what its stream delivers. -/
def put (B : Blake3) (m : Map) (request : PutChunkRequest) (delivery : Delivery) :
    StatusCode × Map :=
  if ¬ request.Valid then (.kInvalidArgument, m)
  else match delivery with
    | .failed own => (own.code, m)
    | .excess => (.kCorruption, m)
    | .complete p =>
        if ¬ Matches B request p then (.kCorruption, m)
        else match m request.chunkId with
          | some _ => (.kAlreadyExists, m)
          | none => (.kOk, Function.update m request.chunkId (some p))

/-- The payload of a chunk. -/
def find (m : Map) (chunkId : ChunkId) : Except StatusCode Bytes :=
  if (validateId chunkId).ok then
    match m chunkId with
    | none => .error .kNotFound
    | some p => .ok p
  else .error .kInvalidArgument

/-- `Get`: the bytes of the range. -/
def get (m : Map) (request : GetChunkRequest) : Except StatusCode Bytes :=
  match find m request.chunkId with
  | .error code => .error code
  | .ok p =>
      if request.range.offset.toNat + request.range.size.toNat ≤ p.length then
        .ok ((p.drop request.range.offset.toNat).take request.range.size.toNat)
      else .error .kInvalidArgument

def delete (m : Map) (chunkId : ChunkId) : StatusCode × Map :=
  match find m chunkId with
  | .error code => (code, m)
  | .ok _ => (.kOk, Function.update m chunkId none)

end MapStore

section Refinement

variable {σ τ : Type}

/-- `Head` answers with the size and the checksum of the payload. -/
def HeadAgrees (B : Blake3) (m : MapStore.Map) (chunkId : ChunkId) :
    StatusOr HeadChunkResponse → Prop
  | .error s => MapStore.find m chunkId = .error s.1.code
  | .ok r => ∃ p, MapStore.find m chunkId = .ok p ∧ r.chunkId = chunkId ∧
      r.size.toNat = p.length ∧ r.checksum = B.checksum p

/-- The answer of a call and the map after it are those of the map. A `Get` whose output stream
    refuses a block ends with the stream's status and a part of the range. -/
def Agrees (B : Blake3) (v : Invocation σ τ) (m : MapStore.Map) (trace : List (Event StoreSig)) :
    Answer → MapStore.Map → Prop
  | .status status, m' =>
      match v.call with
      | .put request _ _ => (status.code, m') = MapStore.put B m request
            (deliver v.input request.expectedSize.toNat v.source) ∧
          handed trace = [] ∧ (¬ request.Valid → trace = [])
      | .get request => m' = m ∧
          match MapStore.get m request with
          | .error code => status.code = code ∧ handed trace = []
          | .ok bytes => (status.code = .kOk ∧ handed trace = bytes) ∨
              (Refused v.output trace status ∧ handed trace <+: bytes)
      | .delete chunkId => (status.code, m') = MapStore.delete m chunkId ∧ handed trace = []
      | _ => False
  | .head response, m' => m' = m ∧ handed trace = [] ∧
      match v.call with
      | .head chunkId => HeadAgrees B m chunkId response
      | _ => False
  | .size size, m' => m' = m ∧ handed trace = [] ∧
      match v.call with
      | .size chunkId =>
          match size with
          | .error s => MapStore.find m chunkId = .error s.1.code
          | .ok n => ∃ p, MapStore.find m chunkId = .ok p ∧ n.toNat = p.length
      | _ => False
  | .exists value, m' => m' = m ∧ handed trace = [] ∧
      match v.call with
      | .exists chunkId => value = (MapStore.find m chunkId).toBool
      | _ => False

/-- The root holds exactly the chunks of the map, and nothing else. -/
structure Represents (B : Blake3) (root : Bytes) (m : MapStore.Map) (fs : FS) : Prop where
  valid : ∀ chunkId p, m chunkId = some p → (validateId chunkId).ok = true
  file : ∀ chunkId, fs.contents (pathFor root chunkId) = (m chunkId).map (chunkFile B)
  only : ∀ path, path.dir = root → fs.dir path ≠ none → ∃ chunkId, path = pathFor root chunkId

/-- The chunk a call is about. -/
def Call.chunkId : Call → ChunkId
  | .put request _ _ => request.chunkId
  | .get request => request.chunkId
  | .head chunkId | .size chunkId | .exists chunkId | .delete chunkId => chunkId

/-- The longest file name a call uses. -/
def Call.longest (root : Bytes) : Call → Path
  | .put request pid address => tempPath root request.chunkId pid address
  | .get request => pathFor root request.chunkId
  | .head chunkId | .size chunkId | .exists chunkId | .delete chunkId => pathFor root chunkId

/-- What happens to a store: a call, with the outcomes of its system calls, or the object is
    destroyed and another created on the same root. The object holds its root and nothing else,
    and neither its constructor nor its destructor makes a system call. -/
inductive Turn (σ τ : Type) where
  | call (v : Invocation σ τ) (ω : ℕ → Outcome)
  | recreate

/-- From `fs` on, every call returns and agrees with the map, in a run where the names fit, no
    system call fails and none is interrupted forever. The `k`-th call is process `k`. -/
def Refines (B : Blake3) (root : Bytes) : ℕ → MapStore.Map → FS → List (Turn σ τ) → Prop
  | _, _, _, [] => True
  | k, m, fs, .recreate :: turns => Refines B root k m fs turns
  | k, m, fs, .call v ω :: turns =>
      ((validateId v.call.chunkId).ok = true → fs.Fits (v.call.longest root)) →
      Config.Admits (v.handler k) World.NoFailure (v.call.program B root, v.start fs) ω →
      Config.Fair (v.handler k) (v.call.program B root, v.start fs) ω →
      ∃ a w', Config.Returns (v.handler k) (v.call.program B root, v.start fs) ω a w' ∧
        ∃ m', Agrees B v m w'.trace a m' ∧ Refines B root (k + 1) m' w'.fs turns

/-! ## One call -/

variable {B : Blake3} {root : Bytes} {m : MapStore.Map} {fs : FS}

theorem MapStore.find_none {chunkId : ChunkId} (hid : (validateId chunkId).ok = true)
    (h : m chunkId = none) : find m chunkId = .error .kNotFound := by
  simp [find, hid, h]

theorem MapStore.find_some {chunkId : ChunkId} {p : Bytes} (hid : (validateId chunkId).ok = true)
    (h : m chunkId = some p) : find m chunkId = .ok p := by
  simp [find, hid, h]

theorem MapStore.find_invalid {chunkId : ChunkId} (hid : (validateId chunkId).ok ≠ true) :
    find m chunkId = .error .kInvalidArgument := by
  simp [find, hid]

theorem MapStore.get_error {request : GetChunkRequest} {code : StatusCode}
    (h : find m request.chunkId = .error code) : get m request = .error code := by
  simp only [get, h]

theorem MapStore.get_within {request : GetChunkRequest} {p : Bytes}
    (h : find m request.chunkId = .ok p) (hin : request.range.Within p) :
    get m request
      = .ok ((p.drop request.range.offset.toNat).take request.range.size.toNat) := by
  simp only [get, h]
  exact if_pos hin

theorem MapStore.get_beyond {request : GetChunkRequest} {p : Bytes}
    (h : find m request.chunkId = .ok p) (hout : ¬ request.range.Within p) :
    get m request = .error .kInvalidArgument := by
  simp only [get, h]
  exact if_neg hout

theorem Represents.dir_none (h : Represents B root m fs) {chunkId : ChunkId} :
    fs.dir (pathFor root chunkId) = none ↔ m chunkId = none := by
  rw [← FS.contents_eq_none_iff, h.file, Option.map_eq_none_iff]

/-- A visible file is the chunk file of the payload. -/
theorem Represents.seen (h : Represents B root m fs) {chunkId : ChunkId} {file : Bytes}
    {P : StoreWorld σ τ → Prop} (hP : ∀ w, P w → w.fs = fs)
    (hseen : Seen World.NoFailure (pathFor root chunkId) P file) :
    ∃ p, m chunkId = some p ∧ ChunkFile (B.checksum p) p file ∧ file.length ≤ offMax := by
  obtain ⟨w, -, hw, -, hfile⟩ := hseen
  rw [hP w hw] at hfile
  have hlen := FS.contents_length_le hfile
  rw [h.file] at hfile
  obtain ⟨p, hp, rfl⟩ := Option.map_eq_some_iff.1 hfile
  exact ⟨p, hp, chunkFile_spec B p, hlen⟩

/-- An error of `Head` is the map's. -/
theorem Represents.headFails (h : Represents B root m fs) {chunkId : ChunkId} {status : Status}
    (hfit : (validateId chunkId).ok = true → fs.Fits (pathFor root chunkId))
    (hf : HeadFails (σ := σ) (τ := τ) World.NoFailure root chunkId (Looking fs []) status) :
    MapStore.find m chunkId = .error status.code := by
  rcases hf with ⟨hid, hcode⟩ | ⟨hid, w, ⟨rfl, -⟩, ⟨hcode, hnone⟩ | ⟨-, hfault⟩⟩
  · rw [hcode]
    exact MapStore.find_invalid hid
  · rw [hcode]
    exact MapStore.find_none hid (h.dir_none.1 hnone)
  · exact absurd ⟨World.neverFails_noFailure, hfit hid⟩ hfault

theorem Represents.head (h : Represents B root m fs) {chunkId : ChunkId}
    {r : StatusOr HeadChunkResponse} {w' : StoreWorld σ τ}
    (hfit : (validateId chunkId).ok = true → fs.Fits (pathFor root chunkId))
    (hd : HeadDone World.NoFailure root chunkId (Looking fs []) (LookingAt fs []) r w') :
    w'.fs = fs ∧ handed w'.trace = [] ∧ HeadAgrees B m chunkId r := by
  rcases hd with ⟨⟨hfs, hh⟩, hf⟩ | ⟨hid, hseen, ⟨⟨hfs, hh⟩, -⟩, hanswer⟩
  · exact ⟨hfs, hh, h.headFails hfit hf⟩
  · refine ⟨hfs, hh, ?_⟩
    obtain ⟨p, hp, hfile, hlen⟩ := h.seen (fun _ hw => hw.1) hseen
    have hplen : p.length ≤ offMax := by
      have := hfile.length
      omega
    rcases hanswer with ⟨c, q, hfile', rfl⟩ | ⟨hno, -⟩ | ⟨s, -, -, hfault⟩
    · obtain ⟨rfl, rfl⟩ := hfile.unique hfile'
      exact ⟨p, MapStore.find_some hid hp, rfl, toNat_length hplen, rfl⟩
    · exact absurd ⟨_, _, hfile⟩ hno
    · exact absurd World.neverFails_noFailure hfault

theorem Represents.get (h : Represents B root m fs) {v : Invocation σ τ} {request : GetChunkRequest}
    (hcall : v.call = .get request) {status : Status} {w' : StoreWorld σ τ}
    (hfit : (validateId request.chunkId).ok = true → fs.Fits (pathFor root request.chunkId))
    (hd : GetDone World.NoFailure v.output root request (Looking fs []) (LookingAt fs [])
      (LookingAt fs) status w') :
    w'.fs = fs ∧ Agrees B v m w'.trace (.status status) m := by
  have hlook : ∀ fd file (w : StoreWorld σ τ), LookingAt fs [] fd file w → w.fs = fs :=
    fun _ _ _ hw => hw.1.1
  simp only [Agrees, hcall, true_and]
  rcases hd with ⟨⟨hfs, hh⟩, -, hf⟩ | ⟨⟨⟨hfs, hh⟩, -⟩, hseen, hanswer⟩ |
    ⟨⟨⟨hfs, hh⟩, -⟩, hseen, hfile, hout, hcode⟩ | ⟨⟨⟨hfs, hh⟩, -⟩, hseen, hfile, hin, -, hopen⟩ |
    @⟨_, _, _, _, n, _, file', _, _, hseen, hfile, hin, hseen', hn, ⟨⟨hfs, hh⟩, -⟩, -, hloop⟩
  · rw [MapStore.get_error (h.headFails hfit hf)]
    exact ⟨hfs, rfl, hh⟩
  · obtain ⟨p, -, hfile, -⟩ := h.seen (fun _ hw => hw.1) hseen
    rcases hanswer with ⟨_, _, -, hr⟩ | ⟨hno, -⟩ | ⟨s, -, -, hfault⟩
    · exact absurd hr (by simp)
    · exact absurd ⟨_, _, hfile⟩ hno
    · exact absurd World.neverFails_noFailure hfault
  · obtain ⟨p, hp, hfile', -⟩ := h.seen (fun _ hw => hw.1) hseen
    obtain ⟨rfl, rfl⟩ := hfile'.unique hfile
    rw [MapStore.get_beyond (MapStore.find_some (h.valid _ _ hp) hp) hout]
    exact ⟨hfs, hcode, hh⟩
  · obtain ⟨p, hp, -, -⟩ := h.seen (fun _ hw => hw.1) hseen
    obtain ⟨w, hw, ⟨-, hnone⟩ | ⟨-, hfault⟩⟩ := hopen
    · rw [hlook _ _ w hw, h.dir_none, hp] at hnone
      exact absurd hnone (by simp)
    · rw [hlook _ _ w hw] at hfault
      exact absurd ⟨World.neverFails_noFailure, hfit (h.valid _ _ hp)⟩ hfault
  · obtain ⟨p, hp, hfile₁, -⟩ := h.seen (fun _ hw => hw.1) hseen
    obtain ⟨rfl, rfl⟩ := hfile₁.unique hfile
    obtain ⟨q, hq, hfile₂, -⟩ := h.seen (hlook _ _) hseen'
    obtain rfl : p = q := Option.some.inj (hp.symm.trans hq)
    rw [MapStore.get_within (MapStore.find_some (h.valid _ _ hp) hp) hin]
    -- the second descriptor reads the same payload, shifted by the header
    rw [Nat.add_comm, ← List.drop_drop, hfile₂.drop] at hh
    have hlen := hfile₂.length
    have hbound : request.range.offset.toNat + request.range.size.toNat ≤ p.length := hin
    refine ⟨hfs, ?_⟩
    rcases hloop with ⟨rfl, rfl⟩ | ⟨-, hlt, hend⟩ | ⟨-, hfault⟩ | hrefused
    · exact Or.inl ⟨rfl, hh⟩
    · omega
    · exact absurd World.neverFails_noFailure hfault
    · refine Or.inr ⟨hrefused, ?_⟩
      rw [hh]
      exact List.take_prefix_take_left hn

theorem Represents.temp_none (h : Represents B root m fs) (chunkId : ChunkId) (pid address : ℕ) :
    fs.dir (tempPath root chunkId pid address) = none := by
  by_contra hne
  obtain ⟨other, hother⟩ := h.only _ rfl hne
  exact tempPath_ne_pathFor root chunkId other pid address hother

/-- A `Put` that committed nothing leaves the map as it was. -/
theorem Represents.dropped (h : Represents B root m fs) {chunkId : ChunkId} {pid address : ℕ}
    {fs' : FS}
    (hl : Left fs (tempPath root chunkId pid address) (pathFor root chunkId) false none fs') :
    Represents B root m fs' := by
  have hdir : ∀ q, fs'.dir q = fs.dir q := by
    intro q
    by_cases ht : tempPath root chunkId pid address = q
    · rw [← ht, hl.temp_eq, h.temp_none]
      rfl
    · by_cases hf : pathFor root chunkId = q
      · rw [← hf, hl.final_eq]
        rfl
      · exact hl.others q ht hf
  refine ⟨h.valid, fun other => ?_, fun path hroot hne => h.only path hroot (hdir path ▸ hne)⟩
  rw [FS.contents_congr (hdir _) hl.old, h.file]

/-- A committed `Put` adds its payload to the map. -/
theorem Represents.committed (h : Represents B root m fs) {chunkId : ChunkId} {pid address : ℕ}
    {p : Bytes} {fs' : FS} (hid : (validateId chunkId).ok = true)
    (hl : Left fs (tempPath root chunkId pid address) (pathFor root chunkId) false
      (some (chunkFile B p)) fs') :
    Represents B root (Function.update m chunkId (some p)) fs' := by
  refine ⟨fun other q hq => ?_, fun other => ?_, fun path hroot hne => ?_⟩
  · by_cases ho : other = chunkId
    · exact ho ▸ hid
    · rw [Function.update_of_ne ho] at hq
      exact h.valid other q hq
  · by_cases ho : other = chunkId
    · subst ho
      obtain ⟨n, hn, hd⟩ := hl.own _ rfl
      rw [FS.contents, hl.final_eq]
      simp [hn, hd]
    · rw [Function.update_of_ne ho, ← h.file]
      refine FS.contents_congr (hl.others _ ?_ fun he => ho (pathFor_injective he).symm) hl.old
      exact tempPath_ne_pathFor root chunkId other pid address
  · by_cases ht : tempPath root chunkId pid address = path
    · rw [← ht, hl.temp_eq] at hne
      exact absurd rfl hne
    · by_cases hf : pathFor root chunkId = path
      · exact ⟨chunkId, hf.symm⟩
      · rw [hl.others path ht hf] at hne
        exact h.only path hroot hne

/-- The answer of the map to a stream that the checks turn down. -/
theorem MapStore.put_rejects {request : PutChunkRequest} {input : ChunkInputStream σ} {s : σ}
    {status : Status} (hvalid : request.Valid) (h : Rejects B input s request status) :
    put B m request (deliver input request.expectedSize.toNat s) = (status.code, m) := by
  unfold Rejects at h
  cases hd : deliver input request.expectedSize.toNat s with
  | failed own => simp_all [put]
  | excess => simp_all [put]
  | complete p => simp_all [put]

theorem MapStore.put_accepts {request : PutChunkRequest} {input : ChunkInputStream σ} {s : σ}
    {p : Bytes} (hvalid : request.Valid) (h : Accepts B input s request p) :
    put B m request (deliver input request.expectedSize.toNat s)
      = if m request.chunkId = none then (.kOk, Function.update m request.chunkId (some p))
        else (.kAlreadyExists, m) := by
  rw [deliver_complete_iff.2 ⟨h.1, le_of_eq h.2.1⟩]
  cases hm : m request.chunkId with
  | none => simp [put, hvalid, h.2, hm]
  | some q => simp [put, hvalid, h.2, hm]

theorem Represents.put (h : Represents B root m fs) {v : Invocation σ τ}
    {request : PutChunkRequest} {pid address : ℕ} (hcall : v.call = .put request pid address)
    {status : Status} {w' : StoreWorld σ τ}
    (hfit : (validateId request.chunkId).ok = true →
      fs.Fits (tempPath root request.chunkId pid address))
    (hd : PutDone World.NoFailure B root v.input request (tempPath root request.chunkId pid address)
      (v.start fs) status w') :
    ∃ m', Agrees B v m w'.trace (.status status) m' ∧ Represents B root m' w'.fs := by
  simp only [Agrees, hcall]
  cases hd with
  | invalid hinvalid hcode =>
      refine ⟨m, ⟨?_, rfl, fun _ => rfl⟩, h⟩
      simp [MapStore.put, hinvalid, hcode]
  | refused hvalid _ _ hreason =>
      rcases hreason with ⟨-, hexists⟩ | ⟨-, hfault⟩
      · exact absurd (h.temp_none _ _ _) hexists
      · exact absurd ⟨World.neverFails_noFailure, hfit hvalid.1⟩ hfault
  | @dropped _ leftover hvalid _ _ hl hm hleft hreason =>
      obtain rfl : leftover = false := by simpa using fun hl => hleft hl World.neverFails_noFailure
      refine ⟨m, ⟨?_, hm.2.2.2, fun hno => absurd hvalid hno⟩, h.dropped hl⟩
      rcases hreason with hrej | ⟨p, hacc, hcode, hexists⟩ | ⟨-, hfault⟩
      · exact (MapStore.put_rejects hvalid hrej).symm
      · have hmapped : m request.chunkId ≠ none := fun hn => hexists (h.dir_none.2 hn)
        exact ((MapStore.put_accepts hvalid hacc).trans (by rw [if_neg hmapped, hcode])).symm
      · exact absurd World.neverFails_noFailure hfault
  | @committed _ leftover sync p hvalid _ _ hfree hl hm hleft hacc hend =>
      obtain rfl : leftover = false := by simpa using fun hl => hleft hl World.neverFails_noFailure
      rw [hacc.2.chunkFile_eq] at hl
      refine ⟨_, ⟨?_, hm.2.2.2, fun hno => absurd hvalid hno⟩, h.committed hvalid.1 hl⟩
      rcases hend with ⟨rfl, -⟩ | ⟨-, -, hfault⟩
      · have hunmapped : m request.chunkId = none := h.dir_none.1 hfree
        exact ((MapStore.put_accepts hvalid hacc).trans (by rw [if_pos hunmapped]; rfl)).symm
      · exact absurd World.neverFails_noFailure hfault

theorem Represents.delete (h : Represents B root m fs) {v : Invocation σ τ} {chunkId : ChunkId}
    (hcall : v.call = .delete chunkId) {status : Status} {w' : StoreWorld σ τ}
    (hfit : (validateId chunkId).ok = true → fs.Fits (pathFor root chunkId))
    (hd : DeleteDone World.NoFailure root chunkId fs status w') :
    ∃ m', Agrees B v m w'.trace (.status status) m' ∧ Represents B root m' w'.fs := by
  simp only [Agrees, hcall]
  rcases hd with ⟨hid, hcode, hfs, hh⟩ | ⟨hid, hfs, hh, ⟨hcode, hnone⟩ | ⟨-, hfault⟩⟩ |
    ⟨hid, hsome, hfs, hh⟩
  · refine ⟨m, ⟨?_, hh⟩, hfs ▸ h⟩
    rw [MapStore.delete, MapStore.find_invalid hid, hcode]
  · refine ⟨m, ⟨?_, hh⟩, hfs ▸ h⟩
    rw [MapStore.delete, MapStore.find_none hid (h.dir_none.1 hnone), hcode]
  · exact absurd ⟨World.neverFails_noFailure, hfit hid⟩ hfault
  · obtain ⟨p, hp⟩ := Option.ne_none_iff_exists'.1 fun hn => hsome (h.dir_none.2 hn)
    refine ⟨Function.update m chunkId none, ⟨?_, hh⟩, ?_⟩
    · rw [MapStore.delete, MapStore.find_some hid hp]
      rfl
    · rw [hfs]
      refine ⟨fun other q hq => ?_, fun other => ?_, fun path hroot hne => ?_⟩
      · by_cases ho : other = chunkId
        · simp [ho] at hq
        · rw [Function.update_of_ne ho] at hq
          exact h.valid other q hq
      · by_cases ho : other = chunkId
        · subst ho
          simp [FS.contents]
        · have hne : pathFor root chunkId ≠ pathFor root other := fun he =>
            ho (pathFor_injective he).symm
          rw [Function.update_of_ne ho, ← h.file]
          exact FS.contents_congr (by simp [hne]) fun _ _ hi => hi
      · refine h.only path hroot fun hn => hne ?_
        simp [hn]

/-! ## A sequence of calls -/

/-- Every call agrees with the map and leaves a directory that holds the new map. -/
theorem Represents.call (h : Represents B root m fs) (v : Invocation σ τ) (k : ℕ)
    (hfit : (validateId v.call.chunkId).ok = true → fs.Fits (v.call.longest root)) :
    (v.call.program B root).Always ((v.handler k).sem World.NoFailure) (v.start fs)
      (fun a w' => ∃ m', Agrees B v m w'.trace a m' ∧ Represents B root m' w'.fs) := by
  cases hcall : v.call with
  | put request pid address =>
      rw [hcall] at hfit
      refine safe_bind.2 ((put_always request pid address ⟨rfl, rfl, rfl, rfl⟩).imp ?_)
      exact fun status w' hd => h.put hcall hfit hd
  | get request =>
      rw [hcall] at hfit
      refine safe_bind.2 ((get_always request rfl).imp ?_)
      intro status w' hd
      obtain ⟨hfs, ha⟩ := h.get hcall hfit hd
      exact ⟨m, ha, hfs ▸ h⟩
  | head chunkId =>
      rw [hcall] at hfit
      refine safe_bind.2 ((head_always chunkId rfl).imp ?_)
      intro r w' hd
      obtain ⟨hfs, hh, ha⟩ := h.head hfit hd
      exact ⟨m, by simpa only [Agrees, hcall, true_and] using ⟨hh, ha⟩, hfs ▸ h⟩
  | size chunkId =>
      rw [hcall] at hfit
      unfold Call.program size
      refine safe_bind.2 (safe_bind.2 ((head_always chunkId rfl).imp ?_))
      intro r w' hd
      obtain ⟨hfs, hh, ha⟩ := h.head hfit hd
      cases r with
      | error s => exact ⟨m, by simpa only [Agrees, hcall, true_and] using ⟨hh, ha⟩, hfs ▸ h⟩
      | ok response =>
          obtain ⟨p, hp, -, hsize, -⟩ := ha
          exact ⟨m, by simpa only [Agrees, hcall, true_and] using ⟨hh, p, hp, hsize⟩, hfs ▸ h⟩
  | «exists» chunkId =>
      rw [hcall] at hfit
      unfold Call.program existsChunk
      refine safe_bind.2 (safe_bind.2 ((head_always chunkId rfl).imp ?_))
      intro r w' hd
      obtain ⟨hfs, hh, ha⟩ := h.head hfit hd
      refine ⟨m, ?_, hfs ▸ h⟩
      simp only [Agrees, hcall, true_and]
      refine ⟨hh, ?_⟩
      cases r with
      | error s =>
          have hnone : MapStore.find m chunkId = .error s.1.code := ha
          rw [hnone]
          rfl
      | ok response =>
          obtain ⟨p, hp, -⟩ : ∃ p, MapStore.find m chunkId = .ok p ∧ _ := ha
          rw [hp]
          rfl
  | delete chunkId =>
      rw [hcall] at hfit
      refine safe_bind.2 ((delete_always chunkId rfl).imp ?_)
      exact fun status w' hd => h.delete hcall hfit hd

theorem Represents.refines (h : Represents B root m fs) (k : ℕ) (turns : List (Turn σ τ)) :
    Refines B root k m fs turns := by
  induction turns generalizing k m fs with
  | nil => trivial
  | cons turn turns ih =>
      cases turn with
      | recreate => exact ih h k
      | call v ω =>
          intro hfit hok hfair
          obtain ⟨a, w', hret, m', ha, h'⟩ := (h.call v k hfit).returns hok hfair
          exact ⟨a, w', hret, m', ha, ih h' (k + 1)⟩

theorem represents_empty (nameMax : ℕ) : Represents B root (fun _ => none) (FS.empty nameMax) where
  valid _ _ h := absurd h (by simp)
  file _ := by simp [FS.contents, FS.dir, FS.empty, applyChanges]
  only _ _ h := absurd (by simp [FS.dir, FS.empty, applyChanges]) h

/-- **The store refines an immutable map.** From an empty root, every sequence of calls, with the
    object re-created at any points, returns and answers as the map does. -/
theorem store_refines_map (B : Blake3) (root : Bytes) (nameMax : ℕ) (turns : List (Turn σ τ)) :
    Refines B root 0 (fun _ => none) (FS.empty nameMax) turns :=
  (represents_empty nameMax).refines 0 turns

end Refinement

/-- The `Put` of one byte as the chunk `"a"`. -/
def oneBytePut : Invocation Bytes Unit := sampleInvocation (.put (samplePut [0x61]) 1 2) [0x61]

/-- Its first `write` is interrupted. -/
theorem store_refines_map_oneBytePut :
    ∃ a w' m', Config.Returns (oneBytePut.handler 0)
        (oneBytePut.call.program Blake3.sample [0x72], oneBytePut.start (FS.empty 255))
        (fun n => if n = 3 then .fails .EINTR else .done) a w' ∧
      Agrees Blake3.sample oneBytePut (fun _ => none) w'.trace a m' := by
  obtain ⟨hcalm, hfair⟩ : Config.Admits (oneBytePut.handler 0) World.NoFailure
        (oneBytePut.call.program Blake3.sample [0x72], oneBytePut.start (FS.empty 255))
        (fun n => if n = 3 then .fails .EINTR else .done) ∧
      Config.Fair (oneBytePut.handler 0)
        (oneBytePut.call.program Blake3.sample [0x72], oneBytePut.start (FS.empty 255))
        (fun n => if n = 3 then .fails .EINTR else .done) :=
    Config.ends_spec (fun op w o => decide (World.NoFailure op w o)) of_decide_eq_true (n := 13)
      (by decide +kernel)
  obtain ⟨a, w', hret, m', hagrees, -⟩ := store_refines_map Blake3.sample [0x72] 255
    [.call oneBytePut fun n => if n = 3 then .fails .EINTR else .done] (fun _ => by decide +kernel) hcalm
    hfair
  exact ⟨a, w', m', hret, hagrees⟩

end ChunkStorage
