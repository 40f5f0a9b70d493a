import ChunkStorage.PutAlone
import ChunkStorage.Lookup

set_option autoImplicit false

/-! # The calls of a store

A `Call` is a method of `FileChunkStore` with its arguments and an `Invocation` also has the two
streams. The store object itself is only its root, so a call depends on nothing else. The last
section says how the calls end that run alone and read or delete. -/

namespace ChunkStorage

open Effects Posix Program

/-- A method of `FileChunkStore` and its arguments. `Put` forms its temporary name from the process
    id and the address of its stream. -/
inductive Call where
  | put (request : PutChunkRequest) (pid address : ℕ)
  | get (request : GetChunkRequest)
  | head (chunkId : ChunkId)
  | size (chunkId : ChunkId)
  | exists (chunkId : ChunkId)
  | delete (chunkId : ChunkId)

inductive Answer where
  | status (status : Status)
  | head (response : StatusOr HeadChunkResponse)
  | size (size : StatusOr UInt64)
  | exists (value : Bool)

def Call.program (B : Blake3) (root : Bytes) : Call → Program StoreSig Answer
  | .put request pid address => return .status (← ChunkStorage.put B root request pid address)
  | .get request => return .status (← ChunkStorage.get root request)
  | .head chunkId => return .head (← ChunkStorage.head root chunkId)
  | .size chunkId => return .size (← ChunkStorage.size root chunkId)
  | .exists chunkId => return .exists (← existsChunk root chunkId)
  | .delete chunkId => return .status (← ChunkStorage.delete root chunkId)

/-- A call with the streams it is given. -/
structure Invocation (σ τ : Type) where
  call : Call
  input : ChunkInputStream σ
  output : ChunkOutputStream τ
  source : σ
  sink : τ

namespace Invocation

variable {σ τ : Type}

/-- The call before its first step. -/
def start (v : Invocation σ τ) (fs : FS) : StoreWorld σ τ := ⟨[], fs, [], (v.source, v.sink)⟩

/-- How the call is answered when it runs as process `me`. -/
abbrev handler (v : Invocation σ τ) (me : ℕ) : Handler StoreSig (StoreWorld σ τ) Outcome :=
  World.handler me (streams v.input v.output)

end Invocation

/-- A call whose input delivers the payload and whose output takes everything, to run the store on. -/
def sampleInvocation (call : Call) (payload : Bytes) : Invocation Bytes Unit :=
  ⟨call, fun s size => (.ok (s.take size), s.drop size), fun t _ => (.Ok, t), payload, ()⟩

/-- The code a call has returned, if it has returned a status. -/
def returnedCode : Program StoreSig Answer → Option StatusCode
  | .ret (.status status) => some status.code
  | _ => none

theorem returnedCode_eq_some {p : Program StoreSig Answer} {code : StatusCode}
    (h : returnedCode p = some code) : ∃ status, p = .ret (.status status) ∧ status.code = code := by
  unfold returnedCode at h
  split at h
  · next status => exact ⟨status, rfl, Option.some.inj h⟩
  · exact absurd h (by simp)

section Alone

variable {σ τ : Type} {input : ChunkInputStream σ} {output : ChunkOutputStream τ} {me : ℕ}
  {ok : (op : StoreSig.Op) → StoreWorld σ τ → Outcome → Prop} {root : Bytes}

/-- A call that reads alone: the file system stays, and the bytes `e` were handed out. -/
def Looking (fs : FS) (e : Bytes) (w : StoreWorld σ τ) : Prop := w.fs = fs ∧ handed w.trace = e

/-- The same with a descriptor open on a file. -/
def LookingAt (fs : FS) (e : Bytes) (fd : ℕ) (file : Bytes) (w : StoreWorld σ τ) : Prop :=
  Looking fs e w ∧ ∃ f i, w.fds[fd]? = some f ∧ fs.inodes[f.ino]? = some i ∧ i.data = file

theorem LookingAt.quiet (fs : FS) (e : Bytes) (fd : ℕ) (file : Bytes) :
    World.Quiet Eq (fun _ _ => True) (LookingAt (σ := σ) (τ := τ) fs e fd file) where
  env hw hR := hR ▸ hw
  looks s r hs hw := ⟨⟨⟨hw.1.1, by simpa using hw.1.2⟩, hw.2⟩, trivial⟩

theorem LookingAt.reads (fs : FS) (e : Bytes) (fd : ℕ) (file : Bytes) :
    Reads (LookingAt (σ := σ) (τ := τ) fs e fd file) fd file := by
  intro w hw
  obtain ⟨⟨hfs, -⟩, f, i, hf, hi, hd⟩ := hw
  exact ⟨f, i, hf, by rw [hfs]; exact hi, hd⟩

theorem LookingAt.hands (fs : FS) (fd : ℕ) (file : Bytes) :
    Hands (σ := σ) (τ := τ) (fun _ _ => True) fun e => LookingAt fs e fd file := by
  intro e w data status rest hw
  exact ⟨⟨⟨hw.1.1, by rw [World.replied_trace, handed_write, hw.1.2]⟩, hw.2⟩, trivial⟩

theorem Looking.opening (fs : FS) (e : Bytes) (path : Path) :
    Opening (σ := σ) (τ := τ) Eq (fun _ _ => True) path (Looking fs e) (LookingAt fs e) where
  env hw hR := hR ▸ hw
  failed er hw := ⟨⟨hw.1, by simpa using hw.2⟩, trivial⟩
  opened {w i n} hw hi hn w' hw' := by
    subst hw'
    refine ⟨⟨⟨hw.1, by simpa using hw.2⟩, ⟨i, 0⟩, n, by simp, ?_, rfl⟩, trivial⟩
    rw [← hw.1]
    exact hn
  quiet := LookingAt.quiet fs e
  reads := LookingAt.reads fs e

/-- A second descriptor on the same file system. -/
theorem LookingAt.opening (fs : FS) (fd : ℕ) (file : Bytes) (path : Path) :
    Opening (σ := σ) (τ := τ) Eq (fun _ _ => True) path (LookingAt fs [] fd file)
      (LookingAt fs []) where
  env hw hR := hR ▸ hw
  failed er hw := ⟨⟨⟨hw.1.1, by simpa using hw.1.2⟩, hw.2⟩, trivial⟩
  opened hw hi hn w' hw' := (Looking.opening fs [] path).opened hw.1 hi hn w' hw'
  quiet := LookingAt.quiet fs []
  reads := LookingAt.reads fs []

/-- `Head` alone. -/
theorem head_always (chunkId : ChunkId) {w : StoreWorld σ τ} (hw : handed w.trace = []) :
    (head root chunkId).Always ((World.handler me (streams input output)).sem ok) w
      (HeadDone ok root chunkId (Looking w.fs []) (LookingAt w.fs [])) :=
  head_safe (Looking.opening w.fs [] _) ⟨rfl, hw⟩

/-- `Get` alone. -/
theorem get_always (request : GetChunkRequest) {w : StoreWorld σ τ} (hw : handed w.trace = []) :
    (get root request).Always ((World.handler me (streams input output)).sem ok) w
      (GetDone ok output root request (Looking w.fs []) (LookingAt w.fs []) (LookingAt w.fs)) :=
  get_safe (Looking.opening w.fs [] _) (fun fd file => LookingAt.opening w.fs fd file _)
    (LookingAt.quiet w.fs) (LookingAt.reads w.fs) (LookingAt.hands w.fs) ⟨rfl, hw⟩

/-- How a `Delete` that runs alone ends. -/
inductive DeleteDone (ok : (op : StoreSig.Op) → StoreWorld σ τ → Outcome → Prop) (root : Bytes)
    (chunkId : ChunkId) (fs : FS) : Status → StoreWorld σ τ → Prop
  | invalid {status : Status} {w' : StoreWorld σ τ} : (validateId chunkId).ok ≠ true →
      status.code = .kInvalidArgument → w'.fs = fs → handed w'.trace = [] →
      DeleteDone ok root chunkId fs status w'
  | fails {status : Status} {w' : StoreWorld σ τ} : (validateId chunkId).ok = true → w'.fs = fs →
      handed w'.trace = [] →
      (status.code = .kNotFound ∧ fs.dir (pathFor root chunkId) = none) ∨
        (status.code = .kIoError ∧ ¬ (World.NeverFails ok ∧ fs.Fits (pathFor root chunkId))) →
      DeleteDone ok root chunkId fs status w'
  | deleted {w' : StoreWorld σ τ} : (validateId chunkId).ok = true →
      fs.dir (pathFor root chunkId) ≠ none → w'.fs = fs.remove (pathFor root chunkId) →
      handed w'.trace = [] → DeleteDone ok root chunkId fs .Ok w'

theorem delete_always (chunkId : ChunkId) {w : StoreWorld σ τ} (hw : handed w.trace = []) :
    (delete root chunkId).Always ((World.handler me (streams input output)).sem ok) w
      (DeleteDone ok root chunkId w.fs) := by
  unfold delete
  by_cases hid : (validateId chunkId).ok = true
  · simp only [hid, Bool.not_true, Bool.false_eq_true, if_false]
    refine safe_perform.2 ?_
    rintro _ rfl r w₁ hH
    refine ⟨trivial, ?_⟩
    obtain ⟨o, fds', fs', hok, hexec, rfl⟩ := World.sem_sys hH
    obtain ⟨rfl, ⟨e, rfl, rfl, hmissing, hcalm⟩ | ⟨i, hi, rfl, rfl⟩⟩ := unlink_cases hexec
    · by_cases he : e = .ENOENT
      · simp only [if_pos he]
        exact .fails hid rfl (by simpa using hw) (Or.inl ⟨rfl, hmissing he⟩)
      · simp only [if_neg he]
        exact .fails hid rfl (by simpa using hw)
          (Or.inr ⟨rfl, fun hn => he (hcalm (hn.1 _ _ _ hok).1 hn.2)⟩)
    · exact .deleted hid (by simp [hi]) rfl (by simpa using hw)
  · have hno : (validateId chunkId).ok = false := by simpa using hid
    simp only [hno, Bool.not_false, if_true]
    exact .invalid hid (validateId_code hid) rfl hw

end Alone

end ChunkStorage
