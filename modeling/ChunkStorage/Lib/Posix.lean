import ChunkStorage.Lib.Program
import ChunkStorage.Lib.FileSystem

set_option autoImplicit false

/-! # System calls

The system calls of a process that works on files, as a `Signature` (`Sys`) with an executable
meaning (`Syscall.exec`). The environment chooses an `Outcome` for each call: to do all of it, to
transfer less than asked, to transfer nothing, or to fail with an error number of its choice. A
call that fails has no effect. `EEXIST` and `ENOENT` are never made up: they come from the state
of the file system only.

`World B β` is a process that performs system calls and the operations of a second signature `B`
on a state `β` of its own. It keeps the descriptors it opened and, as a ghost, the `trace` of the
calls that were answered.

The file system has no symbolic links. On one that has them `openRead`, `openDirectory` and `exists`
follow a link, and `exists` says that nothing is there if the link dangles; `openExcl`, `link` and
`unlink` go by the entry itself, as they do here. -/

namespace Posix

open Effects

inductive Errno where
  | EINTR
  | ENOENT
  | EEXIST
  | EBADF
  | EFBIG
  | ENAMETOOLONG
  | other (n : ℕ)
  deriving DecidableEq

/-- `std::strerror`, as glibc words it for Linux: the numbers that the manual pages of the calls below
    list. The text of any other number is that of one glibc does not know. -/
def strerror : Errno → String
  | .EINTR => "Interrupted system call"
  | .ENOENT => "No such file or directory"
  | .EEXIST => "File exists"
  | .EBADF => "Bad file descriptor"
  | .EFBIG => "File too large"
  | .ENAMETOOLONG => "File name too long"
  | .other 1 => "Operation not permitted"
  | .other 5 => "Input/output error"
  | .other 6 => "No such device or address"
  | .other 11 => "Resource temporarily unavailable"
  | .other 12 => "Cannot allocate memory"
  | .other 13 => "Permission denied"
  | .other 14 => "Bad address"
  | .other 16 => "Device or resource busy"
  | .other 18 => "Invalid cross-device link"
  | .other 19 => "No such device"
  | .other 20 => "Not a directory"
  | .other 21 => "Is a directory"
  | .other 22 => "Invalid argument"
  | .other 23 => "Too many open files in system"
  | .other 24 => "Too many open files"
  | .other 26 => "Text file busy"
  | .other 28 => "No space left on device"
  | .other 29 => "Illegal seek"
  | .other 30 => "Read-only file system"
  | .other 31 => "Too many links"
  | .other 32 => "Broken pipe"
  | .other 40 => "Too many levels of symbolic links"
  | .other 75 => "Value too large for defined data type"
  | .other 122 => "Disk quota exceeded"
  | .other n => "Unknown error " ++ toString n

/-- What the environment makes of a call. -/
inductive Outcome where
  | done
  /-- A transfer of at most `n` bytes, at least one where there is one to transfer. -/
  | short (n : ℕ)
  /-- `write` returns 0; `errno` keeps the value it had. -/
  | nothing (errno : Errno)
  | fails (errno : Errno)
  deriving DecidableEq

/-- How much of `n` bytes an outcome transfers. -/
def Outcome.amount (n : ℕ) : Outcome → ℕ
  | .short m => min (max m 1) n
  | _ => n

theorem Outcome.amount_le (n : ℕ) (o : Outcome) : o.amount n ≤ n := by
  cases o <;> simp [Outcome.amount]

theorem Outcome.amount_pos {n : ℕ} (h : 0 < n) (o : Outcome) : 0 < o.amount n := by
  cases o <;> simp [Outcome.amount, h]

/-- An open file description: the file and the position in it. -/
structure OpenFile where
  ino : ℕ
  offset : ℕ

/-- The result of `write`: a positive count, 0, or -1. -/
inductive WriteReply where
  | wrote (n : ℕ)
  | nothing (errno : Errno)
  | failed (errno : Errno)

inductive Syscall where
  /-- `std::filesystem::create_directories` of a directory that exists. -/
  | createDirectories (dir : Bytes)
  /-- `open` with `O_WRONLY | O_CREAT | O_EXCL`. -/
  | openExcl (path : Path)
  /-- `open` with `O_RDONLY`. -/
  | openRead (path : Path)
  | write (fd : ℕ) (data : Bytes)
  | pread (fd count offset : ℕ)
  | read (fd count : ℕ)
  | fstat (fd : ℕ)
  | fdatasync (fd : ℕ)
  | link (old new : Path)
  | unlink (path : Path)
  /-- `open` with `O_RDONLY | O_DIRECTORY`. -/
  | openDirectory (dir : Bytes)
  /-- `fsync` of an open directory. -/
  | fsync (dir : Bytes)
  /-- `std::filesystem::exists`. -/
  | exists (path : Path)

abbrev Syscall.Ret : Syscall → Type
  | .openExcl _ | .openRead _ | .fstat _ => Except Errno ℕ
  | .write _ _ => WriteReply
  | .pread _ _ _ | .read _ _ => Except Errno Bytes
  | .exists _ => Except Errno Bool
  | _ => Except Errno Unit

abbrev Sys : Signature := ⟨Syscall, Syscall.Ret⟩

/-- A transfer that a signal interrupted before it moved a byte. -/
def Syscall.interrupted : (s : Syscall) → s.Ret → Bool
  | .write _ _, .failed .EINTR => true
  | .pread _ _ _, .error .EINTR => true
  | .read _ _, .error .EINTR => true
  | _, _ => false

/-- A call that changes neither the descriptors nor the file system. -/
def Syscall.looks : Syscall → Bool
  | .createDirectories _ | .pread _ _ _ | .fstat _ | .openDirectory _ | .exists _ => true
  | _ => false

def Syscall.isTransfer : Syscall → Bool
  | .write _ _ | .pread _ _ _ | .read _ _ => true
  | _ => false

/-- Whether the last component of a path is a name the file system takes. -/
def FS.Fits (fs : FS) (p : Path) : Prop := p.name.length ≤ fs.nameMax

instance (fs : FS) (p : Path) : Decidable (fs.Fits p) := inferInstanceAs (Decidable (_ ≤ _))

/-- What a call leaves behind: its reply, the descriptors and the file system. -/
abbrev Result (α : Type) := α × List OpenFile × FS

/-- Whether a call may fail with `e` whatever the file system holds. -/
def Errno.injectable : Errno → Bool
  | .EEXIST | .ENOENT => false
  | _ => true

/-- The call fails where the environment says so, and then has no effect. -/
def orFails {α : Type} (o : Outcome) (fds : List OpenFile) (fs : FS) (x : Result (Except Errno α)) :
    Result (Except Errno α) :=
  match o with
  | .fails e => if e.injectable then (.error e, fds, fs) else x
  | _ => x

def sysOpenExcl (me : ℕ) (p : Path) (fds : List OpenFile) (fs : FS) : Result (Except Errno ℕ) :=
  if fs.Fits p then
    match fs.dir p with
    | some _ => (.error .EEXIST, fds, fs)
    | none => (.ok fds.length, fds ++ [⟨fs.inodes.length, 0⟩], fs.create p me)
  else (.error .ENAMETOOLONG, fds, fs)

def sysOpenRead (p : Path) (fds : List OpenFile) (fs : FS) : Result (Except Errno ℕ) :=
  if fs.Fits p then
    match fs.dir p with
    | some i => (.ok fds.length, fds ++ [⟨i, 0⟩], fs)
    | none => (.error .ENOENT, fds, fs)
  else (.error .ENAMETOOLONG, fds, fs)

def sysWrite (fd : ℕ) (data : Bytes) (o : Outcome) (fds : List OpenFile) (fs : FS) :
    Result WriteReply :=
  match o with
  | .fails e => (.failed e, fds, fs)
  | .nothing e => (.nothing e, fds, fs)
  | _ =>
      match fds[fd]? with
      | none => (.failed .EBADF, fds, fs)
      | some f =>
          -- no file grows past the largest offset
          let n := min (o.amount data.length) (offMax - f.offset)
          if n = 0 then (.failed .EFBIG, fds, fs)
          else (.wrote n, fds.set fd ⟨f.ino, f.offset + n⟩,
            fs.modify f.ino fun i => i.write f.offset (data.take n))

def sysPread (fd count offset : ℕ) (o : Outcome) (fds : List OpenFile) (fs : FS) :
    Result (Except Errno Bytes) :=
  match (fds[fd]?).bind fun f => fs.inodes[f.ino]? with
  | none => (.error .EBADF, fds, fs)
  | some i => (.ok ((i.data.drop offset).take (o.amount count)), fds, fs)

def sysRead (fd count : ℕ) (o : Outcome) (fds : List OpenFile) (fs : FS) :
    Result (Except Errno Bytes) :=
  match fds[fd]? with
  | none => (.error .EBADF, fds, fs)
  | some f =>
      match fs.inodes[f.ino]? with
      | none => (.error .EBADF, fds, fs)
      | some i =>
          let bytes := (i.data.drop f.offset).take (o.amount count)
          (.ok bytes, fds.set fd ⟨f.ino, f.offset + bytes.length⟩, fs)

def sysFstat (fd : ℕ) (fds : List OpenFile) (fs : FS) : Result (Except Errno ℕ) :=
  match (fds[fd]?).bind fun f => fs.inodes[f.ino]? with
  | none => (.error .EBADF, fds, fs)
  | some i => (.ok i.data.length, fds, fs)

def sysFdatasync (fd : ℕ) (fds : List OpenFile) (fs : FS) : Result (Except Errno Unit) :=
  match fds[fd]? with
  | none => (.error .EBADF, fds, fs)
  | some f => (.ok (), fds, fs.modify f.ino Inode.sync)

def sysLink (old new : Path) (fds : List OpenFile) (fs : FS) : Result (Except Errno Unit) :=
  if fs.Fits old ∧ fs.Fits new then
    match h : fs.dir old with
    | none => (.error .ENOENT, fds, fs)
    | some i =>
        match fs.dir new with
        | some _ => (.error .EEXIST, fds, fs)
        | none => (.ok (), fds, fs.bind new i (fs.dir_lt h))
  else (.error .ENAMETOOLONG, fds, fs)

def sysUnlink (p : Path) (fds : List OpenFile) (fs : FS) : Result (Except Errno Unit) :=
  if fs.Fits p then
    match fs.dir p with
    | none => (.error .ENOENT, fds, fs)
    | some _ => (.ok (), fds, fs.remove p)
  else (.error .ENAMETOOLONG, fds, fs)

/-- The entry is there. Without links that is what `std::filesystem::exists` asks. -/
def sysExists (p : Path) (fds : List OpenFile) (fs : FS) : Result (Except Errno Bool) :=
  (if fs.Fits p then .ok (fs.dir p).isSome else .error .ENAMETOOLONG, fds, fs)

/-- The effect of a call of process `me` with the descriptors `fds`. -/
def Syscall.exec (me : ℕ) : (s : Syscall) → List OpenFile → FS → Outcome → Result s.Ret
  | .createDirectories _, fds, fs, o => orFails o fds fs (.ok (), fds, fs)
  | .openExcl p, fds, fs, o => orFails o fds fs (sysOpenExcl me p fds fs)
  | .openRead p, fds, fs, o => orFails o fds fs (sysOpenRead p fds fs)
  | .write fd data, fds, fs, o => sysWrite fd data o fds fs
  | .pread fd count offset, fds, fs, o => orFails o fds fs (sysPread fd count offset o fds fs)
  | .read fd count, fds, fs, o => orFails o fds fs (sysRead fd count o fds fs)
  | .fstat fd, fds, fs, o => orFails o fds fs (sysFstat fd fds fs)
  | .fdatasync fd, fds, fs, o => orFails o fds fs (sysFdatasync fd fds fs)
  | .link old new, fds, fs, o => orFails o fds fs (sysLink old new fds fs)
  | .unlink p, fds, fs, o => orFails o fds fs (sysUnlink p fds fs)
  | .openDirectory _, fds, fs, o => orFails o fds fs (.ok (), fds, fs)
  | .fsync dir, fds, fs, o => orFails o fds fs (.ok (), fds, fs.syncDir dir)
  | .exists p, fds, fs, o => orFails o fds fs (sysExists p fds fs)

/-- An outcome that is no failure: everything, a part, or an interrupted transfer. -/
def Outcome.Calm (s : Syscall) : Outcome → Prop
  | .done | .short _ => True
  | .fails .EINTR => s.isTransfer = true
  | _ => False

/-! ## What each call can do

One case lemma for each call: it failed without an effect, or it did what it is for. Where no
failure is injected the error is one the state of the file system explains. -/

section Cases

variable {me : ℕ} {fds fds' : List OpenFile} {fs fs' : FS} {o : Outcome}

theorem orFails_cases {α : Type} {x : Result (Except Errno α)} {r : Except Errno α}
    (h : orFails o fds fs x = (r, fds', fs')) :
    (∃ e, o = .fails e ∧ e.injectable = true ∧ r = .error e ∧ fds' = fds ∧ fs' = fs) ∨
      x = (r, fds', fs') := by
  unfold orFails at h
  split at h
  · next e =>
      split at h
      · next he =>
          simp only [Prod.mk.injEq] at h
          exact Or.inl ⟨e, rfl, he, h.1.symm, h.2.1.symm, h.2.2.symm⟩
      · exact Or.inr h
  · exact Or.inr h

theorem Outcome.Calm.not_fails {s : Syscall} {e : Errno} (h : (Outcome.fails e).Calm s)
    (hs : s.isTransfer = false) : False := by
  cases e <;> simp_all [Outcome.Calm]

theorem openExcl_cases {p : Path} {r : Except Errno ℕ}
    (h : (Syscall.openExcl p).exec me fds fs o = (r, fds', fs')) :
    (∃ e, r = .error e ∧ fds' = fds ∧ fs' = fs ∧ (e = .EEXIST → fs.dir p ≠ none) ∧
      (o.Calm (.openExcl p) → fs.Fits p → e = .EEXIST)) ∨
    (r = .ok fds.length ∧ fds' = fds ++ [⟨fs.inodes.length, 0⟩] ∧ fs' = fs.create p me ∧
      fs.dir p = none ∧ fs.Fits p) := by
  rcases orFails_cases h with ⟨e, rfl, he, rfl, rfl, rfl⟩ | h
  · exact Or.inl ⟨e, rfl, rfl, rfl, by rintro rfl; simp [Errno.injectable] at he,
      fun hc => (hc.not_fails rfl).elim⟩
  · unfold sysOpenExcl at h
    split at h
    · next hfit =>
        split at h
        · next i hi =>
            simp only [Prod.mk.injEq] at h
            obtain ⟨rfl, rfl, rfl⟩ := h
            exact Or.inl ⟨_, rfl, rfl, rfl, fun _ => by simp [hi], fun _ _ => rfl⟩
        · next hi =>
            simp only [Prod.mk.injEq] at h
            obtain ⟨rfl, rfl, rfl⟩ := h
            exact Or.inr ⟨rfl, rfl, rfl, hi, hfit⟩
    · next hf =>
        simp only [Prod.mk.injEq] at h
        obtain ⟨rfl, rfl, rfl⟩ := h
        exact Or.inl ⟨_, rfl, rfl, rfl, by simp, fun _ hfit => absurd hfit hf⟩

theorem openRead_cases {p : Path} {r : Except Errno ℕ}
    (h : (Syscall.openRead p).exec me fds fs o = (r, fds', fs')) :
    fs' = fs ∧ ((∃ e, r = .error e ∧ fds' = fds ∧ (e = .ENOENT → fs.dir p = none) ∧
        (o.Calm (.openRead p) → fs.Fits p → e = .ENOENT)) ∨
      ∃ i, fs.dir p = some i ∧ r = .ok fds.length ∧ fds' = fds ++ [⟨i, 0⟩]) := by
  rcases orFails_cases h with ⟨e, rfl, he, rfl, rfl, rfl⟩ | h
  · exact ⟨rfl, Or.inl ⟨e, rfl, rfl, by rintro rfl; simp [Errno.injectable] at he,
      fun hc => (hc.not_fails rfl).elim⟩⟩
  · unfold sysOpenRead at h
    split at h
    · split at h
      · next i hi =>
          simp only [Prod.mk.injEq] at h
          obtain ⟨rfl, rfl, rfl⟩ := h
          exact ⟨rfl, Or.inr ⟨i, hi, rfl, rfl⟩⟩
      · next hi =>
          simp only [Prod.mk.injEq] at h
          obtain ⟨rfl, rfl, rfl⟩ := h
          exact ⟨rfl, Or.inl ⟨_, rfl, rfl, fun _ => hi, fun _ _ => rfl⟩⟩
    · next hf =>
        simp only [Prod.mk.injEq] at h
        obtain ⟨rfl, rfl, rfl⟩ := h
        exact ⟨rfl, Or.inl ⟨_, rfl, rfl, by simp, fun _ hfit => absurd hfit hf⟩⟩

/-- `write` moves at least one byte where it succeeds. It fails without being told to only on a
    bad descriptor, with nothing to write, or where the file cannot grow. -/
theorem write_cases {fd : ℕ} {data : Bytes} {f : OpenFile} {r : WriteReply}
    (hf : fds[fd]? = some f) (h : (Syscall.write fd data).exec me fds fs o = (r, fds', fs')) :
    ((∃ e, r = .failed e ∨ r = .nothing e) ∧ fds' = fds ∧ fs' = fs ∧
      (o.Calm (.write fd data) → data ≠ [] → f.offset < offMax → r = .failed .EINTR)) ∨
    ∃ n, 0 < n ∧ n ≤ data.length ∧ f.offset + n ≤ offMax ∧ r = .wrote n ∧
      fds' = fds.set fd ⟨f.ino, f.offset + n⟩ ∧
      fs' = fs.modify f.ino fun i => i.write f.offset (data.take n) := by
  simp only [Syscall.exec, sysWrite] at h
  split at h
  · next e =>
      simp only [Prod.mk.injEq] at h
      obtain ⟨rfl, rfl, rfl⟩ := h
      refine Or.inl ⟨⟨e, Or.inl rfl⟩, rfl, rfl, fun hc _ _ => ?_⟩
      cases e <;> simp_all [Outcome.Calm]
  · next e =>
      simp only [Prod.mk.injEq] at h
      obtain ⟨rfl, rfl, rfl⟩ := h
      exact Or.inl ⟨⟨e, Or.inr rfl⟩, rfl, rfl, fun hc => by simp [Outcome.Calm] at hc⟩
  · simp only [hf] at h
    split at h
    · next hn =>
        simp only [Prod.mk.injEq] at h
        obtain ⟨rfl, rfl, rfl⟩ := h
        refine Or.inl ⟨⟨_, Or.inl rfl⟩, rfl, rfl, fun _ hd hoff => ?_⟩
        have := o.amount_pos (List.length_pos_iff.2 hd)
        omega
    · next hn =>
        simp only [Prod.mk.injEq] at h
        obtain ⟨rfl, rfl, rfl⟩ := h
        have := o.amount_le data.length
        exact Or.inr ⟨_, by omega, by omega, by omega, rfl, rfl, rfl⟩

theorem pread_cases {fd count offset : ℕ} {f : OpenFile} {i : Inode} {r : Except Errno Bytes}
    (hf : fds[fd]? = some f) (hi : fs.inodes[f.ino]? = some i)
    (h : (Syscall.pread fd count offset).exec me fds fs o = (r, fds', fs')) :
    fds' = fds ∧ fs' = fs ∧
      ((∃ e, r = .error e ∧ (o.Calm (.pread fd count offset) → e = .EINTR)) ∨
        ∃ n ≤ count, (0 < count → 0 < n) ∧ r = .ok ((i.data.drop offset).take n)) := by
  rcases orFails_cases h with ⟨e, rfl, he, rfl, rfl, rfl⟩ | h
  · refine ⟨rfl, rfl, Or.inl ⟨e, rfl, fun hc => ?_⟩⟩
    cases e <;> simp_all [Outcome.Calm]
  · simp only [sysPread, hf, Option.bind_some, hi, Prod.mk.injEq] at h
    obtain ⟨rfl, rfl, rfl⟩ := h
    exact ⟨rfl, rfl, Or.inr ⟨_, o.amount_le count, fun hc => o.amount_pos hc, rfl⟩⟩

theorem read_cases {fd count : ℕ} {f : OpenFile} {i : Inode} {r : Except Errno Bytes}
    (hf : fds[fd]? = some f) (hi : fs.inodes[f.ino]? = some i)
    (h : (Syscall.read fd count).exec me fds fs o = (r, fds', fs')) :
    fs' = fs ∧
      ((∃ e, r = .error e ∧ fds' = fds ∧ (o.Calm (.read fd count) → e = .EINTR)) ∨
        ∃ n ≤ count, (0 < count → 0 < n) ∧ r = .ok ((i.data.drop f.offset).take n) ∧
          fds' = fds.set fd ⟨f.ino, f.offset + ((i.data.drop f.offset).take n).length⟩) := by
  rcases orFails_cases h with ⟨e, rfl, he, rfl, rfl, rfl⟩ | h
  · refine ⟨rfl, Or.inl ⟨e, rfl, rfl, fun hc => ?_⟩⟩
    cases e <;> simp_all [Outcome.Calm]
  · simp only [sysRead, hf, hi, Prod.mk.injEq] at h
    obtain ⟨rfl, rfl, rfl⟩ := h
    exact ⟨rfl, Or.inr ⟨_, o.amount_le count, fun hc => o.amount_pos hc, rfl, rfl⟩⟩

/-- How a `read` moves its descriptor, whether or not its file is there. -/
theorem read_moves {fd count : ℕ} {r : Except Errno Bytes}
    (h : (Syscall.read fd count).exec me fds fs o = (r, fds', fs')) :
    fs' = fs ∧ ((∃ e, r = .error e ∧ fds' = fds) ∨
      ∃ f bytes, fds[fd]? = some f ∧ r = .ok bytes ∧
        fds' = fds.set fd ⟨f.ino, f.offset + bytes.length⟩ ∧
        (bytes ≠ [] → f.offset + bytes.length ≤ offMax)) := by
  cases hf : fds[fd]? with
  | none =>
      rcases orFails_cases h with ⟨e, -, -, rfl, rfl, rfl⟩ | h
      · exact ⟨rfl, Or.inl ⟨e, rfl, rfl⟩⟩
      · simp only [sysRead, hf, Prod.mk.injEq] at h
        obtain ⟨rfl, rfl, rfl⟩ := h
        exact ⟨rfl, Or.inl ⟨_, rfl, rfl⟩⟩
  | some f =>
      cases hi : fs.inodes[f.ino]? with
      | none =>
          rcases orFails_cases h with ⟨e, -, -, rfl, rfl, rfl⟩ | h
          · exact ⟨rfl, Or.inl ⟨e, rfl, rfl⟩⟩
          · simp only [sysRead, hf, hi, Prod.mk.injEq] at h
            obtain ⟨rfl, rfl, rfl⟩ := h
            exact ⟨rfl, Or.inl ⟨_, rfl, rfl⟩⟩
      | some i =>
          obtain ⟨rfl, ⟨e, rfl, rfl, -⟩ | ⟨n, -, -, rfl, rfl⟩⟩ := read_cases hf hi h
          · exact ⟨rfl, Or.inl ⟨e, rfl, rfl⟩⟩
          · refine ⟨rfl, Or.inr ⟨f, _, rfl, rfl, rfl, fun hne => ?_⟩⟩
            have hpos := List.length_pos_iff.2 hne
            have hdata := i.data_le
            rw [List.length_take, List.length_drop] at hpos ⊢
            omega

theorem fstat_cases {fd : ℕ} {f : OpenFile} {i : Inode} {r : Except Errno ℕ}
    (hf : fds[fd]? = some f) (hi : fs.inodes[f.ino]? = some i)
    (h : (Syscall.fstat fd).exec me fds fs o = (r, fds', fs')) :
    fds' = fds ∧ fs' = fs ∧
      ((∃ e, r = .error e ∧ ¬ o.Calm (.fstat fd)) ∨ r = .ok i.data.length) := by
  rcases orFails_cases h with ⟨e, rfl, he, rfl, rfl, rfl⟩ | h
  · exact ⟨rfl, rfl, Or.inl ⟨e, rfl, fun hc => hc.not_fails rfl⟩⟩
  · simp only [sysFstat, hf, Option.bind_some, hi, Prod.mk.injEq] at h
    obtain ⟨rfl, rfl, rfl⟩ := h
    exact ⟨rfl, rfl, Or.inr rfl⟩

theorem fdatasync_cases {fd : ℕ} {f : OpenFile} {r : Except Errno Unit} (hf : fds[fd]? = some f)
    (h : (Syscall.fdatasync fd).exec me fds fs o = (r, fds', fs')) :
    fds' = fds ∧ ((∃ e, r = .error e ∧ fs' = fs ∧ ¬ o.Calm (.fdatasync fd)) ∨
      r = .ok () ∧ fs' = fs.modify f.ino Inode.sync) := by
  rcases orFails_cases h with ⟨e, rfl, he, rfl, rfl, rfl⟩ | h
  · exact ⟨rfl, Or.inl ⟨e, rfl, rfl, fun hc => hc.not_fails rfl⟩⟩
  · simp only [sysFdatasync, hf, Prod.mk.injEq] at h
    obtain ⟨rfl, rfl, rfl⟩ := h
    exact ⟨rfl, Or.inr ⟨rfl, rfl⟩⟩

theorem link_cases {old new : Path} {r : Except Errno Unit}
    (h : (Syscall.link old new).exec me fds fs o = (r, fds', fs')) :
    fds' = fds ∧ ((∃ e, r = .error e ∧ fs' = fs ∧ (e = .EEXIST → fs.dir new ≠ none) ∧
        (o.Calm (.link old new) → fs.Fits old → fs.Fits new → fs.dir old ≠ none →
          e = .EEXIST)) ∨
      ∃ i, ∃ hi : fs.dir old = some i, fs.dir new = none ∧ fs.Fits new ∧ r = .ok () ∧
        fs' = fs.bind new i (fs.dir_lt hi)) := by
  rcases orFails_cases h with ⟨e, rfl, he, rfl, rfl, rfl⟩ | h
  · exact ⟨rfl, Or.inl ⟨e, rfl, rfl, by rintro rfl; simp [Errno.injectable] at he,
      fun hc => (hc.not_fails rfl).elim⟩⟩
  · unfold sysLink at h
    split at h
    · next hfit =>
        split at h
        · next hold =>
            simp only [Prod.mk.injEq] at h
            obtain ⟨rfl, rfl, rfl⟩ := h
            exact ⟨rfl, Or.inl ⟨_, rfl, rfl, by simp, fun _ _ _ hne => absurd hold hne⟩⟩
        · next i hold =>
            split at h
            · next j hnew =>
                simp only [Prod.mk.injEq] at h
                obtain ⟨rfl, rfl, rfl⟩ := h
                exact ⟨rfl, Or.inl ⟨_, rfl, rfl, by simp [hnew], fun _ _ _ _ => rfl⟩⟩
            · next hnew =>
                simp only [Prod.mk.injEq] at h
                obtain ⟨rfl, rfl, rfl⟩ := h
                exact ⟨rfl, Or.inr ⟨i, hold, hnew, hfit.2, rfl, rfl⟩⟩
    · next hf =>
        simp only [Prod.mk.injEq] at h
        obtain ⟨rfl, rfl, rfl⟩ := h
        exact ⟨rfl, Or.inl ⟨_, rfl, rfl, by simp, fun _ ho hn => absurd ⟨ho, hn⟩ hf⟩⟩

theorem unlink_cases {p : Path} {r : Except Errno Unit}
    (h : (Syscall.unlink p).exec me fds fs o = (r, fds', fs')) :
    fds' = fds ∧ ((∃ e, r = .error e ∧ fs' = fs ∧ (e = .ENOENT → fs.dir p = none) ∧
        (o.Calm (.unlink p) → fs.Fits p → e = .ENOENT)) ∨
      ∃ i, fs.dir p = some i ∧ r = .ok () ∧ fs' = fs.remove p) := by
  rcases orFails_cases h with ⟨e, rfl, he, rfl, rfl, rfl⟩ | h
  · exact ⟨rfl, Or.inl ⟨e, rfl, rfl, by rintro rfl; simp [Errno.injectable] at he,
      fun hc => (hc.not_fails rfl).elim⟩⟩
  · unfold sysUnlink at h
    split at h
    · split at h
      · next hp =>
          simp only [Prod.mk.injEq] at h
          obtain ⟨rfl, rfl, rfl⟩ := h
          exact ⟨rfl, Or.inl ⟨_, rfl, rfl, fun _ => hp, fun _ _ => rfl⟩⟩
      · next i hp =>
          simp only [Prod.mk.injEq] at h
          obtain ⟨rfl, rfl, rfl⟩ := h
          exact ⟨rfl, Or.inr ⟨i, hp, rfl, rfl⟩⟩
    · next hf =>
        simp only [Prod.mk.injEq] at h
        obtain ⟨rfl, rfl, rfl⟩ := h
        exact ⟨rfl, Or.inl ⟨_, rfl, rfl, by simp, fun _ hfit => absurd hfit hf⟩⟩

theorem fsync_cases {d : Bytes} {r : Except Errno Unit}
    (h : (Syscall.fsync d).exec me fds fs o = (r, fds', fs')) :
    fds' = fds ∧ ((∃ e, r = .error e ∧ fs' = fs ∧ ¬ o.Calm (.fsync d)) ∨
      r = .ok () ∧ fs' = fs.syncDir d) := by
  rcases orFails_cases h with ⟨e, rfl, he, rfl, rfl, rfl⟩ | h
  · exact ⟨rfl, Or.inl ⟨e, rfl, rfl, fun hc => hc.not_fails rfl⟩⟩
  · simp only [Prod.mk.injEq] at h
    obtain ⟨rfl, rfl, rfl⟩ := h
    exact ⟨rfl, Or.inr ⟨rfl, rfl⟩⟩

theorem exists_cases {p : Path} {r : Except Errno Bool}
    (h : (Syscall.exists p).exec me fds fs o = (r, fds', fs')) :
    fds' = fds ∧ fs' = fs ∧
      ((∃ e, r = .error e ∧ ¬ (o.Calm (.exists p) ∧ fs.Fits p)) ∨ r = .ok (fs.dir p).isSome) := by
  rcases orFails_cases h with ⟨e, rfl, he, rfl, rfl, rfl⟩ | h
  · exact ⟨rfl, rfl, Or.inl ⟨e, rfl, fun hc => hc.1.not_fails rfl⟩⟩
  · simp only [sysExists, Prod.mk.injEq] at h
    obtain ⟨rfl, rfl, rfl⟩ := h
    refine ⟨rfl, rfl, ?_⟩
    by_cases hf : fs.Fits p
    · exact Or.inr (if_pos hf)
    · exact Or.inl ⟨_, if_neg hf, fun hc => hf hc.2⟩

theorem createDirectories_cases {d : Bytes} {r : Except Errno Unit}
    (h : (Syscall.createDirectories d).exec me fds fs o = (r, fds', fs')) :
    fds' = fds ∧ fs' = fs ∧ ((∃ e, r = .error e ∧ ¬ o.Calm (.createDirectories d)) ∨ r = .ok ()) := by
  rcases orFails_cases h with ⟨e, rfl, he, rfl, rfl, rfl⟩ | h
  · exact ⟨rfl, rfl, Or.inl ⟨e, rfl, fun hc => hc.not_fails rfl⟩⟩
  · simp only [Prod.mk.injEq] at h
    obtain ⟨rfl, rfl, rfl⟩ := h
    exact ⟨rfl, rfl, Or.inr rfl⟩

theorem openDirectory_cases {d : Bytes} {r : Except Errno Unit}
    (h : (Syscall.openDirectory d).exec me fds fs o = (r, fds', fs')) :
    fds' = fds ∧ fs' = fs ∧ ((∃ e, r = .error e ∧ ¬ o.Calm (.openDirectory d)) ∨ r = .ok ()) := by
  rcases orFails_cases h with ⟨e, rfl, he, rfl, rfl, rfl⟩ | h
  · exact ⟨rfl, rfl, Or.inl ⟨e, rfl, fun hc => hc.not_fails rfl⟩⟩
  · simp only [Prod.mk.injEq] at h
    obtain ⟨rfl, rfl, rfl⟩ := h
    exact ⟨rfl, rfl, Or.inr rfl⟩

/-- The descriptors are on files that were open before. -/
def Reopens (fds fds' : List OpenFile) : Prop := ∀ f ∈ fds', ∃ f₀ ∈ fds, f.ino = f₀.ino

theorem Reopens.refl (fds : List OpenFile) : Reopens fds fds := fun f hf => ⟨f, hf, rfl⟩

/-- Moving the position of a descriptor. -/
theorem Reopens.set {fd : ℕ} {f : OpenFile} (hf : fds[fd]? = some f) (offset : ℕ) :
    Reopens fds (fds.set fd ⟨f.ino, offset⟩) := by
  intro f' hf'
  rcases List.mem_or_eq_of_mem_set hf' with hmem | rfl
  · exact ⟨f', hmem, rfl⟩
  · exact ⟨f, List.mem_of_getElem? hf, rfl⟩

/-- What a call of process `me` may do to the files, and the descriptors it leaves. -/
inductive Effect (me : ℕ) (fds : List OpenFile) (fs : FS) :
    (s : Syscall) → s.Ret → List OpenFile → FS → Prop
  | looks {s : Syscall} {r : s.Ret} {fds' : List OpenFile} (hfds : Reopens fds fds') :
      Effect me fds fs s r fds' fs
  | opens {p : Path} {i : ℕ} (hi : fs.dir p = some i) :
      Effect me fds fs (.openRead p) (.ok fds.length) (fds ++ [⟨i, 0⟩]) fs
  | creates {p : Path} (hnone : fs.dir p = none) :
      Effect me fds fs (.openExcl p) (.ok fds.length) (fds ++ [⟨fs.inodes.length, 0⟩])
        (fs.create p me)
  | modifies {s : Syscall} {r : s.Ret} {fds' : List OpenFile} {f : OpenFile} {g : Inode → Inode}
      (hf : f ∈ fds) (hfds : Reopens fds fds')
      (hg : ∀ n, (g n).owner = n.owner ∧ (g n).linked = n.linked) :
      Effect me fds fs s r fds' (fs.modify f.ino g)
  | links {old new : Path} {i : ℕ} (hi : fs.dir old = some i) (hnone : fs.dir new = none) :
      Effect me fds fs (.link old new) (.ok ()) fds (fs.bind new i (fs.dir_lt hi))
  | unlinks {p : Path} {i : ℕ} (hi : fs.dir p = some i) :
      Effect me fds fs (.unlink p) (.ok ()) fds (fs.remove p)
  | syncs {d : Bytes} : Effect me fds fs (.fsync d) (.ok ()) fds (fs.syncDir d)

/-- A file stays, with its owner. -/
theorem Effect.file {s : Syscall} {r : s.Ret} (h : Effect me fds fs s r fds' fs') {i : ℕ} {n : Inode}
    (hn : fs.inodes[i]? = some n) : ∃ n', fs'.inodes[i]? = some n' ∧ n'.owner = n.owner := by
  cases h with
  | looks _ | opens _ | unlinks _ | syncs => exact ⟨n, hn, rfl⟩
  | creates _ =>
      refine ⟨n, ?_, rfl⟩
      rw [FS.create_inodes, List.getElem?_append_left (List.getElem?_eq_some_iff.1 hn).1]
      exact hn
  | modifies _ _ hg =>
      rw [FS.modify_inodes, hn]
      refine ⟨_, rfl, ?_⟩
      split
      · exact (hg n).1
      · rfl
  | links _ _ =>
      rw [FS.bind_inodes, hn]
      refine ⟨_, rfl, ?_⟩
      split <;> rfl

/-- An entry stays or is removed: no call replaces one. -/
theorem Effect.entry {s : Syscall} {r : s.Ret} (h : Effect me fds fs s r fds' fs') {p : Path} {i : ℕ}
    (hi : fs.dir p = some i) : fs'.dir p = some i ∨ fs'.dir p = none := by
  cases h with
  | looks _ | opens _ | modifies _ _ _ => exact Or.inl hi
  | syncs => exact Or.inl (by rw [FS.syncDir_dir]; exact hi)
  | @creates q hnone =>
      refine Or.inl ?_
      rw [FS.create_dir, if_neg]
      · exact hi
      · rintro rfl
        rw [hi] at hnone
        exact absurd hnone (by simp)
  | @links old new j _ hnone =>
      refine Or.inl ?_
      rw [FS.bind_dir, if_neg]
      · exact hi
      · rintro rfl
        rw [hi] at hnone
        exact absurd hnone (by simp)
  | @unlinks q j _ =>
      by_cases hq : q = p
      · exact Or.inr (by rw [FS.remove_dir, if_pos hq])
      · exact Or.inl (by rw [FS.remove_dir, if_neg hq]; exact hi)

/-- An entry appears where the process creates a file or links one. -/
theorem Effect.appears {s : Syscall} {r : s.Ret} (h : Effect me fds fs s r fds' fs') {p : Path}
    {i : ℕ} (hnone : fs.dir p = none) (hi : fs'.dir p = some i) :
    (s = .openExcl p ∧ ∃ n, fs'.inodes[i]? = some n ∧ n.owner = me) ∨ ∃ old, s = .link old p := by
  have absent : ∀ {o : Option ℕ}, o = some i → o = none → False := by
    intro o hsome hnone
    rw [hnone] at hsome
    exact absurd hsome (by simp)
  cases h with
  | looks _ | opens _ | modifies _ _ _ => exact (absent hi hnone).elim
  | syncs => exact (absent hi (by rw [FS.syncDir_dir]; exact hnone)).elim
  | @unlinks q j _ =>
      refine (absent hi ?_).elim
      rw [FS.remove_dir]
      split
      · rfl
      · exact hnone
  | @creates q _ =>
      by_cases hq : q = p
      · subst hq
        rw [FS.create_dir, if_pos rfl] at hi
        obtain rfl := Option.some.inj hi
        exact Or.inl ⟨rfl, Inode.fresh me, by simp, rfl⟩
      · exact (absent hi (by rw [FS.create_dir, if_neg hq]; exact hnone)).elim
  | @links old new j hj _ =>
      by_cases hq : new = p
      · exact Or.inr ⟨old, by rw [hq]⟩
      · exact (absent hi (by rw [FS.bind_dir, if_neg hq]; exact hnone)).elim

/-- A file was there, with the same owner, or it is the one that an `open` creates. -/
theorem Effect.owner {s : Syscall} {r : s.Ret} (h : Effect me fds fs s r fds' fs') {i : ℕ}
    {n' : Inode} (hn' : fs'.inodes[i]? = some n') :
    (∃ n, fs.inodes[i]? = some n ∧ n'.owner = n.owner) ∨
      (n'.owner = me ∧ ∃ p fd, (⟨s, r⟩ : (s : Syscall) × s.Ret) = ⟨.openExcl p, .ok fd⟩ ∧
        fs'.dir p = some i) := by
  cases h with
  | looks _ | opens _ | unlinks _ | syncs => exact Or.inl ⟨n', hn', rfl⟩
  | modifies _ _ hg =>
      rw [FS.modify_inodes] at hn'
      obtain ⟨n, hn, rfl⟩ := Option.map_eq_some_iff.1 hn'
      refine Or.inl ⟨n, hn, ?_⟩
      split
      · exact (hg n).1
      · rfl
  | links _ _ =>
      rw [FS.bind_inodes] at hn'
      obtain ⟨n, hn, rfl⟩ := Option.map_eq_some_iff.1 hn'
      refine Or.inl ⟨n, hn, ?_⟩
      split <;> rfl
  | @creates p _ =>
      rw [FS.create_inodes, List.getElem?_append] at hn'
      split at hn'
      · exact Or.inl ⟨n', hn', rfl⟩
      · next hlt =>
          obtain ⟨hone, -⟩ := List.getElem?_eq_some_iff.1 hn'
          simp only [List.length_singleton] at hone
          have hi : fs.inodes.length = i := by omega
          subst hi
          rw [Nat.sub_self] at hn'
          refine Or.inr ⟨?_, p, _, rfl, by simp⟩
          rw [← Option.some.inj hn']
          rfl

theorem exec_effect (s : Syscall) {r : s.Ret} (h : s.exec me fds fs o = (r, fds', fs')) :
    Effect me fds fs s r fds' fs' := by
  have same : ∀ {s : Syscall} {r : s.Ret}, Effect me fds fs s r fds fs :=
    fun {_ _} => .looks (.refl fds)
  cases s with
  | createDirectories d =>
      obtain ⟨rfl, rfl, -⟩ := createDirectories_cases h
      exact same
  | openExcl p =>
      rcases openExcl_cases h with ⟨e, -, rfl, rfl, -⟩ | ⟨rfl, rfl, rfl, hnone, -⟩
      · exact same
      · exact .creates hnone
  | openRead p =>
      obtain ⟨rfl, ⟨e, -, rfl, -⟩ | ⟨i, hi, rfl, rfl⟩⟩ := openRead_cases h
      · exact same
      · exact .opens hi
  | write fd data =>
      cases hf : fds[fd]? with
      | none =>
          simp only [Syscall.exec, sysWrite, hf] at h
          split at h <;>
          · simp only [Prod.mk.injEq] at h
            obtain ⟨-, rfl, rfl⟩ := h
            exact same
      | some f =>
          rcases write_cases hf h with ⟨-, rfl, rfl, -⟩ | ⟨n, -, -, -, -, rfl, rfl⟩
          · exact same
          · exact .modifies (List.mem_of_getElem? hf) (.set hf _) fun m => ⟨by simp, by simp⟩
  | pread fd count offset =>
      rcases orFails_cases h with ⟨e, -, -, -, rfl, rfl⟩ | h
      · exact same
      · unfold sysPread at h
        split at h <;>
        · simp only [Prod.mk.injEq] at h
          obtain ⟨-, rfl, rfl⟩ := h
          exact same
  | read fd count =>
      rcases orFails_cases h with ⟨e, -, -, -, rfl, rfl⟩ | h
      · exact same
      · unfold sysRead at h
        split at h
        · simp only [Prod.mk.injEq] at h
          obtain ⟨-, rfl, rfl⟩ := h
          exact same
        · next f hf =>
            split at h
            · simp only [Prod.mk.injEq] at h
              obtain ⟨-, rfl, rfl⟩ := h
              exact same
            · simp only [Prod.mk.injEq] at h
              obtain ⟨-, rfl, rfl⟩ := h
              exact .looks (.set hf _)
  | fstat fd =>
      rcases orFails_cases h with ⟨e, -, -, -, rfl, rfl⟩ | h
      · exact same
      · unfold sysFstat at h
        split at h <;>
        · simp only [Prod.mk.injEq] at h
          obtain ⟨-, rfl, rfl⟩ := h
          exact same
  | fdatasync fd =>
      cases hf : fds[fd]? with
      | none =>
          rcases orFails_cases h with ⟨e, -, -, -, rfl, rfl⟩ | h
          · exact same
          · simp only [sysFdatasync, hf, Prod.mk.injEq] at h
            obtain ⟨-, rfl, rfl⟩ := h
            exact same
      | some f =>
          obtain ⟨rfl, ⟨e, -, rfl, -⟩ | ⟨-, rfl⟩⟩ := fdatasync_cases hf h
          · exact same
          · exact .modifies (List.mem_of_getElem? hf) (.refl _) fun m => ⟨rfl, rfl⟩
  | link old new =>
      obtain ⟨rfl, ⟨e, -, rfl, -⟩ | ⟨i, hi, hnone, -, rfl, rfl⟩⟩ := link_cases h
      · exact same
      · exact .links hi hnone
  | unlink p =>
      obtain ⟨rfl, ⟨e, -, rfl, -⟩ | ⟨i, hi, rfl, rfl⟩⟩ := unlink_cases h
      · exact same
      · exact .unlinks hi
  | openDirectory d =>
      obtain ⟨rfl, rfl, -⟩ := openDirectory_cases h
      exact same
  | fsync d =>
      obtain ⟨rfl, ⟨e, -, rfl, -⟩ | ⟨rfl, rfl⟩⟩ := fsync_cases h
      · exact same
      · exact .syncs
  | «exists» p =>
      obtain ⟨rfl, rfl, -⟩ := exists_cases h
      exact same

/-- Only the `fsync` of its directory makes an entry that was bound beyond recovery. -/
theorem exec_binds (s : Syscall) {r : s.Ret} (h : s.exec me fds fs o = (r, fds', fs')) {p : Path}
    {i : ℕ} (hb : fs.Binds p i) :
    fs'.Binds p i ∨ (⟨s, r⟩ : (s : Syscall) × s.Ret) = ⟨.fsync p.dir, .ok ()⟩ := by
  have push : ∀ {q : Path} {j : Option ℕ} {fs' : FS}, fs'.durable = fs.durable →
      fs'.pending = (q, j) :: fs.pending → fs'.Binds p i := by
    intro q j fs' hdurable hpending
    rcases hb with hd | hmem
    · exact Or.inl (by rw [hdurable]; exact hd)
    · exact Or.inr (by rw [hpending]; exact List.mem_cons_of_mem _ hmem)
  cases exec_effect s h with
  | looks _ | opens _ | modifies _ _ _ => exact Or.inl hb
  | creates _ | links _ _ | unlinks _ => exact Or.inl (push rfl rfl)
  | @syncs d =>
      by_cases hd : p.dir = d
      · exact Or.inr (by rw [hd])
      · refine Or.inl ?_
        rcases hb with hdurable | hmem
        · exact Or.inl (by simp [FS.syncDir, hd, hdurable])
        · exact Or.inr (List.mem_filter.2 ⟨hmem, by simpa using hd⟩)

/-- An interrupted transfer has no effect. -/
theorem exec_interrupted (s : Syscall) {r : s.Ret} (h : s.exec me fds fs o = (r, fds', fs'))
    (hr : s.interrupted r = true) : fds' = fds ∧ fs' = fs := by
  cases s with
  | write fd data =>
      simp only [Syscall.exec, sysWrite] at h
      split at h
      · simp only [Prod.mk.injEq] at h
        exact ⟨h.2.1.symm, h.2.2.symm⟩
      · simp only [Prod.mk.injEq] at h
        exact ⟨h.2.1.symm, h.2.2.symm⟩
      · split at h
        · simp only [Prod.mk.injEq] at h
          exact ⟨h.2.1.symm, h.2.2.symm⟩
        · split at h
          · simp only [Prod.mk.injEq] at h
            exact ⟨h.2.1.symm, h.2.2.symm⟩
          · simp only [Prod.mk.injEq] at h
            rw [← h.1] at hr
            exact absurd hr (by simp [Syscall.interrupted])
  | pread fd count offset =>
      rcases orFails_cases h with ⟨e, -, -, -, hfds, hfs⟩ | h
      · exact ⟨hfds, hfs⟩
      · unfold sysPread at h
        split at h <;> simp only [Prod.mk.injEq] at h <;> exact ⟨h.2.1.symm, h.2.2.symm⟩
  | read fd count =>
      rcases orFails_cases h with ⟨e, -, -, -, hfds, hfs⟩ | h
      · exact ⟨hfds, hfs⟩
      · unfold sysRead at h
        split at h
        · simp only [Prod.mk.injEq] at h
          exact ⟨h.2.1.symm, h.2.2.symm⟩
        · split at h
          · simp only [Prod.mk.injEq] at h
            exact ⟨h.2.1.symm, h.2.2.symm⟩
          · simp only [Prod.mk.injEq] at h
            rw [← h.1] at hr
            exact absurd hr (by simp [Syscall.interrupted])
  | createDirectories _ | openExcl _ | openRead _ | fstat _ | fdatasync _ | link _ _ | unlink _
  | openDirectory _ | fsync _ | «exists» _ => exact absurd hr (by simp [Syscall.interrupted])

/-- A transfer is not interrupted unless the environment says so. -/
theorem not_interrupted (s : Syscall) (me : ℕ) (fds : List OpenFile) (fs : FS) {o : Outcome}
    (ho : o ≠ .fails .EINTR) : s.interrupted (s.exec me fds fs o).1 = false := by
  rcases hexec : s.exec me fds fs o with ⟨r, fds', fs'⟩
  cases s with
  | write fd data =>
      simp only [Syscall.exec, sysWrite] at hexec
      split at hexec
      · next e =>
          obtain ⟨rfl, -⟩ := Prod.mk.inj hexec
          cases e <;> first | rfl | exact absurd rfl ho
      · obtain ⟨rfl, -⟩ := Prod.mk.inj hexec
        rfl
      · split at hexec
        · obtain ⟨rfl, -⟩ := Prod.mk.inj hexec
          rfl
        · split at hexec <;> obtain ⟨rfl, -⟩ := Prod.mk.inj hexec <;> rfl
  | pread fd count offset =>
      rcases orFails_cases hexec with ⟨e, rfl, -, rfl, -⟩ | hnone
      · cases e <;> first | rfl | exact absurd rfl ho
      · unfold sysPread at hnone
        split at hnone <;> obtain ⟨rfl, -⟩ := Prod.mk.inj hnone <;> rfl
  | read fd count =>
      rcases orFails_cases hexec with ⟨e, rfl, -, rfl, -⟩ | hnone
      · cases e <;> first | rfl | exact absurd rfl ho
      · unfold sysRead at hnone
        split at hnone
        · obtain ⟨rfl, -⟩ := Prod.mk.inj hnone
          rfl
        · split at hnone <;> obtain ⟨rfl, -⟩ := Prod.mk.inj hnone <;> rfl
  | createDirectories _ | openExcl _ | openRead _ | fstat _ | fdatasync _ | link _ _ | unlink _
  | openDirectory _ | fsync _ | «exists» _ => rfl

theorem done_not_interrupted (s : Syscall) (me : ℕ) (fds : List OpenFile) (fs : FS) :
    s.interrupted (s.exec me fds fs .done).1 = false :=
  not_interrupted s me fds fs nofun

end Cases

/-! ## Processes -/

/-- An operation and the reply it got. -/
abbrev Event (S : Signature) := (op : S.Op) × S.Ret op

/-- A process: its descriptors, the file system, the ghost trace of its calls (the newest first)
    and the state `rest` of its other operations. -/
structure World (B : Signature) (β : Type) where
  fds : List OpenFile
  fs : FS
  trace : List (Event (Sys.sum B))
  rest : β

namespace World

variable {B : Signature} {β : Type}

/-- The process after the call `s` was answered with `r`. -/
def answered (w : World B β) (s : Syscall) (r : s.Ret) (fds : List OpenFile) (fs : FS) :
    World B β where
  fds := fds
  fs := fs
  trace := if s.interrupted r then w.trace else ⟨.inl s, r⟩ :: w.trace
  rest := w.rest

/-- The process after its other operation `op` was answered with `r`. -/
def replied (w : World B β) (op : B.Op) (r : B.Ret op) (rest : β) : World B β where
  fds := w.fds
  fs := w.fs
  trace := ⟨.inr op, r⟩ :: w.trace
  rest := rest

/-- How process `me` is answered: the system calls by the file system and the outcome, the other
    operations by their own state. -/
def handler (me : ℕ) (hB : (op : B.Op) → β → B.Ret op × β) :
    Program.Handler (Sys.sum B) (World B β) Outcome
  | .inl s, w, o =>
      let x := s.exec me w.fds w.fs o
      (x.1, w.answered s x.1 x.2.1 x.2.2)
  | .inr op, w, _ =>
      let x := hB op w.rest
      (x.1, w.replied op x.1 x.2)

/-- The trace after a reply. An interrupted call leaves nothing in it. -/
def record : (op : (Sys.sum B).Op) → (Sys.sum B).Ret op → List (Event (Sys.sum B)) →
    List (Event (Sys.sum B))
  | .inl s, r, t => if s.interrupted r then t else ⟨.inl s, r⟩ :: t
  | .inr op, r, t => ⟨.inr op, r⟩ :: t

theorem trace_handler (me : ℕ) (hB : (op : B.Op) → β → B.Ret op × β) (op : (Sys.sum B).Op)
    (w : World B β) (o : Outcome) :
    (handler me hB op w o).2.trace = record op (handler me hB op w o).1 w.trace := by
  cases op <;> rfl

/-- Every outcome is possible. -/
def Any : (op : (Sys.sum B).Op) → World B β → Outcome → Prop := fun _ _ _ => True

/-- No call fails: the outcome is calm, and a `write` finds room in its file. -/
def NoFailure : (op : (Sys.sum B).Op) → World B β → Outcome → Prop
  | .inl s, w, o => o.Calm s ∧
      match s with
      | .write fd _ => ∀ f, w.fds[fd]? = some f → f.offset < offMax
      | _ => True
  | .inr _, _, _ => True

instance (s : Syscall) (o : Outcome) : Decidable (o.Calm s) :=
  match o with
  | .done | .short _ => isTrue trivial
  | .fails .EINTR => inferInstanceAs (Decidable (s.isTransfer = true))
  | .nothing _ => isFalse id
  | .fails .ENOENT | .fails .EEXIST | .fails .EBADF | .fails .EFBIG | .fails .ENAMETOOLONG
  | .fails (.other _) => isFalse id

instance (op : (Sys.sum B).Op) (w : World B β) (o : Outcome) : Decidable (NoFailure op w o) :=
  match op with
  | .inl s =>
      have : Decidable (match s with
          | .write fd _ => ∀ f, w.fds[fd]? = some f → f.offset < offMax
          | _ => True) :=
        match s with
        | .write fd _ => inferInstanceAs (Decidable (∀ f ∈ w.fds[fd]?, f.offset < offMax))
        | .createDirectories _ | .openExcl _ | .openRead _ | .pread _ _ _ | .read _ _ | .fstat _
        | .fdatasync _ | .link _ _ | .unlink _ | .openDirectory _ | .fsync _ | .exists _ =>
            isTrue trivial
      inferInstanceAs (Decidable (_ ∧ _))
  | .inr _ => isTrue trivial

theorem handler_sys {me : ℕ} {hB : (op : B.Op) → β → B.Ret op × β} {s : Syscall} {w : World B β}
    {o : Outcome} {r : s.Ret} {fds' : List OpenFile} {fs' : FS}
    (h : s.exec me w.fds w.fs o = (r, fds', fs')) :
    handler me hB (.inl s) w o = (r, w.answered s r fds' fs') := by
  simp only [handler, h]
  rfl

theorem handler_reply {me : ℕ} {hB : (op : B.Op) → β → B.Ret op × β} {op : B.Op} {w : World B β}
    {o : Outcome} {r : B.Ret op} {b : β} (h : hB op w.rest = (r, b)) :
    handler me hB (.inr op) w o = (r, w.replied op r b) := by
  simp only [handler, h]
  rfl

theorem handler_sys_inv {me : ℕ} {hB : (op : B.Op) → β → B.Ret op × β} {s : Syscall}
    {w w' : World B β} {o : Outcome} {r : s.Ret} (h : handler me hB (.inl s) w o = (r, w')) :
    ∃ fds' fs', s.exec me w.fds w.fs o = (r, fds', fs') ∧ w' = w.answered s r fds' fs' := by
  simp only [handler] at h
  obtain ⟨rfl, rfl⟩ := h
  exact ⟨_, _, rfl, rfl⟩

theorem sem_sys {me : ℕ} {hB : (op : B.Op) → β → B.Ret op × β}
    {ok : (op : (Sys.sum B).Op) → World B β → Outcome → Prop} {s : Syscall} {w w' : World B β}
    {r : s.Ret} (h : (handler me hB).sem ok (.inl s) w r w') :
    ∃ o fds' fs', ok (.inl s) w o ∧ s.exec me w.fds w.fs o = (r, fds', fs') ∧
      w' = w.answered s r fds' fs' := by
  obtain ⟨o, hok, ho⟩ := h
  obtain ⟨fds', fs', hexec, hw⟩ := handler_sys_inv ho
  exact ⟨o, fds', fs', hok, hexec, hw⟩

theorem sem_other {me : ℕ} {hB : (op : B.Op) → β → B.Ret op × β}
    {ok : (op : (Sys.sum B).Op) → World B β → Outcome → Prop} {op : B.Op} {w w' : World B β}
    {r : B.Ret op} (h : (handler me hB).sem ok (.inr op) w r w') :
    r = (hB op w.rest).1 ∧ w' = w.replied op r (hB op w.rest).2 := by
  obtain ⟨o, -, ho⟩ := h
  simp only [handler] at ho
  obtain ⟨rfl, rfl⟩ := ho
  exact ⟨rfl, rfl⟩

/-- An interrupted transfer leaves the process as it was. -/
theorem answered_interrupted (w : World B β) {s : Syscall} {r : s.Ret}
    (h : s.interrupted r = true) : w.answered s r w.fds w.fs = w := by
  simp [answered, h]

/-- A call that was not interrupted is in the trace. -/
theorem answered_trace (w : World B β) {s : Syscall} {r : s.Ret} (h : ¬ s.interrupted r = true)
    (fds : List OpenFile) (fs : FS) : (w.answered s r fds fs).trace = ⟨.inl s, r⟩ :: w.trace := by
  simp [answered, h]

@[simp] theorem answered_fds (w : World B β) (s : Syscall) (r : s.Ret) (fds : List OpenFile)
    (fs : FS) : (w.answered s r fds fs).fds = fds := rfl

@[simp] theorem answered_fs (w : World B β) (s : Syscall) (r : s.Ret) (fds : List OpenFile)
    (fs : FS) : (w.answered s r fds fs).fs = fs := rfl

@[simp] theorem answered_rest (w : World B β) (s : Syscall) (r : s.Ret) (fds : List OpenFile)
    (fs : FS) : (w.answered s r fds fs).rest = w.rest := rfl

@[simp] theorem replied_fds (w : World B β) (op : B.Op) (r : B.Ret op) (rest : β) :
    (w.replied op r rest).fds = w.fds := rfl

@[simp] theorem replied_fs (w : World B β) (op : B.Op) (r : B.Ret op) (rest : β) :
    (w.replied op r rest).fs = w.fs := rfl

@[simp] theorem replied_trace (w : World B β) (op : B.Op) (r : B.Ret op) (rest : β) :
    (w.replied op r rest).trace = ⟨.inr op, r⟩ :: w.trace := rfl

@[simp] theorem replied_rest (w : World B β) (op : B.Op) (r : B.Ret op) (rest : β) :
    (w.replied op r rest).rest = rest := rfl

/-- The worlds are the same, up to the trace. -/
structure SameState (w w' : World B β) : Prop where
  fds : w'.fds = w.fds
  fs : w'.fs = w.fs
  rest : w'.rest = w.rest

/-- No reply depends on the trace. -/
theorem SameState.handler {w w' : World B β} (h : SameState w w') (me : ℕ)
    (hB : (op : B.Op) → β → B.Ret op × β) (op : (Sys.sum B).Op) (o : Outcome) :
    (World.handler me hB op w o).1 = (World.handler me hB op w' o).1 ∧
      SameState (World.handler me hB op w o).2 (World.handler me hB op w' o).2 := by
  obtain ⟨hfds, hfs, hrest⟩ := h
  cases op with
  | inl s =>
      simp only [World.handler, hfds, hfs]
      exact ⟨rfl, rfl, rfl, hrest⟩
  | inr op =>
      simp only [World.handler, hrest]
      exact ⟨rfl, hfds, hfs, rfl⟩

theorem SameState.noFailure {w w' : World B β} (h : SameState w w') {op : (Sys.sum B).Op} {o : Outcome}
    (hok : NoFailure op w o) : NoFailure op w' o := by
  cases op with
  | inr op => trivial
  | inl s =>
      refine ⟨hok.1, ?_⟩
      have hroom := hok.2
      cases s <;> first | trivial | (rw [h.fds]; exact hroom)

/-- An environment in which no call fails. -/
def NeverFails (ok : (op : (Sys.sum B).Op) → World B β → Outcome → Prop) : Prop :=
  ∀ op w o, ok op w o → NoFailure op w o

theorem neverFails_noFailure : NeverFails (B := B) (β := β) NoFailure := fun _ _ _ h => h

/-- The assertion `P` survives the interference `R` and every call that only looks, and such a
    call keeps the guarantee `G`. -/
structure Quiet (R G : World B β → World B β → Prop) (P : World B β → Prop) : Prop where
  env : ∀ {w w'}, P w → R w w' → P w'
  looks : ∀ {w} (s : Syscall) (r : s.Ret), s.looks = true → P w →
    P (w.answered s r w.fds w.fs) ∧ G w (w.answered s r w.fds w.fs)

end World

/-- A system call that is not retried. -/
abbrev sys {B : Signature} (s : Syscall) : Program (Sys.sum B) s.Ret :=
  Program.perform (S := Sys.sum B) (.inl s)

/-- A transfer in the loop that retries it while a signal interrupts it. -/
abbrev transfer {B : Signature} (s : Syscall) : Program (Sys.sum B) s.Ret :=
  Program.retrying (S := Sys.sum B) (.inl s) s.interrupted

/-- Only an interrupted transfer is performed again. -/
def Retries {B : Signature} : (op : (Sys.sum B).Op) → ((Sys.sum B).Ret op → Bool) → Prop
  | .inl s, again => ∀ r, again r = true → s.interrupted r = true
  | .inr _, again => ∀ r, again r = false

section Rules

variable {B : Signature} {β α : Type} {hB : (op : B.Op) → β → B.Ret op × β} {me : ℕ}
  {ok : (op : (Sys.sum B).Op) → World B β → Outcome → Prop} {R G : World B β → World B β → Prop}
  {Q : α → World B β → Prop} {w : World B β}

/-- A system call, by what it does. -/
theorem safe_sys {s : Syscall} {f : s.Ret → Program (Sys.sum B) α}
    (h : ∀ w₁, R w w₁ → ∀ o r fds fs, ok (.inl s) w₁ o → s.exec me w₁.fds w₁.fs o = (r, fds, fs) →
      G w₁ (w₁.answered s r fds fs) ∧
        (f r).Safe ((World.handler me hB).sem ok) R G Q (w₁.answered s r fds fs)) :
    (sys s >>= f).Safe ((World.handler me hB).sem ok) R G Q w := by
  refine Program.safe_perform.2 fun w₁ hR r w₂ hH => ?_
  obtain ⟨o, fds, fs, hok, hexec, hw₂⟩ := World.sem_sys hH
  subst hw₂
  exact h w₁ hR o r fds fs hok hexec

/-- A transfer, by what it does when it is not interrupted. -/
theorem safe_transfer {s : Syscall} {f : s.Ret → Program (Sys.sum B) α}
    (h : ∀ w₁, R w w₁ → ∀ o r fds fs, ok (.inl s) w₁ o → s.exec me w₁.fds w₁.fs o = (r, fds, fs) →
      ¬ s.interrupted r = true → G w₁ (w₁.answered s r fds fs) ∧
        (f r).Safe ((World.handler me hB).sem ok) R G Q (w₁.answered s r fds fs)) :
    (transfer s >>= f).Safe ((World.handler me hB).sem ok) R G Q w := by
  refine Program.safe_retrying.2 fun w₁ hR r w₂ hH => ?_
  obtain ⟨o, fds, fs, hok, hexec, hw₂⟩ := World.sem_sys hH
  subst hw₂
  split
  · next hint =>
      obtain ⟨hfds, hfs⟩ := exec_interrupted s hexec hint
      rw [hfds, hfs]
      exact World.answered_interrupted w₁ hint
  · next hint => exact h w₁ hR o r fds fs hok hexec hint

/-- An operation of the other signature, by what its own state answers. -/
theorem safe_other {op : B.Op} {f : B.Ret op → Program (Sys.sum B) α}
    (h : ∀ w₁, R w w₁ → ∀ r rest, hB op w₁.rest = (r, rest) →
      G w₁ (w₁.replied op r rest) ∧
        (f r).Safe ((World.handler me hB).sem ok) R G Q (w₁.replied op r rest)) :
    ((Program.perform (S := Sys.sum B) (.inr op)) >>= f).Safe ((World.handler me hB).sem ok) R G Q
      w := by
  refine Program.safe_perform.2 fun w₁ hR r w₂ hH => ?_
  obtain ⟨hr, hw₂⟩ := World.sem_other hH
  subst hr hw₂
  exact h w₁ hR _ _ rfl

end Rules

end Posix
