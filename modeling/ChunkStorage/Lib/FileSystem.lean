import Mathlib.Tactic

set_option autoImplicit false

/-! # A file system with hard links and crash durability

Files are inodes: byte strings that live as long as something refers to them. A directory entry
maps a `Path` (a directory and a name in it) to an inode, and two entries may share one. There are
no symbolic links, so an entry always leads to a file.

What survives a power failure is kept apart from what is visible. `Inode.synced` is the content
as of the last `fdatasync`, and the directory is the `durable` entries of the last `fsync` with
the `pending` changes made since; `FS.Crash` keeps the synced content and any subset of the
pending changes.

`Inode.owner` and `Inode.linked` are ghost: which process created the file and whether it was
ever linked under a second name. Nothing reads them, they only let a proof talk about the past. -/

namespace Posix

/-- A byte string, the contents of a `std::string` or of a file. -/
abbrev Bytes := List UInt8

/-- A directory and the name of an entry in it. -/
structure Path where
  dir : Bytes
  name : Bytes
  deriving DecidableEq

/-- The largest `off_t`. No file is longer. -/
def offMax : ℕ := 2 ^ 63 - 1

structure Inode where
  data : Bytes
  /-- What `fdatasync` has made durable. -/
  synced : Bytes
  /-- Ghost: the process that created the file. -/
  owner : ℕ
  /-- Ghost: a second name was once linked to the file. -/
  linked : Bool
  data_le : data.length ≤ offMax
  synced_le : synced.length ≤ offMax

/-- The empty file a process creates. -/
def Inode.fresh (owner : ℕ) : Inode := ⟨[], [], owner, false, by simp, by simp⟩

/-- `data` with `chunk` written at `offset`, a gap before it filled with zeros. -/
def overwrite (data : Bytes) (offset : ℕ) (chunk : Bytes) : Bytes :=
  data.take offset ++ List.replicate (offset - data.length) 0 ++ chunk ++
    data.drop (offset + chunk.length)

theorem overwrite_end (data chunk : Bytes) : overwrite data data.length chunk = data ++ chunk := by
  simp [overwrite]

theorem length_overwrite_le (data : Bytes) (offset : ℕ) (chunk : Bytes) :
    (overwrite data offset chunk).length ≤ max data.length (offset + chunk.length) := by
  simp only [overwrite, List.length_append, List.length_take, List.length_replicate,
    List.length_drop]
  omega

/-- The file after `chunk` was written at `offset`. -/
def Inode.write (n : Inode) (offset : ℕ) (chunk : Bytes) : Inode :=
  if h : offset + chunk.length ≤ offMax then
    { n with
      data := overwrite n.data offset chunk
      data_le := (length_overwrite_le n.data offset chunk).trans (max_le n.data_le h) }
  else n

def Inode.sync (n : Inode) : Inode := { n with synced := n.data, synced_le := n.data_le }

def Inode.link (n : Inode) : Inode := { n with linked := true }

/-- The file after a power failure. -/
def Inode.crash (n : Inode) : Inode := { n with data := n.synced, data_le := n.synced_le }

@[simp] theorem Inode.write_owner (n : Inode) (offset : ℕ) (chunk : Bytes) :
    (n.write offset chunk).owner = n.owner := by
  unfold Inode.write; split <;> rfl

@[simp] theorem Inode.write_linked (n : Inode) (offset : ℕ) (chunk : Bytes) :
    (n.write offset chunk).linked = n.linked := by
  unfold Inode.write; split <;> rfl

@[simp] theorem Inode.write_synced (n : Inode) (offset : ℕ) (chunk : Bytes) :
    (n.write offset chunk).synced = n.synced := by
  unfold Inode.write; split <;> rfl

/-- Writing at the end of a file that has room for it appends. -/
theorem Inode.write_end (n : Inode) (chunk : Bytes)
    (h : n.data.length + chunk.length ≤ offMax) :
    (n.write n.data.length chunk).data = n.data ++ chunk := by
  simp [Inode.write, h, overwrite_end]

/-- One change of a directory: the entry is bound to a file, or removed. -/
abbrev DirChange := Path × Option ℕ

/-- The entries `d` after the changes, the newest of them first. -/
def applyChanges (d : Path → Option ℕ) : List DirChange → Path → Option ℕ
  | [], p => d p
  | c :: cs, p => if c.1 = p then c.2 else applyChanges d cs p

structure FS where
  /-- The longest name of an entry. -/
  nameMax : ℕ
  inodes : List Inode
  /-- The directory entries as of the last `fsync` of each directory. -/
  durable : Path → Option ℕ
  /-- The changes made since, the newest first. -/
  pending : List DirChange
  durable_lt : ∀ p i, durable p = some i → i < inodes.length
  pending_lt : ∀ c ∈ pending, ∀ i, c.2 = some i → i < inodes.length

namespace FS

/-- A file system with no entries. -/
def empty (nameMax : ℕ) : FS where
  nameMax := nameMax
  inodes := []
  durable _ := none
  pending := []
  durable_lt _ _ h := absurd h (by simp)
  pending_lt _ h := absurd h (by simp)

/-- The file an entry names now. -/
def dir (fs : FS) (p : Path) : Option ℕ := applyChanges fs.durable fs.pending p

/-- The contents of the file an entry names. -/
def contents (fs : FS) (p : Path) : Option Bytes :=
  (fs.dir p).bind fun i => (fs.inodes[i]?).map Inode.data

theorem applyChanges_lt {d : Path → Option ℕ} {cs : List DirChange} {n : ℕ}
    (hd : ∀ p i, d p = some i → i < n) (hcs : ∀ c ∈ cs, ∀ i, c.2 = some i → i < n)
    {p : Path} {i : ℕ} (h : applyChanges d cs p = some i) : i < n := by
  induction cs with
  | nil => exact hd p i h
  | cons c cs ih =>
      simp only [applyChanges] at h
      split at h
      · exact hcs c (by simp) i h
      · exact ih (fun c' hc' => hcs c' (List.mem_cons_of_mem _ hc')) h

/-- An entry never dangles. -/
theorem dir_lt (fs : FS) {p : Path} {i : ℕ} (h : fs.dir p = some i) : i < fs.inodes.length :=
  applyChanges_lt fs.durable_lt fs.pending_lt h

theorem dir_eq_some (fs : FS) {p : Path} {i : ℕ} (h : fs.dir p = some i) :
    ∃ n, fs.inodes[i]? = some n :=
  ⟨_, List.getElem?_eq_getElem (fs.dir_lt h)⟩

/-- An entry and files that stay keep its contents. -/
theorem contents_congr {fs fs' : FS} {p : Path} (hdir : fs'.dir p = fs.dir p)
    (hold : ∀ (i : ℕ) n, fs.inodes[i]? = some n → fs'.inodes[i]? = some n) :
    fs'.contents p = fs.contents p := by
  unfold contents
  rw [hdir]
  cases h : fs.dir p with
  | none => rfl
  | some i =>
      obtain ⟨n, hn⟩ := fs.dir_eq_some h
      simp [hn, hold i n hn]

/-- An entry has contents exactly when it is there. -/
theorem contents_eq_none_iff {fs : FS} {p : Path} : fs.contents p = none ↔ fs.dir p = none := by
  unfold contents
  cases h : fs.dir p with
  | none => simp
  | some i =>
      obtain ⟨n, hn⟩ := fs.dir_eq_some h
      simp [hn]

theorem contents_length_le {fs : FS} {p : Path} {data : Bytes} (h : fs.contents p = some data) :
    data.length ≤ offMax := by
  unfold contents at h
  cases hp : fs.dir p with
  | none => simp [hp] at h
  | some i =>
      obtain ⟨n, hn⟩ := fs.dir_eq_some hp
      simp only [hp, Option.bind_some, hn, Option.map_some, Option.some.injEq] at h
      exact h ▸ n.data_le

/-- The entry is durable as `i`, or was bound to `i` since. -/
def Binds (fs : FS) (p : Path) (i : ℕ) : Prop := fs.durable p = some i ∨ (p, some i) ∈ fs.pending

theorem applyChanges_binds {d : Path → Option ℕ} {cs : List DirChange} {p : Path} {i : ℕ}
    (h : applyChanges d cs p = some i) : d p = some i ∨ (p, some i) ∈ cs := by
  induction cs with
  | nil => exact Or.inl h
  | cons c cs ih =>
      simp only [applyChanges] at h
      split at h
      · next hc =>
          obtain ⟨q, j⟩ := c
          obtain rfl : q = p := hc
          obtain rfl : j = some i := h
          exact Or.inr (by simp)
      · rcases ih h with hd | hmem
        · exact Or.inl hd
        · exact Or.inr (List.mem_cons_of_mem _ hmem)

theorem binds_of_dir {fs : FS} {p : Path} {i : ℕ} (h : fs.dir p = some i) : fs.Binds p i :=
  applyChanges_binds h

/-- The entry is `i` now and will be after any power failure. -/
def Settled (fs : FS) (p : Path) (i : ℕ) : Prop :=
  fs.durable p = some i ∧ ∀ c ∈ fs.pending, c.1 ≠ p

theorem applyChanges_of_not_mem (d : Path → Option ℕ) (cs : List DirChange) (p : Path)
    (h : ∀ c ∈ cs, c.1 ≠ p) : applyChanges d cs p = d p := by
  induction cs with
  | nil => rfl
  | cons c cs ih =>
      have hc : c.1 ≠ p := h c (by simp)
      rw [applyChanges, if_neg hc]
      exact ih fun c' hc' => h c' (List.mem_cons_of_mem _ hc')

theorem Settled.dir {fs : FS} {p : Path} {i : ℕ} (h : fs.Settled p i) : fs.dir p = some i := by
  rw [FS.dir, applyChanges_of_not_mem _ _ _ h.2]
  exact h.1

/-! ## The changes a call makes -/

/-- Replace the file `i` by `f` of it. -/
def modify (fs : FS) (i : ℕ) (f : Inode → Inode) : FS where
  nameMax := fs.nameMax
  inodes := fs.inodes.modify i f
  durable := fs.durable
  pending := fs.pending
  durable_lt p j h := by simpa using fs.durable_lt p j h
  pending_lt c hc j h := by simpa using fs.pending_lt c hc j h

/-- Remove the entry `p`. -/
def remove (fs : FS) (p : Path) : FS where
  nameMax := fs.nameMax
  inodes := fs.inodes
  durable := fs.durable
  pending := (p, none) :: fs.pending
  durable_lt := fs.durable_lt
  pending_lt c hc i h := by
    rcases List.mem_cons.1 hc with rfl | hc'
    · simp at h
    · exact fs.pending_lt c hc' i h

/-- Bind the entry `p` to the existing file `i`, and remember that it was linked. -/
def bind (fs : FS) (p : Path) (i : ℕ) (hi : i < fs.inodes.length) : FS where
  nameMax := fs.nameMax
  inodes := fs.inodes.modify i Inode.link
  durable := fs.durable
  pending := (p, some i) :: fs.pending
  durable_lt q j h := by simpa using fs.durable_lt q j h
  pending_lt c hc j h := by
    rcases List.mem_cons.1 hc with rfl | hc'
    · simp only [Option.some.injEq] at h
      simpa [← h] using hi
    · simpa using fs.pending_lt c hc' j h

/-- Create an empty file of `owner` at `p`. -/
def create (fs : FS) (p : Path) (owner : ℕ) : FS where
  nameMax := fs.nameMax
  inodes := fs.inodes ++ [Inode.fresh owner]
  durable := fs.durable
  pending := (p, some fs.inodes.length) :: fs.pending
  durable_lt q j h := by
    have := fs.durable_lt q j h
    simp only [List.length_append, List.length_singleton]
    omega
  pending_lt c hc j h := by
    simp only [List.length_append, List.length_singleton]
    rcases List.mem_cons.1 hc with rfl | hc'
    · simp only [Option.some.injEq] at h
      omega
    · have := fs.pending_lt c hc' j h
      omega

/-- Make the entries of a directory durable. -/
def syncDir (fs : FS) (d : Bytes) : FS where
  nameMax := fs.nameMax
  inodes := fs.inodes
  durable p := if p.dir = d then fs.dir p else fs.durable p
  pending := fs.pending.filter fun c => c.1.dir ≠ d
  durable_lt p i h := by
    split at h
    · exact fs.dir_lt h
    · exact fs.durable_lt p i h
  pending_lt c hc := fs.pending_lt c (List.mem_of_mem_filter hc)

@[simp] theorem modify_nameMax (fs : FS) (i : ℕ) (f : Inode → Inode) :
    (fs.modify i f).nameMax = fs.nameMax := rfl

@[simp] theorem remove_nameMax (fs : FS) (p : Path) : (fs.remove p).nameMax = fs.nameMax := rfl

@[simp] theorem bind_nameMax (fs : FS) (p : Path) (i : ℕ) (hi : i < fs.inodes.length) :
    (fs.bind p i hi).nameMax = fs.nameMax := rfl

@[simp] theorem create_nameMax (fs : FS) (p : Path) (o : ℕ) :
    (fs.create p o).nameMax = fs.nameMax := rfl

@[simp] theorem syncDir_nameMax (fs : FS) (d : Bytes) : (fs.syncDir d).nameMax = fs.nameMax := rfl

@[simp] theorem modify_dir (fs : FS) (i : ℕ) (f : Inode → Inode) (p : Path) :
    (fs.modify i f).dir p = fs.dir p := rfl

@[simp] theorem remove_dir (fs : FS) (p q : Path) :
    (fs.remove p).dir q = if p = q then none else fs.dir q := rfl

@[simp] theorem bind_dir (fs : FS) (p : Path) (i : ℕ) (hi : i < fs.inodes.length) (q : Path) :
    (fs.bind p i hi).dir q = if p = q then some i else fs.dir q := rfl

@[simp] theorem create_dir (fs : FS) (p : Path) (o : ℕ) (q : Path) :
    (fs.create p o).dir q = if p = q then some fs.inodes.length else fs.dir q := rfl

theorem applyChanges_filter_other (d : Path → Option ℕ) (r : Bytes) (cs : List DirChange)
    (p : Path) (hp : p.dir ≠ r) :
    applyChanges d (cs.filter fun c => c.1.dir ≠ r) p = applyChanges d cs p := by
  induction cs with
  | nil => rfl
  | cons c cs ih =>
      by_cases hc : c.1.dir = r
      · have hne : c.1 ≠ p := fun h => hp (h ▸ hc)
        rw [List.filter_cons_of_neg (by simpa using hc), ih]
        simp [applyChanges, hne]
      · rw [List.filter_cons_of_pos (by simpa using hc)]
        simp only [applyChanges, ih]

/-- Syncing a directory changes what survives a crash, not what is visible. -/
@[simp] theorem syncDir_dir (fs : FS) (d : Bytes) (p : Path) : (fs.syncDir d).dir p = fs.dir p := by
  by_cases hp : p.dir = d
  · have hnone : ∀ c ∈ fs.pending.filter (fun c => c.1.dir ≠ d), c.1 ≠ p := by
      intro c hc he
      simp only [ne_eq, decide_not, List.mem_filter, Bool.not_eq_true', decide_eq_false_iff_not] at hc
      exact hc.2 (he ▸ hp)
    have := applyChanges_of_not_mem (fs.syncDir d).durable _ p hnone
    rw [dir, show (fs.syncDir d).pending = fs.pending.filter (fun c => c.1.dir ≠ d) from rfl, this]
    simp [syncDir, hp]
  · have hother : ∀ cs, applyChanges (fs.syncDir d).durable cs p = applyChanges fs.durable cs p := by
      intro cs
      induction cs with
      | nil => simp [applyChanges, syncDir, hp]
      | cons c cs ih => simp only [applyChanges, ih]
    rw [dir, hother]
    exact applyChanges_filter_other fs.durable d fs.pending p hp

@[simp] theorem modify_inodes (fs : FS) (i : ℕ) (f : Inode → Inode) (j : ℕ) :
    (fs.modify i f).inodes[j]? = (fs.inodes[j]?).map fun n => if i = j then f n else n := by
  simp only [modify, List.getElem?_modify]
  split <;> simp_all

@[simp] theorem remove_inodes (fs : FS) (p : Path) : (fs.remove p).inodes = fs.inodes := rfl

@[simp] theorem bind_inodes (fs : FS) (p : Path) (i : ℕ) (hi : i < fs.inodes.length) (j : ℕ) :
    (fs.bind p i hi).inodes[j]? = (fs.inodes[j]?).map fun n => if i = j then n.link else n := by
  simp only [bind, List.getElem?_modify]
  split <;> simp_all

@[simp] theorem create_inodes (fs : FS) (p : Path) (o : ℕ) :
    (fs.create p o).inodes = fs.inodes ++ [Inode.fresh o] := rfl

@[simp] theorem syncDir_inodes (fs : FS) (d : Bytes) : (fs.syncDir d).inodes = fs.inodes := rfl

/-! ## Power failure -/

/-- What may be left after a power failure: the synced part of every file, and the durable entries
    with any subset of the changes made since, in their order. -/
structure Crash (fs fs' : FS) : Prop where
  nameMax : fs'.nameMax = fs.nameMax
  inodes : fs'.inodes = fs.inodes.map Inode.crash
  pending : fs'.pending = []
  durable : ∃ kept, List.Sublist kept fs.pending ∧ fs'.durable = applyChanges fs.durable kept

/-- A settled entry is there after a power failure. -/
theorem Settled.crash {fs fs' : FS} {p : Path} {i : ℕ} (h : fs.Settled p i)
    (hcrash : fs.Crash fs') : fs'.dir p = some i := by
  obtain ⟨kept, hsub, hdurable⟩ := hcrash.durable
  rw [FS.dir, hcrash.pending, applyChanges, hdurable,
    applyChanges_of_not_mem _ _ _ fun c hc => h.2 c (hsub.subset hc)]
  exact h.1

/-- The power failure that keeps the given changes. -/
def keep (fs : FS) (kept : List DirChange) (hsub : List.Sublist kept fs.pending) : FS where
  nameMax := fs.nameMax
  inodes := fs.inodes.map Inode.crash
  durable := applyChanges fs.durable kept
  pending := []
  durable_lt p i h := by
    rw [List.length_map]
    exact applyChanges_lt fs.durable_lt (fun c hc => fs.pending_lt c (hsub.subset hc)) h
  pending_lt _ h := absurd h (by simp)

theorem crash_keep (fs : FS) (kept : List DirChange) (hsub : List.Sublist kept fs.pending) :
    fs.Crash (fs.keep kept hsub) := ⟨rfl, rfl, rfl, kept, hsub, rfl⟩

/-- An entry that was ever bound since the last sync may come back. -/
theorem Binds.crash {fs : FS} {p : Path} {i : ℕ} (h : fs.Binds p i) :
    ∃ fs', fs.Crash fs' ∧ fs'.dir p = some i := by
  rcases h with hdurable | hpending
  · exact ⟨_, fs.crash_keep [] (List.nil_sublist _), hdurable⟩
  · refine ⟨_, fs.crash_keep [(p, some i)] (List.singleton_sublist.2 hpending), ?_⟩
    simp [FS.dir, keep, applyChanges]

/-- An entry that comes back was bound. -/
theorem Crash.binds {fs fs' : FS} (hcrash : fs.Crash fs') {p : Path} {i : ℕ}
    (hi : fs'.dir p = some i) : fs.Binds p i := by
  obtain ⟨kept, hsub, hdurable⟩ := hcrash.durable
  rw [FS.dir, hcrash.pending, applyChanges, hdurable] at hi
  rcases applyChanges_binds hi with hd | hmem
  · exact Or.inl hd
  · exact Or.inr (hsub.subset hmem)

/-- The power failure that loses everything it may lose. -/
def lose (fs : FS) : FS where
  nameMax := fs.nameMax
  inodes := fs.inodes.map Inode.crash
  durable := fs.durable
  pending := []
  durable_lt p i h := by simpa using fs.durable_lt p i h
  pending_lt _ h := absurd h (by simp)

theorem crash_lose (fs : FS) : fs.Crash fs.lose := ⟨rfl, rfl, rfl, [], List.nil_sublist _, rfl⟩

end FS

end Posix
