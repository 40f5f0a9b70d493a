import ChunkStorage.Lib.Posix

set_option autoImplicit false

/-! # File systems that cannot be told apart

No call returns the number of a file, so a process sees two file systems as the same when their
entries and descriptors lead to files of the same contents, whatever the numbers, and whatever
files are left that nothing leads to. `Similar ρ` is this relation, with `ρ` the correspondence
between the numbers. Every call keeps it and gets the same reply on both sides, so a program
runs alike on both (`exec_similar`). -/

namespace Posix

open Effects Program

/-- A correspondence between files that is one to one. -/
structure OneToOne (ρ : ℕ → ℕ → Prop) : Prop where
  right : ∀ {i j j'}, ρ i j → ρ i j' → j = j'
  left : ∀ {i i' j}, ρ i j → ρ i' j → i = i'

/-- The entries lead to corresponding files, and these have the same contents. -/
structure Similar (ρ : ℕ → ℕ → Prop) (fs fs' : FS) : Prop extends OneToOne ρ where
  nameMax : fs'.nameMax = fs.nameMax
  dir : ∀ p, (fs.dir p = none ∧ fs'.dir p = none) ∨
    ∃ i j, fs.dir p = some i ∧ fs'.dir p = some j ∧ ρ i j
  data : ∀ {i j}, ρ i j → ∃ n n', fs.inodes[i]? = some n ∧ fs'.inodes[j]? = some n' ∧
    n'.data = n.data

/-- Two descriptors at the same position of corresponding files. -/
def SameFile (ρ : ℕ → ℕ → Prop) (f f' : OpenFile) : Prop :=
  ρ f.ino f'.ino ∧ f'.offset = f.offset

abbrev SameFiles (ρ : ℕ → ℕ → Prop) : List OpenFile → List OpenFile → Prop :=
  List.Forall₂ (SameFile ρ)

theorem SameFiles.mono {ρ ρ' : ℕ → ℕ → Prop} (hle : ∀ i j, ρ i j → ρ' i j)
    {fds fds' : List OpenFile} (h : SameFiles ρ fds fds') : SameFiles ρ' fds fds' :=
  h.imp fun _ _ hf => ⟨hle _ _ hf.1, hf.2⟩

/-- The same descriptor is open on both sides, on corresponding files, or on neither. -/
theorem SameFiles.get {ρ : ℕ → ℕ → Prop} {fds fds' : List OpenFile} (h : SameFiles ρ fds fds')
    (fd : ℕ) : Option.Rel (SameFile ρ) fds[fd]? fds'[fd]? := by
  induction h generalizing fd with
  | nil => exact .none
  | cons hf _ ih =>
      cases fd with
      | zero => exact .some hf
      | succ fd => simpa using ih fd

theorem SameFiles.set {ρ : ℕ → ℕ → Prop} {fds fds' : List OpenFile} (h : SameFiles ρ fds fds')
    (fd : ℕ) {f f' : OpenFile} (hf : SameFile ρ f f') :
    SameFiles ρ (fds.set fd f) (fds'.set fd f') := by
  induction h generalizing fd with
  | nil => exact .nil
  | cons hg hs ih =>
      cases fd with
      | zero => exact .cons hf hs
      | succ fd => exact .cons hg (ih fd)

theorem SameFiles.append {ρ : ℕ → ℕ → Prop} {fds fds' : List OpenFile} (h : SameFiles ρ fds fds')
    {f f' : OpenFile} (hf : SameFile ρ f f') : SameFiles ρ (fds ++ [f]) (fds' ++ [f']) :=
  List.rel_append h (.cons hf .nil)

/-! ## Each change on both sides -/

section Changes

variable {ρ : ℕ → ℕ → Prop} {fs fs' : FS}

theorem Similar.fits (h : Similar ρ fs fs') (p : Path) : fs'.Fits p ↔ fs.Fits p := by
  rw [FS.Fits, FS.Fits, h.nameMax]

theorem Similar.modify (h : Similar ρ fs fs') {i j : ℕ} (hij : ρ i j) (f : Inode → Inode)
    (hf : ∀ n n', n'.data = n.data → (f n').data = (f n).data) :
    Similar ρ (fs.modify i f) (fs'.modify j f) where
  right := h.right
  left := h.left
  nameMax := h.nameMax
  dir := h.dir
  data {a b} hab := by
    obtain ⟨n, n', hn, hn', hd⟩ := h.data hab
    by_cases ha : i = a
    · subst ha
      obtain rfl := h.right hij hab
      exact ⟨f n, f n', by simp [hn], by simp [hn'], hf n n' hd⟩
    · have hb : j ≠ b := fun hb => ha (h.left hij (hb ▸ hab))
      exact ⟨n, n', by simp [hn, ha], by simp [hn', hb], hd⟩

theorem Similar.remove (h : Similar ρ fs fs') (p : Path) :
    Similar ρ (fs.remove p) (fs'.remove p) where
  right := h.right
  left := h.left
  nameMax := h.nameMax
  dir q := by
    rw [FS.remove_dir, FS.remove_dir]
    split
    · exact Or.inl ⟨rfl, rfl⟩
    · exact h.dir q
  data := h.data

theorem Similar.bind (h : Similar ρ fs fs') (p : Path) {i j : ℕ} (hij : ρ i j)
    (hi : i < fs.inodes.length) (hj : j < fs'.inodes.length) :
    Similar ρ (fs.bind p i hi) (fs'.bind p j hj) where
  right := h.right
  left := h.left
  nameMax := h.nameMax
  dir q := by
    rw [FS.bind_dir, FS.bind_dir]
    split
    · exact Or.inr ⟨i, j, rfl, rfl, hij⟩
    · exact h.dir q
  data hab := (h.modify hij Inode.link fun _ _ hd => hd).data hab

theorem Similar.syncDir (h : Similar ρ fs fs') (d : Bytes) :
    Similar ρ (fs.syncDir d) (fs'.syncDir d) where
  right := h.right
  left := h.left
  nameMax := h.nameMax
  dir q := by
    rw [FS.syncDir_dir, FS.syncDir_dir]
    exact h.dir q
  data := h.data

theorem Similar.lt (h : Similar ρ fs fs') {i j : ℕ} (hij : ρ i j) :
    i < fs.inodes.length ∧ j < fs'.inodes.length := by
  obtain ⟨n, n', hn, hn', -⟩ := h.data hij
  exact ⟨(List.getElem?_eq_some_iff.1 hn).1, (List.getElem?_eq_some_iff.1 hn').1⟩

/-- The correspondence that also relates two new files. -/
def withNew (ρ : ℕ → ℕ → Prop) (i j : ℕ) : ℕ → ℕ → Prop := fun a b => ρ a b ∨ (a = i ∧ b = j)

theorem Similar.create (h : Similar ρ fs fs') (p : Path) (me : ℕ) :
    Similar (withNew ρ fs.inodes.length fs'.inodes.length) (fs.create p me) (fs'.create p me) where
  right := by
    rintro i j j' (hj | ⟨rfl, rfl⟩) (hj' | ⟨hi, rfl⟩)
    · exact h.right hj hj'
    · have := (h.lt hj).1
      omega
    · have := (h.lt hj').1
      omega
    · rfl
  left := by
    rintro i i' j (hi | ⟨rfl, rfl⟩) (hi' | ⟨rfl, hj⟩)
    · exact h.left hi hi'
    · have := (h.lt hi).2
      omega
    · have := (h.lt hi').2
      omega
    · rfl
  nameMax := h.nameMax
  dir q := by
    rw [FS.create_dir, FS.create_dir]
    split
    · exact Or.inr ⟨_, _, rfl, rfl, Or.inr ⟨rfl, rfl⟩⟩
    · rcases h.dir q with hnone | ⟨i, j, hi, hj, hij⟩
      · exact Or.inl hnone
      · exact Or.inr ⟨i, j, hi, hj, Or.inl hij⟩
  data := by
    rintro i j (hij | ⟨rfl, rfl⟩)
    · obtain ⟨n, n', hn, hn', hd⟩ := h.data hij
      have hlt := h.lt hij
      exact ⟨n, n', by simp [List.getElem?_append_left hlt.1, hn],
        by simp [List.getElem?_append_left hlt.2, hn'], hd⟩
    · exact ⟨Inode.fresh me, Inode.fresh me, by simp, by simp, rfl⟩

end Changes

/-! ## Calls -/

/-- Two results with the same reply and states that stay similar. -/
def SameResult (ρ : ℕ → ℕ → Prop) {α : Type} (x y : Result α) : Prop :=
  x.1 = y.1 ∧ ∃ ρ', (∀ i j, ρ i j → ρ' i j) ∧ SameFiles ρ' x.2.1 y.2.1 ∧ Similar ρ' x.2.2 y.2.2

section Calls

variable {ρ : ℕ → ℕ → Prop} {fs fs' : FS} {fds fds' : List OpenFile}

/-- A call that changes nothing. -/
theorem sameResult_same (h : Similar ρ fs fs') (hf : SameFiles ρ fds fds') {α : Type} (r : α) :
    SameResult ρ (r, fds, fs) (r, fds', fs') :=
  ⟨rfl, ρ, fun _ _ hij => hij, hf, h⟩

theorem orFails_same (h : Similar ρ fs fs') (hf : SameFiles ρ fds fds') (o : Outcome) {α : Type}
    {x y : Result (Except Errno α)} (hxy : SameResult ρ x y) :
    SameResult ρ (orFails o fds fs x) (orFails o fds' fs' y) := by
  unfold orFails
  split
  · split
    · exact sameResult_same h hf _
    · exact hxy
  · exact hxy

/-- A descriptor leads to files of the same contents, or is closed on both sides. -/
theorem Similar.opened (h : Similar ρ fs fs') (hf : SameFiles ρ fds fds') (fd : ℕ) :
    (fds[fd]? = none ∧ fds'[fd]? = none) ∨
      ∃ f f' n n', fds[fd]? = some f ∧ fds'[fd]? = some f' ∧ SameFile ρ f f' ∧
        fs.inodes[f.ino]? = some n ∧ fs'.inodes[f'.ino]? = some n' ∧ n'.data = n.data := by
  have hget := hf.get fd
  cases hfd : fds[fd]? with
  | none =>
      rw [hfd] at hget
      cases hfd' : fds'[fd]? with
      | none => exact Or.inl ⟨rfl, rfl⟩
      | some f' =>
          rw [hfd'] at hget
          cases hget
  | some f =>
      rw [hfd] at hget
      cases hfd' : fds'[fd]? with
      | none =>
          rw [hfd'] at hget
          cases hget
      | some f' =>
          rw [hfd'] at hget
          cases hget with
          | some hsame =>
              obtain ⟨n, n', hn, hn', hd⟩ := h.data hsame.1
              exact Or.inr ⟨f, f', n, n', rfl, rfl, hsame, hn, hn', hd⟩

theorem Inode.write_data_congr {n n' : Inode} (h : n'.data = n.data) (offset : ℕ) (chunk : Bytes) :
    (n'.write offset chunk).data = (n.write offset chunk).data := by
  unfold Inode.write
  split
  · simp only [h]
  · exact h

theorem sysLink_eq {old new : Path} {i : ℕ} (hfit : fs.Fits old ∧ fs.Fits new)
    (hold : fs.dir old = some i) (hnew : fs.dir new = none) :
    sysLink old new fds fs = (.ok (), fds, fs.bind new i (fs.dir_lt hold)) := by
  unfold sysLink
  rw [if_pos hfit]
  split
  · next h => exact absurd (hold.symm.trans h) (by simp)
  · next j h =>
      obtain rfl : i = j := Option.some.inj (hold.symm.trans h)
      rw [hnew]

theorem sysLink_exists {old new : Path} {i j : ℕ} (hfit : fs.Fits old ∧ fs.Fits new)
    (hold : fs.dir old = some i) (hnew : fs.dir new = some j) :
    sysLink old new fds fs = (.error .EEXIST, fds, fs) := by
  unfold sysLink
  rw [if_pos hfit]
  split
  · next h => exact absurd (hold.symm.trans h) (by simp)
  · rw [hnew]

theorem sysLink_missing {old new : Path} (hfit : fs.Fits old ∧ fs.Fits new)
    (hold : fs.dir old = none) : sysLink old new fds fs = (.error .ENOENT, fds, fs) := by
  unfold sysLink
  rw [if_pos hfit]
  split
  · rfl
  · next j h => exact absurd (hold.symm.trans h) (by simp)

theorem sysLink_same (h : Similar ρ fs fs') (hf : SameFiles ρ fds fds') (old new : Path) :
    SameResult ρ (sysLink old new fds fs) (sysLink old new fds' fs') := by
  have hfit' : (fs'.Fits old ∧ fs'.Fits new) ↔ (fs.Fits old ∧ fs.Fits new) := by
    rw [h.fits, h.fits]
  by_cases hfit : fs.Fits old ∧ fs.Fits new
  · rcases h.dir old with ⟨ho, ho'⟩ | ⟨i, j, ho, ho', hij⟩
    · rw [sysLink_missing hfit ho, sysLink_missing (hfit'.2 hfit) ho']
      exact sameResult_same h hf _
    · rcases h.dir new with ⟨hn, hn'⟩ | ⟨a, b, hn, hn', -⟩
      · rw [sysLink_eq hfit ho hn, sysLink_eq (hfit'.2 hfit) ho' hn']
        exact ⟨rfl, ρ, fun _ _ h => h, hf, h.bind new hij (fs.dir_lt ho) (fs'.dir_lt ho')⟩
      · rw [sysLink_exists hfit ho hn, sysLink_exists (hfit'.2 hfit) ho' hn']
        exact sameResult_same h hf _
  · unfold sysLink
    rw [if_neg hfit, if_neg (fun hc => hfit (hfit'.1 hc))]
    exact sameResult_same h hf _

theorem sysWrite_same (h : Similar ρ fs fs') (hf : SameFiles ρ fds fds') (fd : ℕ) (data : Bytes)
    (o : Outcome) : SameResult ρ (sysWrite fd data o fds fs) (sysWrite fd data o fds' fs') := by
  unfold sysWrite
  split
  · exact sameResult_same h hf _
  · exact sameResult_same h hf _
  · rcases h.opened hf fd with ⟨ho, ho'⟩ | ⟨f, f', n, n', ho, ho', hsame, -, -, -⟩
    · simp only [ho, ho']
      exact sameResult_same h hf _
    · simp only [ho, ho', hsame.2]
      split
      · exact sameResult_same h hf _
      · exact ⟨rfl, ρ, fun _ _ h => h, hf.set fd ⟨hsame.1, rfl⟩,
          h.modify hsame.1 _ fun _ _ hd => Inode.write_data_congr hd _ _⟩

/-- **Every call gets the same reply** on similar file systems, and keeps them similar. -/
theorem exec_same (h : Similar ρ fs fs') (hf : SameFiles ρ fds fds') (me : ℕ) (s : Syscall)
    (o : Outcome) : SameResult ρ (s.exec me fds fs o) (s.exec me fds' fs' o) := by
  have hlen : fds'.length = fds.length := hf.length_eq.symm
  cases s with
  | createDirectories d => exact orFails_same h hf o (sameResult_same h hf _)
  | openDirectory d => exact orFails_same h hf o (sameResult_same h hf _)
  | openExcl p =>
      refine orFails_same h hf o ?_
      unfold sysOpenExcl
      simp only [h.fits]
      split
      · rcases h.dir p with ⟨hp, hp'⟩ | ⟨i, j, hp, hp', -⟩
        · simp only [hp, hp', hlen]
          exact ⟨rfl, _, fun _ _ hij => Or.inl hij,
            (hf.mono fun _ _ hij => Or.inl hij).append ⟨Or.inr ⟨rfl, rfl⟩, rfl⟩, h.create p me⟩
        · simp only [hp, hp']
          exact sameResult_same h hf _
      · exact sameResult_same h hf _
  | openRead p =>
      refine orFails_same h hf o ?_
      unfold sysOpenRead
      simp only [h.fits]
      split
      · rcases h.dir p with ⟨hp, hp'⟩ | ⟨i, j, hp, hp', hij⟩
        · simp only [hp, hp']
          exact sameResult_same h hf _
        · simp only [hp, hp', hlen]
          exact ⟨rfl, ρ, fun _ _ h => h, hf.append ⟨hij, rfl⟩, h⟩
      · exact sameResult_same h hf _
  | write fd data => exact sysWrite_same h hf fd data o
  | pread fd count offset =>
      refine orFails_same h hf o ?_
      unfold sysPread
      rcases h.opened hf fd with ⟨ho, ho'⟩ | ⟨f, f', n, n', ho, ho', -, hn, hn', hd⟩
      · simp only [ho, ho', Option.bind_none]
        exact sameResult_same h hf _
      · simp only [ho, ho', Option.bind_some, hn, hn', hd]
        exact sameResult_same h hf _
  | read fd count =>
      refine orFails_same h hf o ?_
      unfold sysRead
      rcases h.opened hf fd with ⟨ho, ho'⟩ | ⟨f, f', n, n', ho, ho', hsame, hn, hn', hd⟩
      · simp only [ho, ho']
        exact sameResult_same h hf _
      · simp only [ho, ho', hn, hn', hd, hsame.2]
        exact ⟨rfl, ρ, fun _ _ h => h, hf.set fd ⟨hsame.1, rfl⟩, h⟩
  | fstat fd =>
      refine orFails_same h hf o ?_
      unfold sysFstat
      rcases h.opened hf fd with ⟨ho, ho'⟩ | ⟨f, f', n, n', ho, ho', -, hn, hn', hd⟩
      · simp only [ho, ho', Option.bind_none]
        exact sameResult_same h hf _
      · simp only [ho, ho', Option.bind_some, hn, hn', hd]
        exact sameResult_same h hf _
  | fdatasync fd =>
      refine orFails_same h hf o ?_
      unfold sysFdatasync
      rcases h.opened hf fd with ⟨ho, ho'⟩ | ⟨f, f', n, n', ho, ho', hsame, -, -, -⟩
      · simp only [ho, ho']
        exact sameResult_same h hf _
      · simp only [ho, ho']
        exact ⟨rfl, ρ, fun _ _ h => h, hf, h.modify hsame.1 _ fun _ _ hd => hd⟩
  | link old new => exact orFails_same h hf o (sysLink_same h hf old new)
  | unlink p =>
      refine orFails_same h hf o ?_
      unfold sysUnlink
      simp only [h.fits]
      split
      · rcases h.dir p with ⟨hp, hp'⟩ | ⟨i, j, hp, hp', -⟩
        · simp only [hp, hp']
          exact sameResult_same h hf _
        · simp only [hp, hp']
          exact ⟨rfl, ρ, fun _ _ h => h, hf, h.remove p⟩
      · exact sameResult_same h hf _
  | fsync d =>
      exact orFails_same h hf o ⟨rfl, ρ, fun _ _ h => h, hf, h.syncDir d⟩
  | «exists» p =>
      refine orFails_same h hf o ?_
      unfold sysExists
      simp only [h.fits]
      rcases h.dir p with ⟨hp, hp'⟩ | ⟨i, j, hp, hp', -⟩
      · simp only [hp, hp']
        exact sameResult_same h hf _
      · simp only [hp, hp', Option.isSome_some]
        exact sameResult_same h hf _

end Calls

/-! ## Programs -/

section Programs

variable {B : Signature} {β α : Type}

/-- Two processes in the same state, up to the numbers of files. -/
def SameWorld (w w' : World B β) : Prop :=
  ∃ ρ, Similar ρ w.fs w'.fs ∧ SameFiles ρ w.fds w'.fds ∧ w'.trace = w.trace ∧ w'.rest = w.rest

theorem SameWorld.handler {w w' : World B β} (h : SameWorld w w') (me : ℕ)
    (hB : (op : B.Op) → β → B.Ret op × β) (op : (Sys.sum B).Op) (o : Outcome) :
    (World.handler me hB op w o).1 = (World.handler me hB op w' o).1 ∧
      SameWorld (World.handler me hB op w o).2 (World.handler me hB op w' o).2 := by
  obtain ⟨ρ, hfs, hfds, htrace, hrest⟩ := h
  cases op with
  | inl s =>
      obtain ⟨hreply, ρ', -, hfds', hfs'⟩ := exec_same hfs hfds me s o
      refine ⟨hreply, ρ', hfs', hfds', ?_, hrest⟩
      simp only [World.handler, World.answered, hreply, htrace]
  | inr op =>
      refine ⟨?_, ρ, hfs, hfds, ?_, ?_⟩
      · simp only [World.handler, hrest]
        rfl
      · simp only [World.handler, World.replied, hrest, htrace]
      · simp only [World.handler, World.replied, hrest]

/-- **A program runs alike on similar file systems.** -/
theorem exec_similar {w w' : World B β} (h : SameWorld w w') (me : ℕ)
    (hB : (op : B.Op) → β → B.Ret op × β) (p : Program (Sys.sum B) α) (ω : ℕ → Outcome) (n : ℕ) :
    (Config.exec (World.handler me hB) (p, w) ω n).1
        = (Config.exec (World.handler me hB) (p, w') ω n).1 ∧
      SameWorld (Config.exec (World.handler me hB) (p, w) ω n).2
        (Config.exec (World.handler me hB) (p, w') ω n).2 := by
  exact Config.exec_lockstep SameWorld (fun op n _ _ hsame => hsame.handler me hB op (ω n)) p h n

/-- It returns the same value after the same calls. -/
theorem returns_similar {w w' : World B β} (h : SameWorld w w') (me : ℕ)
    (hB : (op : B.Op) → β → B.Ret op × β) (p : Program (Sys.sum B) α) (ω : ℕ → Outcome) (a : α)
    (trace : List (Event (Sys.sum B))) :
    (∃ u, Config.Returns (World.handler me hB) (p, w') ω a u ∧ u.trace = trace) ↔
      ∃ u, Config.Returns (World.handler me hB) (p, w) ω a u ∧ u.trace = trace := by
  constructor
  · rintro ⟨u, ⟨n, hn⟩, rfl⟩
    obtain ⟨hprog, ρ, -, -, htrace, -⟩ := exec_similar h me hB p ω n
    rw [hn] at hprog htrace
    exact ⟨(Config.exec (World.handler me hB) (p, w) ω n).2, ⟨n, Prod.ext hprog rfl⟩, htrace.symm⟩
  · rintro ⟨u, ⟨n, hn⟩, rfl⟩
    obtain ⟨hprog, ρ, -, -, htrace, -⟩ := exec_similar h me hB p ω n
    rw [hn] at hprog htrace
    exact ⟨(Config.exec (World.handler me hB) (p, w') ω n).2, ⟨n, Prod.ext hprog.symm rfl⟩, htrace⟩

end Programs

end Posix
