import ChunkStorage.Download

set_option autoImplicit false

/-! # Downloads that race for one destination

Any number of `Get`s to one destination and any number of other processes that create, write, link
and remove files, the destination among them, interleaved call by call. The others leave the
temporary paths of the downloads alone, and no two `Get`s have the same one. -/

namespace ChunkStorage

open Effects Posix Program

variable {β : Type}

/-! ## The processes -/

/-- A temporary path of some download to the destination. -/
def IsTemp (destination p : Path) : Prop :=
  ∃ pid tempId, p = StorageClient.tempFor destination pid tempId

/-- What another process may call: anything that names no temporary path. It opens a file only to
    create it, since a process that reads files changes none. -/
def Minds (destination : Path) (op : ClientSig.Op) (again : ClientSig.Ret op → Bool) : Prop :=
  Retries op again ∧
    match op with
    | .inl (.openExcl p) | .inl (.unlink p) => ¬ IsTemp destination p
    | .inl (.link old new) => ¬ IsTemp destination old ∧ ¬ IsTemp destination new
    | .inl (.openRead _) => False
    | _ => True

inductive Task (destination : Path) where
  | get (objectId : ObjectId) (pid tempId : ℕ)
  /-- Another process, for example one that creates the destination. -/
  | other (prog : Program ClientSig (Except Errno Status))
      (minds : prog.Performs (Minds destination))

/-- A process and the transport it talks to. -/
structure ClientJob (β : Type) (destination : Path) where
  task : Task destination
  transport : Transport β
  state : β

def Task.program (B : Blake3) {destination : Path} :
    Task destination → Program ClientSig (Except Errno Status)
  | .get objectId pid tempId => StorageClient.get B objectId destination pid tempId
  | .other prog _ => prog

def clientJob (B : Blake3) (destination : Path) (v : ClientJob β destination) :
    Job Rpc β (Except Errno Status) :=
  ⟨v.task.program B, v.transport, v.state⟩

abbrev ClientSystem (β : Type) (destination : Path) :=
  System (ClientJob β destination) Rpc β (Except Errno Status)

abbrev ClientProcess (β : Type) (destination : Path) :=
  Process (ClientJob β destination) Rpc β (Except Errno Status)

/-- Any call may fail but `unlink`, which does what it is asked to where it can. -/
def UnlinkWorks {destination : Path} :
    ℕ → ClientJob β destination → (op : ClientSig.Op) → ClientWorld β → Outcome → Prop
  | _, _, .inl (.unlink p), _, o => o.Calm (.unlink p)
  | _, _, _, _, _ => True

theorem unlinksCalm_unlinkWorks {destination : Path} (j : ℕ) (v : ClientJob β destination)
    (temp : Path) : UnlinksCalm (UnlinkWorks j v) temp := fun _ _ h => h

/-! ## Steps -/

section Steps

variable {B : Blake3} {destination : Path} {T : ℕ → ClientJob β destination → Prop} {j k : ℕ}
  {v : ClientJob β destination}

/-- Process `j` is a `Get`. -/
def IsGet (T : ℕ → ClientJob β destination → Prop) (j : ℕ) : Prop :=
  ∃ v objectId pid tempId, T j v ∧ v.task = .get objectId pid tempId

/-- The file is not one that a `Get` is still filling. -/
def Complete (T : ℕ → ClientJob β destination → Prop) (n : Inode) : Prop :=
  n.linked = true ∨ ¬ IsGet T n.owner

/-- One step of another process `me`. -/
inductive OtherStep (T : ℕ → ClientJob β destination → Prop) (me : ℕ) :
    Event ClientSig → FS → FS → Prop
  | looks {e : Event ClientSig} {fs : FS} : OtherStep T me e fs fs
  | syncs {e : Event ClientSig} {fs : FS} {dir : Bytes} : OtherStep T me e fs (fs.syncDir dir)
  | creates {e : Event ClientSig} {fs : FS} {p : Path} (hp : ¬ IsTemp destination p)
      (hnone : fs.dir p = none) : OtherStep T me e fs (fs.create p me)
  | modifies {e : Event ClientSig} {fs : FS} {i : ℕ} {n : Inode} {f : Inode → Inode}
      (hn : fs.inodes[i]? = some n) (howner : n.owner = me)
      (hf : ∀ n, (f n).owner = n.owner ∧ (f n).linked = n.linked) :
      OtherStep T me e fs (fs.modify i f)
  | links {e : Event ClientSig} {fs : FS} {old new : Path} {i : ℕ} {n : Inode}
      (hp : ¬ IsTemp destination new) (hi : fs.dir old = some i) (hn : fs.inodes[i]? = some n)
      (hcomplete : Complete T n) (hnone : fs.dir new = none) :
      OtherStep T me e fs (fs.bind new i (fs.dir_lt hi))
  | removes {fs : FS} {p : Path} (hp : ¬ IsTemp destination p) :
      OtherStep T me ⟨.inl (.unlink p), .ok ()⟩ fs (fs.remove p)

/-- One step of process `me` that runs `v`, after the events of `trace`. -/
inductive ClientStep (B : Blake3) (T : ℕ → ClientJob β destination → Prop) (me : ℕ)
    (v : ClientJob β destination) (trace : List (Event ClientSig)) (e : Event ClientSig)
    (fs fs' : FS) : Prop
  | get {objectId : ObjectId} {pid tempId : ℕ} (htask : v.task = .get objectId pid tempId)
      (h : GetStep B me (StorageClient.tempFor destination pid tempId) destination trace e fs fs')
  | other {prog : Program ClientSig (Except Errno Status)}
      {minds : prog.Performs (Minds destination)} (htask : v.task = .other prog minds)
      (h : OtherStep T me e fs fs')

/-- The runs at hand: a process has one job, and no two `Get`s have a temporary path in common. -/
structure Distinct (T : ℕ → ClientJob β destination → Prop) : Prop where
  job : ∀ {j v v'}, T j v → T j v' → v = v'
  temp : ∀ {i j v v' objectId objectId' pid tempId}, T i v → T j v' →
    v.task = .get objectId pid tempId → v'.task = .get objectId' pid tempId → i = j

/-- What has a name that is no temporary one is complete. -/
def Shared (T : ℕ → ClientJob β destination → Prop) (fs : FS) : Prop :=
  ∀ p i n, ¬ IsTemp destination p → fs.dir p = some i → fs.inodes[i]? = some n → Complete T n

theorem ClientStep.nameMax {trace : List (Event ClientSig)} {e : Event ClientSig} {fs fs' : FS}
    (h : ClientStep B T k v trace e fs fs') : fs'.nameMax = fs.nameMax := by
  cases h with
  | get _ h => cases h <;> rfl
  | other _ h => cases h <;> rfl

/-- A file stays, with its owner. Nobody but a `Get` touches the file it is filling. -/
theorem ClientStep.file {trace : List (Event ClientSig)} {e : Event ClientSig} {fs fs' : FS}
    (h : ClientStep B T k v trace e fs fs') {i : ℕ} {n : Inode} (hn : fs.inodes[i]? = some n) :
    ∃ n', fs'.inodes[i]? = some n' ∧ n'.owner = n.owner ∧ (n.linked = true → n'.linked = true) ∧
      (n.owner ≠ k → ¬ Complete T n → n' = n) := by
  have same : ∀ {fs' : FS}, fs'.inodes[i]? = some n → ∃ n', fs'.inodes[i]? = some n' ∧
      n'.owner = n.owner ∧ (n.linked = true → n'.linked = true) ∧
      (n.owner ≠ k → ¬ Complete T n → n' = n) :=
    fun hn' => ⟨n, hn', rfl, id, fun _ _ => rfl⟩
  have created : ∀ (p : Path), (fs.create p k).inodes[i]? = some n := by
    intro p
    rw [FS.create_inodes, List.getElem?_append_left (List.getElem?_eq_some_iff.1 hn).1]
    exact hn
  have modified : ∀ {i' : ℕ} {m : Inode} {f : Inode → Inode}, fs.inodes[i']? = some m →
      m.owner = k → (∀ n, (f n).owner = n.owner ∧ (f n).linked = n.linked) →
      ∃ n', (fs.modify i' f).inodes[i]? = some n' ∧ n'.owner = n.owner ∧
        (n.linked = true → n'.linked = true) ∧ (n.owner ≠ k → ¬ Complete T n → n' = n) := by
    intro i' m f hm howner hf
    by_cases hi : i' = i
    · subst hi
      obtain rfl : m = n := Option.some.inj (hm.symm.trans hn)
      refine ⟨f m, by simp [hn], (hf m).1, fun hl => by rw [(hf m).2]; exact hl, ?_⟩
      intro hne
      exact absurd howner hne
    · exact same (by simp [hn, hi])
  have linked : ∀ {p : Path} {i' : ℕ} {m : Inode} (hi' : i' < fs.inodes.length),
      fs.inodes[i']? = some m → (m.owner = k ∨ Complete T m) →
      ∃ n', (fs.bind p i' hi').inodes[i]? = some n' ∧ n'.owner = n.owner ∧
        (n.linked = true → n'.linked = true) ∧ (n.owner ≠ k → ¬ Complete T n → n' = n) := by
    intro p i' m hi' hm hallowed
    by_cases hi : i' = i
    · subst hi
      obtain rfl : m = n := Option.some.inj (hm.symm.trans hn)
      refine ⟨m.link, by simp [hn], rfl, fun _ => rfl, fun hne hno => ?_⟩
      rcases hallowed with howner | hcomplete
      · exact absurd howner hne
      · exact absurd hcomplete hno
    · exact same (by simp [hn, hi])
  cases h with
  | get _ h =>
      cases h with
      | looks _ | drops _ _ _ => exact same hn
      | creates _ => exact same (created _)
      | modifies _ hm howner _ hf => exact modified hm howner hf
      | links hi hm howner _ _ _ _ => exact linked (fs.dir_lt hi) hm (Or.inl howner)
  | other _ h =>
      cases h with
      | looks | syncs | removes _ => exact same hn
      | creates _ _ => exact same (created _)
      | modifies hm howner hf => exact modified hm howner hf
      | links _ hi hm hcomplete _ => exact linked (fs.dir_lt hi) hm (Or.inr hcomplete)

/-- Every file was there before or is one that the process creates. -/
theorem ClientStep.owner {trace : List (Event ClientSig)} {e : Event ClientSig} {fs fs' : FS}
    (h : ClientStep B T k v trace e fs fs') {i : ℕ} {n' : Inode} (hn' : fs'.inodes[i]? = some n') :
    (∃ n, fs.inodes[i]? = some n ∧ n'.owner = n.owner) ∨ n'.owner = k := by
  cases hn : fs.inodes[i]? with
  | some n =>
      obtain ⟨m, hm, howner, -⟩ := h.file hn
      obtain rfl : m = n' := Option.some.inj (hm.symm.trans hn')
      exact Or.inl ⟨n, rfl, howner⟩
  | none =>
      have created : ∀ {p : Path}, (fs.create p k).inodes[i]? = some n' → n'.owner = k := by
        intro p hcreated
        have hlen := List.getElem?_eq_none_iff.1 hn
        rw [FS.create_inodes, List.getElem?_append_right hlen] at hcreated
        obtain ⟨hlt, -⟩ := List.getElem?_eq_some_iff.1 hcreated
        have hzero : i - fs.inodes.length = 0 := by
          simp only [List.length_singleton] at hlt
          omega
        rw [hzero] at hcreated
        obtain rfl : Inode.fresh k = n' := Option.some.inj hcreated
        rfl
      cases h with
      | get _ h =>
          cases h with
          | looks _ | drops _ _ _ => exact absurd hn' (by simp [hn])
          | modifies _ _ _ _ _ | links _ _ _ _ _ _ _ => exact absurd hn' (by simp [hn])
          | creates _ => exact Or.inr (created hn')
      | other _ h =>
          cases h with
          | looks | syncs | removes _ => exact absurd hn' (by simp [hn])
          | modifies _ _ _ | links _ _ _ _ _ => exact absurd hn' (by simp [hn])
          | creates _ _ => exact Or.inr (created hn')

/-- Nobody else touches the temporary path of a `Get`. -/
theorem ClientStep.temp {trace : List (Event ClientSig)} {e : Event ClientSig} {fs fs' : FS}
    (h : ClientStep B T k v trace e fs fs') (hT : Distinct T) (hv : T k v) (hk : k ≠ j)
    {u : ClientJob β destination} (hu : T j u) {objectId : ObjectId} {pid tempId : ℕ}
    (htask : u.task = .get objectId pid tempId) :
    fs'.dir (StorageClient.tempFor destination pid tempId)
      = fs.dir (StorageClient.tempFor destination pid tempId) := by
  have hother : ∀ {p : Path}, ¬ IsTemp destination p →
      p ≠ StorageClient.tempFor destination pid tempId := by
    rintro p hp rfl
    exact hp ⟨pid, tempId, rfl⟩
  cases h with
  | @get objectId' pid' tempId' htask' h =>
      have hne : StorageClient.tempFor destination pid' tempId'
          ≠ StorageClient.tempFor destination pid tempId := by
        intro hsame
        obtain ⟨rfl, rfl⟩ := tempFor_injective hsame
        exact hk (hT.temp hv hu htask' htask)
      cases h with
      | looks _ | modifies _ _ _ _ _ => rfl
      | creates _ => rw [FS.create_dir, if_neg hne]
      | links _ _ _ _ _ _ _ => rw [FS.bind_dir, if_neg (tempFor_ne destination pid tempId).symm]
      | drops _ _ _ => rw [FS.remove_dir, if_neg hne]
  | other _ h =>
      cases h with
      | looks | modifies _ _ _ => rfl
      | syncs => rw [FS.syncDir_dir]
      | creates hp _ => rw [FS.create_dir, if_neg (hother hp)]
      | links hp _ _ _ _ => rw [FS.bind_dir, if_neg (hother hp)]
      | removes hp => rw [FS.remove_dir, if_neg (hother hp)]

/-- The process of another task is no `Get`. -/
theorem Distinct.not_isGet (hT : Distinct T) (hv : T k v)
    {prog : Program ClientSig (Except Errno Status)} {minds : prog.Performs (Minds destination)}
    (htask : v.task = .other prog minds) : ¬ IsGet T k := by
  rintro ⟨v', objectId, pid, tempId, hv', htask'⟩
  rw [hT.job hv' hv, htask] at htask'
  exact absurd htask' (by simp)

theorem ClientStep.shared {trace : List (Event ClientSig)} {e : Event ClientSig} {fs fs' : FS}
    (h : ClientStep B T k v trace e fs fs') (hT : Distinct T) (hv : T k v) (hs : Shared T fs) :
    Shared T fs' := by
  intro p i n' hp hi' hn'
  -- an entry that was there names a file that is still complete
  have kept : fs.dir p = some i → Complete T n' := by
    intro hi
    obtain ⟨n, hn⟩ := fs.dir_eq_some hi
    obtain ⟨m, hm, howner, hlinked, -⟩ := h.file hn
    obtain rfl : m = n' := Option.some.inj (hm.symm.trans hn')
    rcases hs p i n hp hi hn with hl | hother
    · exact Or.inl (hlinked hl)
    · exact Or.inr (by rw [howner]; exact hother)
  have bound : ∀ {q : Path} {i' : ℕ} (hi'' : i' < fs.inodes.length), fs' = fs.bind q i' hi'' →
      Complete T n' := by
    rintro q i' hi'' rfl
    rw [FS.bind_dir] at hi'
    split at hi'
    · obtain rfl : i' = i := Option.some.inj hi'
      rw [FS.bind_inodes] at hn'
      obtain ⟨m, -, hlink⟩ := Option.map_eq_some_iff.1 hn'
      rw [if_pos rfl] at hlink
      exact Or.inl (by rw [← hlink]; rfl)
    · exact kept hi'
  cases h with
  | @get objectId pid tempId htask h =>
      have hne : StorageClient.tempFor destination pid tempId ≠ p := by
        rintro rfl
        exact hp ⟨pid, tempId, rfl⟩
      cases h with
      | looks _ | modifies _ _ _ _ _ => exact kept hi'
      | creates _ =>
          rw [FS.create_dir, if_neg hne] at hi'
          exact kept hi'
      | links hi _ _ _ _ _ _ => exact bound (fs.dir_lt hi) rfl
      | drops _ _ _ =>
          rw [FS.remove_dir, if_neg hne] at hi'
          exact kept hi'
  | other htask h =>
      cases h with
      | looks | modifies _ _ _ => exact kept hi'
      | syncs =>
          rw [FS.syncDir_dir] at hi'
          exact kept hi'
      | @creates _ _ q _ _ =>
          rw [FS.create_dir] at hi'
          split at hi'
          · obtain rfl : fs.inodes.length = i := Option.some.inj hi'
            obtain rfl : Inode.fresh k = n' := by simpa using hn'
            exact Or.inr (hT.not_isGet hv htask)
          · exact kept hi'
      | links _ hi _ _ _ => exact bound (fs.dir_lt hi) rfl
      | @removes _ q _ =>
          rw [FS.remove_dir] at hi'
          split at hi'
          · exact absurd hi' (by simp)
          · exact kept hi'

/-! ## A process among the others -/

/-- What the other processes may do to the files between two steps of process `j`. -/
def Crowd (B : Blake3) (T : ℕ → ClientJob β destination → Prop) (j : ℕ) : FS → FS → Prop :=
  Relation.ReflTransGen fun fs fs' =>
    ∃ k v trace e, k ≠ j ∧ T k v ∧ ClientStep B T k v trace e fs fs'

/-- What every step of another process keeps is kept by all of them. -/
theorem Crowd.keeps {A : FS → Prop} {fs fs' : FS} (h : Crowd B T j fs fs')
    (hstep : ∀ {k v trace e fs fs'}, k ≠ j → T k v → ClientStep B T k v trace e fs fs' →
      A fs → A fs') (hA : A fs) : A fs' := by
  induction h with
  | refl => exact hA
  | tail _ hlast ih =>
      obtain ⟨k, v, trace, e, hk, hv, hs⟩ := hlast
      exact hstep hk hv hs ih

/-- One step of process `j`: interrupted, or a step that leaves an event. -/
def ClientGuarantee (B : Blake3) (T : ℕ → ClientJob β destination → Prop) (j : ℕ)
    (v : ClientJob β destination) (w w' : ClientWorld β) : Prop :=
  (w'.trace = w.trace ∧ w'.fs = w.fs) ∨
    ∃ e, w'.trace = e :: w.trace ∧ ClientStep B T j v w.trace e w.fs w'.fs

/-- What process `j` has reached when it returns. -/
def ClientEnd (T : ℕ → ClientJob β destination → Prop) (j : ℕ) (v : ClientJob β destination)
    (r : Except Errno Status) (w : ClientWorld β) : Prop :=
  ∀ objectId pid tempId, T j v → v.task = .get objectId pid tempId →
    Cleaned j (StorageClient.tempFor destination pid tempId) w.fs ∧
    ∀ status, r = .ok status → status.ok = true →
      ⟨.inl (.link (StorageClient.tempFor destination pid tempId) destination), .ok ()⟩ ∈ w.trace

section Get

variable {O : ℕ → FS → Prop} {objectId : ObjectId} {pid tempId : ℕ}

theorem Crowd.cleaned (hT : Distinct T) (hv : T j v) (htask : v.task = .get objectId pid tempId)
    {fs fs' : FS} (h : Crowd B T j fs fs')
    (hclean : Cleaned j (StorageClient.tempFor destination pid tempId) fs) :
    Cleaned j (StorageClient.tempFor destination pid tempId) fs' := by
  refine h.keeps (fun {k u trace e fs fs'} hk hu hs hclean => ?_) hclean
  intro i n' hi' hn'
  rw [hs.temp hT hu hk hv htask] at hi'
  obtain ⟨n, hn⟩ := fs.dir_eq_some hi'
  obtain ⟨m, hm, howner, -⟩ := hs.file hn
  obtain rfl : m = n' := Option.some.inj (hm.symm.trans hn')
  rw [howner]
  exact hclean i n hi' hn

/-- The others leave a `Get` what it needs. -/
theorem Crowd.surroundings (hT : Distinct T) (hv : T j v)
    (htask : v.task = .get objectId pid tempId) :
    Surroundings (β := β) (Interferes (Crowd B T j) (O j)) j
      (StorageClient.tempFor destination pid tempId) destination (fun _ => True) (fun _ => True)
      (fun _ _ => True) where
  same hR := hR.1
  nameMax {w w'} hR := by
    refine hR.2.1.keeps (A := fun fs => fs.nameMax = w.fs.nameMax) (fun _ _ hs hsame => ?_) rfl
    rw [hs.nameMax, hsame]
  own {w w' i sync d} hR hown := by
    refine hR.2.1.keeps (A := OwnFile j _ i sync d) (fun {k u trace e fs fs'} hk hu hs hown => ?_) hown
    obtain ⟨n, hn, howner, hfresh, hdata, hsynced⟩ := hown.file
    have hfilling : ¬ Complete T n := by
      rintro (hlinked | hother)
      · rw [hfresh] at hlinked
        exact absurd hlinked (by simp)
      · rw [howner] at hother
        exact hother ⟨v, objectId, pid, tempId, hv, htask⟩
    obtain ⟨n', hn', -, -, hsame⟩ := hs.file hn
    obtain rfl := hsame (by rw [howner]; exact hk.symm) hfilling
    exact ⟨by rw [hs.temp hT hu hk hv htask]; exact hown.entry, n', hn', howner, hfresh, hdata,
      hsynced⟩
  owned {w w'} hR howned := by
    refine hR.2.1.keeps (A := Owned j _) (fun {k u trace e fs fs'} hk hu hs howned => ?_) howned
    intro i hi'
    rw [hs.temp hT hu hk hv htask] at hi'
    obtain ⟨hfits, n, hn, howner⟩ := howned i hi'
    obtain ⟨n', hn', howner', -⟩ := hs.file hn
    exact ⟨by rw [FS.Fits, hs.nameMax]; exact hfits, n', hn', howner'.trans howner⟩
  absent {w w'} hR hnone := by
    refine hR.2.1.keeps (A := fun fs => fs.dir _ = none) (fun hk hu hs hnone => ?_) hnone
    rw [hs.temp hT hu hk hv htask]
    exact hnone
  cleaned hR hclean := hR.2.1.cleaned hT hv htask hclean
  before _ _ := trivial
  known _ _ := trivial
  creates _ := trivial
  modifies _ _ _ := trivial
  removes _ := trivial
  links _ _ _ := trivial
  landed _ _ := trivial
  drops _ := trivial

/-- A `Get` among others. -/
theorem get_amid (hT : Distinct T) (hv : T j v) (htask : v.task = .get objectId pid tempId)
    {w : ClientWorld β} (hclean : Cleaned j (StorageClient.tempFor destination pid tempId) w.fs) :
    (v.task.program B).Safe ((World.handler j v.transport).sem (UnlinkWorks j v))
      (Interferes (Crowd B T j) (O j)) (ClientGuarantee B T j v) (ClientEnd T j v) w := by
  rw [htask]
  refine (clientGet_safe (Crowd.surroundings hT hv htask) (tempFor_ne _ _ _) objectId trivial
    trivial).mono (fun _ _ hR => hR) ?_ ?_
  · rintro w w' (hsame | ⟨e, htrace, hstep⟩)
    · exact Or.inl hsame
    · exact Or.inr ⟨e, htrace, .get htask hstep⟩
  · rintro r w' ⟨hgone, -, hanswer⟩ objectId' pid' tempId' _ htask'
    rw [htask] at htask'
    obtain ⟨-, rfl, rfl⟩ := Task.get.inj htask'
    refine ⟨hgone (unlinksCalm_unlinkWorks j v _) hclean, fun status hr hok => ?_⟩
    rw [hr] at hanswer
    exact hanswer.linked hok

end Get

/-- Another process has only its own files open. -/
structure Bystander (T : ℕ → ClientJob β destination → Prop) (j : ℕ) (w : ClientWorld β) : Prop where
  opened : ∀ f ∈ w.fds, ∃ n, w.fs.inodes[f.ino]? = some n ∧ n.owner = j
  shared : Shared T w.fs

section Other

variable {O : ℕ → FS → Prop} {prog : Program ClientSig (Except Errno Status)}
  {minds : prog.Performs (Minds destination)}

theorem Bystander.env (hT : Distinct T) {w w' : ClientWorld β} (h : Bystander T j w)
    (hR : Interferes (Crowd B T j) (O j) w w') : Bystander T j w' := by
  constructor
  · rw [hR.1.1]
    refine hR.2.1.keeps (A := fun fs => ∀ f ∈ w.fds, ∃ n, fs.inodes[f.ino]? = some n ∧ n.owner = j)
      (fun hk hu hs hopened f hf => ?_) h.opened
    obtain ⟨n, hn, howner⟩ := hopened f hf
    obtain ⟨n', hn', howner', -⟩ := hs.file hn
    exact ⟨n', hn', howner'.trans howner⟩
  · exact hR.2.1.keeps (A := Shared T) (fun _ hu hs hshared => hs.shared hT hu hshared) h.shared

/-- What a system call of another process does. -/
theorem OtherStep.of_effect {s : Syscall} {r : s.Ret} {fds' : List OpenFile} {fs' : FS}
    {again : s.Ret → Bool} (hminds : Minds destination (.inl s) again) {w : ClientWorld β}
    (hw : Bystander T j w) (h : Effect j w.fds w.fs s r fds' fs') :
    OtherStep T j ⟨.inl s, r⟩ w.fs fs' ∧
      ∀ f ∈ fds', ∃ n, fs'.inodes[f.ino]? = some n ∧ n.owner = j := by
  have kept : ∀ {fds' : List OpenFile} {fs' : FS}, Reopens w.fds fds' →
      (∀ (i : ℕ) n, w.fs.inodes[i]? = some n → ∃ n', fs'.inodes[i]? = some n' ∧ n'.owner = n.owner) →
      ∀ f ∈ fds', ∃ n, fs'.inodes[f.ino]? = some n ∧ n.owner = j := by
    intro fds' fs' hfds hkeeps f hf
    obtain ⟨f₀, hf₀, hino⟩ := hfds f hf
    obtain ⟨n, hn, howner⟩ := hw.opened f₀ hf₀
    obtain ⟨n', hn', howner'⟩ := hkeeps f₀.ino n hn
    rw [hino]
    exact ⟨n', hn', howner'.trans howner⟩
  have old : ∀ (i : ℕ) n, w.fs.inodes[i]? = some n →
      ∃ n', w.fs.inodes[i]? = some n' ∧ n'.owner = n.owner := fun i n hn => ⟨n, hn, rfl⟩
  cases h with
  | looks hfds => exact ⟨.looks, kept hfds old⟩
  | opens _ => exact absurd hminds.2 id
  | @creates p hnone =>
      refine ⟨.creates hminds.2 hnone, fun f hf => ?_⟩
      rcases List.mem_append.1 hf with hf | hf
      · obtain ⟨n, hn, howner⟩ := hw.opened f hf
        refine ⟨n, ?_, howner⟩
        rw [FS.create_inodes, List.getElem?_append_left (List.getElem?_eq_some_iff.1 hn).1]
        exact hn
      · obtain rfl := List.mem_singleton.1 hf
        exact ⟨Inode.fresh j, by simp, rfl⟩
  | @modifies _ _ _ f g hf hfds hg =>
      obtain ⟨n, hn, howner⟩ := hw.opened f hf
      refine ⟨.modifies hn howner hg, kept hfds fun i m hm => ?_⟩
      refine ⟨if f.ino = i then g m else m, by simp [hm], ?_⟩
      split
      · exact (hg m).1
      · rfl
  | @links old new i hi hnone =>
      obtain ⟨n, hn⟩ := w.fs.dir_eq_some hi
      refine ⟨.links hminds.2.2 hi hn (hw.shared old i n hminds.2.1 hi hn) hnone,
        kept (.refl _) fun i' m hm => ?_⟩
      refine ⟨if i = i' then m.link else m, by simp [hm], ?_⟩
      split <;> rfl
  | unlinks hi => exact ⟨.removes hminds.2, kept (.refl _) old⟩
  | syncs => exact ⟨.syncs, kept (.refl _) old⟩

/-- Another process among others. -/
theorem other_amid (hT : Distinct T) (hv : T j v) (htask : v.task = .other prog minds)
    {w : ClientWorld β} (hw : Bystander T j w) :
    (v.task.program B).Safe ((World.handler j v.transport).sem (UnlinkWorks j v))
      (Interferes (Crowd B T j) (O j)) (ClientGuarantee B T j v) (ClientEnd T j v) w := by
  rw [htask]
  refine (Performs.safe (P := Bystander T j) (fun hw hR => hw.env hT hR) ?_ minds hw).imp ?_
  · intro op again w r w' hminds hw hH
    cases op with
    | inl s =>
        obtain ⟨o, fds', fs', -, hexec, rfl⟩ := World.sem_sys hH
        split
        · next ha =>
            have hint := hminds.1 r ha
            obtain ⟨rfl, rfl⟩ := exec_interrupted s hexec hint
            exact w.answered_interrupted hint
        · obtain ⟨hstep, hopened⟩ := OtherStep.of_effect hminds hw (exec_effect s hexec)
          have hclient : ClientStep B T j v w.trace ⟨.inl s, r⟩ w.fs fs' := .other htask hstep
          refine ⟨?_, hopened, hclient.shared hT hv hw.shared⟩
          by_cases hint : s.interrupted r = true
          · obtain ⟨-, hfs⟩ := exec_interrupted s hexec hint
            exact Or.inl ⟨by simp [World.answered, hint], hfs⟩
          · exact Or.inr ⟨_, w.answered_trace hint _ _, hclient⟩
    | inr op =>
        obtain ⟨-, rfl⟩ := World.sem_other hH
        rw [hminds.1 r]
        exact ⟨Or.inr ⟨_, rfl, .other htask .looks⟩, hw.opened, hw.shared⟩
  · intro r w' _ objectId pid tempId _ htask'
    rw [htask] at htask'
    exact absurd htask' (by simp)

end Other

end Steps

/-! ## Whole runs -/

section Runs

variable {B : Blake3} {destination : Path} {T : ℕ → ClientJob β destination → Prop}
  {O : ℕ → FS → Prop}

/-- The `Get` has linked its file to the destination. -/
def HasLinked (p : ClientProcess β destination) : Prop :=
  ∃ objectId pid tempId, p.job.task = .get objectId pid tempId ∧
    ⟨.inl (.link (StorageClient.tempFor destination pid tempId) destination), .ok ()⟩ ∈ p.trace

/-- The process has removed the destination. -/
def HasRemoved (p : ClientProcess β destination) : Prop :=
  ⟨.inl (.unlink destination), .ok ()⟩ ∈ p.trace

/-- While nobody has removed the destination: a `Get` that linked its file is the only one, and the
    destination is there. -/
structure OneLink (s : ClientSystem β destination) : Prop where
  present : ∀ {j : ℕ} {p : ClientProcess β destination}, s.procs[j]? = some p → HasLinked p →
    s.fs.dir destination ≠ none
  single : ∀ {i j : ℕ} {p q : ClientProcess β destination}, s.procs[i]? = some p →
    s.procs[j]? = some q → HasLinked p → HasLinked q → i = j

structure ClientInv (T : ℕ → ClientJob β destination → Prop) (s : ClientSystem β destination) :
    Prop where
  shared : Shared T s.fs
  /-- A file was created by a process, or before the run. -/
  owners : ∀ (i : ℕ) n, s.fs.inodes[i]? = some n → n.owner < s.procs.length ∨ ∀ v, ¬ T n.owner v
  once : (∃ (j : ℕ) (p : ClientProcess β destination), s.procs[j]? = some p ∧ HasRemoved p) ∨
    OneLink s

theorem ClientInv.spawn {s : ClientSystem β destination} (h : ClientInv T s)
    (v : ClientJob β destination) : ClientInv T (s.spawn (clientJob B destination) v) where
  shared := h.shared
  owners i n hn := by
    rcases h.owners i n hn with hlt | hold
    · refine Or.inl ?_
      simp only [System.spawn, List.length_append]
      omega
    · exact Or.inr hold
  once := by
    have hnew : ¬ HasLinked (System.boot (clientJob B destination) v) := by
      rintro ⟨_, _, _, _, hmem⟩
      exact absurd hmem (by simp [System.boot])
    rcases h.once with ⟨j, p, hp, hremoved⟩ | hone
    · refine Or.inl ⟨j, p, ?_, hremoved⟩
      rw [System.spawn, List.getElem?_append_left (List.getElem?_eq_some_iff.1 hp).1]
      exact hp
    · refine Or.inr ⟨fun hp hlinked => ?_, fun hp hq hlinked hlinked' => ?_⟩
      · rcases System.spawn_procs hp with hold | ⟨-, rfl⟩
        · exact hone.present hold hlinked
        · exact absurd hlinked hnew
      · rcases System.spawn_procs hp with hp | ⟨-, rfl⟩
        · rcases System.spawn_procs hq with hq | ⟨-, rfl⟩
          · exact hone.single hp hq hlinked hlinked'
          · exact absurd hlinked' hnew
        · exact absurd hlinked hnew

/-- A destination that is there stays there unless it is removed. -/
theorem ClientStep.stays {k : ℕ} {v : ClientJob β destination} {trace : List (Event ClientSig)}
    {e : Event ClientSig} {fs fs' : FS} (h : ClientStep B T k v trace e fs fs')
    (hthere : fs.dir destination ≠ none) :
    fs'.dir destination ≠ none ∨ e = ⟨.inl (.unlink destination), .ok ()⟩ := by
  cases h with
  | @get objectId pid tempId _ h =>
      have hne := tempFor_ne destination pid tempId
      cases h with
      | looks _ | modifies _ _ _ _ _ => exact Or.inl hthere
      | creates _ => exact Or.inl (by rw [FS.create_dir, if_neg hne]; exact hthere)
      | links _ _ _ _ hnone _ _ => exact absurd hnone hthere
      | drops _ _ _ => exact Or.inl (by rw [FS.remove_dir, if_neg hne]; exact hthere)
  | other _ h =>
      cases h with
      | looks | modifies _ _ _ => exact Or.inl hthere
      | syncs => exact Or.inl (by rw [FS.syncDir_dir]; exact hthere)
      | @creates _ _ p _ _ =>
          refine Or.inl ?_
          rw [FS.create_dir]
          split
          · simp
          · exact hthere
      | @links _ _ old new i n _ _ _ _ _ =>
          refine Or.inl ?_
          rw [FS.bind_dir]
          split
          · simp
          · exact hthere
      | @removes _ p _ =>
          by_cases hp : p = destination
          · exact Or.inr (by rw [hp])
          · exact Or.inl (by rw [FS.remove_dir, if_neg hp]; exact hthere)

/-- The link of a `Get`: the destination was free, and now it is the verified file. -/
theorem ClientStep.link {k : ℕ} {v : ClientJob β destination} {trace : List (Event ClientSig)}
    {e : Event ClientSig} {fs fs' : FS} {objectId : ObjectId} {pid tempId : ℕ}
    (h : ClientStep B T k v trace e fs fs') (htask : v.task = .get objectId pid tempId)
    (he : e = ⟨.inl (.link (StorageClient.tempFor destination pid tempId) destination), .ok ()⟩) :
    fs.dir destination = none ∧ ∃ response d, headSeen trace = some response ∧
      fs'.contents destination = some d ∧ Verified B response d := by
  cases h with
  | get htask' h =>
      cases h with
      | looks halters => exact absurd halters (by simp [he, alters])
      | modifies halters _ _ _ _ => exact absurd halters (by simp [he, alters])
      | creates _ => exact absurd (Sum.inl.inj (congrArg Sigma.fst he)) (by simp)
      | drops _ _ _ => exact absurd (Sum.inl.inj (congrArg Sigma.fst he)) (by simp)
      | @links _ i n response hi hn _ _ hnone hseen hverified =>
          refine ⟨hnone, response, n.data, hseen, ?_, hverified⟩
          simp only [FS.contents, FS.bind_dir, if_true, Option.bind_some, FS.bind_inodes, hn,
            Option.map_some]
          rfl
  | other htask' _ =>
      rw [htask] at htask'
      exact absurd htask' (by simp)

theorem ClientInv.update {s : ClientSystem β destination} (h : ClientInv T s) (hT : Distinct T)
    {j : ℕ} {p : ClientProcess β destination} (hp : s.procs[j]? = some p) (hv : T j p.job)
    (prog : Program ClientSig (Except Errno Status)) {w' : ClientWorld β}
    (hG : ClientGuarantee B T j p.job (p.world s.fs) w') : ClientInv T (s.update j p prog w') := by
  have hlt := (List.getElem?_eq_some_iff.1 hp).1
  have hself : (s.update j p prog w').procs[j]? = some (p.next prog w') := by
    simp [System.update, hlt]
  have hlength : (s.update j p prog w').procs.length = s.procs.length := by simp [System.update]
  -- every process that removed or linked before has still done so
  have hkept : ∀ {i : ℕ} {q : ClientProcess β destination}, s.procs[i]? = some q → HasRemoved q →
      p.trace ⊆ w'.trace →
      ∃ (j' : ℕ) (q' : ClientProcess β destination),
        (s.update j p prog w').procs[j']? = some q' ∧ HasRemoved q' := by
    intro i q hq hremoved hsub
    by_cases hij : i = j
    · subst hij
      obtain rfl : p = q := Option.some.inj (hp.symm.trans hq)
      exact ⟨i, _, hself, hsub hremoved⟩
    · exact ⟨i, q, by simp [System.update, Ne.symm hij, hq], hremoved⟩
  rcases hG with ⟨htrace, hfs⟩ | ⟨e, htrace, hstep⟩
  · have htrace' : w'.trace = p.trace := htrace
    have hfs' : w'.fs = s.fs := hfs
    refine ⟨by rw [System.update_fs, hfs']; exact h.shared, fun i n hn => ?_, ?_⟩
    · rw [System.update_fs, hfs'] at hn
      rw [hlength]
      exact h.owners i n hn
    · have hback : ∀ {i : ℕ} {q : ClientProcess β destination},
          (s.update j p prog w').procs[i]? = some q → HasLinked q →
          ∃ q₀, s.procs[i]? = some q₀ ∧ HasLinked q₀ := by
        intro i q hq hlinked
        rcases System.update_procs hq with ⟨rfl, rfl⟩ | ⟨-, hold⟩
        · obtain ⟨objectId, pid, tempId, htask, hmem⟩ := hlinked
          have hmem' : _ ∈ w'.trace := hmem
          rw [htrace'] at hmem'
          exact ⟨p, hp, objectId, pid, tempId, htask, hmem'⟩
        · exact ⟨q, hold, hlinked⟩
      rcases h.once with ⟨i, q, hq, hremoved⟩ | hone
      · exact Or.inl (hkept hq hremoved (by rw [htrace']; exact fun _ hmem => hmem))
      · refine Or.inr ⟨fun hq hlinked => ?_, fun hq hq' hlinked hlinked' => ?_⟩
        · obtain ⟨q₀, hq₀, hlinked₀⟩ := hback hq hlinked
          rw [System.update_fs, hfs']
          exact hone.present hq₀ hlinked₀
        · obtain ⟨q₀, hq₀, hlinked₀⟩ := hback hq hlinked
          obtain ⟨q₁, hq₁, hlinked₁⟩ := hback hq' hlinked'
          exact hone.single hq₀ hq₁ hlinked₀ hlinked₁
  · have htrace' : w'.trace = e :: p.trace := htrace
    have hstep' : ClientStep B T j p.job p.trace e s.fs w'.fs := hstep
    refine ⟨hstep'.shared hT hv h.shared, fun i n' hn' => ?_, ?_⟩
    · rw [hlength]
      rcases hstep'.owner hn' with ⟨n, hn, howner⟩ | howner
      · rw [howner]
        exact h.owners i n hn
      · exact Or.inl (by rw [howner]; exact hlt)
    · rcases h.once with ⟨i, q, hq, hremoved⟩ | hone
      · exact Or.inl (hkept hq hremoved (by rw [htrace']; exact List.subset_cons_self _ _))
      · by_cases hunlink : e = ⟨.inl (.unlink destination), .ok ()⟩
        · refine Or.inl ⟨j, _, hself, ?_⟩
          show _ ∈ w'.trace
          rw [htrace', hunlink]
          exact List.mem_cons_self
        · -- either this step is the link of process `j`, or all the links are old ones
          have hback : ∀ {i : ℕ} {q : ClientProcess β destination},
              (s.update j p prog w').procs[i]? = some q → HasLinked q →
              (∃ q₀, s.procs[i]? = some q₀ ∧ HasLinked q₀) ∨
                (i = j ∧ s.fs.dir destination = none ∧ w'.fs.dir destination ≠ none) := by
            intro i q hq hlinked
            rcases System.update_procs hq with ⟨rfl, rfl⟩ | ⟨-, hold⟩
            · obtain ⟨objectId, pid, tempId, htask, hmem⟩ := hlinked
              have hmem' : _ ∈ w'.trace := hmem
              rw [htrace'] at hmem'
              rcases List.mem_cons.1 hmem' with he | hmem'
              · obtain ⟨hnone, response, d, -, hcontents, -⟩ := hstep'.link htask he.symm
                refine Or.inr ⟨rfl, hnone, fun hgone => ?_⟩
                rw [FS.contents_eq_none_iff.2 hgone] at hcontents
                exact absurd hcontents (by simp)
              · exact Or.inl ⟨p, hp, objectId, pid, tempId, htask, hmem'⟩
            · exact Or.inl ⟨q, hold, hlinked⟩
          refine Or.inr ⟨fun hq hlinked => ?_, fun hq hq' hlinked hlinked' => ?_⟩
          · rcases hback hq hlinked with ⟨q₀, hq₀, hlinked₀⟩ | ⟨-, -, hthere⟩
            · rcases hstep'.stays (hone.present hq₀ hlinked₀) with hthere | hgone
              · exact hthere
              · exact absurd hgone hunlink
            · exact hthere
          · rcases hback hq hlinked with ⟨q₀, hq₀, hlinked₀⟩ | ⟨hi, hnone, -⟩
            · rcases hback hq' hlinked' with ⟨q₁, hq₁, hlinked₁⟩ | ⟨-, hnone, -⟩
              · exact hone.single hq₀ hq₁ hlinked₀ hlinked₁
              · exact absurd hnone (hone.present hq₀ hlinked₀)
            · rcases hback hq' hlinked' with ⟨q₁, hq₁, hlinked₁⟩ | ⟨hi', -, -⟩
              · exact absurd hnone (hone.present hq₁ hlinked₁)
              · rw [hi, hi']

/-- **Downloads and other processes keep out of each other's way.** -/
theorem clientProtocol (hT : Distinct T) :
    Protocol (clientJob (β := β) B destination) UnlinkWorks T (ClientInv T) (Crowd B T) O
      (ClientGuarantee B T) (ClientEnd T) where
  refl j fs := Relation.ReflTransGen.refl
  trans h h' := Relation.ReflTransGen.trans h h'
  others {i j v w w'} hv hG hij := by
    rcases hG with ⟨-, hfs⟩ | ⟨e, -, hstep⟩
    · rw [hfs]
      exact Relation.ReflTransGen.refl
    · exact Relation.ReflTransGen.single ⟨i, v, w.trace, e, hij, hv, hstep⟩
  post {j v r w fs'} hQ hI := by
    intro objectId pid tempId hv htask
    obtain ⟨hclean, hlinked⟩ := hQ objectId pid tempId hv htask
    exact ⟨hI.cleaned hT hv htask hclean, hlinked⟩
  start v hv h := h.spawn v
  step prog h hp hv hG := h.update hT hp hv prog hG
  safe {s} v hv h hO := by
    cases htask : v.task with
    | get objectId pid tempId =>
        refine get_amid hT hv htask fun i n hi hn howner => ?_
        rcases h.owners i n hn with hlt | hold
        · omega
        · exact hold v (howner ▸ hv)
    | other prog minds => exact other_amid hT hv htask ⟨by simp [System.boot, Process.world], h.shared⟩

/-- A `Get` leaves a destination that is there as it is. -/
theorem ClientStep.spares {j : ℕ} {v : ClientJob β destination} {trace : List (Event ClientSig)}
    {e : Event ClientSig} {fs fs' : FS} (h : ClientStep B T j v trace e fs fs') (hv : T j v)
    (hs : Shared T fs) {objectId : ObjectId} {pid tempId : ℕ}
    (htask : v.task = .get objectId pid tempId) {i : ℕ} (hi : fs.dir destination = some i) :
    fs'.dir destination = some i ∧ fs'.contents destination = fs.contents destination := by
  have hno : ¬ IsTemp destination destination := by
    rintro ⟨pid', tempId', hself⟩
    exact tempFor_ne destination pid' tempId' hself.symm
  obtain ⟨n, hn⟩ := fs.dir_eq_some hi
  -- the file at the destination is not one that this `Get` is filling
  have hcomplete := hs destination i n hno hi hn
  have same : ∀ {fs' : FS}, fs'.dir destination = fs.dir destination → fs'.inodes[i]? = some n →
      fs'.dir destination = some i ∧ fs'.contents destination = fs.contents destination := by
    intro fs' hdir hn'
    rw [hdir]
    refine ⟨hi, ?_⟩
    simp only [FS.contents, hdir, hi, Option.bind_some, hn, hn']
  cases h with
  | @get _ pid tempId _ h =>
      have hne := tempFor_ne destination pid tempId
      cases h with
      | looks _ => exact ⟨hi, rfl⟩
      | creates _ =>
          refine same (by rw [FS.create_dir, if_neg hne]) ?_
          rw [FS.create_inodes, List.getElem?_append_left (List.getElem?_eq_some_iff.1 hn).1]
          exact hn
      | @modifies _ _ i' m f _ hm howner hfresh _ =>
          have hdiffers : i' ≠ i := by
            rintro rfl
            obtain rfl : m = n := Option.some.inj (hm.symm.trans hn)
            rcases hcomplete with hlinked | hother
            · rw [hfresh] at hlinked
              exact absurd hlinked (by simp)
            · rw [howner] at hother
              exact hother ⟨v, _, _, _, hv, htask⟩
          exact same (FS.modify_dir ..) (by simp [hn, hdiffers])
      | links _ _ _ _ hnone _ _ => exact absurd hnone (by simp [hi])
      | drops _ _ _ => exact same (by rw [FS.remove_dir, if_neg hne]) hn
  | other htask' _ =>
      rw [htask] at htask'
      exact absurd htask' (by simp)

end Runs

/-- The clients after the first `n` of the choices. -/
def clientMoment (B : Blake3) (destination : Path) (fs₀ : FS)
    (choices : List (Choice (ClientJob β destination))) (n : ℕ) : ClientSystem β destination :=
  System.moment (clientJob B destination) ⟨fs₀, []⟩ choices n

/-- The clients after all of the choices. -/
def clientAfter (B : Blake3) (destination : Path) (fs₀ : FS)
    (choices : List (Choice (ClientJob β destination))) : ClientSystem β destination :=
  System.after (clientJob B destination) ⟨fs₀, []⟩ choices

/-- What a run of downloads and other processes leaves of the destination. -/
structure DestinationKept (B : Blake3) (destination : Path) (fs₀ : FS)
    (choices : List (Choice (ClientJob β destination))) : Prop where
  /-- Once a file is there no step of a `Get` changes or removes it. -/
  keeps : ∀ (n j : ℕ) (o : Outcome) (p : ClientProcess β destination) (objectId : ObjectId)
    (pid tempId i : ℕ), choices[n]? = some (.act j o) →
    (clientMoment B destination fs₀ choices n).procs[j]? = some p →
    p.job.task = .get objectId pid tempId →
    (clientMoment B destination fs₀ choices n).fs.dir destination = some i →
    (clientMoment B destination fs₀ choices (n + 1)).fs.dir destination = some i ∧
      (clientMoment B destination fs₀ choices (n + 1)).fs.contents destination
        = (clientMoment B destination fs₀ choices n).fs.contents destination
  /-- A `Get` that returned OK made the file by a link of its own, where there was none, and the
      file had the size and the checksum that `HeadChunk` had reported to it. -/
  made : ∀ (j : ℕ) (p : ClientProcess β destination) (objectId : ObjectId) (pid tempId : ℕ)
    (status : Status), (clientAfter B destination fs₀ choices).procs[j]? = some p →
    p.job.task = .get objectId pid tempId → p.prog = .ret (.ok status) → status.ok = true →
    ∃ (m : ℕ) (q : ClientProcess β destination) (response : HeadChunkResponse) (d : Bytes),
      System.Answers (clientJob B destination) ⟨fs₀, []⟩ choices m j q
        ⟨.inl (.link (StorageClient.tempFor destination pid tempId) destination), .ok ()⟩ ∧
      (clientMoment B destination fs₀ choices m).fs.dir destination = none ∧
      headSeen q.trace = some response ∧
      (clientMoment B destination fs₀ choices (m + 1)).fs.contents destination = some d ∧
      Verified B response d
  /-- While nobody has removed it, at most one `Get` has returned OK. -/
  once : (∀ (j : ℕ) (p : ClientProcess β destination),
      (clientAfter B destination fs₀ choices).procs[j]? = some p → ¬ HasRemoved p) →
    ∀ (i j : ℕ) (p q : ClientProcess β destination) (objectId objectId' : ObjectId)
      (pid tempId pid' tempId' : ℕ) (status status' : Status),
      (clientAfter B destination fs₀ choices).procs[i]? = some p →
      (clientAfter B destination fs₀ choices).procs[j]? = some q →
      p.job.task = .get objectId pid tempId → q.job.task = .get objectId' pid' tempId' →
      p.prog = .ret (.ok status) → q.prog = .ret (.ok status') → status.ok = true →
      status'.ok = true → i = j
  /-- A `Get` that has returned has removed its temporary file. -/
  cleans : ∀ (j : ℕ) (p : ClientProcess β destination) (objectId : ObjectId) (pid tempId : ℕ),
    (clientAfter B destination fs₀ choices).procs[j]? = some p →
    p.job.task = .get objectId pid tempId → p.prog.Returned →
    Cleaned j (StorageClient.tempFor destination pid tempId)
      (clientAfter B destination fs₀ choices).fs

/-- No two `Get`s have the process id and the number of their temporary path in common. -/
def DistinctGets {destination : Path} (s : ClientSystem β destination) : Prop :=
  ∀ (i j : ℕ) (p q : ClientProcess β destination) (objectId objectId' : ObjectId)
    (pid tempId : ℕ), s.procs[i]? = some p → s.procs[j]? = some q →
    p.job.task = .get objectId pid tempId → q.job.task = .get objectId' pid tempId → i = j

theorem DistinctGets.distinct {destination : Path} {s : ClientSystem β destination}
    (h : DistinctGets s) : Distinct s.Started where
  job := by
    rintro j v v' ⟨p, hp, rfl⟩ ⟨q, hq, rfl⟩
    obtain rfl : p = q := Option.some.inj (hp.symm.trans hq)
    rfl
  temp := by
    rintro i j v v' objectId objectId' pid tempId ⟨p, hp, rfl⟩ ⟨q, hq, rfl⟩ htask htask'
    exact h i j p q objectId objectId' pid tempId hp hq htask htask'

/-- The invariant at the start: the files that are there were created by none of the processes. -/
theorem ClientInv.initial {destination : Path} {fs₀ : FS} {s : ClientSystem β destination}
    (hold : ∀ n ∈ fs₀.inodes, s.procs.length ≤ n.owner) : ClientInv s.Started ⟨fs₀, []⟩ := by
  have hforeign : ∀ {i : ℕ} {n : Inode}, fs₀.inodes[i]? = some n → ∀ v, ¬ s.Started n.owner v := by
    rintro i n hn v ⟨p, hp, -⟩
    have hlt := (List.getElem?_eq_some_iff.1 hp).1
    have := hold n (List.mem_of_getElem? hn)
    omega
  refine ⟨fun p i n _ _ hn => Or.inr ?_, fun i n hn => Or.inr (hforeign hn), Or.inr ?_⟩
  · rintro ⟨v, objectId, pid, tempId, hv, -⟩
    exact hforeign hn v hv
  · exact ⟨fun {j p} hp => absurd hp (by simp), fun {i j p q} hp => absurd hp (by simp)⟩

/-- **`StorageClient::Get` never damages a destination**, in any interleaving with other downloads to
    it and with other processes that create, link and remove files, whatever calls and RPCs fail. -/
theorem get_spares_destination (B : Blake3) (destination : Path) (fs₀ : FS)
    (choices : List (Choice (ClientJob β destination)))
    (hadmits : System.Admits (clientJob B destination) UnlinkWorks ⟨fs₀, []⟩ choices)
    (hold : ∀ n ∈ fs₀.inodes, (clientAfter B destination fs₀ choices).procs.length ≤ n.owner)
    (hdistinct : DistinctGets (clientAfter B destination fs₀ choices)) :
    DestinationKept B destination fs₀ choices := by
  have hT := hdistinct.distinct
  have hinv : ClientInv (clientAfter B destination fs₀ choices).Started ⟨fs₀, []⟩ := .initial hold
  have hruns := Protocol.Runs.of_admits hadmits
  have hprotocol := clientProtocol (B := B) (O := System.Underway (clientJob B destination)
    ⟨fs₀, []⟩ choices) hT
  have hsound := fun n => hprotocol.sound hinv hruns n
  have hlast := hsound choices.length
  rw [System.moment_length] at hlast
  -- what a `Get` that returned has reached
  have hend : ∀ {j : ℕ} {p : ClientProcess β destination} {objectId : ObjectId} {pid tempId : ℕ}
      {r : Except Errno Status}, (clientAfter B destination fs₀ choices).procs[j]? = some p →
      p.job.task = .get objectId pid tempId → p.prog = .ret r →
      Cleaned j (StorageClient.tempFor destination pid tempId)
        (clientAfter B destination fs₀ choices).fs ∧
      ∀ status, r = .ok status → status.ok = true →
        ⟨.inl (.link (StorageClient.tempFor destination pid tempId) destination), .ok ()⟩
          ∈ p.trace := by
    intro j p objectId pid tempId r hp htask hret
    have hfine := hlast.fine hp
    unfold Protocol.Fine at hfine
    rw [hret] at hfine
    exact hfine objectId pid tempId (hlast.jobs hp) htask
  constructor
  · intro n j o p objectId pid tempId i hc hp htask hi
    rcases hprotocol.guarantee hinv hruns hc hp with hstay | ⟨p', -, ⟨-, hfs⟩ | ⟨e, -, hstep⟩⟩
    · have hsame : clientMoment B destination fs₀ choices (n + 1)
          = clientMoment B destination fs₀ choices n := hstay
      rw [hsame]
      exact ⟨hi, rfl⟩
    · have hsame : (clientMoment B destination fs₀ choices (n + 1)).fs
          = (clientMoment B destination fs₀ choices n).fs := hfs
      rw [hsame]
      exact ⟨hi, rfl⟩
    · exact hstep.spares ((hsound n).jobs hp) (hsound n).inv.shared htask hi
  · intro j p objectId pid tempId status hp htask hret hok
    have hmem := (hend hp htask hret).2 status rfl hok
    have hp' : (clientMoment B destination fs₀ choices choices.length).procs[j]? = some p := by
      rw [clientMoment, System.moment_length]
      exact hp
    obtain ⟨m, -, q, hanswers, hjob⟩ := System.answers_of_trace _ fs₀ choices _ hp' hmem
    obtain ⟨hq, q', hq', htrace⟩ := hanswers
    have hne : q' ≠ q := by
      rintro rfl
      exact absurd htrace (by simp)
    obtain ⟨o, hc⟩ := System.act_of_ne hq hq' hne
    rw [← hjob] at htask
    rcases hprotocol.guarantee hinv hruns hc hq with hstay | ⟨q'', hq'', hG⟩
    · rw [hstay, hq] at hq'
      exact absurd (Option.some.inj hq').symm hne
    · obtain rfl : q' = q'' := Option.some.inj (hq'.symm.trans hq'')
      rcases hG with ⟨hsame, -⟩ | ⟨e, he, hstep⟩
      · have hsame' : q'.trace = q.trace := hsame
        rw [htrace] at hsame'
        exact absurd hsame' (by simp)
      · have he' : q'.trace = e :: q.trace := he
        rw [htrace] at he'
        obtain ⟨hnone, response, d, hseen, hcontents, hverified⟩ :=
          hstep.link htask (List.cons.inj he').1.symm
        exact ⟨m, q, response, d, ⟨hq, q', hq', htrace⟩, hnone, hseen, hcontents, hverified⟩
  · intro hkept i j p q objectId objectId' pid tempId pid' tempId' status status' hp hq htask htask'
      hret hret' hok hok'
    have hlinked : HasLinked p :=
      ⟨objectId, pid, tempId, htask, (hend hp htask hret).2 status rfl hok⟩
    have hlinked' : HasLinked q :=
      ⟨objectId', pid', tempId', htask', (hend hq htask' hret').2 status' rfl hok'⟩
    rcases hlast.inv.once with ⟨k, r, hr, hremoved⟩ | hone
    · exact absurd hremoved (hkept k r hr)
    · exact hone.single hp hq hlinked hlinked'
  · intro j p objectId pid tempId hp htask hret
    cases hprog : p.prog with
    | ret r => exact (hend hp htask hprog).1
    | call op again k =>
        rw [hprog] at hret
        exact absurd hret id

/-- A transport behind which the one chunk is `"a"`; the state tells whether its frame is due. -/
def sampleTransport : Transport Bool := fun op due =>
  match op with
  | .headChunk id => ((.Ok, ⟨setStatus .Ok, id, 1, Blake3.sample.hex [0x61]⟩), due)
  | .getChunk _ => ((), true)
  | .read => (if due then some ⟨[0x61], by simp⟩ else none, false)
  | .finishGet => (.Ok, due)
  | .write _ => (true, due)
  | .putChunk | .writesDone | .tryCancel => ((), due)
  | .finishPut | .deleteChunk _ => ((.Ok, .unset), due)

def sampleDestination : Path := ⟨[0x64], [0x66]⟩

/-- A process that creates the destination. -/
def createDestination : Program ClientSig (Except Errno Status) := do
  let _ ← sys (.openExcl sampleDestination)
  return .ok .Ok

theorem createDestination_minds :
    createDestination.Performs (Minds sampleDestination) := by
  refine ⟨⟨fun r ha => absurd ha (by simp), ?_⟩, fun r => trivial⟩
  rintro ⟨pid, tempId, hself⟩
  exact tempFor_ne sampleDestination pid tempId hself.symm

/-- Two `Get`s that take turns, and a process that comes too late to create the destination. -/
def twoGets : List (Choice (ClientJob Bool sampleDestination)) :=
  .start ⟨.get ⟨[0x61]⟩ 1 0, sampleTransport, false⟩ ::
    .start ⟨.get ⟨[0x61]⟩ 2 0, sampleTransport, false⟩ ::
      .start ⟨.other createDestination createDestination_minds, sampleTransport, false⟩ ::
        (List.replicate 15 [.act 0 .done, .act 1 .done]).flatten ++ [.act 2 .done]

theorem twoGets_distinct :
    DistinctGets (clientAfter Blake3.sample sampleDestination (FS.empty 255) twoGets) := by
  -- the tasks, by what `DistinctGets` asks of them
  have hkey : ∀ {i : ℕ} {p : ClientProcess Bool sampleDestination} {objectId : ObjectId}
      {pid tempId : ℕ},
      (clientAfter Blake3.sample sampleDestination (FS.empty 255) twoGets).procs[i]? = some p →
      p.job.task = .get objectId pid tempId → pid = i + 1 := by
    intro i p objectId pid tempId hp htask
    have hjob : ((clientAfter Blake3.sample sampleDestination (FS.empty 255) twoGets).procs.map
        Process.job)[i]? = some p.job := by
      rw [List.getElem?_map, hp]
      rfl
    have hjobs : (clientAfter Blake3.sample sampleDestination (FS.empty 255) twoGets).procs.map
        Process.job = [⟨.get ⟨[0x61]⟩ 1 0, sampleTransport, false⟩,
          ⟨.get ⟨[0x61]⟩ 2 0, sampleTransport, false⟩,
          ⟨.other createDestination createDestination_minds, sampleTransport, false⟩] :=
      System.jobs_after _ _ _
    rw [hjobs] at hjob
    match i with
    | 0 =>
        rw [← Option.some.inj hjob] at htask
        exact (Task.get.inj htask).2.1.symm
    | 1 =>
        rw [← Option.some.inj hjob] at htask
        exact (Task.get.inj htask).2.1.symm
    | 2 =>
        rw [← Option.some.inj hjob] at htask
        exact absurd htask (by simp)
    | i + 3 => simp at hjob
  intro i j p q objectId objectId' pid tempId hp hq htask htask'
  have hi := hkey hp htask
  have hj := hkey hq htask'
  omega

theorem get_spares_destination_twoGets :
    (clientAfter Blake3.sample sampleDestination (FS.empty 255) twoGets).fs.contents
        sampleDestination = some [0x61] ∧
      DestinationKept Blake3.sample sampleDestination (FS.empty 255) twoGets := by
  refine ⟨by decide +kernel, get_spares_destination Blake3.sample sampleDestination (FS.empty 255)
    twoGets ?_ (by simp [FS.empty]) twoGets_distinct⟩
  refine System.admits_of_admitted (fun _ _ _ _ o => decide (o = .done)) ?_ (by decide +kernel)
  intro j v op w o hdone
  rw [of_decide_eq_true hdone]
  cases op with
  | inl s =>
      cases s with
      | unlink p => trivial
      | createDirectories _ | openExcl _ | openRead _ | write _ _ | pread _ _ _ | read _ _ | fstat _
      | fdatasync _ | link _ _ | openDirectory _ | fsync _ | «exists» _ => trivial
  | inr op => trivial

end ChunkStorage
