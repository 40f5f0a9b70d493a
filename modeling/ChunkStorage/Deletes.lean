import ChunkStorage.Crash

set_option autoImplicit false

/-! # Deletions and power failure

`Put` makes the directory durable before it reports success and `Delete` does not. So a chunk whose
deletion was acknowledged may come back with a power failure. It cannot exactly when some call
synced the root in the meantime: `delete_survives_iff` is about every run in which the `Put`s of
the chunk are over when the `Delete` returns. -/

namespace ChunkStorage

open Effects Posix Program

variable {σ τ : Type} {B : Blake3} {root : Bytes}

/-- No power failure brings the entry back. -/
def Unbound (path : Path) (fs : FS) : Prop := ∀ i, ¬ fs.Binds path i

theorem Unbound.dir {path : Path} {fs : FS} (h : Unbound path fs) : fs.dir path = none := by
  cases hi : fs.dir path with
  | none => rfl
  | some i => exact absurd (FS.binds_of_dir hi) (h i)

/-- An entry that is absent when its directory is synced is gone for good. -/
theorem unbound_syncDir {path : Path} {fs : FS} (h : fs.dir path = none) :
    Unbound path (fs.syncDir path.dir) := by
  intro i hb
  rcases hb with hdurable | hmem
  · simp [FS.syncDir, h] at hdurable
  · have hother := (List.mem_filter.1 hmem).2
    simp at hother

/-- The call is a `Put` of the chunk. -/
def PutsChunk (chunkId : ChunkId) (v : Invocation σ τ) : Prop :=
  ∃ request pid address, v.call = .put request pid address ∧ request.chunkId = chunkId

/-- Only a `Put` of the chunk makes it appear. -/
theorem StoreStep.absent {k : ℕ} {v : Invocation σ τ} {e : Event StoreSig} {fs fs' : FS}
    (h : StoreStep B root k v e fs fs') {chunkId : ChunkId} (hput : ¬ PutsChunk chunkId v)
    (hnone : fs.dir (pathFor root chunkId) = none) : fs'.dir (pathFor root chunkId) = none := by
  cases h with
  | looks _ => exact hnone
  | creates _ _ _ =>
      rw [FS.create_dir, if_neg (tempPath_ne_pathFor root _ chunkId _ _)]
      exact hnone
  | modifies _ _ _ _ _ => exact hnone
  | @commits _ request pid address _ _ _ hcall _ _ _ _ _ _ _ _ _ _ =>
      have hne : pathFor root request.chunkId ≠ pathFor root chunkId := by
        intro hpath
        exact hput ⟨request, pid, address, hcall, pathFor_injective hpath⟩
      rw [FS.bind_dir, if_neg hne]
      exact hnone
  | drops _ _ _ _ =>
      rw [FS.remove_dir, if_neg (tempPath_ne_pathFor root _ chunkId _ _)]
      exact hnone
  | @deletes _ other _ _ =>
      rw [FS.remove_dir, hnone, ite_self]
  | publishes _ => rw [FS.syncDir_dir, hnone]

/-- Only a `Put` of the chunk can bring back what is gone for good. -/
theorem StoreStep.unbound {k : ℕ} {v : Invocation σ τ} {e : Event StoreSig} {fs fs' : FS}
    (h : StoreStep B root k v e fs fs') {chunkId : ChunkId} (hput : ¬ PutsChunk chunkId v)
    (hgone : Unbound (pathFor root chunkId) fs) : Unbound (pathFor root chunkId) fs' := by
  -- the changes a step adds are those of another entry, or removals
  have push : ∀ {q : Path} {j : Option ℕ} {fs' : FS}, fs'.durable = fs.durable →
      fs'.pending = (q, j) :: fs.pending → (q = pathFor root chunkId → j = none) →
      Unbound (pathFor root chunkId) fs' := by
    intro q j fs' hdurable hpending hj i hb
    rcases hb with hd | hmem
    · exact hgone i (Or.inl (by rw [← hdurable]; exact hd))
    · rw [hpending] at hmem
      rcases List.mem_cons.1 hmem with heq | hmem
      · obtain ⟨hq, hi⟩ := Prod.mk.inj heq
        rw [hj hq.symm] at hi
        exact absurd hi (by simp)
      · exact hgone i (Or.inr hmem)
  cases h with
  | looks _ => exact hgone
  | creates _ _ _ =>
      exact push rfl rfl fun hq => absurd hq (tempPath_ne_pathFor root _ chunkId _ _)
  | modifies _ _ _ _ _ => exact hgone
  | @commits _ request pid address _ _ _ hcall _ _ _ _ _ _ _ _ _ _ =>
      exact push rfl rfl fun hq =>
        absurd ⟨request, pid, address, hcall, pathFor_injective hq⟩ hput
  | drops _ _ _ _ => exact push rfl rfl fun _ => rfl
  | deletes _ _ => exact push rfl rfl fun _ => rfl
  | publishes _ =>
      intro i hb
      rcases hb with hd | hmem
      · have hdir : (pathFor root chunkId).dir = root := rfl
        simp [FS.syncDir, hdir, hgone.dir] at hd
      · exact hgone i (Or.inr (List.mem_of_mem_filter hmem))

/-! ## The steps of a run -/

section Run

variable (B root)
variable (nameMax : ℕ) (choices : List (Choice (Invocation σ τ)))

/-- Step `n` of the run leaves the event in the trace of process `j`. -/
def AnswersAt (n j : ℕ) (e : Event StoreSig) : Prop :=
  ∃ c c', (storeMoment B root nameMax choices n).procs[j]? = some c ∧
    (storeMoment B root nameMax choices (n + 1)).procs[j]? = some c' ∧ c'.trace = e :: c.trace

/-- With step `n` of the run process `j` returns OK from a `Delete` of the chunk. -/
def DeletesAt (n j : ℕ) (chunkId : ChunkId) : Prop :=
  ∃ c c' status, (storeMoment B root nameMax choices n).procs[j]? = some c ∧
    (storeMoment B root nameMax choices (n + 1)).procs[j]? = some c' ∧
    c.job.call = .delete chunkId ∧ ¬ c.prog.Returned ∧ c'.prog = .ret (.status status) ∧
    status.ok = true

/-- No `Put` of the chunk is under way after step `n`, and none is started later in the run. -/
def PutsOver (n : ℕ) (chunkId : ChunkId) : Prop :=
  ∀ (k : ℕ) (c : StoreProcess σ τ), (storeAfter B root nameMax choices).procs[k]? = some c →
    PutsChunk chunkId c.job →
    ∃ d, (storeMoment B root nameMax choices (n + 1)).procs[k]? = some d ∧ d.prog.Returned

end Run

section Steps

variable {nameMax : ℕ} {choices : List (Choice (Invocation σ τ))}

/-- What is left of a `Delete` is all of it or nothing. -/
theorem delete_residual {v : Invocation σ τ} {chunkId : ChunkId} (hcall : v.call = .delete chunkId)
    {p : Program StoreSig Answer} (h : (v.call.program B root).Residual p) :
    p = v.call.program B root ∨ p.Returned := by
  induction h with
  | refl => exact Or.inl rfl
  | @step op again k r _ ih =>
      right
      rcases ih with hall | hret
      · rw [hcall] at hall
        unfold Call.program delete at hall
        by_cases hid : (validateId chunkId).ok = true
        · simp only [hid, Bool.not_true, Bool.false_eq_true, if_false] at hall
          obtain ⟨rfl, hagain, hk⟩ := Program.call.inj hall
          obtain rfl := eq_of_heq hk
          cases r with
          | error e => exact trivial
          | ok u => exact trivial
        · have hno : (validateId chunkId).ok = false := by simpa using hid
          simp only [hno, Bool.not_false, if_true] at hall
          exact absurd hall (by simp)
      · exact absurd hret fun h => h

/-- The step with which a `Delete` returns OK removes the chunk, which was there. -/
theorem DeletesAt.removes {n j : ℕ} {chunkId : ChunkId}
    (h : DeletesAt B root nameMax choices n j chunkId) :
    (validateId chunkId).ok = true ∧
      (storeMoment B root nameMax choices n).fs.Fits (pathFor root chunkId) ∧
      (∃ i, (storeMoment B root nameMax choices n).fs.dir (pathFor root chunkId) = some i) ∧
      (storeMoment B root nameMax choices (n + 1)).fs
        = (storeMoment B root nameMax choices n).fs.remove (pathFor root chunkId) := by
  obtain ⟨c, c', status, hc, hc', hcall, hway, hret, hok⟩ := h
  rcases System.process_step hc hc' with hsame | ⟨o, op, again, k, r, w', hprog, hreply, hnext, hfs⟩
  · rw [hsame] at hret
    rw [hret] at hway
    exact absurd trivial hway
  · -- what was left of the call is all of it
    have hres := System.residual_moment (storeJob B root) (FS.empty nameMax) choices n hc
    have hall := (delete_residual hcall hres).resolve_right hway
    rw [hprog, hcall] at hall
    unfold Call.program delete at hall
    by_cases hid : (validateId chunkId).ok = true
    · simp only [hid, Bool.not_true, Bool.false_eq_true, if_false] at hall
      obtain ⟨rfl, hagain, hk⟩ := Program.call.inj hall
      obtain rfl := eq_of_heq hagain
      obtain rfl := eq_of_heq hk
      refine ⟨hid, ?_⟩
      obtain ⟨fds', fs', hexec, rfl⟩ := World.handler_sys_inv hreply
      obtain ⟨-, ⟨e, rfl, -, -⟩ | ⟨i, hi, rfl, rfl⟩⟩ := unlink_cases hexec
      · -- an error is not OK
        rw [hnext] at hret
        have hstatus := Answer.status.inj (Program.ret.inj hret)
        rw [← hstatus] at hok
        split at hok <;> simp [ioError] at hok
      · have htidy := (store_holds B root anything nameMax choices
          (admits_anything B root nameMax choices) n).inv.tidy
        obtain ⟨-, -, -, hfits⟩ :=
          htidy.published (isChunkPath_pathFor chunkId) (FS.binds_of_dir hi)
        exact ⟨hfits, ⟨i, hi⟩, hfs⟩
    · have hno : (validateId chunkId).ok = false := by simpa using hid
      simp only [hno, Bool.not_false, if_true] at hall
      exact absurd hall (by simp)

/-- What every call but a `Put` of the chunk keeps stays once the `Put`s are over. -/
theorem PutsOver.keeps {n : ℕ} {chunkId : ChunkId} (hover : PutsOver B root nameMax choices n chunkId)
    {A : FS → Prop}
    (hA : ∀ {k : ℕ} {v : Invocation σ τ} {e fs fs'}, StoreStep B root k v e fs fs' →
      ¬ PutsChunk chunkId v → A fs → A fs')
    {m m' : ℕ} (hm : n + 1 ≤ m) (hmm' : m ≤ m')
    (h : A (storeMoment B root nameMax choices m).fs) :
    A (storeMoment B root nameMax choices m').fs := by
  induction m', hmm' using Nat.le_induction with
  | base => exact h
  | succ m' hmm' ih =>
      rcases store_moves B root anything nameMax choices
        (admits_anything B root nameMax choices) m' with hstay | ⟨k, c, w', hc, hway, hT, hG, hfs⟩
      · rw [hstay]
        exact ih
      · rcases hG with ⟨-, hsame⟩ | ⟨e, -, hstep⟩
        · rw [← hfs, hsame]
          exact ih
        · rw [hfs] at hstep
          refine hA hstep (fun hput => ?_) ih
          -- a `Put` of the chunk has returned by now, so it is not the one that moves
          obtain ⟨c', hc', hjob⟩ := hT
          obtain ⟨d, hd, hret⟩ := hover k c' hc' (hjob ▸ hput)
          have hd' := System.returned_stays (show n + 1 ≤ m' by omega) hd hret
          have hdc : d = c := Option.some.inj (hd'.symm.trans hc)
          rw [hdc] at hret
          exact hway hret

/-- What was bound may come back, until the root is synced. -/
theorem binds_stays {path : Path} {i m m' : ℕ} (hmm' : m ≤ m')
    (hb : (storeMoment B root nameMax choices m).fs.Binds path i) :
    (storeMoment B root nameMax choices m').fs.Binds path i ∨
      ∃ t k, m ≤ t ∧ AnswersAt B root nameMax choices t k ⟨.inl (.fsync path.dir), .ok ()⟩ := by
  induction m', hmm' using Nat.le_induction with
  | base => exact Or.inl hb
  | succ m' hmm' ih =>
      rcases ih with hb' | hsynced
      · rcases System.moment_cases (storeJob B root) ⟨FS.empty nameMax, []⟩ choices m' with
          ⟨job, hnext⟩ | hnext | ⟨k, o, c, op, again, rest, hc, hprog, hnext⟩
        · left
          rw [storeMoment, hnext]
          exact hb'
        · left
          rw [storeMoment, hnext]
          exact hb'
        · cases op with
          | inr op =>
              left
              rw [storeMoment, hnext _ _ rfl]
              exact hb'
          | inl s =>
              rcases hreply : World.handler k (storeJob B root c.job).other (.inl s)
                (c.world (storeMoment B root nameMax choices m').fs) o with ⟨r, w'⟩
              have hupdate := hnext r w' hreply
              obtain ⟨fds', fs', hexec, hw'⟩ := World.handler_sys_inv hreply
              rcases exec_binds s hexec hb' with hkept | hsync
              · left
                rw [storeMoment, hupdate, hw']
                exact hkept
              · right
                obtain ⟨rfl, hr⟩ := Sigma.mk.inj hsync
                obtain rfl := eq_of_heq hr
                have hk := (List.getElem?_eq_some_iff.1 hc).1
                refine ⟨m', k, hmm', c,
                  c.next (if again (.ok ()) = true then c.prog else rest (.ok ())) w', hc, ?_, ?_⟩
                · rw [storeMoment, hupdate, System.update, List.getElem?_set_self hk]
                · rw [hw']
                  rfl
      · exact Or.inr hsynced

/-- A successful `fsync` of the root is a step that makes its entries durable. -/
theorem AnswersAt.syncs {m k : ℕ}
    (h : AnswersAt B root nameMax choices m k ⟨.inl (.fsync root), .ok ()⟩) :
    (storeMoment B root nameMax choices (m + 1)).fs
      = (storeMoment B root nameMax choices m).fs.syncDir root := by
  obtain ⟨c, c', hc, hc', htrace⟩ := h
  rcases System.process_step hc hc' with hsame | ⟨o, op, again, rest, r, w', hprog, hreply, hnext, hfs⟩
  · rw [hsame] at htrace
    exact absurd htrace (by simp)
  · rw [hnext] at htrace
    cases op with
    | inr op =>
        simp only [World.handler] at hreply
        obtain ⟨-, rfl⟩ := hreply
        have hop := (Sigma.mk.inj (List.cons.inj htrace).1).1
        exact absurd hop Sum.inr_ne_inl
    | inl s =>
        obtain ⟨fds', fs', hexec, rfl⟩ := World.handler_sys_inv hreply
        have hevent : (⟨.inl s, r⟩ : Event StoreSig) :: c.trace
            = ⟨.inl (.fsync root), .ok ()⟩ :: c.trace := by
          by_cases hint : s.interrupted r = true
          · -- an interrupted call leaves no event
            simp [Process.next, World.answered, hint, Process.world] at htrace
          · simpa [Process.next, World.answered, hint, Process.world] using htrace
        obtain ⟨hop, hr⟩ := Sigma.mk.inj (List.cons.inj hevent).1
        obtain rfl := Sum.inl.inj hop
        obtain rfl := eq_of_heq hr
        obtain ⟨-, ⟨e, hbad, -⟩ | ⟨-, rfl⟩⟩ := fsync_cases hexec
        · exact absurd hbad (by simp)
        · exact hfs

end Steps

/-! ## After the failure -/

section Restart

/-- The store that starts again on `fs` does not know the chunk: alone and with no failing call,
    `Head` answers `kNotFound` and `Exists` false. -/
structure Forgotten (B : Blake3) (root : Bytes) (chunkId : ChunkId) (v : Invocation σ τ) (fs : FS) :
    Prop where
  head : ∀ (me : ℕ) (ω : ℕ → Outcome), v.call = .head chunkId →
    Config.Admits (v.handler me) World.NoFailure (v.call.program B root, v.start fs) ω →
    Config.Fair (v.handler me) (v.call.program B root, v.start fs) ω →
    ∃ s w', Config.Returns (v.handler me) (v.call.program B root, v.start fs) ω
      (.head (.error s)) w' ∧ s.1.code = .kNotFound
  exists_false : ∀ (me : ℕ) (ω : ℕ → Outcome), v.call = .exists chunkId →
    Config.Admits (v.handler me) World.NoFailure (v.call.program B root, v.start fs) ω →
    Config.Fair (v.handler me) (v.call.program B root, v.start fs) ω →
    ∃ w', Config.Returns (v.handler me) (v.call.program B root, v.start fs) ω (.exists false) w'

variable {fs : FS} {chunkId : ChunkId}

/-- `Head` of a chunk that is not there. -/
theorem head_absent {input : ChunkInputStream σ} {output : ChunkOutputStream τ} {me : ℕ}
    (hid : (validateId chunkId).ok = true) (hfits : fs.Fits (pathFor root chunkId))
    (hnone : fs.dir (pathFor root chunkId) = none) {w : StoreWorld σ τ} (hfs : w.fs = fs)
    (hw : handed w.trace = []) :
    (head root chunkId).Always ((World.handler me (streams input output)).sem World.NoFailure) w
      (fun r _ => ∃ s, r = .error s ∧ s.1.code = .kNotFound) := by
  refine (head_always chunkId hw).imp fun r w' hdone => ?_
  rcases hdone with ⟨-, ⟨hbad, -⟩ | ⟨-, w₀, ⟨hfs₀, -⟩, ⟨hcode, -⟩ | ⟨-, hfault⟩⟩⟩ |
    ⟨-, ⟨w₀, o, ⟨hfs₀, -⟩, -, hseen⟩, -, -⟩
  · exact absurd hid hbad
  · exact ⟨_, rfl, hcode⟩
  · rw [hfs₀, hfs] at hfault
    exact absurd ⟨World.neverFails_noFailure, hfits⟩ hfault
  · rw [hfs₀, hfs, FS.contents_eq_none_iff.2 hnone] at hseen
    exact absurd hseen (by simp)

theorem forgotten_of_absent (B : Blake3) (hid : (validateId chunkId).ok = true)
    (hfits : fs.Fits (pathFor root chunkId)) (hnone : fs.dir (pathFor root chunkId) = none)
    (v : Invocation σ τ) : Forgotten B root chunkId v fs where
  head me ω hcall hadmits hfair := by
    have halways : (v.call.program B root).Always ((v.handler me).sem World.NoFailure) (v.start fs)
        (fun a _ => ∃ s, a = .head (.error s) ∧ s.1.code = .kNotFound) := by
      rw [hcall]
      refine safe_bind.2 ((head_absent hid hfits hnone rfl rfl).imp fun r w' h => ?_)
      obtain ⟨s, rfl, hcode⟩ := h
      exact ⟨s, rfl, hcode⟩
    obtain ⟨a, w', hret, s, rfl, hcode⟩ := halways.returns hadmits hfair
    exact ⟨s, w', hret, hcode⟩
  exists_false me ω hcall hadmits hfair := by
    have halways : (v.call.program B root).Always ((v.handler me).sem World.NoFailure) (v.start fs)
        (fun a _ => a = .exists false) := by
      rw [hcall]
      refine safe_bind.2 (safe_bind.2 ((head_absent hid hfits hnone rfl rfl).imp fun r w' h => ?_))
      obtain ⟨s, rfl, -⟩ := h
      rfl
    obtain ⟨a, w', hret, rfl⟩ := halways.returns hadmits hfair
    exact ⟨w', hret⟩

/-- `Head` can run to its end with no failing call. -/
theorem head_steady {me : ℕ} {input : ChunkInputStream σ} {output : ChunkOutputStream τ}
    (chunkId : ChunkId) :
    (head root chunkId).Steady (World.handler me (streams input output)) World.NoFailure .done := by
  have hloop : ∀ fd rounds read, (readHeaderLoop fd rounds read).Steady
      (World.handler me (streams input output)) World.NoFailure .done := by
    intro fd rounds
    induction rounds with
    | zero => exact fun _ => trivial
    | succ rounds ih =>
        intro read
        unfold readHeaderLoop preadSome
        split
        · split
          · trivial
          · refine ⟨fun w => ⟨⟨trivial, trivial⟩, done_not_interrupted _ me w.fds w.fs⟩, fun r => ?_⟩
            cases r with
            | error e => trivial
            | ok bytes =>
                simp only [Program.bind, pure_eq_ret]
                split
                · trivial
                · exact ih _
        · trivial
  unfold head
  dsimp only
  split
  · trivial
  · refine ⟨fun w => ⟨⟨trivial, trivial⟩, rfl⟩, fun r => ?_⟩
    cases r with
    | error e => trivial
    | ok fd =>
        refine (hloop fd kHeaderSize []).bind fun header => ?_
        cases header with
        | error s => trivial
        | ok header =>
            simp only
            split
            · trivial
            · split
              · trivial
              · refine ⟨fun w => ⟨⟨trivial, trivial⟩, rfl⟩, fun r => ?_⟩
                cases r with
                | error e => trivial
                | ok stSize =>
                    simp only [Program.bind]
                    split
                    · trivial
                    · trivial

/-- A chunk that is there is not forgotten. -/
theorem not_forgotten {p : Bytes} (hid : (validateId chunkId).ok = true)
    (hfits : fs.Fits (pathFor root chunkId))
    (hfile : fs.contents (pathFor root chunkId) = some (chunkFile B p)) {v : Invocation σ τ}
    (hcall : v.call = .head chunkId) : ¬ Forgotten B root chunkId v fs := by
  intro hforgotten
  have hsteady : (v.call.program B root).Steady (v.handler 0) World.NoFailure .done := by
    rw [hcall]
    exact (head_steady chunkId).bind fun _ => trivial
  obtain ⟨hadmits, hfair⟩ := hsteady.schedule (v.start fs)
  obtain ⟨s, w', hnotFound, -⟩ := hforgotten.head 0 _ hcall hadmits hfair
  obtain ⟨w'', hfound⟩ := head_finds hid hfits hfile hcall hadmits hfair
  exact absurd (hnotFound.unique hfound).1 (by simp)

end Restart

/-- **When an acknowledged deletion survives a power failure.** `Delete` returns OK with step `n` and
    the `Put`s of the chunk are over by then. After a failure at the end of the run, whatever it
    loses, the chunk is gone if and only if some call synced the root after the deletion. -/
theorem delete_survives_iff (B : Blake3) (root : Bytes) (nameMax : ℕ)
    (choices : List (Choice (Invocation σ τ))) (n j : ℕ) (chunkId : ChunkId)
    (hdel : DeletesAt B root nameMax choices n j chunkId)
    (hover : PutsOver B root nameMax choices n chunkId) :
    (∀ fs', (storeAfter B root nameMax choices).fs.Crash fs' →
      ∀ v : Invocation σ τ, Forgotten B root chunkId v fs') ↔
    ∃ m k, n < m ∧ AnswersAt B root nameMax choices m k ⟨.inl (.fsync root), .ok ()⟩ := by
  obtain ⟨hid, hfits, ⟨i, hi⟩, hremoved⟩ := hdel.removes
  have hlength := (System.moment_length (storeJob B root) ⟨FS.empty nameMax, []⟩ choices).symm
  have hn : n < choices.length := by
    by_contra hge
    have hstay := System.moment_of_le (storeJob B root) ⟨FS.empty nameMax, []⟩ (Nat.le_of_not_lt hge)
    obtain ⟨c, c', status, hc, hc', -, hway, hret, -⟩ := hdel
    rw [storeMoment, hstay] at hc'
    rw [Option.some.inj (hc.symm.trans hc'), hret] at hway
    exact hway trivial
  constructor
  · intro hgone
    by_contra hunsynced
    -- the entry was bound before the deletion, and nothing has made the deletion durable
    have hbound : (storeMoment B root nameMax choices (n + 1)).fs.Binds (pathFor root chunkId) i := by
      rw [hremoved]
      rcases FS.binds_of_dir hi with hd | hmem
      · exact Or.inl hd
      · exact Or.inr (List.mem_cons_of_mem _ hmem)
    rcases binds_stays (show n + 1 ≤ choices.length by omega) hbound with hb | ⟨m, k, hm, hsync⟩
    · obtain ⟨fs', hcrash, hback⟩ := hb.crash
      rw [storeMoment, System.moment_length] at hcrash
      have htidy := (store_holds_after B root anything nameMax choices
        (admits_anything B root nameMax choices)).inv.tidy
      obtain ⟨inode, -, hpub, hfits', hcontents⟩ :=
        htidy.crash hcrash (isChunkPath_pathFor chunkId) hback
      obtain ⟨p, -, hdata⟩ := hpub.version
      rw [hdata] at hcontents
      obtain ⟨c, -⟩ := hdel
      exact not_forgotten hid hfits' hcontents (v := { c.job with call := .head chunkId }) rfl
        (hgone fs' hcrash _)
    · exact hunsynced ⟨m, k, by omega, hsync⟩
  · rintro ⟨m, k, hm, hsync⟩ fs' hcrash v
    have hmlen : m < choices.length := by
      by_contra hge
      have hstay := System.moment_of_le (storeJob B root) ⟨FS.empty nameMax, []⟩ (Nat.le_of_not_lt hge)
      obtain ⟨c, c', hc, hc', htrace⟩ := hsync
      rw [storeMoment, hstay] at hc'
      rw [Option.some.inj (hc.symm.trans hc')] at htrace
      exact absurd htrace (by simp)
    -- absent until the sync, and beyond recovery from there
    have habsent : (storeMoment B root nameMax choices m).fs.dir (pathFor root chunkId) = none ∧
        (storeMoment B root nameMax choices m).fs.Fits (pathFor root chunkId) := by
      refine hover.keeps (A := fun fs => fs.dir (pathFor root chunkId) = none ∧
        fs.Fits (pathFor root chunkId)) ?_ le_rfl (show n + 1 ≤ m by omega) ?_
      · intro k v e fs fs' hstep hput hA
        exact ⟨hstep.absent hput hA.1, by rw [FS.Fits, hstep.nameMax]; exact hA.2⟩
      · rw [hremoved]
        exact ⟨by simp, hfits⟩
    have hend : Unbound (pathFor root chunkId) (storeAfter B root nameMax choices).fs ∧
        (storeAfter B root nameMax choices).fs.Fits (pathFor root chunkId) := by
      rw [storeAfter, hlength]
      refine hover.keeps (A := fun fs => Unbound (pathFor root chunkId) fs ∧
        fs.Fits (pathFor root chunkId)) ?_ (show n + 1 ≤ m + 1 by omega)
        (show m + 1 ≤ choices.length by omega) ?_
      · intro k v e fs fs' hstep hput hA
        exact ⟨hstep.unbound hput hA.1, by rw [FS.Fits, hstep.nameMax]; exact hA.2⟩
      · rw [hsync.syncs]
        exact ⟨unbound_syncDir habsent.1, habsent.2⟩
    have hnone : fs'.dir (pathFor root chunkId) = none := by
      cases hback : fs'.dir (pathFor root chunkId) with
      | none => rfl
      | some i => exact absurd (hcrash.binds hback) (hend.1 i)
    refine forgotten_of_absent B hid ?_ hnone v
    rw [FS.Fits, hcrash.nameMax]
    exact hend.2

/-- A `Put` of the chunk `"a"`, and then a `Delete` of it. -/
def putAndDelete : List (Choice (Invocation Bytes Unit)) :=
  onePut ++ [.start (sampleInvocation (.delete ⟨[0x61]⟩) []), .act 1 .done]

theorem putAndDelete_deletes (rest : List (Choice (Invocation Bytes Unit))) :
    DeletesAt Blake3.sample [0x72] 255 (putAndDelete ++ rest) 14 1 ⟨[0x61]⟩ := by
  have hfirst : ∀ n ≤ 15, storeMoment Blake3.sample [0x72] 255 (putAndDelete ++ rest) n
      = storeMoment Blake3.sample [0x72] 255 putAndDelete n := by
    intro n hn
    unfold storeMoment System.moment
    rw [List.take_append_of_le_length hn]
  have hway : ((storeMoment Blake3.sample [0x72] 255 putAndDelete 14).procs.map
      fun c => decide c.prog.Returned)[1]? = some false := by decide +kernel
  have hcode : ((storeMoment Blake3.sample [0x72] 255 putAndDelete 15).procs.map
      fun c => returnedCode c.prog)[1]? = some (some .kOk) := by decide +kernel
  rw [List.getElem?_map, Option.map_eq_some_iff] at hway hcode
  obtain ⟨c, hc, hway⟩ := hway
  obtain ⟨c', hc', hcode⟩ := hcode
  obtain ⟨status, hret, hok⟩ := returnedCode_eq_some hcode
  have hjobs : (storeMoment Blake3.sample [0x72] 255 putAndDelete 14).procs.map Process.job
      = [sampleInvocation (.put (samplePut [0x61]) 1 2) [0x61],
        sampleInvocation (.delete ⟨[0x61]⟩) []] := System.jobs_after _ _ _
  have hjob : ((storeMoment Blake3.sample [0x72] 255 putAndDelete 14).procs.map Process.job)[1]?
      = some c.job := by
    rw [List.getElem?_map, hc]
    rfl
  rw [hjobs] at hjob
  refine ⟨c, c', status, ?_, ?_, ?_, by simpa using hway, hret, by simp [Status.ok, hok]⟩
  · rw [hfirst 14 (by omega), hc]
  · rw [hfirst 15 (by omega), hc']
  · rw [← Option.some.inj hjob]
    rfl

theorem putAndDelete_putsOver {rest : List (Choice (Invocation Bytes Unit))}
    (hrest : ∀ v ∈ rest.filterMap Choice.job, ¬ PutsChunk ⟨[0x61]⟩ v) :
    PutsOver Blake3.sample [0x72] 255 (putAndDelete ++ rest) 14 ⟨[0x61]⟩ := by
  intro k c hc hput
  have hjobs : (storeAfter Blake3.sample [0x72] 255 (putAndDelete ++ rest)).procs.map Process.job
      = sampleInvocation (.put (samplePut [0x61]) 1 2) [0x61] ::
        sampleInvocation (.delete ⟨[0x61]⟩) [] :: rest.filterMap Choice.job := by
    rw [storeAfter, System.jobs_after, List.filterMap_append]
    rfl
  have hjob : ((storeAfter Blake3.sample [0x72] 255 (putAndDelete ++ rest)).procs.map
      Process.job)[k]? = some c.job := by
    rw [List.getElem?_map, hc]
    rfl
  rw [hjobs] at hjob
  match k with
  | 0 =>
      -- this one returned long ago
      have hreturned : ((storeMoment Blake3.sample [0x72] 255 putAndDelete 15).procs.map
          fun c => decide c.prog.Returned)[0]? = some true := by decide +kernel
      rw [List.getElem?_map, Option.map_eq_some_iff] at hreturned
      obtain ⟨d, hd, hreturned⟩ := hreturned
      refine ⟨d, ?_, by simpa using hreturned⟩
      rw [storeMoment, System.moment, List.take_append_of_le_length (by decide)]
      exact hd
  | 1 =>
      obtain ⟨request, pid, address, hcall, -⟩ := hput
      rw [← Option.some.inj hjob] at hcall
      exact absurd hcall (by simp [sampleInvocation])
  | k + 2 => exact absurd hput (hrest c.job (List.mem_of_getElem? hjob))

/-- A `Put` of another chunk. -/
def putOther : List (Choice (Invocation Bytes Unit)) :=
  .start (sampleInvocation (.put { samplePut [] with chunkId := ⟨[0x62]⟩ } 1 3) []) ::
    List.replicate 9 (.act 2 .done)

/-- The event is a successful `fsync` of the directory. -/
def syncs (dir : Bytes) : Event StoreSig → Bool
  | ⟨.inl (.fsync d), .ok ()⟩ => d = dir
  | _ => false

theorem eq_of_syncs {dir : Bytes} {e : Event StoreSig} (h : syncs dir e = true) :
    e = ⟨.inl (.fsync dir), .ok ()⟩ := by
  unfold syncs at h
  split at h
  · next d =>
      obtain rfl : d = dir := of_decide_eq_true h
      rfl
  · exact absurd h (by simp)

/-- A later `Put` settles the deletion. -/
theorem delete_survives_iff_putOther :
    (∀ fs', (storeAfter Blake3.sample [0x72] 255 (putAndDelete ++ putOther)).fs.Crash fs' →
      ∀ v : Invocation Bytes Unit, Forgotten Blake3.sample [0x72] ⟨[0x61]⟩ v fs') ∧
    ∃ m k, 14 < m ∧ AnswersAt Blake3.sample [0x72] 255 (putAndDelete ++ putOther) m k
      ⟨.inl (.fsync [0x72]), .ok ()⟩ := by
  have hover : PutsOver Blake3.sample [0x72] 255 (putAndDelete ++ putOther) 14 ⟨[0x61]⟩ := by
    refine putAndDelete_putsOver fun v hv => ?_
    obtain rfl : v = sampleInvocation (.put { samplePut [] with chunkId := ⟨[0x62]⟩ } 1 3) [] := by
      simpa [putOther, Choice.job] using hv
    rintro ⟨request, pid, address, hcall, hid⟩
    obtain ⟨rfl, -, -⟩ := Call.put.inj hcall
    exact absurd hid (by decide)
  have hiff := delete_survives_iff Blake3.sample [0x72] 255 (putAndDelete ++ putOther) 14 1 ⟨[0x61]⟩
    (putAndDelete_deletes putOther) hover
  have hbefore : ((storeMoment Blake3.sample [0x72] 255 (putAndDelete ++ putOther) 24).procs.map
      fun c => c.trace.length)[2]? = some 8 := by decide +kernel
  have hafter : ((storeMoment Blake3.sample [0x72] 255 (putAndDelete ++ putOther) 25).procs.map
      fun c => (c.trace.length, (c.trace.head?.map (syncs [0x72]))))[2]? = some (9, some true) := by
    decide +kernel
  rw [List.getElem?_map, Option.map_eq_some_iff] at hbefore hafter
  obtain ⟨c, hc, hlen⟩ := hbefore
  obtain ⟨c', hc', hlen'⟩ := hafter
  obtain ⟨hlen', hhead⟩ := Prod.mk.inj hlen'
  obtain ⟨e, he, hsyncs⟩ := Option.map_eq_some_iff.1 hhead
  have hsync : AnswersAt Blake3.sample [0x72] 255 (putAndDelete ++ putOther) 24 2
      ⟨.inl (.fsync [0x72]), .ok ()⟩ := by
    refine ⟨c, c', hc, hc', ?_⟩
    rcases System.trace_step hc hc' with hsame | ⟨e', hnew⟩
    · rw [hsame] at hlen'
      omega
    · rw [hnew] at he
      obtain rfl : e' = e := Option.some.inj he
      rw [hnew, eq_of_syncs hsyncs]
  exact ⟨hiff.2 ⟨24, 2, by omega, hsync⟩, 24, 2, by omega, hsync⟩

/-- **An acknowledged deletion can be undone by a power failure**: nothing syncs the root after the
    `Delete`, and the chunk is back when the store starts again. -/
theorem delete_lost :
    DeletesAt Blake3.sample [0x72] 255 putAndDelete 14 1 ⟨[0x61]⟩ ∧
    PutsOver Blake3.sample [0x72] 255 putAndDelete 14 ⟨[0x61]⟩ ∧
    (storeAfter Blake3.sample [0x72] 255 putAndDelete).fs.Crash
      (storeAfter Blake3.sample [0x72] 255 putAndDelete).fs.lose ∧
    ¬ Forgotten Blake3.sample [0x72] ⟨[0x61]⟩ (sampleInvocation (.head ⟨[0x61]⟩) [])
      (storeAfter Blake3.sample [0x72] 255 putAndDelete).fs.lose := by
  have hdel := putAndDelete_deletes []
  have hover : PutsOver Blake3.sample [0x72] 255 (putAndDelete ++ []) 14 ⟨[0x61]⟩ :=
    putAndDelete_putsOver (by simp)
  rw [List.append_nil] at hdel hover
  refine ⟨hdel, hover, FS.crash_lose _, not_forgotten (p := [0x61]) ?_ ?_ ?_ rfl⟩
  · decide +kernel
  · decide +kernel
  · decide +kernel

end ChunkStorage
