import ChunkStorage.Answers
import ChunkStorage.MapStore
import ChunkStorage.Snapshots
import ChunkStorage.Lib.Linearization

set_option autoImplicit false

/-! # Concurrent calls and the map

`store_refines_map` is about one call after another. Here any number of calls overlap, and each of them
still seems to happen at one moment: a `Put` that commits at its `link`, a `Delete` that finds the chunk
at its `unlink`, and every other call at a moment of its own at which the root shows a map that gives
its answer. -/

namespace ChunkStorage

open Effects Posix Program Linearization

variable {σ τ : Type} {B : Blake3} {root : Bytes} {T : ℕ → Invocation σ τ → Prop}

/-! ## The map the root shows -/

/-- The payloads of the visible chunks: what is behind the header. -/
def shown (root : Bytes) (fs : FS) : MapStore.Map :=
  fun chunkId => (fs.contents (pathFor root chunkId)).map (·.drop kHeaderSize)

theorem shown_of_chunkFile {fs : FS} {chunkId : ChunkId} {p : Bytes}
    (h : fs.contents (pathFor root chunkId) = some (chunkFile B p)) : shown root fs chunkId = some p := by
  have hdrop := drop_chunkFile (B := B) p 0
  rw [Nat.zero_add, List.drop_zero] at hdrop
  rw [shown, h, Option.map_some]
  exact congrArg some hdrop

theorem shown_eq_none_iff {fs : FS} {chunkId : ChunkId} :
    shown root fs chunkId = none ↔ fs.dir (pathFor root chunkId) = none := by
  rw [shown, Option.map_eq_none_iff, FS.contents_eq_none_iff]

/-- In a tidy root the map says what the files are. -/
theorem Tidy.contents_shown {fs : FS} (h : Tidy B root T fs) (chunkId : ChunkId) :
    fs.contents (pathFor root chunkId) = (shown root fs chunkId).map (chunkFile B) := by
  cases hfile : fs.contents (pathFor root chunkId) with
  | none => rw [shown_eq_none_iff.2 (FS.contents_eq_none_iff.1 hfile), Option.map_none]
  | some file =>
      obtain ⟨k, p, -, rfl⟩ := h.contents (isChunkPath_pathFor chunkId) hfile
      rw [shown_of_chunkFile hfile, Option.map_some]

theorem shown_empty (nameMax : ℕ) : shown root (FS.empty nameMax) = fun _ => none := by
  funext chunkId
  exact shown_eq_none_iff.2 (by simp [FS.dir, FS.empty, applyChanges])

/-- The event with which a call changes the map. -/
def effects (root : Bytes) (v : Invocation σ τ) (e : Event StoreSig) : Bool :=
  match v.call with
  | .put request _ _ => linksTo (pathFor root request.chunkId) e
  | .delete chunkId => unlinks (pathFor root chunkId) e
  | _ => false

/-- What a step of a call does to the map. -/
inductive MapStep (B : Blake3) (v : Invocation σ τ) (m : MapStore.Map) : MapStore.Map → Prop
  | put {request : PutChunkRequest} {pid address : ℕ} {p : Bytes}
      (hcall : v.call = .put request pid address) (hvalid : request.Valid)
      (hacc : Accepts B v.input v.source request p) (hnone : m request.chunkId = none) :
      MapStep B v m (Function.update m request.chunkId (some p))
  | delete {chunkId : ChunkId} {p : Bytes} (hcall : v.call = .delete chunkId)
      (hid : (validateId chunkId).ok = true) (hsome : m chunkId = some p) :
      MapStep B v m (Function.update m chunkId none)

/-- The files of the chunks a step does not name stay as they are. -/
theorem StoreStep.shown_stays {k : ℕ} {v : Invocation σ τ} {e : Event StoreSig} {fs fs' : FS}
    (h : StoreStep B root k v e fs fs') (htidy : Tidy B root T fs) {chunkId : ChunkId}
    (hdir : fs'.dir (pathFor root chunkId) = fs.dir (pathFor root chunkId)) :
    shown root fs' chunkId = shown root fs chunkId := by
  unfold shown FS.contents
  rw [hdir]
  cases hi : fs.dir (pathFor root chunkId) with
  | none => rfl
  | some i =>
      obtain ⟨n, hn, hpub, -⟩ := htidy.published (isChunkPath_pathFor chunkId) (FS.binds_of_dir hi)
      obtain ⟨n', hn', -, hsame⟩ := h.file hn
      rw [hsame (Or.inl hpub.linked)] at hn'
      simp [hn, hn']

/-- A step that moves the entry of one chunk. -/
theorem StoreStep.shown_update {k : ℕ} {v : Invocation σ τ} {e : Event StoreSig} {fs fs' : FS}
    (h : StoreStep B root k v e fs fs') (htidy : Tidy B root T fs) {chunkId : ChunkId} {p : Option Bytes}
    (hdir : ∀ other, pathFor root chunkId ≠ pathFor root other →
      fs'.dir (pathFor root other) = fs.dir (pathFor root other))
    (hp : shown root fs' chunkId = p) :
    shown root fs' = Function.update (shown root fs) chunkId p := by
  funext other
  by_cases hid : other = chunkId
  · rw [hid, Function.update_self, hp]
  · rw [Function.update_of_ne hid]
    exact h.shown_stays htidy (hdir other fun hpath => hid (pathFor_injective hpath).symm)

/-- **A step changes the map with the event of its call**, and leaves it as it is without. -/
theorem StoreStep.mapStep {k : ℕ} {v : Invocation σ τ} {e : Event StoreSig} {fs fs' : FS}
    (h : StoreStep B root k v e fs fs') (htidy : Tidy B root T fs) :
    (effects root v e = true ∧ MapStep B v (shown root fs) (shown root fs')) ∨
      (effects root v e = false ∧ shown root fs' = shown root fs) := by
  -- a step that moves no chunk
  have quiet : silent e = true → (∀ chunkId, fs'.dir (pathFor root chunkId)
      = fs.dir (pathFor root chunkId)) →
      effects root v e = false ∧ shown root fs' = shown root fs := by
    intro hsilent hdir
    refine ⟨?_, funext fun chunkId => h.shown_stays htidy (hdir chunkId)⟩
    unfold effects
    split
    · exact linksTo_of_silent hsilent _
    · exact unlinks_of_silent hsilent _
    · rfl
  cases h with
  | looks hsilent => exact Or.inr (quiet hsilent fun _ => rfl)
  | creates hsilent _ _ =>
      refine Or.inr (quiet hsilent fun chunkId => ?_)
      rw [FS.create_dir, if_neg (tempPath_ne_pathFor root _ chunkId _ _)]
  | modifies hsilent _ _ _ _ => exact Or.inr (quiet hsilent fun _ => rfl)
  | @commits _ request pid address i n p hcall hvalid hacc hi hn howner hfresh hdata hsynced hnone hfits =>
      refine Or.inl ⟨by simp [effects, hcall, linksTo], ?_⟩
      have hfile : (fs.bind (pathFor root request.chunkId) i (fs.dir_lt hi)).contents
          (pathFor root request.chunkId) = some (chunkFile B p) := by
        rw [← hacc.2.chunkFile_eq, ← hdata]
        simp only [FS.contents, FS.bind_dir, if_true, Option.bind_some]
        simp [hn, Inode.link]
      have hstep : StoreStep B root k v _ fs _ :=
        .commits hcall hvalid hacc hi hn howner hfresh hdata hsynced hnone hfits
      rw [hstep.shown_update htidy (fun other hne => by rw [FS.bind_dir, if_neg hne])
        (shown_of_chunkFile hfile)]
      exact .put hcall hvalid hacc (shown_eq_none_iff.2 hnone)
  | @drops _ request pid address i n hcall hi hn howner =>
      refine Or.inr ⟨by simp [effects, hcall, linksTo], funext fun chunkId => ?_⟩
      have hstep : StoreStep B root k v _ fs _ := .drops hcall hi hn howner
      refine hstep.shown_stays htidy ?_
      rw [FS.remove_dir, if_neg (tempPath_ne_pathFor root _ chunkId _ _)]
  | @deletes _ chunkId hcall hsome =>
      refine Or.inl ⟨by simp [effects, hcall, unlinks], ?_⟩
      have hstep : StoreStep B root k v _ fs (fs.remove (pathFor root chunkId)) := .deletes hcall hsome
      rw [hstep.shown_update htidy (fun other hne => by rw [FS.remove_dir, if_neg hne])
        (shown_eq_none_iff.2 (by simp))]
      obtain ⟨i, hi⟩ := Option.ne_none_iff_exists'.1 hsome
      obtain ⟨n, hn, hpub, -⟩ := htidy.published (isChunkPath_pathFor chunkId) (FS.binds_of_dir hi)
      obtain ⟨p, ⟨u, request, pid, address, -, -, hvalid, hpath, -⟩, -⟩ := hpub.version
      obtain rfl := pathFor_injective hpath
      obtain ⟨q, hq⟩ := Option.ne_none_iff_exists'.1 fun hn => hsome (shown_eq_none_iff.1 hn)
      exact .delete hcall hvalid.1 hq
  | publishes hsilent => exact Or.inr (quiet hsilent fun _ => FS.syncDir_dir _ _ _)

/-! ## The steps that change it -/

section Run

variable (B root)
variable (nameMax : ℕ) (choices : List (Choice (Invocation σ τ)))

/-- Step `n` of the run is the one with which call `j` changes the map. -/
def WritesAt (n j : ℕ) : Prop :=
  ∃ c e, System.Answers (storeJob B root) ⟨FS.empty nameMax, []⟩ choices n j c e ∧
    effects root c.job e = true

/-- Call `j` has not returned before step `n`, and is started when the step is over. -/
abbrev LiveAt (j n : ℕ) : Prop := System.Live (storeJob B root) ⟨FS.empty nameMax, []⟩ choices j n

end Run

section Writes

variable {nameMax : ℕ} {choices : List (Choice (Invocation σ τ))} {n j : ℕ}

/-- What leaves an event in a trace is a step of its call. -/
theorem answers_step {c : StoreProcess σ τ} {e : Event StoreSig}
    (h : System.Answers (storeJob B root) ⟨FS.empty nameMax, []⟩ choices n j c e) :
    ¬ c.prog.Returned ∧ StoreStep B root j c.job e (storeMoment B root nameMax choices n).fs
      (storeMoment B root nameMax choices (n + 1)).fs := by
  obtain ⟨hc, c', hc', htrace⟩ := h
  have hne : c' ≠ c := by
    intro hsame
    rw [hsame] at htrace
    exact absurd htrace (by simp)
  refine ⟨fun hret => hne ?_, ?_⟩
  · exact Option.some.inj (hc'.symm.trans (System.returned_stays (Nat.le_succ n) hc hret))
  · obtain ⟨o, hact⟩ := System.act_of_ne hc hc' hne
    have hprotocol := storeProtocol B root anything (CallsOf B root nameMax choices)
      (During B root nameMax choices)
    rcases hprotocol.guarantee (StoreInv.empty nameMax)
      (.of_admits (admits_anything B root nameMax choices)) hact hc with hsame | ⟨d, hd, hG⟩
    · rw [hsame] at hc'
      exact absurd (Option.some.inj (hc'.symm.trans hc)) hne
    · obtain rfl : d = c' := Option.some.inj (hd.symm.trans hc')
      rcases hG with ⟨hstays, -⟩ | ⟨e', hnew, hstep⟩
      · have hstays' : d.trace = c.trace := hstays
        rw [hstays'] at htrace
        exact absurd htrace (by simp)
      · have hnew' : d.trace = e' :: c.trace := hnew
        obtain rfl : e' = e := (List.cons.inj (hnew'.symm.trans htrace)).1
        exact hstep

theorem WritesAt.live (h : WritesAt B root nameMax choices n j) : LiveAt B root nameMax choices j n := by
  obtain ⟨c, e, hanswers, -⟩ := h
  exact System.live_of_underway hanswers.1 (answers_step hanswers).1

theorem store_tidy (B : Blake3) (root : Bytes) (nameMax : ℕ) (choices : List (Choice (Invocation σ τ)))
    (n : ℕ) : Tidy B root (CallsOf B root nameMax choices) (storeMoment B root nameMax choices n).fs :=
  (store_holds B root anything nameMax choices (admits_anything B root nameMax choices) n).inv.tidy

theorem WritesAt.mapStep (h : WritesAt B root nameMax choices n j) :
    ∃ c, (storeMoment B root nameMax choices n).procs[j]? = some c ∧
      MapStep B c.job (shown root (storeMoment B root nameMax choices n).fs)
        (shown root (storeMoment B root nameMax choices (n + 1)).fs) := by
  obtain ⟨c, e, hanswers, heffects⟩ := h
  refine ⟨c, hanswers.1, ?_⟩
  rcases (answers_step hanswers).2.mapStep (store_tidy B root nameMax choices n) with
    ⟨-, hstep⟩ | ⟨hno, -⟩
  · exact hstep
  · rw [heffects] at hno
    exact absurd hno (by simp)

/-- Without such a step the map stays as it is. -/
theorem shown_still (h : ∀ j, ¬ WritesAt B root nameMax choices n j) :
    shown root (storeMoment B root nameMax choices (n + 1)).fs
      = shown root (storeMoment B root nameMax choices n).fs := by
  rcases System.fs_step (storeJob B root) ⟨FS.empty nameMax, []⟩ choices n with
    hsame | ⟨j, c, call, r, fds, -, hanswers⟩
  · exact congrArg (shown root) hsame
  · rcases (answers_step hanswers).2.mapStep (store_tidy B root nameMax choices n) with
      ⟨heffects, -⟩ | ⟨-, hsame⟩
    · exact absurd ⟨c, _, hanswers, heffects⟩ (h j)
    · exact hsame

theorem WritesAt.chosen (h : WritesAt B root nameMax choices n j) :
    ∃ o, choices[n]? = some (.act j o) := by
  obtain ⟨c, e, ⟨hc, c', hc', htrace⟩, -⟩ := h
  refine System.act_of_ne hc hc' fun hsame => ?_
  rw [hsame] at htrace
  exact absurd htrace (by simp)

theorem WritesAt.process_unique {i : ℕ} (hi : WritesAt B root nameMax choices n i)
    (hj : WritesAt B root nameMax choices n j) : i = j := by
  obtain ⟨o, ho⟩ := hi.chosen
  obtain ⟨o', ho'⟩ := hj.chosen
  exact (Choice.act.inj (Option.some.inj (ho.symm.trans ho'))).1

theorem linked_of_linksTo {path : Path} {e : Event StoreSig} (h : linksTo path e = true) :
    linked e = true := by
  unfold linksTo at h
  split at h
  · rfl
  · exact absurd h (by simp)

/-- A call changes the map once at most. -/
theorem TraceOf.countP_effects {v : Invocation σ τ} {t : List (Event StoreSig)}
    {p : Program StoreSig Answer} (h : TraceOf v t p) : t.countP (effects root v) ≤ 1 := by
  have hnone : (∀ e, effects root v e = false) → t.countP (effects root v) ≤ 1 := by
    intro hno
    rw [List.countP_eq_zero.2 fun e _ => by simp [hno e]]
    exact Nat.zero_le 1
  cases hcall : v.call with
  | put request pid address =>
      simp only [TraceOf, hcall] at h
      have hle : t.countP (effects root v) ≤ t.countP linked := by
        refine List.countP_mono_left fun e _ he => ?_
        simp only [effects, hcall] at he
        exact linked_of_linksTo he
      rcases h.2 with hzero | ⟨hone, -⟩
      · exact hle.trans (hzero.2.trans_le (Nat.zero_le 1))
      · exact hle.trans hone.2.le
  | delete chunkId =>
      simp only [TraceOf, hcall] at h
      exact List.countP_le_length.trans h.2
  | get _ | head _ | size _ | «exists» _ => exact hnone fun e => by simp only [effects, hcall]

/-- What the trace of a call says of it, at every moment. -/
theorem traceOf_moment {c : StoreProcess σ τ}
    (hc : (storeMoment B root nameMax choices n).procs[j]? = some c) : TraceOf c.job c.trace c.prog :=
  (System.tracks_moment (N := TraceOf) (fun v => call_traces v) (FS.empty nameMax) choices n hc).here

theorem WritesAt.moment_unique {m : ℕ} (hm : WritesAt B root nameMax choices m j)
    (hn : WritesAt B root nameMax choices n j) : m = n := by
  have hlt : ∀ {m n}, WritesAt B root nameMax choices m j → WritesAt B root nameMax choices n j →
      ¬ m < n := by
    intro m n hm hn hmn
    obtain ⟨c, e, ⟨hc, c', hc', htrace⟩, he⟩ := hm
    obtain ⟨d, e', ⟨hd, d', hd', htrace'⟩, he'⟩ := hn
    have hone : d'.trace.countP (effects root d'.job) ≤ 1 := (traceOf_moment hd').countP_effects
    have hgrows := System.trace_grows (show m + 1 ≤ n by omega) hc' hd
    have hjob : d.job = c.job := by
      obtain ⟨q, hq, hjob⟩ := System.Started.mono (Nat.le_of_lt hmn) ⟨c, hc, rfl⟩
      rw [← hjob, Option.some.inj (hd.symm.trans hq)]
    have hearlier : 1 ≤ d.trace.countP (effects root d.job) := by
      refine List.countP_pos_iff.2 ⟨e, hgrows.mem ?_, by rw [hjob]; exact he⟩
      rw [htrace]
      exact List.mem_cons_self
    rw [htrace', System.job_step hd hd', List.countP_cons, if_pos he'] at hone
    omega
  have := hlt hm hn
  have := hlt hn hm
  omega

/-- An event in a trace was left there by a step. -/
theorem writesAt_of_mem {c : StoreProcess σ τ}
    (hc : (storeAfter B root nameMax choices).procs[j]? = some c) {e : Event StoreSig} (he : e ∈ c.trace)
    (heffects : effects root c.job e = true) : ∃ n, WritesAt B root nameMax choices n j := by
  rw [storeAfter, ← System.moment_length] at hc
  obtain ⟨m, -, d, hanswers, hjob⟩ := System.answers_of_trace _ _ _ _ hc he
  exact ⟨m, d, e, hanswers, by rw [hjob]; exact heffects⟩

end Writes

/-! ## The moments of the other calls -/

section Reads

variable {nameMax : ℕ} {choices : List (Choice (Invocation σ τ))} {n j : ℕ}

theorem moment_nameMax (B : Blake3) (root : Bytes) (nameMax : ℕ)
    (choices : List (Choice (Invocation σ τ))) (n : ℕ) :
    (storeMoment B root nameMax choices n).fs.nameMax = nameMax := by
  induction n with
  | zero => rfl
  | succ n ih =>
      rcases store_moves B root anything nameMax choices (admits_anything B root nameMax choices) n with
        hstay | ⟨k, c, w', -, -, -, hG, hfs⟩
      · rw [hstay, ih]
      · rcases hG with ⟨-, hsame⟩ | ⟨e, -, hstep⟩
        · rw [← hfs, hsame]
          exact ih
        · rw [← hfs, hstep.nameMax]
          exact ih

theorem During.live {fs : FS} (h : During B root nameMax choices j fs) :
    ∃ n, LiveAt B root nameMax choices j n ∧ (storeMoment B root nameMax choices n).fs = fs := by
  obtain ⟨n, c, hc, hway, hfs⟩ := h
  exact ⟨n, System.live_of_underway hc hway, hfs⟩

theorem During.fits {fs : FS} (h : During B root nameMax choices j fs) {path : Path}
    (hfits : (FS.empty nameMax).Fits path) : fs.Fits path := by
  obtain ⟨n, -, -, -, rfl⟩ := h
  have hmax := moment_nameMax B root nameMax choices n
  unfold storeMoment at hmax
  rw [FS.Fits, hmax]
  exact hfits

/-- A call that has seen a file was live when the map had its payload. -/
theorem seen_shown {chunkId : ChunkId} {e : Bytes} {w : StoreWorld σ τ} {file : Bytes}
    (hw : Watching B root (CallsOf B root nameMax choices) (During B root nameMax choices j) e w)
    (hfile : w.fs.contents (pathFor root chunkId) = some file) :
    ∃ n p, LiveAt B root nameMax choices j n ∧ file = chunkFile B p ∧ p.length ≤ offMax ∧
      (validateId chunkId).ok = true ∧
      shown root (storeMoment B root nameMax choices n).fs chunkId = some p := by
  obtain ⟨k, p, ⟨v, request, pid, address, -, -, hvalid, hpath, -⟩, rfl⟩ :=
    hw.tidy.contents (isChunkPath_pathFor chunkId) hfile
  obtain rfl := pathFor_injective hpath
  obtain ⟨n, hlive, hfs⟩ := During.live hw.under
  have hlen := FS.contents_length_le hfile
  rw [length_chunkFile] at hlen
  refine ⟨n, p, hlive, rfl, by omega, hvalid.1, ?_⟩
  rw [hfs]
  exact shown_of_chunkFile hfile

/-- A call that has found no file was live when the map did not have the chunk. -/
theorem absent_shown {chunkId : ChunkId} {fs : FS} (hfs : During B root nameMax choices j fs)
    (hnone : fs.dir (pathFor root chunkId) = none) :
    ∃ n, LiveAt B root nameMax choices j n ∧
      shown root (storeMoment B root nameMax choices n).fs chunkId = none := by
  obtain ⟨n, hlive, rfl⟩ := During.live hfs
  exact ⟨n, hlive, shown_eq_none_iff.2 hnone⟩

theorem neverFails_calm (j : ℕ) (v : Invocation σ τ) : World.NeverFails (calmAndCovered j v) :=
  fun _ _ _ h => h.1

/-- An error of `Head` is the map's at some moment of the call. -/
theorem headFails_agrees {v : Invocation σ τ} {chunkId : ChunkId} {status : Status} {e : Bytes}
    (hlive : ∃ n, LiveAt B root nameMax choices j n)
    (hfits : (validateId chunkId).ok = true → (FS.empty nameMax).Fits (pathFor root chunkId))
    (h : HeadFails (calmAndCovered j v) root chunkId
      (Watching B root (CallsOf B root nameMax choices) (During B root nameMax choices j) e) status) :
    ∃ n, LiveAt B root nameMax choices j n ∧
      MapStore.find (shown root (storeMoment B root nameMax choices n).fs) chunkId
        = .error status.code := by
  rcases h with ⟨hid, hcode⟩ | ⟨hid, w, hw, ⟨hcode, hnone⟩ | ⟨-, hfault⟩⟩
  · obtain ⟨n, hn⟩ := hlive
    exact ⟨n, hn, by rw [hcode, MapStore.find_invalid hid]⟩
  · obtain ⟨n, hn, hshown⟩ := absent_shown hw.under hnone
    exact ⟨n, hn, by rw [hcode, MapStore.find_none hid hshown]⟩
  · exact absurd ⟨neverFails_calm j v, During.fits hw.under (hfits hid)⟩ hfault

theorem headAnswer_agrees {v : Invocation σ τ} {chunkId : ChunkId} {r : StatusOr HeadChunkResponse}
    (hlive : ∃ n, LiveAt B root nameMax choices j n)
    (hfits : (validateId chunkId).ok = true → (FS.empty nameMax).Fits (pathFor root chunkId))
    (h : HeadAnswer (calmAndCovered j v) B root (CallsOf B root nameMax choices)
      (During B root nameMax choices j) chunkId r) :
    ∃ n, LiveAt B root nameMax choices j n ∧
      HeadAgrees B (shown root (storeMoment B root nameMax choices n).fs) chunkId r := by
  rcases h with ⟨hid, s, rfl, hcode⟩ | ⟨w, hdone⟩
  · obtain ⟨n, hn⟩ := hlive
    exact ⟨n, hn, by rw [HeadAgrees, hcode, MapStore.find_invalid hid]⟩
  · rcases hdone with ⟨-, hfails⟩ | ⟨hid, ⟨w', o, hw', -, hfile⟩, -, hanswer⟩
    · exact headFails_agrees hlive hfits hfails
    · obtain ⟨n, p, hn, rfl, hlen, -, hshown⟩ := seen_shown hw' hfile
      refine ⟨n, hn, ?_⟩
      rcases hanswer with ⟨c, q, hfile', rfl⟩ | ⟨hno, -⟩ | ⟨s, -, -, hfault⟩
      · obtain ⟨rfl, rfl⟩ := (chunkFile_spec B p).unique hfile'
        exact ⟨p, MapStore.find_some hid hshown, rfl, toNat_length hlen, rfl⟩
      · exact absurd ⟨_, _, chunkFile_spec B p⟩ hno
      · exact absurd (neverFails_calm j v) hfault

/-- What the loop of a `Get` hands out is what the map says of a payload that covers the range. -/
theorem streamed_agrees {v : Invocation σ τ} {request : GetChunkRequest} {status : Status}
    {t : List (Event StoreSig)} {m : MapStore.Map} {p : Bytes} {k : ℕ} (hcall : v.call = .get request)
    (hid : (validateId request.chunkId).ok = true) (hshown : m request.chunkId = some p)
    (hin : request.range.Within p) (hk : k ≤ request.range.size.toNat)
    (hhanded : handed t = (p.drop request.range.offset.toNat).take k)
    (hend : (status = .Ok ∧ k = request.range.size.toNat) ∨ Refused v.output t status) :
    Agrees B v m t (.status status) m := by
  simp only [Agrees, hcall, true_and]
  rw [MapStore.get_within (MapStore.find_some hid hshown) hin]
  rcases hend with ⟨rfl, rfl⟩ | hrefused
  · exact Or.inl ⟨rfl, hhanded⟩
  · refine Or.inr ⟨hrefused, ?_⟩
    rw [hhanded]
    exact List.take_prefix_take_left hk

/-- **A `Get` answers from the map of one moment**: that of its second `open`, or of the first if it
    did not come to a second or is asked for nothing. -/
theorem getAnswer_agrees {v : Invocation σ τ} {request : GetChunkRequest} {status : Status}
    {w : StoreWorld σ τ} (hcall : v.call = .get request) (hlive : ∃ n, LiveAt B root nameMax choices j n)
    (hfits : (validateId request.chunkId).ok = true →
      (FS.empty nameMax).Fits (pathFor root request.chunkId))
    (h : GetDone (calmAndCovered j v) v.output root request
      (Watching B root (CallsOf B root nameMax choices) (During B root nameMax choices j) [])
      (WatchingFile B root (CallsOf B root nameMax choices) (During B root nameMax choices j) [])
      (WatchingFile B root (CallsOf B root nameMax choices) (During B root nameMax choices j)) status w) :
    ∃ n, LiveAt B root nameMax choices j n ∧
      Agrees B v (shown root (storeMoment B root nameMax choices n).fs) w.trace (.status status)
        (shown root (storeMoment B root nameMax choices n).fs) := by
  rcases h with ⟨hP, -, hfails⟩ | ⟨-, ⟨w', o, hw', -, hfile⟩, hanswer⟩ |
    ⟨hP, ⟨w', o, hw', -, hfile⟩, hchunk, hout, hcode⟩ | ⟨hP, ⟨w', o, hw', -, hfile⟩, -, -, -, hopen⟩ |
    @⟨_, _, fd, fd', k, file, file', c, p, ⟨w', o, hw', -, hfile⟩, hchunk, hin,
      ⟨w₂, o₂, hw₂, hok₂, hfile₂⟩, hk, hP, -, hloop⟩
  · obtain ⟨n, hn, hfind⟩ := headFails_agrees hlive hfits hfails
    refine ⟨n, hn, ?_⟩
    simp only [Agrees, hcall, true_and]
    rw [MapStore.get_error hfind]
    exact ⟨rfl, hP.handed⟩
  · obtain ⟨n, p, -, rfl, -⟩ := seen_shown hw' hfile
    rcases hanswer with ⟨_, _, -, hr⟩ | ⟨hno, -⟩ | ⟨s, -, -, hfault⟩
    · exact absurd hr (by simp)
    · exact absurd ⟨_, _, chunkFile_spec B p⟩ hno
    · exact absurd (neverFails_calm j v) hfault
  · obtain ⟨n, p, hn, rfl, -, hid, hshown⟩ := seen_shown hw' hfile
    obtain ⟨rfl, rfl⟩ := (chunkFile_spec B p).unique hchunk
    refine ⟨n, hn, ?_⟩
    simp only [Agrees, hcall, true_and]
    rw [MapStore.get_beyond (MapStore.find_some hid hshown) hout]
    exact ⟨hcode, hP.watching.handed⟩
  · obtain ⟨-, -, -, -, -, hid, -⟩ := seen_shown hw' hfile
    obtain ⟨w₂, hw₂, ⟨hcode, hnone⟩ | ⟨-, hfault⟩⟩ := hopen
    · obtain ⟨n, hn, hshown⟩ := absent_shown hw₂.watching.under hnone
      refine ⟨n, hn, ?_⟩
      simp only [Agrees, hcall, true_and]
      rw [MapStore.get_error (MapStore.find_none hid hshown)]
      exact ⟨hcode, hP.watching.handed⟩
    · exact absurd ⟨neverFails_calm j v, During.fits hw₂.watching.under (hfits hid)⟩ hfault
  · obtain ⟨n₁, p₁, hn₁, rfl, -, hid, hshown₁⟩ := seen_shown hw' hfile
    obtain ⟨n₂, p₂, hn₂, rfl, -, -, hshown₂⟩ := seen_shown hw₂.watching hfile₂
    obtain ⟨rfl, rfl⟩ := (chunkFile_spec B p₁).unique hchunk
    have hhanded := hP.watching.handed
    rw [drop_chunkFile] at hhanded
    by_cases hzero : request.range.size = 0
    · refine ⟨n₁, hn₁, streamed_agrees hcall hid hshown₁ hin hk ?_ ?_⟩
      · have hk₀ : k = 0 := by
          rw [hzero] at hk
          exact Nat.le_zero.1 hk
        rw [hhanded, hk₀, List.take_zero, List.take_zero]
      · rcases hloop with hend | ⟨-, hlt, -⟩ | ⟨-, hfault⟩ | hrefused
        · exact Or.inl hend
        · rw [hzero] at hlt
          exact absurd hlt (Nat.not_lt_zero k)
        · exact absurd (neverFails_calm j v) hfault
        · exact Or.inr hrefused
    · -- the second `open` found a file that covers the range
      have hopened : w₂.fds ≠ [] := by
        obtain ⟨f, m, hf, -⟩ := hw₂.opened
        exact List.ne_nil_of_mem (List.mem_of_getElem? hf)
      have hcovers := hok₂.2
      simp only [ReopenCovers, hcall] at hcovers
      have hlong := (hcovers hopened _ hfile₂).resolve_left hzero
      rw [length_chunkFile] at hlong
      refine ⟨n₂, hn₂, streamed_agrees hcall hid hshown₂ ?_ hk hhanded ?_⟩
      · unfold ByteRange.Within
        omega
      · rcases hloop with hend | ⟨-, hlt, hshort⟩ | ⟨-, hfault⟩ | hrefused
        · exact Or.inl hend
        · rw [length_chunkFile] at hshort
          omega
        · exact absurd (neverFails_calm j v) hfault
        · exact Or.inr hrefused

end Reads

/-! ## Every call has its moment -/

/-- No system call fails, the names of the files fit, no `Get` has the chunk replaced by a shorter one
    between its two `open`s, and `Put`s of a chunk that overlap differ in their process id or in the
    address of their stream. -/
structure Orderly (B : Blake3) (root : Bytes) (nameMax : ℕ) (choices : List (Choice (Invocation σ τ))) :
    Prop where
  calm : StoreAdmits B root calmAndCovered nameMax choices
  names : ∀ {j : ℕ} {c : StoreProcess σ τ}, (storeAfter B root nameMax choices).procs[j]? = some c →
    (validateId c.job.call.chunkId).ok = true → (FS.empty nameMax).Fits (c.job.call.longest root)
  distinct : ∀ {n i j : ℕ} {c d : StoreProcess σ τ} {request request' : PutChunkRequest}
    {pid address : ℕ}, (storeMoment B root nameMax choices n).procs[i]? = some c →
    (storeMoment B root nameMax choices n).procs[j]? = some d → ¬ c.prog.Returned →
    ¬ d.prog.Returned → c.job.call = .put request pid address →
    d.job.call = .put request' pid address → request.chunkId = request'.chunkId → i = j

section Points

variable {nameMax : ℕ} {choices : List (Choice (Invocation σ τ))} {n j : ℕ} {c : StoreProcess σ τ}

theorem traceOf_after (hc : (storeAfter B root nameMax choices).procs[j]? = some c) :
    TraceOf c.job c.trace c.prog := by
  rw [storeAfter, ← System.moment_length] at hc
  exact traceOf_moment hc

theorem Orderly.answer (h : Orderly B root nameMax choices)
    (hc : (storeAfter B root nameMax choices).procs[j]? = some c) {a : Answer} (hret : c.prog = .ret a) :
    CallAnswer B root calmAndCovered (CallsOf B root nameMax choices) (During B root nameMax choices) j
      c.job a (c.world (storeAfter B root nameMax choices).fs) := by
  have hholds := answers_hold h.calm choices.length
  rw [storeMoment, System.moment_length] at hholds
  exact hholds.answer hc hret

/-- A `Put` that says OK has committed. -/
theorem writesAt_of_stored (hc : (storeAfter B root nameMax choices).procs[j]? = some c)
    {request : PutChunkRequest} {pid address : ℕ} (hcall : c.job.call = .put request pid address)
    {status : Status} (hret : c.prog = .ret (.status status)) (hok : status.ok = true) :
    ∃ n, WritesAt B root nameMax choices n j := by
  have hholds := store_holds_after B root anything nameMax choices
    (admits_anything B root nameMax choices)
  obtain ⟨e, he, hlinks⟩ := (hholds.put_end hc hcall hret).committed hok
  exact writesAt_of_mem hc he (by simp only [effects, hcall, hlinks])

/-- The `unlink` of a `Delete` was its change of the map. -/
theorem writesAt_of_deleted (hc : (storeAfter B root nameMax choices).procs[j]? = some c)
    {chunkId : ChunkId} (hcall : c.job.call = .delete chunkId)
    (ht : c.trace = [⟨.inl (.unlink (pathFor root chunkId)), .ok ()⟩]) :
    ∃ n, WritesAt B root nameMax choices n j := by
  have hmem : (⟨.inl (.unlink (pathFor root chunkId)), .ok ()⟩ : Event StoreSig) ∈ c.trace := by
    rw [ht]
    exact List.mem_cons_self
  exact writesAt_of_mem hc hmem (by simp [effects, hcall, unlinks])

/-- The temporary name of a `Put` is its own. -/
theorem Orderly.not_collided (h : Orderly B root nameMax choices)
    (hc : (storeAfter B root nameMax choices).procs[j]? = some c) {request : PutChunkRequest}
    {pid address : ℕ} (hcall : c.job.call = .put request pid address) (hvalid : request.Valid) {fs : FS}
    (hfs : During B root nameMax choices j fs) {i : ℕ} {m : Inode}
    (hi : fs.dir (tempPath root request.chunkId pid address) = some i) (hm : fs.inodes[i]? = some m) :
    m.owner = j := by
  have hfits : fs.Fits (tempPath root request.chunkId pid address) := by
    have hnames := h.names hc
    rw [hcall] at hnames
    exact During.fits hfs (hnames hvalid.1)
  obtain ⟨n, d, hd, hway, rfl⟩ := hfs
  have hholds := answers_hold h.calm n
  have hjob : d.job = c.job := by
    obtain ⟨q, hq, hjob⟩ := System.Started.last ⟨d, hd, rfl⟩
    rw [← hjob, Option.some.inj (hq.symm.trans hc)]
  obtain ⟨k, hk, ⟨hpub, -⟩ | htemp⟩ := hholds.inv.tidy _ i (FS.binds_of_dir hi)
  · exact absurd hpub.isChunkPath (not_isChunkPath_tempPath _ _ _)
  · obtain rfl : k = m := Option.some.inj (hk.symm.trans hm)
    obtain ⟨c', request', pid', address', hc', hcall', hpath, hleft⟩ := hholds.tempfile hi hm htemp
    obtain ⟨hid, rfl, rfl⟩ := tempPath_injective hpath
    rcases hleft with hway' | ⟨-, hfault⟩
    · exact h.distinct hc' hd hway' hway hcall' (by rw [hjob]; exact hcall)
        hid.symm
    · exact absurd ⟨neverFails_calm _ _, hfits⟩ hfault

/-- A `Put` that has not committed answers from the map of a moment of its own. -/
theorem Orderly.put_reads (h : Orderly B root nameMax choices)
    (hc : (storeAfter B root nameMax choices).procs[j]? = some c) {request : PutChunkRequest}
    {pid address : ℕ} (hcall : c.job.call = .put request pid address) {status : Status}
    (hret : c.prog = .ret (.status status)) (hlive : ∃ n, LiveAt B root nameMax choices j n)
    (hno : ∀ n, ¬ WritesAt B root nameMax choices n j)
    (hanswer : PutAnswer (calmAndCovered j c.job) B root (During B root nameMax choices j) j c.job
      request (tempPath root request.chunkId pid address) status) :
    ∃ n, LiveAt B root nameMax choices j n ∧
      (status.code, shown root (storeMoment B root nameMax choices n).fs)
        = MapStore.put B (shown root (storeMoment B root nameMax choices n).fs) request
          (deliver c.job.input request.expectedSize.toNat c.job.source) := by
  cases hanswer with
  | invalid hinvalid hcode =>
      obtain ⟨n, hn⟩ := hlive
      exact ⟨n, hn, by simp [MapStore.put, hinvalid, hcode]⟩
  | collided hvalid hfs hi hm howner =>
      exact absurd (h.not_collided hc hcall hvalid hfs hi hm) howner
  | rejected hvalid hrej =>
      obtain ⟨n, hn⟩ := hlive
      exact ⟨n, hn, (MapStore.put_rejects hvalid hrej).symm⟩
  | present hvalid hacc hfs hsome hcode =>
      obtain ⟨n, hn, rfl⟩ := During.live hfs
      have hmapped : shown root (storeMoment B root nameMax choices n).fs request.chunkId ≠ none :=
        fun hnone => hsome (shown_eq_none_iff.1 hnone)
      exact ⟨n, hn, ((MapStore.put_accepts hvalid hacc).trans (by rw [if_neg hmapped, hcode])).symm⟩
  | stored hvalid hacc hok =>
      obtain ⟨n, hwrites⟩ := writesAt_of_stored hc hcall hret (by rw [hok]; rfl)
      exact absurd hwrites (hno n)
  | faulty hvalid hfs _ hfault =>
      have hnames := h.names hc
      rw [hcall] at hnames
      exact absurd ⟨neverFails_calm j c.job, During.fits hfs (hnames hvalid.1)⟩ hfault

theorem Orderly.delete_reads (h : Orderly B root nameMax choices)
    (hc : (storeAfter B root nameMax choices).procs[j]? = some c) {chunkId : ChunkId}
    (hcall : c.job.call = .delete chunkId) {status : Status}
    (hlive : ∃ n, LiveAt B root nameMax choices j n) (hno : ∀ n, ¬ WritesAt B root nameMax choices n j)
    (hanswer : DeleteAnswer (calmAndCovered j c.job) root (During B root nameMax choices j) chunkId
      status c.trace) :
    ∃ n, LiveAt B root nameMax choices j n ∧
      (status.code, shown root (storeMoment B root nameMax choices n).fs)
        = MapStore.delete (shown root (storeMoment B root nameMax choices n).fs) chunkId := by
  cases hanswer with
  | invalid hid hcode _ =>
      obtain ⟨n, hn⟩ := hlive
      exact ⟨n, hn, by rw [MapStore.delete, MapStore.find_invalid hid, hcode]⟩
  | absent hid hfs hnone hcode _ =>
      obtain ⟨n, hn, hshown⟩ := absent_shown hfs hnone
      exact ⟨n, hn, by rw [MapStore.delete, MapStore.find_none hid hshown, hcode]⟩
  | faulty hid hfs _ hfault _ =>
      have hnames := h.names hc
      rw [hcall] at hnames
      exact absurd ⟨neverFails_calm j c.job, During.fits hfs (hnames hid)⟩ hfault
  | deleted _ _ ht =>
      obtain ⟨n, hwrites⟩ := writesAt_of_deleted hc hcall ht
      exact absurd hwrites (hno n)

/-- **A call that has returned and changed nothing** answers from the map of a moment of its own. -/
theorem Orderly.reads (h : Orderly B root nameMax choices)
    (hc : (storeAfter B root nameMax choices).procs[j]? = some c) {a : Answer} (hret : c.prog = .ret a)
    (hno : ∀ n, ¬ WritesAt B root nameMax choices n j) :
    ∃ n, LiveAt B root nameMax choices j n ∧
      Agrees B c.job (shown root (storeMoment B root nameMax choices n).fs) c.trace a
        (shown root (storeMoment B root nameMax choices n).fs) := by
  obtain ⟨n₀, -, hn₀⟩ := System.exists_live hc
  have hlive : ∃ n, LiveAt B root nameMax choices j n := ⟨n₀, hn₀⟩
  have htrace := traceOf_after hc
  have hanswer := h.answer hc hret
  have hnames := h.names hc
  cases hcall : c.job.call with
  | put request pid address =>
      simp only [CallAnswer, TraceOf, hcall] at hanswer htrace
      obtain ⟨status, rfl, hleaves⟩ := hanswer
      obtain ⟨n, hn, hcode⟩ := h.put_reads hc hcall hret hlive hno hleaves.answer
      refine ⟨n, hn, ?_⟩
      simp only [Agrees, hcall]
      refine ⟨hcode, ?_, htrace.1⟩
      rcases htrace.2 with hzero | ⟨hone, -⟩
      · exact hzero.1
      · exact hone.1
  | get request =>
      simp only [CallAnswer, hcall] at hanswer
      rw [hcall] at hnames
      obtain ⟨status, rfl, ⟨hid, hcode, hhanded⟩ | ⟨w₀, hsame, hdone⟩⟩ := hanswer
      · refine ⟨n₀, hn₀, ?_⟩
        simp only [Agrees, hcall, MapStore.get_error (MapStore.find_invalid hid), true_and]
        exact ⟨hcode, hhanded⟩
      · obtain ⟨n, hn, hagrees⟩ := getAnswer_agrees hcall hlive hnames hdone
        have hsame' : w₀.trace = c.trace := hsame
        rw [hsame'] at hagrees
        exact ⟨n, hn, hagrees⟩
  | head chunkId =>
      simp only [CallAnswer, TraceOf, hcall] at hanswer htrace
      simp only [hcall, Call.chunkId, Call.longest] at hnames
      obtain ⟨r, rfl, hhead⟩ := hanswer
      obtain ⟨n, hn, hagrees⟩ := headAnswer_agrees hlive hnames hhead
      refine ⟨n, hn, ?_⟩
      simp only [Agrees, hcall, true_and]
      exact ⟨htrace, hagrees⟩
  | size chunkId =>
      simp only [CallAnswer, TraceOf, hcall] at hanswer htrace
      simp only [hcall, Call.chunkId, Call.longest] at hnames
      obtain ⟨r, rfl, hhead⟩ := hanswer
      obtain ⟨n, hn, hagrees⟩ := headAnswer_agrees hlive hnames hhead
      refine ⟨n, hn, ?_⟩
      simp only [Agrees, hcall, true_and]
      refine ⟨htrace, ?_⟩
      cases r with
      | error s => exact hagrees
      | ok response =>
          obtain ⟨p, hfind, -, hsize, -⟩ := hagrees
          exact ⟨p, hfind, hsize⟩
  | «exists» chunkId =>
      simp only [CallAnswer, TraceOf, hcall] at hanswer htrace
      simp only [hcall, Call.chunkId, Call.longest] at hnames
      obtain ⟨r, rfl, hhead⟩ := hanswer
      obtain ⟨n, hn, hagrees⟩ := headAnswer_agrees hlive hnames hhead
      refine ⟨n, hn, ?_⟩
      simp only [Agrees, hcall, true_and]
      refine ⟨htrace, ?_⟩
      cases r with
      | error s => rw [show MapStore.find _ chunkId = _ from hagrees]; rfl
      | ok response =>
          obtain ⟨p, hfind, -, -, -⟩ := hagrees
          rw [hfind]
          rfl
  | delete chunkId =>
      simp only [CallAnswer, TraceOf, hcall] at hanswer htrace
      obtain ⟨status, rfl, hdelete⟩ := hanswer
      obtain ⟨n, hn, hcode⟩ := h.delete_reads hc hcall hlive hno hdelete
      refine ⟨n, hn, ?_⟩
      simp only [Agrees, hcall]
      exact ⟨hcode, htrace.1⟩

theorem WritesAt.mem_trace (h : WritesAt B root nameMax choices n j)
    (hc : (storeAfter B root nameMax choices).procs[j]? = some c) :
    ∃ e ∈ c.trace, effects root c.job e = true := by
  obtain ⟨d, e, ⟨hd, d', hd', hnew⟩, heffects⟩ := h
  obtain ⟨q, hq, hjob⟩ := System.Started.last ⟨d, hd, rfl⟩
  obtain rfl : q = c := Option.some.inj (hq.symm.trans hc)
  have hlen : (System.moment (storeJob B root) ⟨FS.empty nameMax, []⟩ choices
      (n + 1 + choices.length)).procs[j]? = some q := by
    rw [System.moment_eq_after (by omega)]
    exact hq
  refine ⟨e, (System.trace_grows (by omega) hd' hlen).mem ?_, by rw [hjob]; exact heffects⟩
  rw [hnew]
  exact List.mem_cons_self

theorem WritesAt.mapStep_of (h : WritesAt B root nameMax choices n j)
    (hc : (storeAfter B root nameMax choices).procs[j]? = some c) :
    MapStep B c.job (shown root (storeMoment B root nameMax choices n).fs)
      (shown root (storeMoment B root nameMax choices (n + 1)).fs) := by
  obtain ⟨d, hd, hstep⟩ := h.mapStep
  obtain ⟨q, hq, hjob⟩ := System.Started.last ⟨d, hd, rfl⟩
  rwa [← hjob, Option.some.inj (hq.symm.trans hc)] at hstep

/-- A `Put` that has received what its request announces reports no fault. -/
theorem Orderly.put_not_faulty (h : Orderly B root nameMax choices)
    (hc : (storeAfter B root nameMax choices).procs[j]? = some c) {request : PutChunkRequest}
    {pid address : ℕ} (hcall : c.job.call = .put request pid address) {p : Bytes}
    (hacc : Accepts B c.job.input c.job.source request p) (hvalid : request.Valid) {status : Status}
    (hret : c.prog = .ret (.status status)) : status.code ≠ .kIoError := by
  intro hio
  have hanswer := h.answer hc hret
  have hnames := h.names hc
  rw [hcall] at hnames
  simp only [CallAnswer, hcall] at hanswer
  obtain ⟨status', hstatus, hleaves⟩ := hanswer
  obtain rfl := Answer.status.inj hstatus
  have hput := hleaves.answer
  cases hput with
  | invalid hinvalid _ => exact absurd hvalid hinvalid
  | collided _ hfs hi hm howner => exact absurd (h.not_collided hc hcall hvalid hfs hi hm) howner
  | rejected _ hrej => exact absurd hrej (not_rejects_of_accepts hacc)
  | present _ _ _ _ hcode => exact absurd (hcode.symm.trans hio) (by simp)
  | stored _ _ hok =>
      rw [hok] at hio
      exact absurd hio (by simp)
  | faulty _ hfs _ hfault =>
      exact absurd ⟨neverFails_calm j c.job, During.fits hfs (hnames hvalid.1)⟩ hfault

/-- **A call that changes the map** does to it what its answer says. -/
theorem Orderly.writes (h : Orderly B root nameMax choices)
    (hc : (storeAfter B root nameMax choices).procs[j]? = some c)
    (hwrites : WritesAt B root nameMax choices n j) :
    (∀ a, c.prog = .ret a → a = .status .Ok) ∧
      Agrees B c.job (shown root (storeMoment B root nameMax choices n).fs) c.trace (.status .Ok)
        (shown root (storeMoment B root nameMax choices (n + 1)).fs) := by
  have hstep := hwrites.mapStep_of hc
  obtain ⟨e, he, heffects⟩ := hwrites.mem_trace hc
  generalize shown root (storeMoment B root nameMax choices (n + 1)).fs = m' at hstep ⊢
  have htrace := traceOf_after hc
  cases hstep with
  | @put request pid address p hcall hvalid hacc hnone =>
      simp only [TraceOf, hcall] at htrace
      simp only [effects, hcall] at heffects
      have hone : CommitCount 1 c.trace ∧ ∀ a, c.prog = .ret a →
          ∃ status, a = .status status ∧ (status = .Ok ∨ status.code = .kIoError) := by
        rcases htrace.2 with hzero | hone
        · exact absurd (linked_of_linksTo heffects) (List.countP_eq_zero.1 hzero.2 e he)
        · exact hone
      refine ⟨fun a hret => ?_, ?_⟩
      · obtain ⟨status, rfl, rfl | hio⟩ := hone.2 a hret
        · rfl
        · -- nothing failed, so it does not say so
          exact absurd hio (h.put_not_faulty hc hcall hacc hvalid hret)
      · simp only [Agrees, hcall]
        refine ⟨?_, hone.1.1, htrace.1⟩
        rw [MapStore.put_accepts hvalid hacc, if_pos hnone]
        rfl
  | @delete chunkId p hcall hid hsome =>
      simp only [TraceOf, hcall] at htrace
      simp only [effects, hcall] at heffects
      refine ⟨fun a hret => ?_, ?_⟩
      · have hanswer := h.answer hc hret
        simp only [CallAnswer, hcall] at hanswer
        obtain ⟨status, rfl, hdelete⟩ := hanswer
        have hfailed : ∀ {e' : Errno}, c.trace ≠ [⟨.inl (.unlink (pathFor root chunkId)), .error e'⟩] := by
          intro e' ht
          rw [ht, List.mem_singleton] at he
          rw [he] at heffects
          exact absurd heffects (by simp [unlinks])
        cases hdelete with
        | invalid hno _ _ => exact absurd hid hno
        | absent _ _ _ _ ht => exact absurd ht hfailed
        | faulty _ _ _ _ ht => exact absurd ht hfailed
        | deleted _ hok _ => rw [hok]
      · simp only [Agrees, hcall]
        refine ⟨?_, htrace.1⟩
        rw [MapStore.delete, MapStore.find_some hid hsome]
        rfl

theorem WritesAt.lt_length (h : WritesAt B root nameMax choices n j) : n < choices.length := by
  obtain ⟨o, hact⟩ := h.chosen
  exact (List.getElem?_eq_some_iff.1 hact).1

end Points

/-! ## The order of the calls -/

/-- Call `j` may take the map from `m` to `m'` with the answer it has given, or with an OK if it has not
    returned yet. -/
def ActsOn (B : Blake3) (s : StoreSystem σ τ) (j : ℕ) (m m' : MapStore.Map) : Prop :=
  ∃ c a, s.procs[j]? = some c ∧ (c.prog = .ret a ∨ ¬ c.prog.Returned ∧ a = .status .Ok) ∧
    Agrees B c.job m c.trace a m'

/-- The calls of the list, one after another on a map that is empty at first, give their answers and
    leave the map the root shows. Every call that has returned is among them, and nobody comes before a
    call that had returned when it was started. -/
structure Linearizes (B : Blake3) (root : Bytes) (nameMax : ℕ)
    (choices : List (Choice (Invocation σ τ))) (order : List ℕ) : Prop where
  nodup : order.Nodup
  returned : ∀ {j : ℕ} {c : StoreProcess σ τ}, (storeAfter B root nameMax choices).procs[j]? = some c →
    c.prog.Returned → j ∈ order
  serial : Serial (ActsOn B (storeAfter B root nameMax choices)) (fun _ => none) order
    (shown root (storeAfter B root nameMax choices).fs)
  realTime : order.Pairwise fun i j =>
    ¬ System.Precedes (storeJob B root) ⟨FS.empty nameMax, []⟩ choices j i

section Order

variable {nameMax : ℕ} {choices : List (Choice (Invocation σ τ))}

/-- The moment of a call: the step with which it changes the map, or one at which the map gives its
    answer. A call that is still under way and has changed nothing has none. -/
def IsPoint (B : Blake3) (root : Bytes) (nameMax : ℕ) (choices : List (Choice (Invocation σ τ)))
    (j : ℕ) : Option ℕ → Prop
  | some n => LiveAt B root nameMax choices j n ∧ n < choices.length ∧
      (WritesAt B root nameMax choices n j ∨ (∀ m, ¬ WritesAt B root nameMax choices m j) ∧
        ActsOn B (storeAfter B root nameMax choices) j
          (shown root (storeMoment B root nameMax choices n).fs)
          (shown root (storeMoment B root nameMax choices n).fs))
  | none => (∀ m, ¬ WritesAt B root nameMax choices m j) ∧
      ∀ c, (storeAfter B root nameMax choices).procs[j]? = some c → ¬ c.prog.Returned

theorem Orderly.exists_point (h : Orderly B root nameMax choices) (j : ℕ) :
    ∃ o, IsPoint B root nameMax choices j o := by
  by_cases hwrites : ∃ n, WritesAt B root nameMax choices n j
  · obtain ⟨n, hn⟩ := hwrites
    exact ⟨some n, hn.live, hn.lt_length, Or.inl hn⟩
  · have hno := not_exists.1 hwrites
    by_cases hret : ∃ c a, (storeAfter B root nameMax choices).procs[j]? = some c ∧ c.prog = .ret a
    · obtain ⟨c, a, hc, hret⟩ := hret
      obtain ⟨n, hlive, hagrees⟩ := h.reads hc hret hno
      exact ⟨some n, hlive, hlive.lt_length hc (by rw [hret]; trivial),
        Or.inr ⟨hno, c, a, hc, Or.inl hret, hagrees⟩⟩
    · refine ⟨none, hno, fun c hc hreturned => hret ?_⟩
      cases hprog : c.prog with
      | ret a => exact ⟨c, a, hc, hprog⟩
      | call op again k =>
          rw [hprog] at hreturned
          exact absurd hreturned fun h => h

theorem Orderly.points (h : Orderly B root nameMax choices) {point writer : ℕ → Option ℕ}
    (hpoint : ∀ j, IsPoint B root nameMax choices j (point j))
    (hwriter : ∀ n j, writer n = some j ↔ WritesAt B root nameMax choices n j) :
    Points (ActsOn B (storeAfter B root nameMax choices))
      (fun n => shown root (storeMoment B root nameMax choices n).fs)
      (storeAfter B root nameMax choices).procs.length point writer where
  writes {n j} hn := by
    have hwrites := (hwriter n j).1 hn
    obtain ⟨d, hd, -⟩ := hwrites.mapStep
    obtain ⟨c, hc, -⟩ := System.Started.last ⟨d, hd, rfl⟩
    obtain ⟨hanswer, hagrees⟩ := h.writes hc hwrites
    have hgiven : c.prog = .ret (.status .Ok) ∨ ¬ c.prog.Returned ∧ Answer.status .Ok = .status .Ok := by
      cases hprog : c.prog with
      | ret a => exact Or.inl (by rw [hanswer a hprog])
      | call op again k => exact Or.inr ⟨id, rfl⟩
    refine ⟨(List.getElem?_eq_some_iff.1 hc).1, ?_, c, _, hc, hgiven, hagrees⟩
    have hj := hpoint j
    cases hp : point j with
    | none =>
        rw [hp] at hj
        exact absurd hwrites (hj.1 n)
    | some m =>
        rw [hp] at hj
        rcases hj.2.2 with hm | ⟨hno, -⟩
        · rw [hm.moment_unique hwrites]
        · exact absurd hwrites (hno n)
  still {n} hn := by
    refine shown_still fun j hwrites => ?_
    rw [(hwriter n j).2 hwrites] at hn
    exact absurd hn (by simp)
  reads {n j} _ hp hn := by
    have hj := hpoint j
    rw [hp] at hj
    rcases hj.2.2 with hwrites | ⟨-, hacts⟩
    · exact absurd ((hwriter n j).2 hwrites) hn
    · exact hacts

/-- The files are those of the map the root shows. -/
theorem contents_shown_after (B : Blake3) (root : Bytes) (nameMax : ℕ)
    (choices : List (Choice (Invocation σ τ))) (chunkId : ChunkId) :
    (storeAfter B root nameMax choices).fs.contents (pathFor root chunkId)
      = (shown root (storeAfter B root nameMax choices).fs chunkId).map (chunkFile B) := by
  have htidy := store_tidy B root nameMax choices choices.length
  rw [storeMoment, System.moment_length] at htidy
  exact htidy.contents_shown chunkId

theorem Orderly.linearizes (h : Orderly B root nameMax choices) :
    ∃ order, Linearizes B root nameMax choices order := by
  have hlast : storeMoment B root nameMax choices choices.length = storeAfter B root nameMax choices :=
    System.moment_length _ _ _
  choose point hpoint using h.exists_point
  have hwriter : ∀ n, ∃ o : Option ℕ, ∀ j, o = some j ↔ WritesAt B root nameMax choices n j := by
    intro n
    by_cases hsome : ∃ j, WritesAt B root nameMax choices n j
    · obtain ⟨j, hj⟩ := hsome
      refine ⟨some j, fun k => ⟨fun hk => ?_, fun hk => ?_⟩⟩
      · rw [← Option.some.inj hk]
        exact hj
      · rw [hj.process_unique hk]
    · exact ⟨none, fun k => ⟨fun hk => absurd hk (by simp), fun hk => absurd ⟨k, hk⟩ hsome⟩⟩
  choose writer hwriter using hwriter
  have hlive : ∀ {j n}, point j = some n → LiveAt B root nameMax choices j n ∧ n < choices.length := by
    intro j n hn
    have hj := hpoint j
    rw [hn] at hj
    exact ⟨hj.1, hj.2.1⟩
  obtain ⟨order, hnodup, hmem, hserial, hpairwise⟩ := (h.points hpoint hwriter).linearizes
    (fun hn => (hlive hn).2) (fun {i j a b} (hbefore : System.Precedes (storeJob B root)
      ⟨FS.empty nameMax, []⟩ choices i j) hi hj => hbefore.lt (hlive hi).1 (hlive hj).1)
  refine ⟨order, hnodup, fun {j c} hc hret => ?_, ?_, hpairwise⟩
  · refine (hmem j).2 ⟨(List.getElem?_eq_some_iff.1 hc).1, ?_⟩
    have hj := hpoint j
    cases hp : point j with
    | none =>
        rw [hp] at hj
        exact absurd hret (hj.2 c hc)
    | some n => rfl
  · have hstart : shown root (storeMoment B root nameMax choices 0).fs = fun _ => none :=
      shown_empty nameMax
    rw [hstart, hlast] at hserial
    exact hserial

end Order

/-- **The store is linearizable.** In every orderly run, at whatever point it stops, there is an order of
    the calls in which each of them takes effect at one moment between its start and its return: one
    after another on the map, in this order, they give the answers they gave and leave the chunks that
    are visible. -/
theorem calls_linearizable (B : Blake3) (root : Bytes) (nameMax : ℕ)
    (choices : List (Choice (Invocation σ τ))) (h : Orderly B root nameMax choices) :
    (∃ order, Linearizes B root nameMax choices order) ∧
      ∀ chunkId, (storeAfter B root nameMax choices).fs.contents (pathFor root chunkId)
        = (shown root (storeAfter B root nameMax choices).fs chunkId).map (chunkFile B) :=
  ⟨h.linearizes, contents_shown_after B root nameMax choices⟩

/-- A `Get` that overlaps with a `Delete`: the calls of the run. -/
theorem overlap_jobs {j : ℕ} {c : StoreProcess Bytes Unit}
    (h : (storeAfter Blake3.sample [0x72] 255 (onePut ++ sampleHeadTurns ++ deleteTurns)).procs[j]?
      = some c) :
    (j = 0 ∧ c.job.call = .put (samplePut [0x61]) 1 2) ∨ (j = 1 ∧ c.job.call = .get sampleGet) ∨
      (j = 2 ∧ c.job.call = .delete ⟨[0x61]⟩) := by
  have hjob : ((storeAfter Blake3.sample [0x72] 255
      (onePut ++ sampleHeadTurns ++ deleteTurns)).procs.map Process.job)[j]? = some c.job := by
    rw [List.getElem?_map, h]
    rfl
  have hjobs : (storeAfter Blake3.sample [0x72] 255
      (onePut ++ sampleHeadTurns ++ deleteTurns)).procs.map Process.job
      = [sampleInvocation (.put (samplePut [0x61]) 1 2) [0x61], sampleInvocation (.get sampleGet) [],
        sampleInvocation (.delete ⟨[0x61]⟩) []] :=
    System.jobs_after _ _ _
  rw [hjobs] at hjob
  match j with
  | 0 => exact Or.inl ⟨rfl, by rw [← Option.some.inj hjob]; rfl⟩
  | 1 => exact Or.inr (Or.inl ⟨rfl, by rw [← Option.some.inj hjob]; rfl⟩)
  | 2 => exact Or.inr (Or.inr ⟨rfl, by rw [← Option.some.inj hjob]; rfl⟩)
  | j + 3 => simp at hjob

theorem calls_linearizable_overlap :
    ∃ order, Linearizes Blake3.sample [0x72] 255 (onePut ++ sampleHeadTurns ++ deleteTurns) order := by
  refine (calls_linearizable Blake3.sample [0x72] 255 _ ⟨?_, fun {j c} hc _ => ?_, ?_⟩).1
  · refine System.admits_of_admitted
      (fun _ v op w o => decide (World.NoFailure op w o) && reopenCovers v op w) ?_
      (by decide +kernel)
    intro j v op w o h
    rw [Bool.and_eq_true, decide_eq_true_eq] at h
    exact ⟨h.1, reopenCovers_spec h.2⟩
  · rcases overlap_jobs hc with ⟨-, hcall⟩ | ⟨-, hcall⟩ | ⟨-, hcall⟩ <;> rw [hcall] <;> decide +kernel
  · intro n i j c d request request' pid address hc hd _ _ hput hput' _
    -- there is only one `Put`
    have hfirst : ∀ {k : ℕ} {p : StoreProcess Bytes Unit} {r : PutChunkRequest},
        (storeMoment Blake3.sample [0x72] 255 (onePut ++ sampleHeadTurns ++ deleteTurns) n).procs[k]?
          = some p → p.job.call = .put r pid address → k = 0 := by
      intro k p r hp hcall
      obtain ⟨q, hq, hjob⟩ := System.Started.last ⟨p, hp, rfl⟩
      rw [← hjob] at hcall
      rcases overlap_jobs hq with ⟨rfl, -⟩ | ⟨-, hother⟩ | ⟨-, hother⟩
      · rfl
      · rw [hother] at hcall
        exact absurd hcall (by simp)
      · rw [hother] at hcall
        exact absurd hcall (by simp)
    rw [hfirst hc hput, hfirst hd hput']

end ChunkStorage
