import ChunkStorage.Commits
import ChunkStorage.PutAmong

set_option autoImplicit false

/-! # What the calls answer among others

The traces of the calls say what they have done (`TraceOf`), and `CallAnswer` why they return what they
return. Both hold in every run, whatever the outcomes of the system calls are. The first use of them is
that no `Put` that has returned leaves its temporary file behind. -/

namespace ChunkStorage

open Effects Posix Program

variable {σ τ : Type} {B : Blake3} {root : Bytes}

/-! ## Traces -/

/-- The operation hands out nothing and commits nothing. -/
def Prepares (op : StoreSig.Op) (again : StoreSig.Ret op → Bool) : Prop :=
  Retries op again ∧
    match op with
    | .inl (.link _ _) | .inr (.write _) => False
    | _ => True

theorem prepares_sys {s : Syscall} (h : ∀ old new, s ≠ .link old new) :
    Prepares (.inl s) (fun _ => false) := by
  refine ⟨fun r ha => absurd ha (by simp), ?_⟩
  cases s with
  | link old new => exact absurd rfl (h old new)
  | createDirectories _ | openExcl _ | openRead _ | write _ _ | pread _ _ _ | read _ _ | fstat _
  | fdatasync _ | unlink _ | openDirectory _ | fsync _ | «exists» _ => trivial

/-- Nothing was handed out, and there are `n` commits. -/
def CommitCount (n : ℕ) (t : List (Event StoreSig)) : Prop := handed t = [] ∧ t.countP linked = n

theorem Prepares.again {op : StoreSig.Op} {again : StoreSig.Ret op → Bool} (h : Prepares op again)
    {r : StoreSig.Ret op} (ha : again r = true) (t : List (Event StoreSig)) :
    World.record op r t = t := by
  cases op with
  | inl s => exact if_pos (h.1 r ha)
  | inr op => exact absurd ha (by simp [h.1 r])

theorem Prepares.commits {op : StoreSig.Op} {again : StoreSig.Ret op → Bool} (h : Prepares op again)
    {r : StoreSig.Ret op} {n : ℕ} {t : List (Event StoreSig)} (ht : CommitCount n t) :
    CommitCount n (World.record op r t) := by
  cases op with
  | inl s =>
      show CommitCount n (if s.interrupted r then t else ⟨.inl s, r⟩ :: t)
      split
      · exact ht
      · refine ⟨(handed_sys s r t).trans ht.1, ?_⟩
        have hno : linked ⟨.inl s, r⟩ = false := by
          cases s with
          | link old new => exact h.2.elim
          | createDirectories _ | openExcl _ | openRead _ | write _ _ | pread _ _ _ | read _ _ | fstat _
          | fdatasync _ | unlink _ | openDirectory _ | fsync _ | «exists» _ => rfl
        rw [List.countP_cons, hno, ht.2]
        rfl
  | inr op =>
      cases op with
      | write data => exact h.2.elim
      | read size => exact ⟨ht.1, by rw [← ht.2]; rfl⟩

/-- A program that prepares commits nothing. -/
theorem tracks_of_prepares {α : Type} {p : Program StoreSig α} (hp : p.Performs Prepares) {n : ℕ}
    {t : List (Event StoreSig)} (ht : CommitCount n t) :
    p.Tracks (fun _ _ => True) World.record (fun t _ => CommitCount n t) t :=
  hp.tracks (fun h ha => h.again ha _) (fun h ht => h.commits ht) ht

theorem writeAll_prepares (fd : ℕ) (data : Bytes) :
    (writeAll (B := Streams) fd data).Performs Prepares := by
  have hloop : ∀ rounds data, (writeAllLoop (B := Streams) fd rounds data).Performs Prepares := by
    intro rounds
    induction rounds with
    | zero => exact fun _ => trivial
    | succ rounds ih =>
        intro data
        unfold writeAllLoop
        split
        · trivial
        · refine performs_retrying.2 ⟨⟨fun r ha => ha, trivial⟩, fun r => ?_⟩
          cases r with
          | wrote n => exact ih _
          | nothing e | failed e => trivial
  exact hloop data.length data

theorem receive_prepares (request : PutChunkRequest) (fd rounds : ℕ) (hasher : B.Hasher)
    (received : UInt64) : (receive B request fd rounds hasher received).Performs Prepares := by
  induction rounds generalizing hasher received with
  | zero => trivial
  | succ rounds ih =>
      unfold receive
      refine performs_perform.2 ⟨⟨fun _ => rfl, trivial⟩, fun r => ?_⟩
      cases r with
      | error s => trivial
      | ok bytes =>
          dsimp only
          split
          · trivial
          · split
            · trivial
            · refine (writeAll_prepares fd bytes).bind fun status => ?_
              split
              · trivial
              · exact ih _ _

theorem fill_prepares (request : PutChunkRequest) (temp : Path) (fd : ℕ) :
    (fill B request temp fd).Performs Prepares := by
  unfold fill
  refine (writeAll_prepares fd _).bind fun status => ?_
  split
  · trivial
  · refine (receive_prepares request fd _ _ _).bind fun r => ?_
    cases r with
    | error status => trivial
    | ok x =>
        dsimp only
        split
        · trivial
        · split
          · trivial
          · refine performs_perform.2 ⟨prepares_sys (by simp), fun r => ?_⟩
            cases r <;> trivial

theorem preadSome_prepares (fd count : ℕ) (offset : UInt64) :
    (preadSome fd count offset).Performs Prepares := by
  unfold preadSome
  split
  · trivial
  · refine performs_retrying.2 ⟨⟨fun r ha => ha, trivial⟩, fun r => ?_⟩
    cases r <;> trivial

theorem head_prepares (chunkId : ChunkId) : (head root chunkId).Performs Prepares := by
  have hloop : ∀ fd rounds read, (readHeaderLoop fd rounds read).Performs Prepares := by
    intro fd rounds
    induction rounds with
    | zero => exact fun _ => trivial
    | succ rounds ih =>
        intro read
        unfold readHeaderLoop
        split
        · refine (preadSome_prepares _ _ _).bind fun r => ?_
          cases r with
          | error s => trivial
          | ok bytes =>
              dsimp only
              split
              · trivial
              · exact ih _
        · trivial
  unfold head
  dsimp only
  split
  · trivial
  · refine performs_perform.2 ⟨prepares_sys (by simp), fun r => ?_⟩
    cases r with
    | error e => trivial
    | ok fd =>
        dsimp only
        unfold readHeader
        refine (hloop _ _ _).bind fun r => ?_
        cases r with
        | error s => trivial
        | ok header =>
            dsimp only
            split
            · trivial
            · split
              · trivial
              · refine performs_perform.2 ⟨prepares_sys (by simp), fun r => ?_⟩
                cases r with
                | error e => trivial
                | ok stSize =>
                    dsimp only
                    split <;> trivial

/-- A `Put` commits at most once, and answers OK or `kIoError` then. -/
def PutTrace (request : PutChunkRequest) (t : List (Event StoreSig)) (p : Program StoreSig Status) :
    Prop :=
  (¬ request.Valid → t = []) ∧
    (CommitCount 0 t ∨ CommitCount 1 t ∧ ∀ status, p = .ret status → status = .Ok ∨ status.code = .kIoError)

theorem commit_traces {request : PutChunkRequest} (hvalid : request.Valid) (temp : Path)
    {t : List (Event StoreSig)} (ht : CommitCount 0 t) :
    (commit root request temp).Tracks (fun _ _ => True) World.record (PutTrace request) t := by
  have hno : ∀ {t : List (Event StoreSig)}, ¬ request.Valid → t = [] := fun h => absurd hvalid h
  unfold commit
  refine tracks_perform ⟨hno, Or.inl ht⟩ fun r _ => ?_
  cases r with
  | error e =>
      have ht₁ : CommitCount 0 (World.record (.inl (.link temp (pathFor root request.chunkId)))
          (.error e) t) := ht
      refine tracks_perform ⟨hno, Or.inl ht₁⟩ fun r _ => ?_
      have ht₂ := (prepares_sys (s := .unlink temp) (by simp)).commits (r := r) ht₁
      dsimp only
      split <;> exact ⟨hno, Or.inl ht₂⟩
  | ok u =>
      have ht₁ : CommitCount 1 (World.record (.inl (.link temp (pathFor root request.chunkId)))
          (.ok u) t) := by
        refine ⟨ht.1, ?_⟩
        show List.countP linked
          (⟨.inl (.link temp (pathFor root request.chunkId)), .ok u⟩ :: t) = 1
        rw [List.countP_cons, ht.2]
        rfl
      have hgoes : ∀ {t : List (Event StoreSig)} {op again} {k : StoreSig.Ret op → Program StoreSig Status},
          CommitCount 1 t → PutTrace request t (.call op again k) :=
        fun ht => ⟨hno, Or.inr ⟨ht, fun _ h => absurd h (by simp)⟩⟩
      refine tracks_perform (hgoes ht₁) fun r _ => ?_
      have ht₂ := (prepares_sys (s := .unlink temp) (by simp)).commits (r := r) ht₁
      refine tracks_perform (hgoes ht₂) fun r _ => ?_
      have ht₃ := (prepares_sys (s := .openDirectory root) (by simp)).commits (r := r) ht₂
      cases r with
      | error e =>
          refine ⟨hno, Or.inr ⟨ht₃, fun status h => ?_⟩⟩
          exact Or.inr (Program.ret.inj h ▸ rfl)
      | ok u =>
          refine tracks_perform (hgoes ht₃) fun r _ => ?_
          have ht₄ := (prepares_sys (s := .fsync root) (by simp)).commits (r := r) ht₃
          cases r with
          | error e =>
              refine ⟨hno, Or.inr ⟨ht₄, fun status h => ?_⟩⟩
              exact Or.inr (Program.ret.inj h ▸ rfl)
          | ok u =>
              refine ⟨hno, Or.inr ⟨ht₄, fun status h => ?_⟩⟩
              exact Or.inl (Program.ret.inj h).symm

theorem put_traces (request : PutChunkRequest) (pid address : ℕ) :
    (put B root request pid address).Tracks (fun _ _ => True) World.record (PutTrace request) [] := by
  have hstart : CommitCount 0 [] := ⟨rfl, rfl⟩
  unfold put
  by_cases hid : (validateId request.chunkId).ok = true
  · by_cases hsum : request.expectedChecksum.WellFormed
    · have hvalid : request.Valid := ⟨hid, hsum⟩
      have hno : ∀ {t : List (Event StoreSig)}, ¬ request.Valid → t = [] := fun h => absurd hvalid h
      simp only [hid, (validateChecksum_ok _).2 hsum, Bool.not_true, Bool.false_eq_true, if_false]
      refine tracks_perform ⟨hno, Or.inl hstart⟩ fun r _ => ?_
      have ht₁ := (prepares_sys (s := .createDirectories root) (by simp)).commits (r := r) hstart
      cases r with
      | error e => exact ⟨hno, Or.inl ht₁⟩
      | ok u =>
          refine tracks_perform ⟨hno, Or.inl ht₁⟩ fun r _ => ?_
          have ht₂ := (prepares_sys (s := .openExcl (tempPath root request.chunkId pid address))
            (by simp)).commits (r := r) ht₁
          cases r with
          | error e => exact ⟨hno, Or.inl ht₂⟩
          | ok fd =>
              refine (tracks_of_prepares (fill_prepares request _ fd) ht₂).bind ?_ ?_
              · intro t op again k ht
                exact ⟨hno, Or.inl ht⟩
              · intro t r ht
                cases r with
                | error status =>
                    refine tracks_perform ⟨hno, Or.inl ht⟩ fun r _ => ?_
                    exact ⟨hno, Or.inl ((prepares_sys (s := .unlink _) (by simp)).commits ht)⟩
                | ok u => exact commit_traces hvalid _ ht
    · have hfail : (validateChecksum request.expectedChecksum).ok = false := by
        simpa using fun h => hsum ((validateChecksum_ok _).1 h)
      simp only [hid, hfail, Bool.not_true, Bool.not_false, Bool.false_eq_true, if_false, if_true]
      exact ⟨fun _ => rfl, Or.inl hstart⟩
  · have hfail : (validateId request.chunkId).ok = false := by simpa using hid
    simp only [hfail, Bool.not_false, if_true]
    exact ⟨fun _ => rfl, Or.inl hstart⟩

/-- What the trace of a call says of it. -/
def TraceOf (v : Invocation σ τ) (t : List (Event StoreSig)) (p : Program StoreSig Answer) : Prop :=
  match v.call with
  | .put request _ _ => (¬ request.Valid → t = []) ∧ (CommitCount 0 t ∨ CommitCount 1 t ∧
      ∀ a, p = .ret a → ∃ status, a = .status status ∧ (status = .Ok ∨ status.code = .kIoError))
  | .get _ => True
  | .head _ | .size _ | .exists _ => handed t = []
  | .delete _ => handed t = [] ∧ t.length ≤ 1

theorem get_retries (request : GetChunkRequest) : (get root request).Performs Retries := by
  have hloop : ∀ fd rounds remaining offset, (getLoop fd rounds remaining offset).Performs Retries := by
    intro fd rounds
    induction rounds with
    | zero => exact fun _ _ => trivial
    | succ rounds ih =>
        intro remaining offset
        unfold getLoop
        split
        · refine ((preadSome_prepares _ _ _).imp fun _ _ h => h.1).bind fun r => ?_
          cases r with
          | error s => trivial
          | ok bytes =>
              dsimp only
              split
              · trivial
              · refine performs_perform.2 ⟨fun _ => rfl, fun status => ?_⟩
                split
                · trivial
                · exact ih _ _
        · trivial
  unfold get
  refine ((head_prepares request.chunkId).imp fun _ _ h => h.1).bind fun r => ?_
  cases r with
  | error s => trivial
  | ok response =>
      dsimp only
      split
      · trivial
      · refine performs_perform.2 ⟨fun r ha => absurd ha (by simp), fun r => ?_⟩
        cases r with
        | error e => trivial
        | ok fd => exact hloop _ _ _ _

theorem call_traces (v : Invocation σ τ) :
    (v.call.program B root).Tracks (fun _ _ => True) World.record (TraceOf v) [] := by
  have hquiet : ∀ {α : Type} {p : Program StoreSig α} (f : α → Answer), p.Performs Prepares →
      (∀ {t q}, handed t = [] → TraceOf v t q) →
      (p >>= fun a => pure (f a)).Tracks (fun _ _ => True) World.record (TraceOf v) [] := by
    intro α p f hp hall
    refine (tracks_of_prepares hp ⟨rfl, rfl⟩).bind ?_ ?_
    · exact fun t op again k ht => hall ht.1
    · exact fun t a ht => hall ht.1
  cases hcall : v.call with
  | put request pid address =>
      refine (put_traces request pid address).bind ?_ ?_
      · intro t op again k ht
        simp only [TraceOf, hcall]
        refine ⟨ht.1, ht.2.imp_right fun hone => ⟨hone.1, fun a h => absurd h (by simp)⟩⟩
      · intro t status ht
        simp only [pure_eq_ret, Tracks, TraceOf, hcall]
        refine ⟨ht.1, ht.2.imp_right fun hone => ⟨hone.1, fun a h => ?_⟩⟩
        exact ⟨status, (Program.ret.inj h).symm, hone.2 status rfl⟩
  | get request =>
      have hretries : ((get root request) >>= fun status => pure (Answer.status status)).Performs
          Retries := (get_retries request).bind fun _ => trivial
      refine (hretries.tracks (I := fun _ => True) (fun {op _ r t} h ha => ?_)
        (fun _ _ => trivial) trivial).imp ?_
      · cases op with
        | inl s => exact if_pos (h r ha)
        | inr op => exact absurd ha (by simp [h r])
      · intro t p _
        simp only [TraceOf, hcall]
  | head chunkId =>
      exact hquiet _ (head_prepares chunkId) fun ht => by simpa only [TraceOf, hcall] using ht
  | size chunkId =>
      refine hquiet _ ((head_prepares chunkId).bind fun r => ?_) fun ht => by
        simpa only [TraceOf, hcall] using ht
      cases r <;> trivial
  | «exists» chunkId =>
      refine hquiet _ ((head_prepares chunkId).bind fun r => trivial) fun ht => by
        simpa only [TraceOf, hcall] using ht
  | delete chunkId =>
      have hall : ∀ {t p}, handed t = [] ∧ t.length ≤ 1 → TraceOf v t p := by
        intro t p ht
        simpa only [TraceOf, hcall] using ht
      unfold Call.program delete
      dsimp only
      split
      · exact hall ⟨rfl, Nat.zero_le _⟩
      · refine tracks_perform (hall ⟨rfl, Nat.zero_le _⟩) fun r _ => ?_
        cases r <;> exact hall ⟨rfl, le_rfl⟩

/-! ## Answers -/

section Answers

variable {T : ℕ → Invocation σ τ → Prop} {O : ℕ → FS → Prop} {j : ℕ} {v : Invocation σ τ}
  {ok : ℕ → Invocation σ τ → (op : StoreSig.Op) → StoreWorld σ τ → Outcome → Prop}

/-- Why a `Delete` among other calls returns the status, and what it has done. -/
inductive DeleteAnswer (ok : (op : StoreSig.Op) → StoreWorld σ τ → Outcome → Prop) (root : Bytes)
    (O : FS → Prop) (chunkId : ChunkId) (status : Status) (t : List (Event StoreSig)) : Prop
  | invalid : (validateId chunkId).ok ≠ true → status.code = .kInvalidArgument → t = [] →
      DeleteAnswer ok root O chunkId status t
  | absent {fs : FS} {e : Errno} : (validateId chunkId).ok = true → O fs →
      fs.dir (pathFor root chunkId) = none → status.code = .kNotFound →
      t = [⟨.inl (.unlink (pathFor root chunkId)), .error e⟩] → DeleteAnswer ok root O chunkId status t
  | faulty {fs : FS} {e : Errno} : (validateId chunkId).ok = true → O fs → status.code = .kIoError →
      ¬ (World.NeverFails ok ∧ fs.Fits (pathFor root chunkId)) →
      t = [⟨.inl (.unlink (pathFor root chunkId)), .error e⟩] → DeleteAnswer ok root O chunkId status t
  | deleted : (validateId chunkId).ok = true → status = .Ok →
      t = [⟨.inl (.unlink (pathFor root chunkId)), .ok ()⟩] → DeleteAnswer ok root O chunkId status t

/-- Why a `Head` among other calls returns the response. -/
def HeadAnswer (ok : (op : StoreSig.Op) → StoreWorld σ τ → Outcome → Prop) (B : Blake3) (root : Bytes)
    (T : ℕ → Invocation σ τ → Prop) (O : FS → Prop) (chunkId : ChunkId)
    (r : StatusOr HeadChunkResponse) : Prop :=
  ((validateId chunkId).ok ≠ true ∧ ∃ s : ErrorStatus, r = .error s ∧ s.1.code = .kInvalidArgument) ∨
    ∃ w, HeadDone ok root chunkId (Watching B root T O []) (WatchingFile B root T O []) r w

/-- Why a call that has returned answers what it answers. -/
def CallAnswer (B : Blake3) (root : Bytes)
    (ok : ℕ → Invocation σ τ → (op : StoreSig.Op) → StoreWorld σ τ → Outcome → Prop)
    (T : ℕ → Invocation σ τ → Prop) (O : ℕ → FS → Prop) (j : ℕ) (v : Invocation σ τ) (a : Answer)
    (w : StoreWorld σ τ) : Prop :=
  match v.call with
  | .put request pid address => ∃ status, a = .status status ∧
      PutLeaves (ok j v) B root T (O j) j v request pid address status w
  | .get request => ∃ status, a = .status status ∧
      (((validateId request.chunkId).ok ≠ true ∧ status.code = .kInvalidArgument ∧
          handed w.trace = []) ∨
        ∃ w₀, w₀.trace = w.trace ∧ GetDone (ok j v) v.output root request
          (Watching B root T (O j) []) (WatchingFile B root T (O j) [])
          (WatchingFile B root T (O j)) status w₀)
  | .head chunkId => ∃ r, a = .head r ∧ HeadAnswer (ok j v) B root T (O j) chunkId r
  | .size chunkId => ∃ r, a = .size (r.map (·.size)) ∧ HeadAnswer (ok j v) B root T (O j) chunkId r
  | .exists chunkId => ∃ r, a = .exists r.isOk ∧ HeadAnswer (ok j v) B root T (O j) chunkId r
  | .delete chunkId => ∃ status, a = .status status ∧
      DeleteAnswer (ok j v) root (O j) chunkId status w.trace

theorem head_answers (chunkId : ChunkId) {w : StoreWorld σ τ} (htidy : Tidy B root T w.fs)
    (hunder : ¬ (head root chunkId).Returned → O j w.fs) (hhanded : handed w.trace = []) :
    (head root chunkId).Safe ((v.handler j).sem (ok j v))
      (Interferes (Interference B root T j) (O j)) (Guarantee B root j v)
      (fun r _ => HeadAnswer (ok j v) B root T (O j) chunkId r) w := by
  by_cases hid : (validateId chunkId).ok = true
  · have hO := hunder (head_not_returned hid)
    exact (head_shared chunkId ⟨htidy, hO, hhanded⟩).imp fun r w' hdone => Or.inr ⟨w', hdone⟩
  · have hno : (validateId chunkId).ok = false := by simpa using hid
    rw [head_of_invalid hid]
    refine Or.inl ⟨hid, _, rfl, ?_⟩
    rw [StatusOr.normalizeError_of_not_ok hno]
    exact validateId_code hid

theorem delete_answers {chunkId : ChunkId} (hcall : v.call = .delete chunkId) {w : StoreWorld σ τ}
    (htrace : w.trace = []) :
    (delete root chunkId).Safe ((v.handler j).sem (ok j v))
      (Interferes (Interference B root T j) (O j)) (Guarantee B root j v)
      (fun status w' => DeleteAnswer (ok j v) root (O j) chunkId status w'.trace) w := by
  unfold delete
  by_cases hid : (validateId chunkId).ok = true
  · simp only [hid, Bool.not_true, Bool.false_eq_true, if_false]
    refine safe_perform.2 fun w₁ hR r w₂ hH => ?_
    have htrace₁ : w₁.trace = [] := hR.1.2.1.trans htrace
    obtain ⟨o, fds', fs', hok, hexec, rfl⟩ := World.sem_sys hH
    obtain ⟨rfl, ⟨e, rfl, rfl, hmissing, hcalm⟩ | ⟨i, hi, rfl, rfl⟩⟩ := unlink_cases hexec
    · have hlast : (w₁.answered (.unlink (pathFor root chunkId)) (.error e) w₁.fds w₁.fs).trace
          = [⟨.inl (.unlink (pathFor root chunkId)), .error e⟩] := by
        rw [← htrace₁]
        rfl
      refine ⟨Guarantee.looks _ _ _ rfl, ?_⟩
      by_cases he : e = .ENOENT
      · simp only [if_pos he]
        exact .absent hid hR.2.2 (hmissing he) rfl hlast
      · simp only [if_neg he]
        exact .faulty hid hR.2.2 rfl (fun hn => he (hcalm (hn.1 _ _ _ hok).1 hn.2)) hlast
    · refine ⟨Or.inr ⟨_, rfl, .deletes hcall (by simp [hi])⟩, .deleted hid rfl ?_⟩
      rw [← htrace₁]
      rfl
  · have hno : (validateId chunkId).ok = false := by simpa using hid
    simp only [hno, Bool.not_false, if_true]
    exact .invalid hid (validateId_code hid) htrace

/-- **Every call answers for a reason**, from any moment at which the invariant holds. -/
theorem call_answers {w : StoreWorld σ τ} (htidy : Tidy B root T w.fs) (hunborn : Unborn j w.fs)
    (hsource : w.rest.1 = v.source) (htrace : w.trace = [])
    (hunder : ¬ (v.call.program B root).Returned → O j w.fs) :
    (v.call.program B root).Safe ((v.handler j).sem (ok j v))
      (Interferes (Interference B root T j) (O j)) (Guarantee B root j v)
      (CallAnswer B root ok T O j v) w := by
  have hhanded : handed w.trace = [] := by rw [htrace]; rfl
  cases hcall : v.call with
  | put request pid address =>
      refine safe_bind.2 ((put_leaves hcall hunborn hsource).imp fun status w' hend => ?_)
      simp only [pure_eq_ret, safe_ret, CallAnswer, hcall]
      exact ⟨status, rfl, hend⟩
  | get request =>
      rw [hcall] at hunder
      by_cases hid : (validateId request.chunkId).ok = true
      · have hO := hunder fun hret => head_not_returned hid hret.of_bind.of_bind
        refine safe_bind.2 ((get_shared request ⟨htidy, hO, hhanded⟩).imp fun status w' hdone => ?_)
        simp only [pure_eq_ret, safe_ret, CallAnswer, hcall]
        exact ⟨status, rfl, Or.inr ⟨w', rfl, hdone⟩⟩
      · have hno : (validateId request.chunkId).ok = false := by simpa using hid
        simp only [Call.program, get, head_of_invalid hid, ret_bind, StatusOr.ofStatus,
          StatusOr.normalizeError_of_not_ok hno, pure_eq_ret, safe_ret, CallAnswer, hcall]
        exact ⟨_, rfl, Or.inl ⟨hid, validateId_code hid, hhanded⟩⟩
  | head chunkId =>
      rw [hcall] at hunder
      refine safe_bind.2 ((head_answers chunkId htidy (fun hno => hunder fun h => hno h.of_bind)
        hhanded).imp fun r w' hr => ?_)
      simp only [pure_eq_ret, safe_ret, CallAnswer, hcall]
      exact ⟨r, rfl, hr⟩
  | size chunkId =>
      rw [hcall] at hunder
      refine safe_bind.2 (safe_bind.2 ((head_answers chunkId htidy
        (fun hno => hunder fun h => hno h.of_bind.of_bind) hhanded).imp fun r w' hr => ?_))
      cases r with
      | ok response =>
          simp only [pure_eq_ret, safe_ret, CallAnswer, hcall]
          exact ⟨.ok response, rfl, hr⟩
      | error s =>
          simp only [pure_eq_ret, safe_ret, CallAnswer, hcall]
          exact ⟨.error s, rfl, hr⟩
  | «exists» chunkId =>
      rw [hcall] at hunder
      refine safe_bind.2 (safe_bind.2 ((head_answers chunkId htidy
        (fun hno => hunder fun h => hno h.of_bind.of_bind) hhanded).imp fun r w' hr => ?_))
      simp only [pure_eq_ret, safe_ret, CallAnswer, hcall]
      exact ⟨r, rfl, hr⟩
  | delete chunkId =>
      refine safe_bind.2 ((delete_answers hcall htrace).imp fun status w' hr => ?_)
      simp only [pure_eq_ret, safe_ret, CallAnswer, hcall]
      exact ⟨status, rfl, hr⟩

/-- The calls of a store keep the obligations of a `Protocol`, with the reasons of their answers. -/
theorem answerProtocol (B : Blake3) (root : Bytes)
    (ok : ℕ → Invocation σ τ → (op : StoreSig.Op) → StoreWorld σ τ → Outcome → Prop)
    (T : ℕ → Invocation σ τ → Prop) (O : ℕ → FS → Prop) :
    Protocol (storeJob B root) ok T (StoreInv B root T) (Interference B root T) O
      (Guarantee B root) (CallAnswer B root ok T O) where
  refl := (storeProtocol B root ok T O).refl
  trans := (storeProtocol B root ok T O).trans
  others := (storeProtocol B root ok T O).others
  post {j v a w fs'} hQ hI := by
    unfold CallAnswer at hQ ⊢
    cases hcall : v.call with
    | put request pid address =>
        simp only [hcall] at hQ ⊢
        obtain ⟨status, ha, hleaves⟩ := hQ
        exact ⟨status, ha, hleaves.interference hI⟩
    | get _ | head _ | size _ | «exists» _ | delete _ =>
        simp only [hcall] at hQ ⊢
        exact hQ
  start := (storeProtocol B root ok T O).start
  step := (storeProtocol B root ok T O).step
  safe {s} v hT hinv hunder := by
    refine call_answers hinv.tidy (fun i n hn => ?_) rfl rfl hunder
    have := hinv.owners i n hn
    omega

end Answers

/-! ## What is left in the root -/

section Leftovers

variable {ok : ℕ → Invocation σ τ → (op : StoreSig.Op) → StoreWorld σ τ → Outcome → Prop}
  {nameMax : ℕ} {choices : List (Choice (Invocation σ τ))} {n : ℕ}

/-- What holds at each moment of a run, with the reasons of the answers. -/
abbrev AnswersHold (B : Blake3) (root : Bytes)
    (ok : ℕ → Invocation σ τ → (op : StoreSig.Op) → StoreWorld σ τ → Outcome → Prop) (nameMax : ℕ)
    (choices : List (Choice (Invocation σ τ))) (s : StoreSystem σ τ) : Prop :=
  Protocol.Holds (storeJob B root) ok (CallsOf B root nameMax choices)
    (StoreInv B root (CallsOf B root nameMax choices))
    (Interference B root (CallsOf B root nameMax choices)) (During B root nameMax choices)
    (Guarantee B root)
    (CallAnswer B root ok (CallsOf B root nameMax choices) (During B root nameMax choices)) s

theorem answers_hold (hok : StoreAdmits B root ok nameMax choices) (n : ℕ) :
    AnswersHold B root ok nameMax choices (storeMoment B root nameMax choices n) :=
  (answerProtocol B root ok _ _).sound (StoreInv.empty nameMax) (.of_admits hok) n

/-- A call that has returned answers for a reason. -/
theorem AnswersHold.answer {s : StoreSystem σ τ} (h : AnswersHold B root ok nameMax choices s) {j : ℕ}
    {c : StoreProcess σ τ} (hc : s.procs[j]? = some c) {a : Answer} (hret : c.prog = .ret a) :
    CallAnswer B root ok (CallsOf B root nameMax choices) (During B root nameMax choices) j c.job a
      (c.world s.fs) := by
  have hfine := h.fine hc
  unfold Protocol.Fine at hfine
  rwa [hret, safe_ret] at hfine

/-- The `Put` that a temporary file belongs to is under way, or could not remove it. -/
theorem AnswersHold.tempfile {s : StoreSystem σ τ} (h : AnswersHold B root ok nameMax choices s)
    {path : Path} {i : ℕ} {m : Inode} (hi : s.fs.dir path = some i) (hm : s.fs.inodes[i]? = some m)
    (htemp : Tempfile root (CallsOf B root nameMax choices) path m) :
    ∃ c request pid address, s.procs[m.owner]? = some c ∧ c.job.call = .put request pid address ∧
      path = tempPath root request.chunkId pid address ∧
      (¬ c.prog.Returned ∨ (c.trace.any unlinkFailed = true ∧
        ¬ (World.NeverFails (ok m.owner c.job) ∧ s.fs.Fits path))) := by
  obtain ⟨v, request, pid, address, hv, hcall, rfl⟩ := htemp
  have hlt := h.inv.owners i m hm
  have hc : s.procs[m.owner]? = some s.procs[m.owner] := List.getElem?_eq_getElem hlt
  obtain rfl := callsOf_unique (h.jobs hc) hv
  refine ⟨_, request, pid, address, hc, hcall, rfl, ?_⟩
  cases hprog : (s.procs[m.owner]).prog with
  | call op again k => exact Or.inl fun h => h
  | ret a =>
      have hanswer := h.answer hc hprog
      simp only [CallAnswer, hcall] at hanswer
      obtain ⟨status, -, hleaves⟩ := hanswer
      rcases hleaves.vacated with hfailed | hfree
      · exact Or.inr hfailed
      · exact absurd rfl (hfree i m hi hm)

end Leftovers

/-- **Nothing is left over.** At every moment of every run, whatever calls run and whatever the
    outcomes of their system calls are, what is in the root is a complete chunk or the temporary file of
    a `Put` that is under way, or of one that failed to remove it. -/
theorem root_entries_accounted (B : Blake3) (root : Bytes) (nameMax : ℕ)
    (choices : List (Choice (Invocation σ τ))) (n : ℕ) (path : Path) (i : ℕ)
    (hi : (storeMoment B root nameMax choices n).fs.dir path = some i) :
    (∃ chunkId p, path = pathFor root chunkId ∧
      (storeMoment B root nameMax choices n).fs.contents path = some (chunkFile B p)) ∨
    ∃ (j : ℕ) (c : StoreProcess σ τ) (request : PutChunkRequest) (pid address : ℕ),
      (storeMoment B root nameMax choices n).procs[j]? = some c ∧
      c.job.call = .put request pid address ∧ path = tempPath root request.chunkId pid address ∧
      (¬ c.prog.Returned ∨ c.trace.any unlinkFailed = true) := by
  have hholds := answers_hold (admits_anything B root nameMax choices) n
  obtain ⟨m, hm, ⟨hpub, -⟩ | htemp⟩ := hholds.inv.tidy path i (FS.binds_of_dir hi)
  · obtain ⟨p, ⟨v, request, pid, address, -, -, -, rfl, -⟩, hdata⟩ := hpub.version
    refine Or.inl ⟨request.chunkId, p, rfl, ?_⟩
    simp [FS.contents, hi, hm, hdata]
  · obtain ⟨c, request, pid, address, hc, hcall, hpath, hleft⟩ := hholds.tempfile hi hm htemp
    exact Or.inr ⟨m.owner, c, request, pid, address, hc, hcall, hpath, hleft.imp_right And.left⟩

/-- The temporary file of a `Put` that has just created it. -/
theorem root_entries_accounted_created :
    (storeMoment Blake3.sample [0x72] 255 onePut 3).fs.dir (tempPath [0x72] ⟨[0x61]⟩ 1 2) = some 0 ∧
    ∃ (j : ℕ) (c : StoreProcess Bytes Unit) (request : PutChunkRequest) (pid address : ℕ),
      (storeMoment Blake3.sample [0x72] 255 onePut 3).procs[j]? = some c ∧
      c.job.call = .put request pid address ∧
      tempPath [0x72] ⟨[0x61]⟩ 1 2 = tempPath [0x72] request.chunkId pid address ∧
      (¬ c.prog.Returned ∨ c.trace.any unlinkFailed = true) := by
  have hi : (storeMoment Blake3.sample [0x72] 255 onePut 3).fs.dir (tempPath [0x72] ⟨[0x61]⟩ 1 2)
      = some 0 := by decide +kernel
  refine ⟨hi, ?_⟩
  rcases root_entries_accounted Blake3.sample [0x72] 255 onePut 3 _ 0 hi with
    ⟨chunkId, p, hpath, -⟩ | hput
  · exact absurd hpath (tempPath_ne_pathFor _ _ _ _ _)
  · exact hput

end ChunkStorage
