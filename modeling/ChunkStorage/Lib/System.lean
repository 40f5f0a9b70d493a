import ChunkStorage.Lib.Posix

set_option autoImplicit false

/-! # Processes that share a file system

A `System` is a file system and any number of processes, each in the middle of its program. A run
is a list of choices: start another process, or let one of them make its next call with a given
outcome. A process that is never chosen again has been abandoned there.

`Protocol` is the rely-guarantee rule for such systems. Each process promises that its steps are in
`G`, is told that the steps of the others are in `I`, and is proved on its own with `Program.Safe`;
`Protocol.sound` puts the proofs together. The rely also offers `O j`: whatever holds of the file
system at every moment at which process `j` is under way. -/

namespace Posix

open Effects Program

variable {J : Type} {B : Signature} {β α : Type}

/-- What a process runs: its program, and the other operations it may perform. -/
structure Job (B : Signature) (β α : Type) where
  prog : Program (Sys.sum B) α
  other : (op : B.Op) → β → B.Ret op × β
  rest : β

/-- A process: its job, what is left of its program, and its own part of the state. -/
structure Process (J : Type) (B : Signature) (β α : Type) where
  job : J
  prog : Program (Sys.sum B) α
  fds : List OpenFile
  trace : List (Event (Sys.sum B))
  rest : β

structure System (J : Type) (B : Signature) (β α : Type) where
  fs : FS
  procs : List (Process J B β α)

/-- The next thing that happens. -/
inductive Choice (J : Type) where
  | start (job : J)
  | act (j : ℕ) (o : Outcome)

/-- The job a choice starts. -/
def Choice.job : Choice J → Option J
  | .start job => some job
  | .act _ _ => none

/-- The process as it sees the file system. -/
def Process.world (p : Process J B β α) (fs : FS) : World B β := ⟨p.fds, fs, p.trace, p.rest⟩

/-- The process after it went on to `prog` in the world `w`. -/
def Process.next (p : Process J B β α) (prog : Program (Sys.sum B) α) (w : World B β) :
    Process J B β α := ⟨p.job, prog, w.fds, w.trace, w.rest⟩

namespace System

/-- A process before its first call. -/
def boot (run : J → Job B β α) (job : J) : Process J B β α :=
  ⟨job, (run job).prog, [], [], (run job).rest⟩

/-- Start a process. -/
def spawn (run : J → Job B β α) (s : System J B β α) (job : J) : System J B β α :=
  ⟨s.fs, s.procs ++ [boot run job]⟩

/-- Process `j`, which was `p`, went on. -/
def update (s : System J B β α) (j : ℕ) (p : Process J B β α) (prog : Program (Sys.sum B) α)
    (w : World B β) : System J B β α := ⟨w.fs, s.procs.set j (p.next prog w)⟩

@[simp] theorem spawn_fs (run : J → Job B β α) (s : System J B β α) (job : J) :
    (s.spawn run job).fs = s.fs := rfl

@[simp] theorem update_fs (s : System J B β α) (j : ℕ) (p : Process J B β α)
    (prog : Program (Sys.sum B) α) (w : World B β) : (s.update j p prog w).fs = w.fs := rfl

def step (run : J → Job B β α) (s : System J B β α) : Choice J → System J B β α
  | .start job => s.spawn run job
  | .act j o =>
      match s.procs[j]? with
      | none => s
      | some p =>
          let c := Config.step (World.handler j (run p.job).other) (p.prog, p.world s.fs) o
          s.update j p c.1 c.2

/-- The system after the choices, in their order. -/
def after (run : J → Job B β α) (s : System J B β α) (choices : List (Choice J)) : System J B β α :=
  choices.foldl (step run) s

/-- The system after the first `n` of the choices. -/
def moment (run : J → Job B β α) (s : System J B β α) (choices : List (Choice J)) (n : ℕ) :
    System J B β α := after run s (choices.take n)

theorem moment_zero (run : J → Job B β α) (s : System J B β α) (choices : List (Choice J)) :
    s.moment run choices 0 = s := rfl

theorem moment_succ (run : J → Job B β α) (s : System J B β α) {choices : List (Choice J)} {n : ℕ}
    {c : Choice J} (h : choices[n]? = some c) :
    s.moment run choices (n + 1) = (s.moment run choices n).step run c := by
  unfold moment after
  rw [List.take_add_one, h]
  simp

theorem moment_length (run : J → Job B β α) (s : System J B β α) (choices : List (Choice J)) :
    s.moment run choices choices.length = after run s choices := by
  rw [moment, List.take_length]

/-- After the last choice nothing happens. -/
theorem moment_of_le (run : J → Job B β α) (s : System J B β α) {choices : List (Choice J)} {n : ℕ}
    (h : choices.length ≤ n) : s.moment run choices (n + 1) = s.moment run choices n := by
  unfold moment
  rw [List.take_of_length_le h, List.take_of_length_le (by omega)]

theorem spawn_procs {run : J → Job B β α} {s : System J B β α} {job : J} {j : ℕ}
    {p : Process J B β α} (h : (s.spawn run job).procs[j]? = some p) :
    s.procs[j]? = some p ∨ (j = s.procs.length ∧ p = boot run job) := by
  simp only [spawn, List.getElem?_append] at h
  split at h
  · exact Or.inl h
  · next hlt =>
      obtain ⟨hj, hp⟩ := List.getElem?_eq_some_iff.1 h
      simp only [List.length_singleton] at hj
      have hzero : j - s.procs.length = 0 := by omega
      refine Or.inr ⟨by omega, ?_⟩
      rw [hzero] at h
      exact (Option.some.inj h).symm

theorem update_procs {s : System J B β α} {j i : ℕ} {p q : Process J B β α}
    {prog : Program (Sys.sum B) α} {w : World B β}
    (h : (s.update j p prog w).procs[i]? = some q) :
    (i = j ∧ q = p.next prog w) ∨ (j ≠ i ∧ s.procs[i]? = some q) := by
  simp only [update, List.getElem?_set] at h
  split at h
  · next hij =>
      split at h
      · exact Or.inl ⟨hij.symm, (Option.some.inj h).symm⟩
      · exact absurd h (by simp)
  · next hij => exact Or.inr ⟨hij, h⟩

theorem step_of_none {run : J → Job B β α} {s : System J B β α} {j : ℕ} {o : Outcome}
    (h : s.procs[j]? = none) : s.step run (.act j o) = s := by
  simp only [step, h]

/-- A process whose program and state stay as they are leaves the system as it is. -/
theorem update_self {s : System J B β α} {j : ℕ} {p : Process J B β α} (h : s.procs[j]? = some p) :
    s.update j p p.prog (p.world s.fs) = s := by
  obtain ⟨hj, hget⟩ := List.getElem?_eq_some_iff.1 h
  have hset : s.procs.set j p = s.procs := by rw [← hget, List.set_getElem_self]
  exact congrArg (System.mk s.fs) hset

/-! ## What a run records -/

/-- The sum of a count over the processes. -/
def total (f : Process J B β α → ℕ) (s : System J B β α) : ℕ := (s.procs.map f).sum

theorem total_spawn (f : Process J B β α → ℕ) (run : J → Job B β α) (s : System J B β α) (job : J) :
    (s.spawn run job).total f = s.total f + f (boot run job) := by
  simp [total, spawn]

/-- One process goes on, and only its own count changes. -/
theorem total_update (f : Process J B β α → ℕ) {s : System J B β α} {j : ℕ} {p : Process J B β α}
    (h : s.procs[j]? = some p) (prog : Program (Sys.sum B) α) (w : World B β) :
    (s.update j p prog w).total f + f p = s.total f + f (p.next prog w) := by
  have hset : ∀ (l : List (Process J B β α)) (j : ℕ), l[j]? = some p →
      ((l.set j (p.next prog w)).map f).sum + f p = (l.map f).sum + f (p.next prog w) := by
    intro l
    induction l with
    | nil => intro j hj; simp at hj
    | cons q l ih =>
        intro j hj
        cases j with
        | zero =>
            obtain rfl : q = p := by simpa using hj
            simp only [List.set_cons_zero, List.map_cons, List.sum_cons]
            omega
        | succ j =>
            have := ih j (by simpa using hj)
            simp only [List.set_cons_succ, List.map_cons, List.sum_cons]
            omega
  exact hset s.procs j h

/-- The jobs are those that were started, in their order. -/
theorem jobs_after (run : J → Job B β α) (s : System J B β α) (choices : List (Choice J)) :
    (s.after run choices).procs.map Process.job
      = s.procs.map Process.job ++ choices.filterMap Choice.job := by
  induction choices generalizing s with
  | nil => simp [after]
  | cons c choices ih =>
      have hstep : (s.step run c).procs.map Process.job
          = s.procs.map Process.job ++ c.job.toList := by
        cases c with
        | start job => simp [step, spawn, boot, Choice.job]
        | act j o =>
            cases hj : s.procs[j]? with
            | none => simp [step_of_none hj, Choice.job]
            | some p =>
                obtain ⟨hlt, hget⟩ := List.getElem?_eq_some_iff.1 hj
                have hset := List.set_getElem_self
                  (show j < (s.procs.map Process.job).length by simpa using hlt)
                rw [List.getElem_map, hget] at hset
                simpa [step, hj, update, Process.next, List.map_set, Choice.job] using hset
      calc (s.after run (c :: choices)).procs.map Process.job
          = (s.step run c).procs.map Process.job ++ choices.filterMap Choice.job := ih _
        _ = s.procs.map Process.job ++ (c :: choices).filterMap Choice.job := by
            rw [hstep, List.filterMap_cons]
            cases hc : c.job with
            | none => simp
            | some job => simp

/-- Process `j` was started with the job. -/
def Started (s : System J B β α) (j : ℕ) (job : J) : Prop :=
  ∃ p, s.procs[j]? = some p ∧ p.job = job

theorem Started.step {run : J → Job B β α} {s : System J B β α} {j : ℕ} {job : J}
    (h : s.Started j job) (c : Choice J) : (s.step run c).Started j job := by
  obtain ⟨p, hp, hjob⟩ := h
  have hj := (List.getElem?_eq_some_iff.1 hp).1
  cases c with
  | start job' => exact ⟨p, by simp [System.step, spawn, List.getElem?_append_left hj, hp], hjob⟩
  | act i o =>
      cases hi : s.procs[i]? with
      | none => exact ⟨p, by rw [step_of_none hi]; exact hp, hjob⟩
      | some q =>
          simp only [System.step, hi, Started, update, List.getElem?_set]
          by_cases hij : i = j
          · subst hij
            obtain rfl : p = q := Option.some.inj (hp.symm.trans hi)
            rw [if_pos rfl, if_pos hj]
            exact ⟨_, rfl, hjob⟩
          · rw [if_neg hij]
            exact ⟨p, hp, hjob⟩

/-- A process that was started stays started. -/
theorem Started.after {run : J → Job B β α} {s : System J B β α} {j : ℕ} {job : J}
    (h : s.Started j job) (choices : List (Choice J)) : (s.after run choices).Started j job := by
  induction choices generalizing s with
  | nil => exact h
  | cons c choices ih => exact ih (h.step c)

theorem Started.last {run : J → Job B β α} {s : System J B β α} {choices : List (Choice J)} {n : ℕ}
    {j : ℕ} {job : J} (h : (s.moment run choices n).Started j job) :
    (s.after run choices).Started j job := by
  have hsplit : s.after run choices = (s.moment run choices n).after run (choices.drop n) := by
    unfold moment System.after
    rw [← List.foldl_append, List.take_append_drop]
  rw [hsplit]
  exact h.after _

/-- At some moment of the run process `j` is under way and the file system is `fs`. -/
def Underway (run : J → Job B β α) (s : System J B β α) (choices : List (Choice J)) (j : ℕ)
    (fs : FS) : Prop :=
  ∃ n p, (s.moment run choices n).procs[j]? = some p ∧ ¬ p.prog.Returned ∧
    (s.moment run choices n).fs = fs

/-- What a step of a run does: it starts a process, does nothing, or answers the next call of a
    process. -/
theorem moment_cases (run : J → Job B β α) (s : System J B β α) (choices : List (Choice J)) (n : ℕ) :
    (∃ job, s.moment run choices (n + 1) = (s.moment run choices n).spawn run job) ∨
    s.moment run choices (n + 1) = s.moment run choices n ∨
    ∃ j o p op again k, (s.moment run choices n).procs[j]? = some p ∧
      p.prog = .call op again k ∧ ∀ r w', World.handler j (run p.job).other op
          (p.world (s.moment run choices n).fs) o = (r, w') →
        s.moment run choices (n + 1)
          = (s.moment run choices n).update j p (if again r then p.prog else k r) w' := by
  cases hc : choices[n]? with
  | none => exact Or.inr (Or.inl (moment_of_le run s (List.getElem?_eq_none_iff.1 hc)))
  | some c =>
      rw [moment_succ run s hc]
      cases c with
      | start job => exact Or.inl ⟨job, rfl⟩
      | act j o =>
          cases hp : (s.moment run choices n).procs[j]? with
          | none => exact Or.inr (Or.inl (step_of_none hp))
          | some p =>
              cases hprog : p.prog with
              | ret a =>
                  refine Or.inr (Or.inl ?_)
                  simp only [step, hp, Config.step, hprog]
                  rw [← hprog]
                  exact update_self hp
              | call op again k =>
                  refine Or.inr (Or.inr ⟨j, o, p, op, again, k, hp, hprog, ?_⟩)
                  intro r w' hreply
                  simp only [step, hp, Config.step, hprog, hreply]

/-- A step of a run, seen from one process: it stays as it is, or its next call is answered. -/
theorem process_step {run : J → Job B β α} {s : System J B β α} {choices : List (Choice J)}
    {n j : ℕ} {p p' : Process J B β α} (hp : (s.moment run choices n).procs[j]? = some p)
    (hp' : (s.moment run choices (n + 1)).procs[j]? = some p') :
    p' = p ∨ ∃ o op again k r w', p.prog = .call op again k ∧
      World.handler j (run p.job).other op (p.world (s.moment run choices n).fs) o = (r, w') ∧
      p' = p.next (if again r then p.prog else k r) w' ∧
      (s.moment run choices (n + 1)).fs = w'.fs := by
  rcases moment_cases run s choices n with
    ⟨job, hnext⟩ | hnext | ⟨i, o, q, op, again, k, hq, hprog, hnext⟩
  · have hlt := (List.getElem?_eq_some_iff.1 hp).1
    rw [hnext] at hp'
    rcases spawn_procs hp' with hold | ⟨hj, -⟩
    · exact Or.inl (Option.some.inj (hold.symm.trans hp))
    · omega
  · rw [hnext] at hp'
    exact Or.inl (Option.some.inj (hp'.symm.trans hp))
  · have hupdate := hnext _ _ rfl
    rw [hupdate] at hp'
    rcases update_procs hp' with ⟨hij, hmoved⟩ | ⟨-, hold⟩
    · subst hij
      have hqp : q = p := Option.some.inj (hq.symm.trans hp)
      subst hqp
      exact Or.inr ⟨o, op, again, k, _, _, hprog, rfl, hmoved, by rw [hupdate]; rfl⟩
    · exact Or.inl (Option.some.inj (hold.symm.trans hp))

/-- A step of a run adds at most one event to the trace of a process. -/
theorem trace_step {run : J → Job B β α} {s : System J B β α} {choices : List (Choice J)}
    {n j : ℕ} {p p' : Process J B β α} (hp : (s.moment run choices n).procs[j]? = some p)
    (hp' : (s.moment run choices (n + 1)).procs[j]? = some p') :
    p'.trace = p.trace ∨ ∃ e, p'.trace = e :: p.trace := by
  rcases process_step hp hp' with hsame | ⟨o, op, again, k, r, w', -, hreply, hnext, -⟩
  · rw [hsame]
    exact Or.inl rfl
  · rw [hnext]
    cases op with
    | inl s =>
        obtain ⟨fds', fs', -, rfl⟩ := World.handler_sys_inv hreply
        by_cases hint : s.interrupted r = true
        · exact Or.inl (by simp [Process.next, World.answered, hint, Process.world])
        · exact Or.inr ⟨⟨.inl s, r⟩, by simp [Process.next, World.answered, hint, Process.world]⟩
    | inr op =>
        simp only [World.handler] at hreply
        obtain ⟨-, rfl⟩ := hreply
        exact Or.inr ⟨_, rfl⟩

/-- Step `n` of the run leaves the event in the trace of process `j`, which was `p`. -/
def Answers (run : J → Job B β α) (s : System J B β α) (choices : List (Choice J)) (n j : ℕ)
    (p : Process J B β α) (e : Event (Sys.sum B)) : Prop :=
  (s.moment run choices n).procs[j]? = some p ∧
    ∃ p', (s.moment run choices (n + 1)).procs[j]? = some p' ∧ p'.trace = e :: p.trace

/-- A process keeps its job. -/
theorem job_step {run : J → Job B β α} {s : System J B β α} {choices : List (Choice J)}
    {n j : ℕ} {p p' : Process J B β α} (hp : (s.moment run choices n).procs[j]? = some p)
    (hp' : (s.moment run choices (n + 1)).procs[j]? = some p') : p'.job = p.job := by
  rcases process_step hp hp' with hsame | ⟨o, op, again, k, r, w', -, -, hnext, -⟩
  · rw [hsame]
  · rw [hnext]
    rfl

/-- What is in a trace was put there by a step of the run. -/
theorem answers_of_trace (run : J → Job B β α) (fs : FS) (choices : List (Choice J)) (n : ℕ) {j : ℕ}
    {p : Process J B β α} (hp : (moment run ⟨fs, []⟩ choices n).procs[j]? = some p)
    {e : Event (Sys.sum B)} (he : e ∈ p.trace) :
    ∃ m < n, ∃ q, Answers run ⟨fs, []⟩ choices m j q e ∧ q.job = p.job := by
  induction n generalizing p with
  | zero => exact absurd hp (by simp [moment_zero])
  | succ n ih =>
      cases hold : (moment run ⟨fs, []⟩ choices n).procs[j]? with
      | none =>
          -- the process was started just now, and its trace is empty
          rcases moment_cases run ⟨fs, []⟩ choices n with
            ⟨job, hnext⟩ | hnext | ⟨i, o, q, op, again, k, hq, hprog, hnext⟩
          · rw [hnext] at hp
            rcases spawn_procs hp with hsame | ⟨-, rfl⟩
            · rw [hold] at hsame
              exact absurd hsame (by simp)
            · exact absurd he (by simp [boot])
          · rw [hnext, hold] at hp
            exact absurd hp (by simp)
          · rw [hnext _ _ rfl] at hp
            rcases update_procs hp with ⟨hij, -⟩ | ⟨-, hsame⟩
            · subst hij
              rw [hold] at hq
              exact absurd hq (by simp)
            · rw [hold] at hsame
              exact absurd hsame (by simp)
      | some q =>
          have hjob := job_step hold hp
          have hearlier : e ∈ q.trace →
              ∃ m < n + 1, ∃ q, Answers run ⟨fs, []⟩ choices m j q e ∧ q.job = p.job := by
            intro hmem
            obtain ⟨m, hm, q', hanswers, hq'⟩ := ih hold hmem
            exact ⟨m, by omega, q', hanswers, hq'.trans hjob.symm⟩
          rcases trace_step hold hp with hsame | ⟨e', hnew⟩
          · rw [hsame] at he
            exact hearlier he
          · rw [hnew] at he
            rcases List.mem_cons.1 he with rfl | hmem
            · exact ⟨n, by omega, q, ⟨hold, p, hp, hnew⟩, hjob.symm⟩
            · exact hearlier hmem

/-- A process that changes was chosen. -/
theorem act_of_ne {run : J → Job B β α} {s : System J B β α} {choices : List (Choice J)}
    {n j : ℕ} {p p' : Process J B β α} (hp : (s.moment run choices n).procs[j]? = some p)
    (hp' : (s.moment run choices (n + 1)).procs[j]? = some p') (hne : p' ≠ p) :
    ∃ o, choices[n]? = some (.act j o) := by
  cases hc : choices[n]? with
  | none =>
      rw [moment_of_le run s (List.getElem?_eq_none_iff.1 hc), hp] at hp'
      exact absurd (Option.some.inj hp').symm hne
  | some c =>
      rw [moment_succ run s hc] at hp'
      cases c with
      | start job =>
          have hlt := (List.getElem?_eq_some_iff.1 hp).1
          rcases spawn_procs hp' with hold | ⟨hj, -⟩
          · exact absurd (Option.some.inj (hold.symm.trans hp)) hne
          · omega
      | act i o =>
          cases hq : (s.moment run choices n).procs[i]? with
          | none =>
              rw [step_of_none hq, hp] at hp'
              exact absurd (Option.some.inj hp').symm hne
          | some q =>
              simp only [step, hq] at hp'
              rcases update_procs hp' with ⟨rfl, -⟩ | ⟨-, hold⟩
              · exact ⟨o, rfl⟩
              · exact absurd (Option.some.inj (hold.symm.trans hp)) hne

/-- A step of a run leaves the files alone, or it is a system call of one of the processes. -/
theorem fs_step (run : J → Job B β α) (s : System J B β α) (choices : List (Choice J)) (n : ℕ) :
    (s.moment run choices (n + 1)).fs = (s.moment run choices n).fs ∨
      ∃ (j : ℕ) (p : Process J B β α) (c : Syscall) (r : c.Ret) (fds : List OpenFile),
        Effect j p.fds (s.moment run choices n).fs c r fds (s.moment run choices (n + 1)).fs ∧
        Answers run s choices n j p ⟨.inl c, r⟩ := by
  rcases moment_cases run s choices n with
    ⟨job, hnext⟩ | hnext | ⟨j, o, p, op, again, k, hp, hprog, hnext⟩
  · exact Or.inl (by rw [hnext, spawn_fs])
  · exact Or.inl (by rw [hnext])
  · cases op with
    | inr op => exact Or.inl (by rw [hnext _ _ rfl]; rfl)
    | inl c =>
        cases hexec : c.exec j (p.world (s.moment run choices n).fs).fds
            (p.world (s.moment run choices n).fs).fs o with
        | mk r rest =>
            obtain ⟨fds, fs'⟩ := rest
            have hupdate := hnext _ _ (World.handler_sys hexec)
            have hfs : (s.moment run choices (n + 1)).fs = fs' := by rw [hupdate]; rfl
            by_cases hint : c.interrupted r = true
            · obtain ⟨-, hsame⟩ := exec_interrupted c hexec hint
              exact Or.inl (hfs.trans hsame)
            · have hp' : (s.moment run choices (n + 1)).procs[j]? = some (p.next
                  (if again r then p.prog else k r)
                  ((p.world (s.moment run choices n).fs).answered c r fds fs')) := by
                rw [hupdate, update, List.getElem?_set_self (List.getElem?_eq_some_iff.1 hp).1]
              refine Or.inr ⟨j, p, c, r, fds, ?_, hp, _, hp', ?_⟩
              · rw [hfs]
                exact exec_effect c hexec
              · exact (p.world (s.moment run choices n).fs).answered_trace hint fds fs'

/-- Every file was there at the start, or an `open` of the process that owns it created it. -/
theorem created_by (run : J → Job B β α) (fs₀ : FS) (choices : List (Choice J)) (n : ℕ) {i : ℕ}
    {node : Inode} (hnode : (moment run ⟨fs₀, []⟩ choices n).fs.inodes[i]? = some node) :
    (∃ old, fs₀.inodes[i]? = some old ∧ old.owner = node.owner) ∨
      ∃ m < n, ∃ q path fd, Answers run ⟨fs₀, []⟩ choices m node.owner q
          ⟨.inl (.openExcl path), .ok fd⟩ ∧
        (moment run ⟨fs₀, []⟩ choices (m + 1)).fs.dir path = some i := by
  induction n generalizing node with
  | zero => exact Or.inl ⟨node, hnode, rfl⟩
  | succ n ih =>
      rcases fs_step run ⟨fs₀, []⟩ choices n with hsame | ⟨j, p, c, r, fds, heffect, hanswers⟩
      · rw [hsame] at hnode
        rcases ih hnode with hstart | ⟨m, hm, hcreated⟩
        · exact Or.inl hstart
        · exact Or.inr ⟨m, by omega, hcreated⟩
      · rcases heffect.owner hnode with ⟨old, hold, howner⟩ | ⟨howner, path, fd, he, hdir⟩
        · rw [howner]
          rcases ih hold with hstart | ⟨m, hm, hcreated⟩
          · exact Or.inl hstart
          · exact Or.inr ⟨m, by omega, hcreated⟩
        · obtain ⟨rfl, hr⟩ := Sigma.mk.inj he
          obtain rfl := eq_of_heq hr
          rw [howner]
          exact Or.inr ⟨n, by omega, p, path, fd, hanswers, hdir⟩

/-- A process is in the middle of the program of its job. -/
theorem residual_moment (run : J → Job B β α) (fs : FS) (choices : List (Choice J)) (n : ℕ) {j : ℕ}
    {p : Process J B β α} (hp : (moment run ⟨fs, []⟩ choices n).procs[j]? = some p) :
    (run p.job).prog.Residual p.prog := by
  induction n generalizing j p with
  | zero => exact absurd hp (by simp [moment_zero])
  | succ n ih =>
      rcases moment_cases run ⟨fs, []⟩ choices n with
        ⟨job, hnext⟩ | hnext | ⟨i, o, q, op, again, k, hq, hprog, hnext⟩
      · rw [hnext] at hp
        rcases spawn_procs hp with hold | ⟨-, rfl⟩
        · exact ih hold
        · exact .refl
      · rw [hnext] at hp
        exact ih hp
      · rw [hnext _ _ rfl] at hp
        rcases update_procs hp with ⟨rfl, rfl⟩ | ⟨-, hold⟩
        · have hres := ih hq
          simp only [Process.next]
          split
          · exact hres
          · rw [hprog] at hres
            exact hres.step _
        · exact ih hold

/-- A process is at a point of its program that its trace leads to. -/
theorem tracks_moment {run : J → Job B β α}
    {N : J → List (Event (Sys.sum B)) → Program (Sys.sum B) α → Prop}
    (hrun : ∀ job, (run job).prog.Tracks (fun _ _ => True) World.record (N job) []) (fs : FS)
    (choices : List (Choice J)) (n : ℕ) {j : ℕ} {p : Process J B β α}
    (hp : (moment run ⟨fs, []⟩ choices n).procs[j]? = some p) :
    p.prog.Tracks (fun _ _ => True) World.record (N p.job) p.trace := by
  induction n generalizing j p with
  | zero => exact absurd hp (by simp [moment_zero])
  | succ n ih =>
      rcases moment_cases run ⟨fs, []⟩ choices n with
        ⟨job, hnext⟩ | hnext | ⟨i, o, q, op, again, k, hq, hprog, hnext⟩
      · rw [hnext] at hp
        rcases spawn_procs hp with hold | ⟨-, rfl⟩
        · exact ih hold
        · exact hrun job
      · rw [hnext] at hp
        exact ih hp
      · obtain ⟨r, w', hreply⟩ : ∃ r w', World.handler i (run q.job).other op
            (q.world (moment run ⟨fs, []⟩ choices n).fs) o = (r, w') := ⟨_, _, rfl⟩
        rw [hnext r w' hreply] at hp
        rcases update_procs hp with ⟨-, rfl⟩ | ⟨-, hold⟩
        · have htracks := ih hq
          rw [hprog] at htracks
          have htrace : w'.trace = World.record op r q.trace := by
            have hlast := World.trace_handler i (run q.job).other op
              (q.world (moment run ⟨fs, []⟩ choices n).fs) o
            rwa [hreply] at hlast
          have hafter := htracks.2 r trivial
          simp only [Process.next, htrace]
          split at hafter
          · next ha =>
              rw [if_pos ha, hprog, hafter]
              exact htracks
          · next ha =>
              rw [if_neg ha]
              exact hafter
        · exact ih hold

/-- The other operations of a trace lead from one state of theirs to another, with the replies the trace
    has. -/
inductive Replays (other : (op : B.Op) → β → B.Ret op × β) (b : β) :
    List (Event (Sys.sum B)) → β → Prop
  | nil : Replays other b [] b
  | sys {s : Syscall} {r : s.Ret} {t : List (Event (Sys.sum B))} {c : β} (h : Replays other b t c) :
      Replays other b (⟨.inl s, r⟩ :: t) c
  | other {op : B.Op} {r : B.Ret op} {t : List (Event (Sys.sum B))} {c c' : β}
      (h : Replays other b t c) (hreply : other op c = (r, c')) : Replays other b (⟨.inr op, r⟩ :: t) c'

/-- The state of its other operations is what the trace of a process makes of the first one. -/
theorem replays_moment (run : J → Job B β α) (fs : FS) (choices : List (Choice J)) (n : ℕ) {j : ℕ}
    {p : Process J B β α} (hp : (moment run ⟨fs, []⟩ choices n).procs[j]? = some p) :
    Replays (run p.job).other (run p.job).rest p.trace p.rest := by
  induction n generalizing j p with
  | zero => exact absurd hp (by simp [moment_zero])
  | succ n ih =>
      rcases moment_cases run ⟨fs, []⟩ choices n with
        ⟨job, hnext⟩ | hnext | ⟨i, o, q, op, again, k, hq, -, hnext⟩
      · rw [hnext] at hp
        rcases spawn_procs hp with hold | ⟨-, rfl⟩
        · exact ih hold
        · exact .nil
      · rw [hnext] at hp
        exact ih hp
      · rw [hnext _ _ rfl] at hp
        rcases update_procs hp with ⟨-, rfl⟩ | ⟨-, hold⟩
        · have hbefore := ih hq
          cases op with
          | inl s =>
              simp only [Process.next, World.answered]
              split
              · exact hbefore
              · exact hbefore.sys
          | inr op => exact hbefore.other rfl
        · exact ih hold

/-- A process that has returned stays as it is. -/
theorem returned_stays {run : J → Job B β α} {s : System J B β α} {choices : List (Choice J)}
    {m n : ℕ} (hmn : m ≤ n) {j : ℕ} {p : Process J B β α}
    (hp : (s.moment run choices m).procs[j]? = some p) (hret : p.prog.Returned) :
    (s.moment run choices n).procs[j]? = some p := by
  induction n, hmn using Nat.le_induction with
  | base => exact hp
  | succ n _ ih =>
      have hj := (List.getElem?_eq_some_iff.1 ih).1
      rcases moment_cases run s choices n with ⟨job, hnext⟩ | hnext | ⟨i, o, q, op, again, k, hq, hprog, hnext⟩
      · rw [hnext, spawn, List.getElem?_append_left hj]
        exact ih
      · rw [hnext]
        exact ih
      · rw [hnext _ _ rfl]
        simp only [update, List.getElem?_set]
        split
        · next hij =>
            subst hij
            obtain rfl : p = q := Option.some.inj (ih.symm.trans hq)
            rw [hprog] at hret
            exact absurd hret fun h => h
        · exact ih

/-- A process that was started is there from then on. -/
theorem Started.mono {run : J → Job B β α} {s : System J B β α} {choices : List (Choice J)} {m n : ℕ}
    (hmn : m ≤ n) {j : ℕ} {job : J} (h : (s.moment run choices m).Started j job) :
    (s.moment run choices n).Started j job := by
  induction n, hmn using Nat.le_induction with
  | base => exact h
  | succ n _ ih =>
      cases hc : choices[n]? with
      | none => rwa [moment_of_le run s (List.getElem?_eq_none_iff.1 hc)]
      | some c =>
          rw [moment_succ run s hc]
          exact ih.step c

/-- A trace only grows. -/
theorem trace_grows {run : J → Job B β α} {s : System J B β α} {choices : List (Choice J)} {m n : ℕ}
    (hmn : m ≤ n) {j : ℕ} {p q : Process J B β α} (hp : (s.moment run choices m).procs[j]? = some p)
    (hq : (s.moment run choices n).procs[j]? = some q) : p.trace <:+ q.trace := by
  induction n, hmn using Nat.le_induction generalizing q with
  | base => rw [Option.some.inj (hp.symm.trans hq)]
  | succ n hmn ih =>
      obtain ⟨r, hr, -⟩ := Started.mono hmn ⟨p, hp, rfl⟩
      refine (ih hr).trans ?_
      rcases trace_step hr hq with hsame | ⟨e, hnew⟩
      · rw [hsame]
      · rw [hnew]
        exact List.suffix_cons e r.trace

/-! ## Who was there when -/

section Live

variable {run : J → Job B β α} {s : System J B β α} {choices : List (Choice J)}

/-- Process `j` has not returned before step `n`, and is started when the step is over. -/
def Live (run : J → Job B β α) (s : System J B β α) (choices : List (Choice J)) (j n : ℕ) : Prop :=
  (∀ p, (s.moment run choices n).procs[j]? = some p → ¬ p.prog.Returned) ∧
    (s.moment run choices (n + 1)).procs[j]? ≠ none

/-- Process `i` had returned when process `j` was not even started. -/
def Precedes (run : J → Job B β α) (s : System J B β α) (choices : List (Choice J)) (i j : ℕ) : Prop :=
  ∃ n, (∃ p, (s.moment run choices n).procs[i]? = some p ∧ p.prog.Returned) ∧
    (s.moment run choices n).procs[j]? = none

theorem Precedes.lt {i j a b : ℕ} (h : Precedes run s choices i j) (ha : Live run s choices i a)
    (hb : Live run s choices j b) : a < b := by
  obtain ⟨n, ⟨p, hp, hret⟩, hnone⟩ := h
  have han : a < n := by
    by_contra hna
    exact ha.1 p (returned_stays (Nat.le_of_not_lt hna) hp hret) hret
  have hnb : n ≤ b := by
    by_contra hbn
    obtain ⟨q, hq⟩ := Option.ne_none_iff_exists'.1 hb.2
    obtain ⟨q', hq', -⟩ := Started.mono (show b + 1 ≤ n by omega) ⟨q, hq, rfl⟩
    rw [hnone] at hq'
    exact absurd hq' (by simp)
  omega

/-- A process is live while it is under way. -/
theorem live_of_underway {j n : ℕ} {p : Process J B β α}
    (hp : (s.moment run choices n).procs[j]? = some p) (hway : ¬ p.prog.Returned) :
    Live run s choices j n := by
  refine ⟨fun q hq => ?_, ?_⟩
  · rwa [Option.some.inj (hq.symm.trans hp)]
  · obtain ⟨q, hq, -⟩ := Started.mono (Nat.le_succ n) ⟨p, hp, rfl⟩
    rw [hq]
    exact Option.some_ne_none q

/-- After the last choice the system stays as it is. -/
theorem moment_eq_after {n : ℕ} (h : choices.length ≤ n) :
    s.moment run choices n = s.after run choices := by
  rw [moment, List.take_of_length_le h]

/-- A process that has returned is live during the run only. -/
theorem Live.lt_length {j n : ℕ} (h : Live run s choices j n) {p : Process J B β α}
    (hp : (s.after run choices).procs[j]? = some p) (hret : p.prog.Returned) : n < choices.length := by
  by_contra hn
  rw [← moment_eq_after (Nat.le_of_not_lt hn)] at hp
  exact h.1 p hp hret

/-- Every process is live when it is started. -/
theorem exists_live {fs : FS} {j : ℕ} {p : Process J B β α}
    (hp : (after run ⟨fs, []⟩ choices).procs[j]? = some p) :
    ∃ n < choices.length, Live run ⟨fs, []⟩ choices j n := by
  have hsome : ∃ n, n ≤ choices.length ∧ (moment run ⟨fs, []⟩ choices n).procs[j]? ≠ none := by
    refine ⟨choices.length, le_rfl, ?_⟩
    rw [moment_length, hp]
    exact Option.some_ne_none p
  -- the first moment at which it is there is not the first of the run
  classical
  have hfirst := Nat.find_spec hsome
  cases hn : Nat.find hsome with
  | zero =>
      rw [hn] at hfirst
      exact absurd rfl hfirst.2
  | succ n =>
      rw [hn] at hfirst
      refine ⟨n, hfirst.1, fun q hq => ?_, hfirst.2⟩
      have hearlier := Nat.find_min hsome (show n < Nat.find hsome by omega)
      refine absurd ⟨by omega, ?_⟩ hearlier
      rw [hq]
      exact Option.some_ne_none q

end Live

/-- Every outcome of the run is admitted by `ok` for the process and the call it is given to. -/
def Admits (run : J → Job B β α)
    (ok : ℕ → J → (op : (Sys.sum B).Op) → World B β → Outcome → Prop) (s : System J B β α)
    (choices : List (Choice J)) : Prop :=
  ∀ n j o p op again k, choices[n]? = some (.act j o) → (s.moment run choices n).procs[j]? = some p →
    p.prog = .call op again k → ok j p.job op (p.world (s.moment run choices n).fs) o

/-- A check of `Admits` for a run that is given. -/
def admitted (run : J → Job B β α)
    (check : ℕ → J → (op : (Sys.sum B).Op) → World B β → Outcome → Bool) :
    System J B β α → List (Choice J) → Bool
  | _, [] => true
  | s, .start job :: choices => admitted run check (s.step run (.start job)) choices
  | s, .act j o :: choices =>
      (match s.procs[j]? with
        | none => true
        | some p =>
            match p.prog with
            | .ret _ => true
            | .call op _ _ => check j p.job op (p.world s.fs) o) &&
        admitted run check (s.step run (.act j o)) choices

theorem admits_of_admitted {run : J → Job B β α}
    {ok : ℕ → J → (op : (Sys.sum B).Op) → World B β → Outcome → Prop}
    (check : ℕ → J → (op : (Sys.sum B).Op) → World B β → Outcome → Bool)
    (hcheck : ∀ {j job op w o}, check j job op w o = true → ok j job op w o)
    {s : System J B β α} {choices : List (Choice J)} (h : admitted run check s choices = true) :
    Admits run ok s choices := by
  induction choices generalizing s with
  | nil =>
      intro n j o p op again k hc
      simp at hc
  | cons c choices ih =>
      intro n j o p op again k hc hp hprog
      have htail : admitted run check (s.step run c) choices = true := by
        cases c with
        | start job => exact h
        | act i o' => exact (Bool.and_eq_true_iff.1 h).2
      cases n with
      | zero =>
          obtain rfl : c = .act j o := by simpa using hc
          have hp' : s.procs[j]? = some p := hp
          have hhead := (Bool.and_eq_true_iff.1 h).1
          simp only [hp', hprog] at hhead
          exact hcheck hhead
      | succ n => exact ih htail n j o p op again k hc hp hprog

/-- **One process among any others.** A program that is safe stays so along a run in which `ok` admits
    its outcomes and the steps of the others are in its rely while it is under way. -/
theorem safe_moment {run : J → Job B β α} {fs₀ : FS} {choices : List (Choice J)} {j : ℕ}
    {ok : (op : (Sys.sum B).Op) → World B β → Outcome → Prop} {R G : World B β → World B β → Prop}
    (hrefl : ∀ w, R w w) (htrans : ∀ {w₁ w₂ w₃}, R w₁ w₂ → R w₂ w₃ → R w₁ w₃)
    (hok : ∀ {n : ℕ} {o p op again k}, choices[n]? = some (.act j o) →
      (moment run ⟨fs₀, []⟩ choices n).procs[j]? = some p → p.prog = .call op again k →
      ok op (p.world (moment run ⟨fs₀, []⟩ choices n).fs) o)
    (henv : ∀ {n p}, (moment run ⟨fs₀, []⟩ choices n).procs[j]? = some p → ¬ p.prog.Returned →
      (∀ o, choices[n]? ≠ some (.act j o)) → R (p.world (moment run ⟨fs₀, []⟩ choices n).fs)
        (p.world (moment run ⟨fs₀, []⟩ choices (n + 1)).fs))
    (hstart : ∀ {n : ℕ} {job}, choices[n]? = some (.start job) →
      (moment run ⟨fs₀, []⟩ choices n).procs.length = j →
      (run job).prog.Safe ((World.handler j (run job).other).sem ok) R G (fun _ _ => True)
        ((boot run job).world (moment run ⟨fs₀, []⟩ choices n).fs))
    (n : ℕ) {p : Process J B β α} (hp : (moment run ⟨fs₀, []⟩ choices n).procs[j]? = some p) :
    p.prog.Safe ((World.handler j (run p.job).other).sem ok) R G (fun _ _ => True)
      (p.world (moment run ⟨fs₀, []⟩ choices n).fs) := by
  induction n generalizing p with
  | zero => exact absurd hp (by simp [moment_zero])
  | succ n ih =>
      cases hc : choices[n]? with
      | none =>
          rw [moment_of_le run _ (List.getElem?_eq_none_iff.1 hc)] at hp ⊢
          exact ih hp
      | some c =>
          have hnext := moment_succ run ⟨fs₀, []⟩ hc
          cases c with
          | start job =>
              rw [hnext] at hp ⊢
              rcases spawn_procs hp with hold | ⟨hj, rfl⟩
              · exact ih hold
              · exact hstart hc hj.symm
          | act i o =>
              cases hq : (moment run ⟨fs₀, []⟩ choices n).procs[i]? with
              | none =>
                  rw [hnext, step_of_none hq] at hp ⊢
                  exact ih hp
              | some q =>
                  have hupdate := hnext
                  simp only [step, hq] at hupdate
                  rw [hupdate] at hp
                  rcases update_procs hp with ⟨rfl, rfl⟩ | ⟨hij, hold⟩
                  · -- the process itself goes on
                    have hsafe := ih hq
                    rw [hupdate]
                    cases hprog : q.prog with
                    | ret a => trivial
                    | call op again k =>
                        rw [hprog] at hsafe
                        have hstep := hsafe _ (hrefl _)
                          (World.handler j (run q.job).other op
                            (q.world (moment run ⟨fs₀, []⟩ choices n).fs) o).1
                          (World.handler j (run q.job).other op
                            (q.world (moment run ⟨fs₀, []⟩ choices n).fs) o).2
                          ⟨o, hok hc hq hprog, rfl⟩
                        simp only [Config.step, Process.next, update_fs]
                        by_cases ha : again (World.handler j (run q.job).other op
                            (q.world (moment run ⟨fs₀, []⟩ choices n).fs) o).1 = true
                        · rw [if_pos ha] at hstep
                          rw [if_pos ha, hstep]
                          exact hsafe
                        · rw [if_neg ha] at hstep
                          rw [if_neg ha]
                          exact hstep.2
                  · by_cases hret : p.prog.Returned
                    · cases hprog : p.prog with
                      | ret a => trivial
                      | call op again k =>
                          rw [hprog] at hret
                          exact absurd hret id
                    · have hothers : ∀ o', choices[n]? ≠ some (.act j o') := by
                        intro o' hact
                        exact hij (Choice.act.inj (Option.some.inj (hc.symm.trans hact))).1
                      exact Safe.env (R := R) htrans (fun _ _ _ _ _ => trivial) (ih hold)
                        (henv hold hret hothers)

/-- A step of a process that is safe changes nothing or is within its guarantee. -/
theorem guarantee_of_safe {run : J → Job B β α} {s : System J B β α} {choices : List (Choice J)}
    {n j : ℕ} {o : Outcome} {ok : (op : (Sys.sum B).Op) → World B β → Outcome → Prop}
    {R G : World B β → World B β → Prop} {Q : α → World B β → Prop} {p : Process J B β α}
    (hc : choices[n]? = some (.act j o)) (hp : (s.moment run choices n).procs[j]? = some p)
    (hsafe : p.prog.Safe ((World.handler j (run p.job).other).sem ok) R G Q
      (p.world (s.moment run choices n).fs))
    (hrefl : ¬ p.prog.Returned → R (p.world (s.moment run choices n).fs)
      (p.world (s.moment run choices n).fs))
    (hok : ∀ {op again k}, p.prog = .call op again k →
      ok op (p.world (s.moment run choices n).fs) o) :
    s.moment run choices (n + 1) = s.moment run choices n ∨
      ∃ p', (s.moment run choices (n + 1)).procs[j]? = some p' ∧
        G (p.world (s.moment run choices n).fs) (p'.world (s.moment run choices (n + 1)).fs) := by
  have hlt := (List.getElem?_eq_some_iff.1 hp).1
  rw [moment_succ run s hc]
  cases hprog : p.prog with
  | ret a =>
      refine Or.inl ?_
      simp only [step, hp, Config.step, hprog]
      rw [← hprog]
      exact update_self hp
  | call op again k =>
      rw [hprog] at hsafe
      have hcall : ¬ p.prog.Returned := by
        rw [hprog]
        exact id
      have hnext := hsafe _ (hrefl hcall)
        (World.handler j (run p.job).other op (p.world (s.moment run choices n).fs) o).1
        (World.handler j (run p.job).other op (p.world (s.moment run choices n).fs) o).2
        ⟨o, hok hprog, rfl⟩
      simp only [step, hp, Config.step, hprog]
      by_cases ha : again (World.handler j (run p.job).other op
          (p.world (s.moment run choices n).fs) o).1 = true
      · rw [if_pos ha] at hnext
        refine Or.inl ?_
        rw [if_pos ha, hnext, ← hprog]
        exact update_self hp
      · rw [if_neg ha] at hnext
        rw [if_neg ha]
        exact Or.inr ⟨_, List.getElem?_set_self hlt, hnext.1⟩

end System

/-- Interference: another process changed the file system within `I`, while `O` held. -/
def Interferes (I : FS → FS → Prop) (O : FS → Prop) (w w' : World B β) : Prop :=
  (w'.fds = w.fds ∧ w'.trace = w.trace ∧ w'.rest = w.rest) ∧ I w.fs w'.fs ∧ O w'.fs

/-- The obligations of a system of processes: an invariant `Inv` of whole systems, the guarantee
    `G` of each process, what the others may do to it (`I`) and what each has reached when it
    returns (`Q`). `T` tells which jobs run. -/
structure Protocol (run : J → Job B β α)
    (ok : ℕ → J → (op : (Sys.sum B).Op) → World B β → Outcome → Prop) (T : ℕ → J → Prop)
    (Inv : System J B β α → Prop) (I : ℕ → FS → FS → Prop) (O : ℕ → FS → Prop)
    (G : ℕ → J → World B β → World B β → Prop) (Q : ℕ → J → α → World B β → Prop) : Prop where
  refl : ∀ j fs, I j fs fs
  trans : ∀ {j fs₁ fs₂ fs₃}, I j fs₁ fs₂ → I j fs₂ fs₃ → I j fs₁ fs₃
  others : ∀ {i j job w w'}, T i job → G i job w w' → i ≠ j → I j w.fs w'.fs
  post : ∀ {j job a w fs'}, Q j job a w → I j w.fs fs' → Q j job a ⟨w.fds, fs', w.trace, w.rest⟩
  start : ∀ {s} job, T s.procs.length job → Inv s → Inv (s.spawn run job)
  step : ∀ {s j p w'} prog, Inv s → s.procs[j]? = some p → T j p.job →
    G j p.job (p.world s.fs) w' → Inv (s.update j p prog w')
  safe : ∀ {s} job, T s.procs.length job → Inv s →
    (¬ (run job).prog.Returned → O s.procs.length s.fs) →
    (run job).prog.Safe ((World.handler s.procs.length (run job).other).sem (ok s.procs.length job))
      (Interferes (I s.procs.length) (O s.procs.length)) (G s.procs.length job)
      (Q s.procs.length job) ((System.boot run job).world s.fs)

namespace Protocol

variable {run : J → Job B β α}
  {ok : ℕ → J → (op : (Sys.sum B).Op) → World B β → Outcome → Prop} {T : ℕ → J → Prop}
  {Inv : System J B β α → Prop} {I : ℕ → FS → FS → Prop} {O : ℕ → FS → Prop}
  {G : ℕ → J → World B β → World B β → Prop} {Q : ℕ → J → α → World B β → Prop}

/-- What holds of process `j`: the rest of its program is safe. -/
def Fine (run : J → Job B β α)
    (ok : ℕ → J → (op : (Sys.sum B).Op) → World B β → Outcome → Prop) (I : ℕ → FS → FS → Prop)
    (O : ℕ → FS → Prop) (G : ℕ → J → World B β → World B β → Prop)
    (Q : ℕ → J → α → World B β → Prop) (fs : FS) (j : ℕ) (p : Process J B β α) : Prop :=
  p.prog.Safe ((World.handler j (run p.job).other).sem (ok j p.job)) (Interferes (I j) (O j))
    (G j p.job) (Q j p.job) (p.world fs)

/-- Interference with a process leaves it fine. -/
theorem Fine.env (h : Protocol run ok T Inv I O G Q) {fs fs' : FS} {j : ℕ} {p : Process J B β α}
    (hp : Fine run ok I O G Q fs j p) (hI : I j fs fs') : Fine run ok I O G Q fs' j p := by
  unfold Fine at hp ⊢
  cases hprog : p.prog with
  | ret a =>
      rw [hprog] at hp
      exact h.post hp hI
  | call op again k =>
      rw [hprog] at hp
      intro w₁ hR
      exact hp w₁ ⟨hR.1, h.trans hI hR.2.1, hR.2.2⟩

/-- What the invariant and the processes are at one moment of a run. -/
structure Holds (run : J → Job B β α)
    (ok : ℕ → J → (op : (Sys.sum B).Op) → World B β → Outcome → Prop) (T : ℕ → J → Prop)
    (Inv : System J B β α → Prop) (I : ℕ → FS → FS → Prop) (O : ℕ → FS → Prop)
    (G : ℕ → J → World B β → World B β → Prop) (Q : ℕ → J → α → World B β → Prop)
    (s : System J B β α) : Prop where
  inv : Inv s
  jobs : ∀ {j p}, s.procs[j]? = some p → T j p.job
  fine : ∀ {j p}, s.procs[j]? = some p → Fine run ok I O G Q s.fs j p

theorem Holds.spawn (h : Protocol run ok T Inv I O G Q) {s : System J B β α}
    (hs : Holds run ok T Inv I O G Q s) {job : J} (hT : T s.procs.length job)
    (hO : ¬ (run job).prog.Returned → O s.procs.length s.fs) :
    Holds run ok T Inv I O G Q (s.spawn run job) where
  inv := h.start job hT hs.inv
  jobs hj := by
    rcases System.spawn_procs hj with hj | ⟨rfl, rfl⟩
    · exact hs.jobs hj
    · exact hT
  fine hj := by
    rcases System.spawn_procs hj with hj | ⟨rfl, rfl⟩
    · exact hs.fine hj
    · exact h.safe job hT hs.inv hO

/-- One call of one process: it keeps its guarantee, unless it was interrupted and nothing
    happened, and everything stays as it should. -/
theorem Holds.act (h : Protocol run ok T Inv I O G Q) {s : System J B β α}
    (hs : Holds run ok T Inv I O G Q s) {j : ℕ} {o : Outcome} {p : Process J B β α}
    (hp : s.procs[j]? = some p) {op : (Sys.sum B).Op} {again : (Sys.sum B).Ret op → Bool}
    {k : (Sys.sum B).Ret op → Program (Sys.sum B) α} (hprog : p.prog = .call op again k)
    (hok : ok j p.job op (p.world s.fs) o) (hO : O j s.fs) :
    s.step run (.act j o) = s ∨
      ∃ prog w', s.step run (.act j o) = s.update j p prog w' ∧
        G j p.job (p.world s.fs) w' ∧ Holds run ok T Inv I O G Q (s.update j p prog w') := by
  have hfine := hs.fine hp
  unfold Fine at hfine
  rw [hprog] at hfine
  have hnext := hfine (p.world s.fs) ⟨⟨rfl, rfl, rfl⟩, h.refl j s.fs, hO⟩
    (World.handler j (run p.job).other op (p.world s.fs) o).1
    (World.handler j (run p.job).other op (p.world s.fs) o).2 ⟨o, hok, rfl⟩
  simp only [System.step, hp, Config.step, hprog]
  by_cases ha : again (World.handler j (run p.job).other op (p.world s.fs) o).1 = true
  · rw [if_pos ha] at hnext
    refine Or.inl ?_
    rw [if_pos ha, hnext, ← hprog]
    exact System.update_self hp
  · rw [if_neg ha] at hnext
    simp only [if_neg ha]
    refine Or.inr ⟨_, _, rfl, hnext.1, h.step _ hs.inv hp (hs.jobs hp) hnext.1, ?_, ?_⟩
    · intro i q hq
      rcases System.update_procs hq with ⟨rfl, rfl⟩ | ⟨-, hq⟩
      · have hjob : T i p.job := hs.jobs hp
        exact hjob
      · exact hs.jobs hq
    · intro i q hq
      rcases System.update_procs hq with ⟨rfl, rfl⟩ | ⟨hij, hq⟩
      · exact hnext.2
      · exact (hs.fine hq).env h (h.others (hs.jobs hp) hnext.1 hij)

/-- A run from a system without processes in which `ok` admits every outcome, `T` knows every job
    and `O` holds of a process at every moment at which it is under way. -/
structure Runs (run : J → Job B β α)
    (ok : ℕ → J → (op : (Sys.sum B).Op) → World B β → Outcome → Prop) (T : ℕ → J → Prop)
    (O : ℕ → FS → Prop) (fs₀ : FS) (choices : List (Choice J)) : Prop where
  admits : System.Admits run ok ⟨fs₀, []⟩ choices
  jobs : ∀ {n job}, choices[n]? = some (.start job) →
    T (System.moment run ⟨fs₀, []⟩ choices n).procs.length job
  under : ∀ {n j p}, (System.moment run ⟨fs₀, []⟩ choices n).procs[j]? = some p →
    ¬ p.prog.Returned → O j (System.moment run ⟨fs₀, []⟩ choices n).fs

/-- Every run knows its own jobs and moments. -/
theorem Runs.of_admits {fs₀ : FS} {choices : List (Choice J)}
    (h : System.Admits run ok ⟨fs₀, []⟩ choices) :
    Runs run ok (System.after run ⟨fs₀, []⟩ choices).Started
      (System.Underway run ⟨fs₀, []⟩ choices) fs₀ choices where
  admits := h
  jobs {n job} hc := by
    refine System.Started.last (n := n + 1) ?_
    rw [System.moment_succ run _ hc]
    exact ⟨System.boot run job, by simp [System.step, System.spawn], rfl⟩
  under {n j p} hp hret := ⟨n, p, hp, hret, rfl⟩

/-- What happens between a moment and the next: nothing to the files, or a call of some process
    that is under way, within its guarantee. -/
def Moves (T : ℕ → J → Prop) (G : ℕ → J → World B β → World B β → Prop) (s : System J B β α)
    (fs' : FS) : Prop :=
  fs' = s.fs ∨ ∃ j p w', s.procs[j]? = some p ∧ ¬ p.prog.Returned ∧ T j p.job ∧
    G j p.job (p.world s.fs) w' ∧ w'.fs = fs'

/-- The step from one moment of a run to the next. -/
theorem Holds.step (h : Protocol run ok T Inv I O G Q) {fs₀ : FS} {choices : List (Choice J)}
    (hr : Runs run ok T O fs₀ choices) {n : ℕ} {c : Choice J} (hc : choices[n]? = some c)
    (hs : Holds run ok T Inv I O G Q (System.moment run ⟨fs₀, []⟩ choices n)) :
    Holds run ok T Inv I O G Q (System.moment run ⟨fs₀, []⟩ choices (n + 1)) ∧
      Moves T G (System.moment run ⟨fs₀, []⟩ choices n)
        (System.moment run ⟨fs₀, []⟩ choices (n + 1)).fs := by
  have hnext := System.moment_succ run ⟨fs₀, []⟩ hc
  have hunder := @Runs.under _ _ _ _ _ _ _ _ _ _ hr (n + 1)
  rw [hnext] at hunder ⊢
  cases c with
  | start job =>
      refine ⟨hs.spawn h (hr.jobs hc) fun hret => ?_, Or.inl rfl⟩
      exact hunder (p := System.boot run job) (by simp [System.step, System.spawn]) hret
  | act j o =>
      cases hp : (System.moment run ⟨fs₀, []⟩ choices n).procs[j]? with
      | none =>
          rw [System.step_of_none hp]
          exact ⟨hs, Or.inl rfl⟩
      | some p =>
          cases hprog : p.prog with
          | ret a =>
              -- a process that has returned does not move
              have hstay : (System.moment run ⟨fs₀, []⟩ choices n).step run (.act j o)
                  = System.moment run ⟨fs₀, []⟩ choices n := by
                simp only [System.step, hp, Config.step, hprog]
                rw [← hprog]
                exact System.update_self hp
              rw [hstay]
              exact ⟨hs, Or.inl rfl⟩
          | call op again k =>
              have hcall : ¬ p.prog.Returned := by
                rw [hprog]
                exact fun hret => hret
              have hO := hr.under hp hcall
              rcases hs.act h hp hprog (hr.admits n j o p op again k hc hp hprog) hO with
                hstay | ⟨prog, w', hmoved, hG, hs'⟩
              · rw [hstay]
                exact ⟨hs, Or.inl rfl⟩
              · rw [hmoved]
                exact ⟨hs', Or.inr ⟨j, p, w', hp, hcall, hs.jobs hp, hG, rfl⟩⟩

/-- **Rely and guarantee fit together**: at every moment of a run the invariant holds and every
    process is as its own proof says. -/
theorem sound (h : Protocol run ok T Inv I O G Q) {fs₀ : FS} (hinv : Inv ⟨fs₀, []⟩)
    {choices : List (Choice J)} (hr : Runs run ok T O fs₀ choices) (n : ℕ) :
    Holds run ok T Inv I O G Q (System.moment run ⟨fs₀, []⟩ choices n) := by
  induction n with
  | zero =>
      refine ⟨hinv, fun {j p} hj => ?_, fun {j p} hj => ?_⟩
      · exact absurd hj (by simp [System.moment_zero])
      · exact absurd hj (by simp [System.moment_zero])
  | succ n ih =>
      by_cases hn : n < choices.length
      · exact (ih.step h hr (List.getElem?_eq_getElem hn)).1
      · -- the run is over
        rwa [System.moment_of_le run _ (Nat.le_of_not_lt hn)]

/-- Every step of a run is one some process is allowed to make. -/
theorem moves (h : Protocol run ok T Inv I O G Q) {fs₀ : FS} (hinv : Inv ⟨fs₀, []⟩)
    {choices : List (Choice J)} (hr : Runs run ok T O fs₀ choices) (n : ℕ) :
    Moves T G (System.moment run ⟨fs₀, []⟩ choices n)
      (System.moment run ⟨fs₀, []⟩ choices (n + 1)).fs := by
  by_cases hn : n < choices.length
  · exact ((h.sound hinv hr n).step h hr (List.getElem?_eq_getElem hn)).2
  · rw [System.moment_of_le run _ (Nat.le_of_not_lt hn)]
    exact Or.inl rfl

/-- A step of a process changes nothing or is within its guarantee. -/
theorem guarantee (h : Protocol run ok T Inv I O G Q) {fs₀ : FS} (hinv : Inv ⟨fs₀, []⟩)
    {choices : List (Choice J)} (hr : Runs run ok T O fs₀ choices) {n j : ℕ} {o : Outcome}
    {p : Process J B β α} (hc : choices[n]? = some (.act j o))
    (hp : (System.moment run ⟨fs₀, []⟩ choices n).procs[j]? = some p) :
    System.moment run ⟨fs₀, []⟩ choices (n + 1) = System.moment run ⟨fs₀, []⟩ choices n ∨
      ∃ p', (System.moment run ⟨fs₀, []⟩ choices (n + 1)).procs[j]? = some p' ∧
        G j p.job (p.world (System.moment run ⟨fs₀, []⟩ choices n).fs)
          (p'.world (System.moment run ⟨fs₀, []⟩ choices (n + 1)).fs) := by
  have hfine := (h.sound hinv hr n).fine hp
  exact System.guarantee_of_safe hc hp hfine
    (fun hcall => ⟨⟨rfl, rfl, rfl⟩, h.refl j _, hr.under hp hcall⟩)
    (fun hprog => hr.admits n j o p _ _ _ hc hp hprog)

end Protocol

end Posix
