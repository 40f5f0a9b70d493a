import ChunkStorage.Lib.System

set_option autoImplicit false

/-! # Processes that pass on an answer

A system whose processes do what those of another one do, and only make something else of the answer.
The two go through the same file systems side by side (`Wraps.moment`), so what holds of every run of the
one holds of every run of the other. -/

namespace Posix

open Effects Program

variable {J J' : Type} {B : Signature} {β α α' : Type}

/-- The choice with another job. -/
def Choice.map (f : J' → J) : Choice J' → Choice J
  | .start job => .start (f job)
  | .act j o => .act j o

/-- The job `job` of `run'` is the job `f job` of `run` with `g job` of its answer. -/
def WrapsJobs (run : J → Job B β α) (run' : J' → Job B β α') (f : J' → J) (g : J' → α → α') : Prop :=
  ∀ job, run' job = ⟨(run (f job)).prog >>= fun a => pure (g job a), (run (f job)).other,
    (run (f job)).rest⟩

/-- A process and one that passes on its answer, at the same point. -/
structure Wrapped (f : J' → J) (g : J' → α → α') (p : Process J B β α) (p' : Process J' B β α') :
    Prop where
  job : p.job = f p'.job
  prog : p'.prog = p.prog >>= fun a => pure (g p'.job a)
  fds : p'.fds = p.fds
  trace : p'.trace = p.trace
  rest : p'.rest = p.rest

/-- Two systems side by side. -/
structure Wraps (f : J' → J) (g : J' → α → α') (s : System J B β α) (s' : System J' B β α') : Prop where
  fs : s'.fs = s.fs
  length : s'.procs.length = s.procs.length
  proc : ∀ {j : ℕ} {p : Process J B β α} {p' : Process J' B β α'}, s.procs[j]? = some p →
    s'.procs[j]? = some p' → Wrapped f g p p'

variable {run : J → Job B β α} {run' : J' → Job B β α'} {f : J' → J} {g : J' → α → α'}

theorem Wrapped.world {p : Process J B β α} {p' : Process J' B β α'} (h : Wrapped f g p p') (fs : FS) :
    p'.world fs = p.world fs := by
  unfold Process.world
  rw [h.fds, h.trace, h.rest]

theorem Wraps.exists {s : System J B β α} {s' : System J' B β α'} (h : Wraps f g s s') {j : ℕ}
    {p : Process J B β α} (hp : s.procs[j]? = some p) :
    ∃ p', s'.procs[j]? = some p' ∧ Wrapped f g p p' := by
  have hlt : j < s'.procs.length := h.length ▸ (List.getElem?_eq_some_iff.1 hp).1
  exact ⟨_, List.getElem?_eq_getElem hlt, h.proc hp (List.getElem?_eq_getElem hlt)⟩

theorem Wraps.exists_inner {s : System J B β α} {s' : System J' B β α'} (h : Wraps f g s s') {j : ℕ}
    {p' : Process J' B β α'} (hp' : s'.procs[j]? = some p') :
    ∃ p, s.procs[j]? = some p ∧ Wrapped f g p p' := by
  have hlt : j < s.procs.length := h.length ▸ (List.getElem?_eq_some_iff.1 hp').1
  exact ⟨_, List.getElem?_eq_getElem hlt, h.proc (List.getElem?_eq_getElem hlt) hp'⟩

/-- A step of a program that passes on an answer. -/
theorem Config.step_pass {W O : Type} {S : Signature} {h : Handler S W O} (p : Program S α) (w : W)
    (o : O) (pass : α → α') : Config.step h (p >>= fun a => pure (pass a), w) o
      = ((Config.step h (p, w) o).1 >>= fun a => pure (pass a), (Config.step h (p, w) o).2) := by
  cases p with
  | ret a => rfl
  | call op again k =>
      show Config.step h (.call op again fun r => k r >>= fun a => pure (pass a), w) o = _
      simp only [Config.step]
      split <;> rfl

/-- **A step of the two.** -/
theorem Wraps.step (hrun : WrapsJobs run run' f g) {s : System J B β α} {s' : System J' B β α'}
    (h : Wraps f g s s') (c : Choice J') : Wraps f g (s.step run (c.map f)) (s'.step run' c) := by
  cases c with
  | start job =>
      refine ⟨h.fs, by simp [System.step, System.spawn, Choice.map, h.length], fun {j p p'} hp hp' => ?_⟩
      rcases System.spawn_procs hp with hold | ⟨hj, rfl⟩
      · rcases System.spawn_procs hp' with hold' | ⟨hj', rfl⟩
        · exact h.proc hold hold'
        · have hlt := (List.getElem?_eq_some_iff.1 hold).1
          rw [h.length] at hj'
          omega
      · rcases System.spawn_procs hp' with hold' | ⟨-, rfl⟩
        · have hlt := (List.getElem?_eq_some_iff.1 hold').1
          rw [h.length] at hlt
          omega
        · have hjob := hrun job
          exact ⟨rfl, congrArg Job.prog hjob, rfl, rfl, congrArg Job.rest hjob⟩
  | act i o =>
      cases hp : s.procs[i]? with
      | none =>
          have hp' : s'.procs[i]? = none := by
            rw [List.getElem?_eq_none_iff, h.length]
            exact List.getElem?_eq_none_iff.1 hp
          have hs : s.step run ((Choice.act i o : Choice J').map f) = s := System.step_of_none hp
          rw [hs, System.step_of_none hp']
          exact h
      | some p =>
          obtain ⟨p', hp', hwrapped⟩ := h.exists hp
          have hother : (run' p'.job).other = (run p.job).other := by rw [hrun, hwrapped.job]
          have hstep : Config.step (World.handler i (run' p'.job).other) (p'.prog, p'.world s'.fs) o
              = ((Config.step (World.handler i (run p.job).other) (p.prog, p.world s.fs) o).1 >>=
                  fun a => pure (g p'.job a),
                (Config.step (World.handler i (run p.job).other) (p.prog, p.world s.fs) o).2) := by
            rw [hother, hwrapped.prog, h.fs, hwrapped.world]
            exact Config.step_pass _ _ _ _
          simp only [System.step, Choice.map, hp, hp', hstep]
          refine ⟨rfl, by simp [System.update, h.length], fun {j q q'} hq hq' => ?_⟩
          rcases System.update_procs hq with ⟨rfl, rfl⟩ | ⟨hne, hold⟩
          · rcases System.update_procs hq' with ⟨-, rfl⟩ | ⟨hne, -⟩
            · exact ⟨hwrapped.job, rfl, rfl, rfl, rfl⟩
            · exact absurd rfl hne
          · rcases System.update_procs hq' with ⟨rfl, -⟩ | ⟨-, hold'⟩
            · exact absurd rfl hne
            · exact h.proc hold hold'

theorem Wraps.after (hrun : WrapsJobs run run' f g) {s : System J B β α} {s' : System J' B β α'}
    (h : Wraps f g s s') (choices : List (Choice J')) :
    Wraps f g (s.after run (choices.map (Choice.map f))) (s'.after run' choices) := by
  induction choices generalizing s s' with
  | nil => exact h
  | cons c choices ih => exact ih (h.step hrun c)

/-- **The two are side by side at every moment of a run.** -/
theorem Wraps.moment (hrun : WrapsJobs run run' f g) (fs : FS) (choices : List (Choice J')) (n : ℕ) :
    Wraps f g (System.moment run ⟨fs, []⟩ (choices.map (Choice.map f)) n)
      (System.moment run' ⟨fs, []⟩ choices n) := by
  unfold System.moment
  rw [← List.map_take]
  exact Wraps.after hrun ⟨rfl, rfl, fun hp => absurd hp (by simp)⟩ _

theorem Wrapped.returned {p : Process J B β α} {p' : Process J' B β α'} (h : Wrapped f g p p') :
    p'.prog.Returned ↔ p.prog.Returned := by
  rw [h.prog]
  cases p.prog <;> exact Iff.rfl

/-- What the one has returned comes from what the other has. -/
theorem Wrapped.ret {p : Process J B β α} {p' : Process J' B β α'} (h : Wrapped f g p p') {b : α'}
    (hb : p'.prog = .ret b) : ∃ a, p.prog = .ret a ∧ b = g p'.job a := by
  rw [h.prog] at hb
  cases hprog : p.prog with
  | ret a =>
      rw [hprog] at hb
      exact ⟨a, rfl, (Program.ret.inj hb).symm⟩
  | call op again k =>
      rw [hprog] at hb
      exact absurd hb (by simp)

theorem Wraps.precedes (hrun : WrapsJobs run run' f g) {fs : FS} {choices : List (Choice J')} {i j : ℕ}
    (h : System.Precedes run' ⟨fs, []⟩ choices i j) :
    System.Precedes run ⟨fs, []⟩ (choices.map (Choice.map f)) i j := by
  obtain ⟨n, ⟨p', hp', hret⟩, hnone⟩ := h
  have hwraps := Wraps.moment hrun fs choices n
  obtain ⟨p, hp, hwrapped⟩ := hwraps.exists_inner hp'
  refine ⟨n, ⟨p, hp, hwrapped.returned.1 hret⟩, ?_⟩
  rw [List.getElem?_eq_none_iff, ← hwraps.length]
  exact List.getElem?_eq_none_iff.1 hnone

/-- What `ok` admits of the one it admits of the other. -/
theorem Wraps.admits (hrun : WrapsJobs run run' f g)
    {ok : ℕ → J → (op : (Sys.sum B).Op) → World B β → Outcome → Prop} {fs : FS}
    {choices : List (Choice J')}
    (h : System.Admits run' (fun j job => ok j (f job)) ⟨fs, []⟩ choices) :
    System.Admits run ok ⟨fs, []⟩ (choices.map (Choice.map f)) := by
  intro n j o p op again k hc hp hprog
  obtain ⟨p', hp', hwrapped⟩ := (Wraps.moment hrun fs choices n).exists hp
  have hc' : choices[n]? = some (.act j o) := by
    rw [List.getElem?_map, Option.map_eq_some_iff] at hc
    obtain ⟨c, hc, hmap⟩ := hc
    cases c with
    | start job => exact absurd hmap (by simp [Choice.map])
    | act i o' =>
        obtain ⟨rfl, rfl⟩ := Choice.act.inj hmap
        exact hc
  have hprog' := hwrapped.prog
  rw [hprog] at hprog'
  have hok := h n j o p' op again _ hc' hp' hprog'
  rw [hwrapped.job, ← hwrapped.world, ← (Wraps.moment hrun fs choices n).fs]
  exact hok

end Posix
