import Mathlib.Tactic

set_option autoImplicit false

/-! # Programs that call their environment

A `Program S α` is a computation that performs operations of a signature `S` and returns an `α`.
Everything an operation can observe or change is outside the program, so the same program can be
run alone, in parallel with others, or up to a crash.

`call op again k` is the loop `do r = op while (again r)` followed by `k r`: an operation whose
reply asks for a retry is performed again, and the program does not otherwise move. An operation
that is never retried is the case `again = fun _ => false`.

The two ways of running a program are `Config.step`, one operation at a time under an environment
that picks an outcome, and `Program.Safe`, which says of *every* such run, with interference
between any two operations, that each step keeps a guarantee and the result meets a
postcondition. `Program.Always` is the case without interference. -/

namespace Effects

/-- The operations a program may perform, each with the type of its reply. -/
structure Signature where
  Op : Type
  Ret : Op → Type

/-- The operations of either signature. -/
def Signature.sum (S T : Signature) : Signature where
  Op := S.Op ⊕ T.Op
  Ret
    | .inl op => S.Ret op
    | .inr op => T.Ret op

inductive Program (S : Signature) (α : Type) where
  | ret (a : α)
  | call (op : S.Op) (again : S.Ret op → Bool) (k : S.Ret op → Program S α)

namespace Program

variable {S : Signature} {α β γ δ W O : Type}

/-- Perform one operation, once. -/
def perform (op : S.Op) : Program S (S.Ret op) := .call op (fun _ => false) .ret

/-- Perform one operation until its reply is not one to retry. -/
def retrying (op : S.Op) (again : S.Ret op → Bool) : Program S (S.Ret op) := .call op again .ret

protected def bind : Program S α → (α → Program S β) → Program S β
  | .ret a, f => f a
  | .call op again k, f => .call op again (fun r => (k r).bind f)

instance : Monad (Program S) where
  pure := .ret
  bind := Program.bind

@[simp] theorem pure_eq_ret (a : α) : (pure a : Program S α) = .ret a := rfl

@[simp] theorem ret_bind (a : α) (f : α → Program S β) : (.ret a : Program S α) >>= f = f a := rfl

@[simp] theorem call_bind (op : S.Op) (again : S.Ret op → Bool) (k : S.Ret op → Program S α)
    (f : α → Program S β) :
    Program.call op again k >>= f = .call op again (fun r => k r >>= f) := rfl

theorem perform_bind (op : S.Op) (f : S.Ret op → Program S β) :
    perform op >>= f = .call op (fun _ => false) f := rfl

theorem retrying_bind (op : S.Op) (again : S.Ret op → Bool) (f : S.Ret op → Program S β) :
    retrying op again >>= f = .call op again f := rfl

theorem bind_assoc (p : Program S α) (f : α → Program S β) (g : β → Program S γ) :
    p >>= f >>= g = p >>= fun a => f a >>= g := by
  induction p with
  | ret a => rfl
  | call op again k ih =>
      simp only [call_bind]
      exact congrArg (Program.call op again) (funext ih)

theorem bind_ret (p : Program S α) : p >>= .ret = p := by
  induction p with
  | ret a => rfl
  | call op again k ih => exact congrArg (Program.call op again) (funext ih)

/-- The program has returned. -/
def Returned : Program S α → Prop
  | .ret _ => True
  | .call .. => False

instance (p : Program S α) : Decidable p.Returned :=
  match p with
  | .ret _ => isTrue trivial
  | .call .. => isFalse id

/-- What the program has returned, if it has. -/
def result : Program S α → Option α
  | .ret a => some a
  | .call .. => none

theorem eq_ret_of_result {p : Program S α} {a : α} (h : p.result = some a) : p = .ret a := by
  cases p with
  | ret b => exact congrArg _ (Option.some.inj h)
  | call op again k => exact absurd h (by simp [result])

/-- A program that goes on returns no earlier than its first part. -/
theorem Returned.of_bind {p : Program S α} {f : α → Program S β} (h : (p >>= f).Returned) :
    p.Returned := by
  cases p with
  | ret a => trivial
  | call op again k => exact h

/-- What may be left of a program after some of its operations. -/
inductive Residual (p : Program S α) : Program S α → Prop
  | refl : Residual p p
  | step {op : S.Op} {again : S.Ret op → Bool} {k : S.Ret op → Program S α} (r : S.Ret op) :
      Residual p (.call op again k) → Residual p (k r)

/-! ## Running -/

/-- An environment that answers an operation in a state, as a chosen outcome `o` tells it to. -/
abbrev Handler (S : Signature) (W O : Type) := (op : S.Op) → W → O → S.Ret op × W

/-- What an operation may reply and do to the state. -/
abbrev Sem (S : Signature) (W : Type) := (op : S.Op) → W → S.Ret op → W → Prop

/-- The replies of a handler for the outcomes that `ok` admits. -/
def Handler.sem (h : Handler S W O) (ok : (op : S.Op) → W → O → Prop) : Sem S W :=
  fun op w r w' => ∃ o, ok op w o ∧ h op w o = (r, w')

/-- A program and the state it runs in. -/
abbrev Config (S : Signature) (α W : Type) := Program S α × W

/-- One operation, answered with the outcome `o`. A program that has returned does not move. -/
def Config.step (h : Handler S W O) (c : Config S α W) (o : O) : Config S α W :=
  match c.1 with
  | .ret _ => c
  | .call op again k =>
      let r := h op c.2 o
      (if again r.1 then c.1 else k r.1, r.2)

/-- The configuration after `n` operations answered by the schedule `ω`. -/
def Config.exec (h : Handler S W O) (c : Config S α W) (ω : ℕ → O) : ℕ → Config S α W
  | 0 => c
  | n + 1 => (Config.exec h c ω n).step h (ω n)

/-- Every outcome the schedule picks is admitted by `ok` where it is picked. -/
def Config.Admits (h : Handler S W O) (ok : (op : S.Op) → W → O → Prop) (c : Config S α W)
    (ω : ℕ → O) : Prop :=
  ∀ n op again k, (c.exec h ω n).1 = .call op again k → ok op (c.exec h ω n).2 (ω n)

/-- The schedule does not ask for retries forever: after every point of the run there is an
    operation that is not retried, or the program has returned. -/
def Config.Fair (h : Handler S W O) (c : Config S α W) (ω : ℕ → O) : Prop :=
  ∀ n, ∃ m ≥ n, ∀ op again k, (c.exec h ω m).1 = .call op again k →
    again (h op (c.exec h ω m).2 (ω m)).1 = false

/-- Some finite part of the schedule makes the configuration return `a` in state `w`. -/
def Config.Returns (h : Handler S W O) (c : Config S α W) (ω : ℕ → O) (a : α) (w : W) : Prop :=
  ∃ n, c.exec h ω n = (.ret a, w)

theorem Config.exec_exec (h : Handler S W O) (c : Config S α W) (ω : ℕ → O) (i n : ℕ) :
    (c.exec h ω i).exec h (fun j => ω (i + j)) n = c.exec h ω (i + n) := by
  induction n with
  | zero => rfl
  | succ n ih => rw [Config.exec, ih, Nat.add_succ, Config.exec]

/-- A run that returns, from its first operation on. -/
theorem Config.returns_call {h : Handler S W O} {op : S.Op} {k : S.Ret op → Program S α}
    {w w₁ w' : W} {r : S.Ret op} {ω : ℕ → O} {a : α} (hreply : h op w (ω 0) = (r, w₁))
    (hr : Config.Returns h (k r, w₁) (fun j => ω (1 + j)) a w') :
    Config.Returns h (.call op (fun _ => false) k, w) ω a w' := by
  obtain ⟨n, hn⟩ := hr
  refine ⟨1 + n, ?_⟩
  rw [← Config.exec_exec, ← hn]
  simp [Config.exec, Config.step, hreply]

/-- What a run returns, from its first operation on, if that is not retried. -/
theorem Config.returns_last {h : Handler S W O} {op : S.Op} {again : S.Ret op → Bool}
    {k : S.Ret op → Program S α} {w w₁ : W} {r : S.Ret op} {ω : ℕ → O} {Q : α → W → Prop}
    (hreply : h op w (ω 0) = (r, w₁)) (hlast : again r = false)
    (hr : ∃ a w', Config.Returns h (k r, w₁) (fun j => ω (1 + j)) a w' ∧ Q a w') :
    ∃ a w', Config.Returns h (.call op again k, w) ω a w' ∧ Q a w' := by
  obtain ⟨a, w', ⟨n, hn⟩, hQ⟩ := hr
  refine ⟨a, w', ⟨1 + n, ?_⟩, hQ⟩
  rw [← Config.exec_exec, ← hn]
  simp [Config.exec, Config.step, hreply, hlast]

/-- A schedule admitted from the start is admitted from any later point. -/
theorem Config.Admits.drop {h : Handler S W O} {ok : (op : S.Op) → W → O → Prop}
    {c : Config S α W} {ω : ℕ → O} (hok : c.Admits h ok ω) (i : ℕ) :
    (c.exec h ω i).Admits h ok (fun j => ω (i + j)) := by
  intro n op again k hc
  rw [Config.exec_exec] at hc ⊢
  exact hok (i + n) op again k hc

/-- A schedule that is fair from the start is fair from any later point. -/
theorem Config.Fair.drop {h : Handler S W O} {c : Config S α W} {ω : ℕ → O} (hf : c.Fair h ω)
    (i : ℕ) : (c.exec h ω i).Fair h (fun j => ω (i + j)) := by
  intro n
  obtain ⟨m, hm, hlast⟩ := hf (i + n)
  refine ⟨m - i, by omega, fun op again k hc => ?_⟩
  have hidx : i + (m - i) = m := by omega
  rw [Config.exec_exec, hidx] at hc ⊢
  simpa only [hidx] using hlast op again k hc

/-- A program that has returned stays as it is. -/
theorem Config.exec_ret {h : Handler S W O} {c : Config S α W} {a : α} (hc : c.1 = .ret a)
    (ω : ℕ → O) (n : ℕ) : c.exec h ω n = c := by
  induction n with
  | zero => rfl
  | succ n ih =>
      rw [Config.exec, ih]
      simp only [Config.step, hc]

/-- A run returns once. -/
theorem Config.Returns.unique {h : Handler S W O} {c : Config S α W} {ω : ℕ → O} {a b : α} {w w' : W}
    (ha : c.Returns h ω a w) (hb : c.Returns h ω b w') : a = b ∧ w = w' := by
  have hlater : ∀ {m n : ℕ} {a b : α} {w w' : W}, m ≤ n → c.exec h ω m = (.ret a, w) →
      c.exec h ω n = (.ret b, w') → a = b ∧ w = w' := by
    intro m n a b w w' hmn hm hn
    have hstays := Config.exec_exec h c ω m (n - m)
    rw [Nat.add_sub_cancel' hmn, hn, hm, exec_ret (a := a) (by rfl)] at hstays
    obtain ⟨hret, hw⟩ := Prod.mk.inj hstays
    exact ⟨Program.ret.inj hret, hw⟩
  obtain ⟨m, hm⟩ := ha
  obtain ⟨n, hn⟩ := hb
  rcases Nat.le_total m n with hmn | hnm
  · exact hlater hmn hm hn
  · obtain ⟨hab, hw⟩ := hlater hnm hn hm
    exact ⟨hab.symm, hw.symm⟩

/-- Until its first part returns, a program that goes on moves as this part does. -/
theorem Config.exec_bind {h : Handler S W O} {p : Program S α} {f : α → Program S β} {w : W}
    {ω : ℕ → O} {n : ℕ} (hn : ∀ m < n, ¬ (Config.exec h (p, w) ω m).1.Returned) :
    Config.exec h (p >>= f, w) ω n
      = ((Config.exec h (p, w) ω n).1 >>= f, (Config.exec h (p, w) ω n).2) := by
  induction n with
  | zero => rfl
  | succ n ih =>
      have hlast := hn n (by omega)
      rw [Config.exec, Config.exec, ih fun m hm => hn m (by omega)]
      generalize Config.exec h (p, w) ω n = c at hlast ⊢
      obtain ⟨q, w₁⟩ := c
      cases q with
      | ret a => exact absurd trivial hlast
      | call op again k =>
          simp only [Config.step, call_bind]
          split <;> rfl

/-- A run of a program that goes on is a run of its first part and then one of the rest. -/
theorem Config.Returns.of_bind {h : Handler S W O} {p : Program S α} {f : α → Program S β} {w w' : W}
    {ω : ℕ → O} {b : β} (hret : Config.Returns h (p >>= f, w) ω b w') :
    ∃ m a w₁, Config.exec h (p, w) ω m = (.ret a, w₁) ∧
      Config.Returns h (f a, w₁) (fun j => ω (m + j)) b w' := by
  obtain ⟨n, hn⟩ := hret
  -- `m` is the first moment at which the first part has returned
  have hex : ∃ m, (Config.exec h (p, w) ω m).1.Returned := by
    by_contra hno
    rw [Config.exec_bind fun m _ hm => hno ⟨m, hm⟩] at hn
    refine hno ⟨n, Returned.of_bind (f := f) ?_⟩
    rw [(Prod.mk.inj hn).1]
    trivial
  classical
  have hfirst := Config.exec_bind (f := f) fun m (hm : m < Nat.find hex) => Nat.find_min hex hm
  have hret := Nat.find_spec hex
  generalize Nat.find hex = m at hfirst hret
  cases hq : (Config.exec h (p, w) ω m).1 with
  | call op again k =>
      rw [hq] at hret
      exact absurd hret (by simp [Returned])
  | ret a =>
      rw [hq] at hfirst
      refine ⟨m, a, _, Prod.ext hq rfl, ?_⟩
      rcases Nat.le_total m n with hle | hle
      · refine ⟨n - m, ?_⟩
        rw [← hn, ← Nat.add_sub_cancel' hle, ← Config.exec_exec, hfirst, Nat.add_sub_cancel_left]
        rfl
      · refine ⟨0, ?_⟩
        have hstays := Config.exec_exec h (p >>= f, w) ω n (m - n)
        rw [Nat.add_sub_cancel' hle, hn, exec_ret (a := b) (by rfl), hfirst] at hstays
        exact hstays.symm

/-- The first operation of a run that returns. -/
theorem Config.Returns.of_call {h : Handler S W O} {op : S.Op} {k : S.Ret op → Program S α} {w w' : W}
    {ω : ℕ → O} {a : α} (hret : Config.Returns h (.call op (fun _ => false) k, w) ω a w') :
    Config.Returns h (k (h op w (ω 0)).1, (h op w (ω 0)).2) (fun j => ω (1 + j)) a w' := by
  obtain ⟨n, hn⟩ := hret
  cases n with
  | zero => exact absurd (congrArg Prod.fst hn) (by simp [Config.exec])
  | succ n =>
      refine ⟨n, ?_⟩
      rw [← hn, Nat.add_comm n 1, ← Config.exec_exec]
      simp [Config.exec, Config.step]

/-- A program that only makes something of what its first part returns. -/
theorem Config.Returns.map {h : Handler S W O} {p : Program S α} {w w' : W} {ω : ℕ → O} {a : α}
    (hret : Config.Returns h (p, w) ω a w') (f : α → β) :
    Config.Returns h (p >>= fun a => .ret (f a), w) ω (f a) w' := by
  have hex : ∃ m, (Config.exec h (p, w) ω m).1.Returned := by
    obtain ⟨n, hn⟩ := hret
    exact ⟨n, by rw [hn]; trivial⟩
  classical
  have hfirst := Config.exec_bind (f := fun a => .ret (f a))
    fun m (hm : m < Nat.find hex) => Nat.find_min hex hm
  have hspec := Nat.find_spec hex
  generalize Nat.find hex = m at hfirst hspec
  cases hq : (Config.exec h (p, w) ω m).1 with
  | call op again k =>
      rw [hq] at hspec
      exact absurd hspec (by simp [Returned])
  | ret b =>
      obtain ⟨rfl, rfl⟩ := hret.unique ⟨m, Prod.ext hq rfl⟩
      rw [hq] at hfirst
      exact ⟨m, hfirst⟩

/-- A program moves alike in two environments that reply the same in related states. -/
theorem Config.exec_lockstep {W' O' : Type} {h : Handler S W O} {h' : Handler S W' O'}
    (R : W → W' → Prop) {ω : ℕ → O} {ω' : ℕ → O'}
    (hstep : ∀ op n w w', R w w' → (h op w (ω n)).1 = (h' op w' (ω' n)).1 ∧
      R (h op w (ω n)).2 (h' op w' (ω' n)).2)
    (p : Program S α) {w : W} {w' : W'} (hw : R w w') (n : ℕ) :
    (Config.exec h (p, w) ω n).1 = (Config.exec h' (p, w') ω' n).1 ∧
      R (Config.exec h (p, w) ω n).2 (Config.exec h' (p, w') ω' n).2 := by
  induction n with
  | zero => exact ⟨rfl, hw⟩
  | succ n ih =>
      obtain ⟨hprog, hsame⟩ := ih
      simp only [Config.exec, Config.step]
      rw [← hprog]
      cases (Config.exec h (p, w) ω n).1 with
      | ret a => exact ⟨hprog, hsame⟩
      | call op again k =>
          obtain ⟨hreply, hsame'⟩ := hstep op n _ _ hsame
          simp only [hreply]
          exact ⟨trivial, hsame'⟩

/-- A program that returns in one of them returns the same in the other. -/
theorem Config.Returns.lockstep {W' O' : Type} {h : Handler S W O} {h' : Handler S W' O'}
    (R : W → W' → Prop) {ω : ℕ → O} {ω' : ℕ → O'}
    (hstep : ∀ op n w w', R w w' → (h op w (ω n)).1 = (h' op w' (ω' n)).1 ∧
      R (h op w (ω n)).2 (h' op w' (ω' n)).2)
    {p : Program S α} {w v : W} {w' : W'} {a : α} (hret : Config.Returns h (p, w) ω a v)
    (hw : R w w') : ∃ v', Config.Returns h' (p, w') ω' a v' ∧ R v v' := by
  obtain ⟨n, hn⟩ := hret
  obtain ⟨hprog, hsame⟩ := Config.exec_lockstep R hstep p hw n
  rw [hn] at hprog hsame
  exact ⟨_, ⟨n, Prod.ext hprog.symm rfl⟩, hsame⟩

/-- What is admitted and fair in one of them is so in the other. -/
theorem Config.admits_fair_lockstep {W' O' : Type} {h : Handler S W O} {h' : Handler S W' O'}
    (R : W → W' → Prop) {ω : ℕ → O} {ω' : ℕ → O'}
    (hstep : ∀ op n w w', R w w' → (h op w (ω n)).1 = (h' op w' (ω' n)).1 ∧
      R (h op w (ω n)).2 (h' op w' (ω' n)).2)
    {ok : (op : S.Op) → W → O → Prop} {ok' : (op : S.Op) → W' → O' → Prop}
    (hok : ∀ op n w w', R w w' → ok op w (ω n) → ok' op w' (ω' n))
    {p : Program S α} {w : W} {w' : W'} (hw : R w w') (hadmits : Config.Admits h ok (p, w) ω)
    (hfair : Config.Fair h (p, w) ω) :
    Config.Admits h' ok' (p, w') ω' ∧ Config.Fair h' (p, w') ω' := by
  have hboth := Config.exec_lockstep R hstep p hw
  constructor
  · intro n op again k hc
    rw [← (hboth n).1] at hc
    exact hok op n _ _ (hboth n).2 (hadmits n op again k hc)
  · intro n
    obtain ⟨m, hm, hlast⟩ := hfair n
    refine ⟨m, hm, fun op again k hc => ?_⟩
    rw [← (hboth m).1] at hc
    rw [← (hstep op m _ _ (hboth m).2).1]
    exact hlast op again k hc

/-- A run that returns is fair. -/
theorem Config.Returns.fair {h : Handler S W O} {c : Config S α W} {ω : ℕ → O} {a : α} {w : W}
    (hret : c.Returns h ω a w) : c.Fair h ω := by
  obtain ⟨m, hm⟩ := hret
  intro n
  refine ⟨m + n, by omega, fun op again k hc => ?_⟩
  rw [← Config.exec_exec, hm, exec_ret (a := a) (by rfl)] at hc
  exact absurd hc (by simp)

/-- A program that has returned asks for no outcome. -/
theorem Config.admits_ret {h : Handler S W O} {ok : (op : S.Op) → W → O → Prop} {a : α} {w : W}
    {ω : ℕ → O} : Config.Admits h ok ((.ret a, w) : Config S α W) ω := by
  intro n op again k hc
  rw [exec_ret (a := a) (by rfl)] at hc
  exact absurd hc (by simp)

/-- A schedule is admitted if its first outcome is and the rest of it. -/
theorem Config.admits_call {h : Handler S W O} {ok : (op : S.Op) → W → O → Prop} {op : S.Op}
    {k : S.Ret op → Program S α} {w w₁ : W} {r : S.Ret op} {ω : ℕ → O} (hok : ok op w (ω 0))
    (hreply : h op w (ω 0) = (r, w₁))
    (hrest : Config.Admits h ok (k r, w₁) (fun j => ω (1 + j))) :
    Config.Admits h ok (.call op (fun _ => false) k, w) ω := by
  intro n op' again' k' hc
  cases n with
  | zero =>
      obtain ⟨rfl, -, -⟩ := Program.call.inj hc
      exact hok
  | succ n =>
      have hfirst : Config.exec h (Program.call op (fun _ => false) k, w) ω 1 = (k r, w₁) := by
        simp [Config.exec, Config.step, hreply]
      rw [Nat.add_comm n 1, ← Config.exec_exec, hfirst] at hc ⊢
      exact hrest n op' again' k' hc

open Classical in
/-- What a run returns and the state it ends in, if it returns. -/
noncomputable def Config.final (h : Handler S W O) (c : Config S α W) (ω : ℕ → O) : Option (α × W) :=
  if hret : ∃ x : α × W, c.Returns h ω x.1 x.2 then some hret.choose else none

theorem Config.final_eq_some {h : Handler S W O} {c : Config S α W} {ω : ℕ → O} {a : α} {w : W} :
    c.final h ω = some (a, w) ↔ c.Returns h ω a w := by
  unfold Config.final
  constructor
  · intro hfinal
    split at hfinal
    · next hret =>
        have hspec := hret.choose_spec
        rwa [Option.some.inj hfinal] at hspec
    · exact absurd hfinal (by simp)
  · intro hreturns
    have hret : ∃ x : α × W, c.Returns h ω x.1 x.2 := ⟨(a, w), hreturns⟩
    rw [dif_pos hret]
    obtain ⟨ha, hw⟩ := hret.choose_spec.unique hreturns
    exact congrArg some (Prod.ext ha hw)

/-- A change `f` of the state that no operation notices can be made before a run as well as after
    it. `quiet` says that nothing has noticed so far. -/
theorem Config.exec_comm {h : Handler S W O} (f : W → W) (quiet : W → Prop)
    (hf : ∀ {op w o}, quiet (h op w o).2 → h op (f w) o = ((h op w o).1, f (h op w o).2))
    (hback : ∀ {op w o}, quiet (h op w o).2 → quiet w) {p : Program S α} {w : W} {ω : ℕ → O} {n : ℕ}
    (hn : quiet (Config.exec h (p, w) ω n).2) :
    Config.exec h (p, f w) ω n
      = ((Config.exec h (p, w) ω n).1, f (Config.exec h (p, w) ω n).2) := by
  induction n with
  | zero => rfl
  | succ n ih =>
      simp only [Config.exec] at hn ⊢
      generalize Config.exec h (p, w) ω n = c at ih hn ⊢
      obtain ⟨p', w'⟩ := c
      cases p' with
      | ret a => rw [ih hn]; rfl
      | call op again k =>
          have hquiet : quiet (h op w' (ω n)).2 := hn
          rw [ih (hback hquiet)]
          simp only [Config.step, hf hquiet]

/-- Some finite part of some schedule leads from `c` to `c'`. -/
def Config.Reaches (h : Handler S W O) (c c' : Config S α W) : Prop := ∃ ω n, c.exec h ω n = c'

/-- A run depends only on the part of the schedule that it has used. -/
theorem Config.exec_congr {h : Handler S W O} {c : Config S α W} {ω ω' : ℕ → O} {n : ℕ}
    (hω : ∀ m < n, ω m = ω' m) : c.exec h ω n = c.exec h ω' n := by
  induction n with
  | zero => rfl
  | succ n ih =>
      rw [Config.exec, Config.exec, ih fun m hm => hω m (by omega), hω n (by omega)]

theorem Config.Reaches.refl (h : Handler S W O) (c : Config S α W) (o : O) : c.Reaches h c :=
  ⟨fun _ => o, 0, rfl⟩

theorem Config.Reaches.step {h : Handler S W O} {c c' : Config S α W} (hc : c.Reaches h c') (o : O) :
    c.Reaches h (c'.step h o) := by
  obtain ⟨ω, n, rfl⟩ := hc
  refine ⟨Function.update ω n o, n + 1, ?_⟩
  rw [Config.exec, Function.update_self]
  congr 1
  refine Config.exec_congr fun m hm => ?_
  rw [Function.update_of_ne (by omega)]

/-- What a change leads to that nothing has noticed so far. -/
theorem Config.Reaches.comm {h : Handler S W O} (f : W → W) (quiet : W → Prop)
    (hf : ∀ {op w o}, quiet (h op w o).2 → h op (f w) o = ((h op w o).1, f (h op w o).2))
    (hback : ∀ {op w o}, quiet (h op w o).2 → quiet w) {c c' : Config S α W} (hc : c.Reaches h c')
    (hquiet : quiet c'.2) : Config.Reaches h (c.1, f c.2) (c'.1, f c'.2) := by
  obtain ⟨ω, n, rfl⟩ := hc
  exact ⟨ω, n, Config.exec_comm f quiet hf hback hquiet⟩

/-- A check that a given run returns within `n` operations, with outcomes that `check` takes. -/
def Config.ends (h : Handler S W O) (check : (op : S.Op) → W → O → Bool) :
    ℕ → Config S α W → (ℕ → O) → Bool
  | 0, c, _ =>
      match c.1 with
      | .ret _ => true
      | .call .. => false
  | n + 1, c, ω =>
      match c.1 with
      | .ret _ => true
      | .call op _ _ => check op c.2 (ω 0) && ends h check n (c.step h (ω 0)) (fun j => ω (1 + j))

/-- A run that ends is fair, and admitted by what `check` tests. -/
theorem Config.ends_spec {h : Handler S W O} (check : (op : S.Op) → W → O → Bool)
    {ok : (op : S.Op) → W → O → Prop} (hcheck : ∀ {op w o}, check op w o = true → ok op w o)
    {n : ℕ} {c : Config S α W} {ω : ℕ → O} (hends : Config.ends h check n c ω = true) :
    c.Admits h ok ω ∧ c.Fair h ω := by
  have hstays : ∀ {c : Config S α W} {a : α} {ω : ℕ → O}, c.1 = .ret a →
      c.Admits h ok ω ∧ c.Fair h ω := by
    intro c a ω hc
    refine ⟨fun m op again k hcall => ?_, fun m => ⟨m, le_rfl, fun op again k hcall => ?_⟩⟩
    · rw [exec_ret hc, hc] at hcall
      exact absurd hcall (by simp)
    · rw [exec_ret hc, hc] at hcall
      exact absurd hcall (by simp)
  induction n generalizing c ω with
  | zero =>
      unfold Config.ends at hends
      split at hends
      · next a hc => exact hstays hc
      · exact absurd hends (by simp)
  | succ n ih =>
      unfold Config.ends at hends
      split at hends
      · next a hc => exact hstays hc
      · next op again k hc =>
          obtain ⟨hfirst, hrest⟩ := Bool.and_eq_true_iff.1 hends
          obtain ⟨hadmits, hfair⟩ := ih hrest
          have htail : ∀ m, (c.step h (ω 0)).exec h (fun j => ω (1 + j)) m = c.exec h ω (1 + m) :=
            fun m => Config.exec_exec h c ω 1 m
          constructor
          · intro m op' again' k' hcall
            cases m with
            | zero =>
                obtain ⟨rfl, -, -⟩ := Program.call.inj (hc.symm.trans hcall)
                exact hcheck hfirst
            | succ m =>
                rw [Nat.add_comm m 1, ← htail] at hcall ⊢
                exact hadmits m op' again' k' hcall
          · intro m
            obtain ⟨m', hm', hlast⟩ := hfair m
            refine ⟨1 + m', by omega, fun op' again' k' hcall => ?_⟩
            rw [← htail] at hcall ⊢
            exact hlast op' again' k' hcall

/-- Where the environment always picks `o`, the program runs to its end, with no retry and with an
    outcome that is allowed at every operation. -/
inductive Runs (h : Handler S W O) (ok : (op : S.Op) → W → O → Prop) (o : O) : Program S α → W → Prop
  | ret {a : α} {w : W} : Runs h ok o (.ret a) w
  | call {op : S.Op} {again : S.Ret op → Bool} {k : S.Ret op → Program S α} {w w₁ : W} {r : S.Ret op}
      (hok : ok op w o) (hreply : h op w o = (r, w₁)) (hlast : again r = false)
      (hrest : Runs h ok o (k r) w₁) : Runs h ok o (.call op again k) w

/-- The schedule that always picks the outcome is admitted and fair. -/
theorem Runs.schedule {h : Handler S W O} {ok : (op : S.Op) → W → O → Prop} {o : O} {p : Program S α}
    {w : W} (hp : p.Runs h ok o w) :
    Config.Admits h ok (p, w) (fun _ => o) ∧ Config.Fair h (p, w) (fun _ => o) := by
  have hrest : ∀ n, (Config.exec h (p, w) (fun _ => o) n).1.Runs h ok o
      (Config.exec h (p, w) (fun _ => o) n).2 := by
    intro n
    induction n with
    | zero => exact hp
    | succ n ih =>
        rw [Config.exec, Config.step]
        generalize Config.exec h (p, w) (fun _ => o) n = c at ih
        obtain ⟨q, v⟩ := c
        cases ih with
        | ret => exact .ret
        | call hok hreply hlast hrest =>
            simp only [hreply, hlast, Bool.false_eq_true, if_false]
            exact hrest
  refine ⟨fun n op again k hcall => ?_, fun n => ⟨n, le_rfl, fun op again k hcall => ?_⟩⟩
  · have hn := hrest n
    rw [hcall] at hn
    cases hn with
    | call hok _ _ _ => exact hok
  · have hn := hrest n
    rw [hcall] at hn
    cases hn with
    | call _ hreply hlast _ =>
        rw [hreply]
        exact hlast

/-- The outcome `o` is admitted wherever the program performs an operation, and asks for no retry. -/
def Steady (h : Handler S W O) (ok : (op : S.Op) → W → O → Prop) (o : O) : Program S α → Prop
  | .ret _ => True
  | .call op again k =>
      (∀ w, ok op w o ∧ again (h op w o).1 = false) ∧ ∀ r, (k r).Steady h ok o

theorem Steady.bind {h : Handler S W O} {ok : (op : S.Op) → W → O → Prop} {o : O} {p : Program S α}
    {f : α → Program S β} (hp : p.Steady h ok o) (hf : ∀ a, (f a).Steady h ok o) :
    (p >>= f).Steady h ok o := by
  induction p with
  | ret a => exact hf a
  | call op again k ih => exact ⟨hp.1, fun r => ih r (hp.2 r)⟩

/-- A program that is steady with an outcome runs on the schedule that always picks it. -/
theorem Steady.schedule {h : Handler S W O} {ok : (op : S.Op) → W → O → Prop} {o : O}
    {p : Program S α} (hp : p.Steady h ok o) (w : W) :
    Config.Admits h ok (p, w) (fun _ => o) ∧ Config.Fair h (p, w) (fun _ => o) := by
  refine Runs.schedule ?_
  induction p generalizing w with
  | ret a => exact .ret
  | call op again k ih => exact .call (hp.1 w).1 rfl (hp.1 w).2 (ih _ (hp.2 _) _)

/-! ## Correctness under interference -/

/-- Every run of the program from `w` keeps the guarantee `G` at each of its own steps and ends,
    if it ends, with `Q`, whatever happens between two of its steps as long as it is in the rely
    `R`. A retried operation must leave the state as it found it. -/
def Safe (H : Sem S W) (R G : W → W → Prop) (Q : α → W → Prop) : Program S α → W → Prop
  | .ret a, w => Q a w
  | .call op again k, w => ∀ w₁, R w w₁ → ∀ r w₂, H op w₁ r w₂ →
      if again r then w₂ = w₁ else G w₁ w₂ ∧ (k r).Safe H R G Q w₂

/-- Every run of the program from `w`, with nothing else running, ends with `Q`. -/
abbrev Always (H : Sem S W) (p : Program S α) (w : W) (Q : α → W → Prop) : Prop :=
  p.Safe H Eq (fun _ _ => True) Q w

section Rules

variable {H : Sem S W} {R G : W → W → Prop} {Q : α → W → Prop}

@[simp] theorem safe_ret {a : α} {w : W} : (Program.ret a : Program S α).Safe H R G Q w ↔ Q a w :=
  Iff.rfl

theorem safe_call {op : S.Op} {k : S.Ret op → Program S α} {w : W} :
    (Program.call op (fun _ => false) k).Safe H R G Q w ↔
      ∀ w₁, R w w₁ → ∀ r w₂, H op w₁ r w₂ → G w₁ w₂ ∧ (k r).Safe H R G Q w₂ := by
  simp [Safe]

theorem safe_perform {op : S.Op} {f : S.Ret op → Program S α} {w : W} :
    (perform op >>= f).Safe H R G Q w ↔
      ∀ w₁, R w w₁ → ∀ r w₂, H op w₁ r w₂ → G w₁ w₂ ∧ (f r).Safe H R G Q w₂ := by
  rw [perform_bind, safe_call]

theorem safe_retrying {op : S.Op} {again : S.Ret op → Bool} {f : S.Ret op → Program S α} {w : W} :
    (retrying op again >>= f).Safe H R G Q w ↔
      ∀ w₁, R w w₁ → ∀ r w₂, H op w₁ r w₂ →
        if again r then w₂ = w₁ else G w₁ w₂ ∧ (f r).Safe H R G Q w₂ := by
  rw [retrying_bind]
  rfl

/-- Sequencing: the postcondition of the first part is the safety of the rest. -/
theorem safe_bind {p : Program S α} {f : α → Program S β} {Q : β → W → Prop} {w : W} :
    (p >>= f).Safe H R G Q w ↔ p.Safe H R G (fun a w' => (f a).Safe H R G Q w') w := by
  induction p generalizing w with
  | ret a => rfl
  | call op again k ih =>
      constructor
      · intro h w₁ hR r w₂ hH
        have := h w₁ hR r w₂ hH
        split at this
        · next ha => simpa [ha] using this
        · next ha => simpa [ha] using ⟨this.1, (ih r).1 this.2⟩
      · intro h w₁ hR r w₂ hH
        have := h w₁ hR r w₂ hH
        split at this
        · next ha => simpa [ha] using this
        · next ha => simpa [ha] using ⟨this.1, (ih r).2 this.2⟩

/-- Consequence: a smaller rely, a larger guarantee and a weaker postcondition. -/
theorem Safe.mono {R' G' : W → W → Prop} {Q' : α → W → Prop} {p : Program S α} {w : W}
    (h : p.Safe H R G Q w) (hR : ∀ w w', R' w w' → R w w') (hG : ∀ w w', G w w' → G' w w')
    (hQ : ∀ a w, Q a w → Q' a w) : p.Safe H R' G' Q' w := by
  induction p generalizing w with
  | ret a => exact hQ a w h
  | call op again k ih =>
      intro w₁ hw₁ r w₂ hH
      have := h w₁ (hR _ _ hw₁) r w₂ hH
      split at this
      · next ha => simpa [ha] using this
      · next ha => simpa [ha] using ⟨hG _ _ this.1, ih r this.2⟩

theorem Safe.imp {Q' : α → W → Prop} {p : Program S α} {w : W} (h : p.Safe H R G Q w)
    (hQ : ∀ a w, Q a w → Q' a w) : p.Safe H R G Q' w :=
  h.mono (fun _ _ hR => hR) (fun _ _ hG => hG) hQ

/-- Fewer replies leave a safe program safe. -/
theorem Safe.of_sem {H' : Sem S W} (hH : ∀ {op w r w'}, H' op w r w' → H op w r w')
    {p : Program S α} {w : W} (h : p.Safe H R G Q w) : p.Safe H' R G Q w := by
  induction p generalizing w with
  | ret a => exact h
  | call op again k ih =>
      intro w₁ hw₁ r w₂ hH'
      have hnext := h w₁ hw₁ r w₂ (hH hH')
      split at hnext
      · next ha => simpa [ha] using hnext
      · next ha => simpa [ha] using ⟨hnext.1, ih r hnext.2⟩

/-- Interference that the rely allows leaves a safe program safe. -/
theorem Safe.env (hR : ∀ {w₁ w₂ w₃}, R w₁ w₂ → R w₂ w₃ → R w₁ w₃)
    (hQ : ∀ a w w', Q a w → R w w' → Q a w') {p : Program S α} {w w' : W}
    (h : p.Safe H R G Q w) (hw : R w w') : p.Safe H R G Q w' := by
  cases p with
  | ret a => exact hQ a w w' h hw
  | call op again k => exact fun w₁ hw₁ => h w₁ (hR hw hw₁)

end Rules

/-- Every operation the program may come to perform is one of `A`. -/
def Performs (A : (op : S.Op) → (S.Ret op → Bool) → Prop) : Program S α → Prop
  | .ret _ => True
  | .call op again k => A op again ∧ ∀ r, (k r).Performs A

theorem performs_perform {A : (op : S.Op) → (S.Ret op → Bool) → Prop} {op : S.Op}
    {f : S.Ret op → Program S α} :
    (perform op >>= f).Performs A ↔ A op (fun _ => false) ∧ ∀ r, (f r).Performs A := Iff.rfl

theorem performs_retrying {A : (op : S.Op) → (S.Ret op → Bool) → Prop} {op : S.Op}
    {again : S.Ret op → Bool} {f : S.Ret op → Program S α} :
    (retrying op again >>= f).Performs A ↔ A op again ∧ ∀ r, (f r).Performs A := Iff.rfl

theorem Performs.bind {A : (op : S.Op) → (S.Ret op → Bool) → Prop} {p : Program S α}
    {f : α → Program S β} (hp : p.Performs A) (hf : ∀ a, (f a).Performs A) :
    (p >>= f).Performs A := by
  induction p with
  | ret a => exact hf a
  | call op again k ih => exact ⟨hp.1, fun r => ih r (hp.2 r)⟩

/-- What is left of a program performs no other operations. -/
theorem Performs.exec {A : (op : S.Op) → (S.Ret op → Bool) → Prop} {h : Handler S W O}
    {p : Program S α} (hp : p.Performs A) (w : W) (ω : ℕ → O) (n : ℕ) :
    (Config.exec h (p, w) ω n).1.Performs A := by
  induction n with
  | zero => exact hp
  | succ n ih =>
      rw [Config.exec, Config.step]
      split
      · exact ih
      · next op again k hcall =>
          rw [hcall] at ih
          dsimp only
          split
          · rw [hcall]
            exact ih
          · exact ih.2 _

/-- What its operations keep, the program keeps along every run. -/
theorem Performs.keeps {A : (op : S.Op) → (S.Ret op → Bool) → Prop} {h : Handler S W O} {J : W → Prop}
    (hstep : ∀ {op again w} (o : O), A op again → J w → J (h op w o).2) {p : Program S α}
    (hp : p.Performs A) {w : W} (hw : J w) (ω : ℕ → O) (n : ℕ) : J (Config.exec h (p, w) ω n).2 := by
  induction n with
  | zero => exact hw
  | succ n ih =>
      have hop := hp.exec (h := h) w ω n
      rw [Config.exec, Config.step]
      split
      · exact ih
      · next op again k hcall =>
          rw [hcall] at hop
          exact hstep (ω n) hop.1 ih

theorem Performs.imp {A A' : (op : S.Op) → (S.Ret op → Bool) → Prop}
    (hA : ∀ op again, A op again → A' op again) {p : Program S α} (hp : p.Performs A) :
    p.Performs A' := by
  induction p with
  | ret a => trivial
  | call op again k ih => exact ⟨hA op again hp.1, fun r => ih r (hp.2 r)⟩

/-- A program is safe where each of its operations keeps the assertion and the guarantee. -/
theorem Performs.safe {A : (op : S.Op) → (S.Ret op → Bool) → Prop} {H : Sem S W}
    {R G : W → W → Prop} {P : W → Prop} (henv : ∀ {w w'}, P w → R w w' → P w')
    (hstep : ∀ {op again w r w'}, A op again → P w → H op w r w' →
      if again r then w' = w else G w w' ∧ P w')
    {p : Program S α} (hp : p.Performs A) {w : W} (hw : P w) : p.Safe H R G (fun _ => P) w := by
  induction p generalizing w with
  | ret a => exact hw
  | call op again k ih =>
      intro w₁ hR r w₂ hH
      have hnext := hstep hp.1 (henv hw hR) hH
      split at hnext
      · next ha => simpa [ha] using hnext
      · next ha => simpa [ha] using ⟨hnext.1, ih r (hp.2 r) hnext.2⟩

/-! ## Points of a program

What `Safe` says is about the states of a run. `Tracks` is about the points of the program itself:
`N x p` holds of every point `p` that replies within `Ok` can lead to, where `next` accumulates in `x`
what these replies were. -/

def Tracks {X : Type} (Ok : (op : S.Op) → S.Ret op → Prop) (next : (op : S.Op) → S.Ret op → X → X)
    (N : X → Program S α → Prop) : Program S α → X → Prop
  | .ret a, x => N x (.ret a)
  | .call op again k, x => N x (.call op again k) ∧ ∀ r, Ok op r →
      if again r then next op r x = x else (k r).Tracks Ok next N (next op r x)

section Tracks

variable {X : Type} {Ok : (op : S.Op) → S.Ret op → Prop} {next : (op : S.Op) → S.Ret op → X → X}
  {N : X → Program S α → Prop}

theorem Tracks.here {p : Program S α} {x : X} (h : p.Tracks Ok next N x) : N x p := by
  cases p with
  | ret a => exact h
  | call op again k => exact h.1

theorem Tracks.imp {N' : X → Program S α → Prop} (hN : ∀ x p, N x p → N' x p) {p : Program S α} {x : X}
    (h : p.Tracks Ok next N x) : p.Tracks Ok next N' x := by
  induction p generalizing x with
  | ret a => exact hN x _ h
  | call op again k ih =>
      refine ⟨hN x _ h.1, fun r hr => ?_⟩
      have hnext := h.2 r hr
      split at hnext
      · next ha => simpa only [ha, if_true] using hnext
      · next ha =>
          rw [if_neg ha]
          exact ih r hnext

theorem Tracks.and {N' : X → Program S α → Prop} {p : Program S α} {x : X} (h : p.Tracks Ok next N x)
    (h' : p.Tracks Ok next N' x) : p.Tracks Ok next (fun x p => N x p ∧ N' x p) x := by
  induction p generalizing x with
  | ret a => exact ⟨h, h'⟩
  | call op again k ih =>
      refine ⟨⟨h.1, h'.1⟩, fun r hr => ?_⟩
      have hnext := h.2 r hr
      have hnext' := h'.2 r hr
      split at hnext
      · next ha => simpa only [ha, if_true] using hnext
      · next ha =>
          rw [if_neg ha] at hnext' ⊢
          exact ih r hnext hnext'

theorem tracks_perform {op : S.Op} {f : S.Ret op → Program S α} {x : X}
    (hhere : N x (.call op (fun _ => false) f))
    (hnext : ∀ r, Ok op r → (f r).Tracks Ok next N (next op r x)) :
    (perform op >>= f).Tracks Ok next N x := by
  rw [perform_bind]
  exact ⟨hhere, fun r hr => by simpa using hnext r hr⟩

theorem tracks_retrying {op : S.Op} {again : S.Ret op → Bool} {f : S.Ret op → Program S α} {x : X}
    (hhere : N x (.call op again f)) (hagain : ∀ r, again r = true → next op r x = x)
    (hnext : ∀ r, Ok op r → again r = false → (f r).Tracks Ok next N (next op r x)) :
    (retrying op again >>= f).Tracks Ok next N x := by
  refine ⟨hhere, fun r hr => ?_⟩
  split
  · next ha => exact hagain r ha
  · next ha => exact hnext r hr (by simpa using ha)

/-- The points of a program that goes on: those of its first part, followed by the rest, and those
    of the rest from where the first part returns. -/
theorem Tracks.bind {M : X → Program S β → Prop} {p : Program S β} {f : β → Program S α} {x : X}
    (hp : p.Tracks Ok next M x)
    (hcall : ∀ x op again k, M x (.call op again k) → N x (.call op again fun r => k r >>= f))
    (hret : ∀ x a, M x (.ret a) → (f a).Tracks Ok next N x) :
    (p >>= f).Tracks Ok next N x := by
  induction p generalizing x with
  | ret a => exact hret x a hp
  | call op again k ih =>
      refine ⟨hcall x op again k hp.1, fun r hr => ?_⟩
      have hnext := hp.2 r hr
      split at hnext
      · next ha => simpa only [ha, if_true] using hnext
      · next ha =>
          rw [if_neg ha]
          exact ih r hnext

/-- What every operation of a program keeps holds at all of its points. -/
theorem Performs.tracks {A : (op : S.Op) → (S.Ret op → Bool) → Prop} {I : X → Prop}
    (hagain : ∀ {op again r x}, A op again → again r = true → next op r x = x)
    (hnext : ∀ {op again r x}, A op again → I x → I (next op r x)) {p : Program S α}
    (hp : p.Performs A) {x : X} (hx : I x) : p.Tracks Ok next (fun x _ => I x) x := by
  induction p generalizing x with
  | ret a => exact hx
  | call op again k ih =>
      refine ⟨hx, fun r _ => ?_⟩
      split
      · next ha => exact hagain hp.1 ha
      · exact ih r (hp.2 r) (hnext hp.1 hx)

/-- One step of an environment that replies within `Ok`. An assertion `J` on the state may use that
    the program is at a point that meets `N`. -/
theorem Tracks.step {h : Handler S W O} {o : O} (ghost : W → X) (J : W → Prop)
    (hstep : ∀ {op again k w}, N (ghost w) (.call op again k) → J w →
      Ok op (h op w o).1 ∧ ghost (h op w o).2 = next op (h op w o).1 (ghost w) ∧ J (h op w o).2)
    {c : Config S α W} (hc : c.1.Tracks Ok next N (ghost c.2)) (hw : J c.2) :
    (c.step h o).1.Tracks Ok next N (ghost (c.step h o).2) ∧ J (c.step h o).2 := by
  obtain ⟨q, v⟩ := c
  cases q with
  | ret a => exact ⟨hc, hw⟩
  | call op again k =>
      obtain ⟨hr, hghost, hv'⟩ := hstep hc.1 hw
      have hnext := hc.2 _ hr
      simp only [Config.step]
      refine ⟨?_, hv'⟩
      rw [hghost]
      split at hnext
      · next ha =>
          simp only [ha, if_true, hnext]
          exact hc
      · next ha =>
          rw [if_neg ha]
          exact hnext

/-- Along every run of an environment that replies within `Ok`, the program is at a point that meets
    `N`, and the assertion `J` holds. -/
theorem Tracks.exec {h : Handler S W O} (ghost : W → X) (J : W → Prop)
    (hstep : ∀ {op again k w o}, N (ghost w) (.call op again k) → J w →
      Ok op (h op w o).1 ∧ ghost (h op w o).2 = next op (h op w o).1 (ghost w) ∧ J (h op w o).2)
    {p : Program S α} {w : W} (hp : p.Tracks Ok next N (ghost w)) (hw : J w) (ω : ℕ → O) (n : ℕ) :
    (Config.exec h (p, w) ω n).1.Tracks Ok next N (ghost (Config.exec h (p, w) ω n).2) ∧
      J (Config.exec h (p, w) ω n).2 := by
  induction n with
  | zero => exact ⟨hp, hw⟩
  | succ n ih => exact Tracks.step ghost J hstep ih.1 ih.2

/-- Whatever the replies are, what the program returns meets `Q`. -/
def Results (Q : α → Prop) : Program S α → Prop
  | .ret a => Q a
  | .call _ _ k => ∀ r, (k r).Results Q

theorem results_perform {Q : α → Prop} {op : S.Op} {f : S.Ret op → Program S α} :
    (perform op >>= f).Results Q ↔ ∀ r, (f r).Results Q := Iff.rfl

theorem Results.bind {M : β → Prop} {Q : α → Prop} {p : Program S β} {f : β → Program S α}
    (hp : p.Results M) (h : ∀ b, M b → (f b).Results Q) : (p >>= f).Results Q := by
  induction p with
  | ret b => exact h b hp
  | call op again k ih => exact fun r => ih r (hp r)

/-- The points of a program and what it returns. -/
theorem Tracks.results {Q : α → Prop} {p : Program S α} {x : X} (h : p.Tracks Ok next N x)
    (hp : p.Results Q) : p.Tracks Ok next (fun x p => N x p ∧ ∀ a, p = .ret a → Q a) x := by
  induction p generalizing x with
  | ret a => exact ⟨h, fun b hb => Program.ret.inj hb ▸ hp⟩
  | call op again k ih =>
      refine ⟨⟨h.1, fun a ha => absurd ha (by simp)⟩, fun r hr => ?_⟩
      have hnext := h.2 r hr
      split at hnext
      · next ha => simpa only [ha, if_true] using hnext
      · next ha =>
          rw [if_neg ha]
          exact ih r hnext (hp r)

end Tracks

/-! ## Agreement of two programs -/

/-- The programs perform the same operations, as long as the replies are within `Ok`, and return
    related values. -/
inductive Agree (Ok : (op : S.Op) → S.Ret op → Prop) (R : α → β → Prop) :
    Program S α → Program S β → Prop
  | ret {a : α} {b : β} : R a b → Agree Ok R (.ret a) (.ret b)
  | call {op : S.Op} {again : S.Ret op → Bool} {k : S.Ret op → Program S α}
      {l : S.Ret op → Program S β} : (∀ r, Ok op r → Agree Ok R (k r) (l r)) →
      Agree Ok R (.call op again k) (.call op again l)

section Agree

variable {Ok : (op : S.Op) → S.Ret op → Prop} {R : α → β → Prop}

theorem Agree.bind {Q : γ → δ → Prop} {p : Program S α} {q : Program S β} {f : α → Program S γ}
    {g : β → Program S δ} (h : Agree Ok R p q) (hf : ∀ a b, R a b → Agree Ok Q (f a) (g b)) :
    Agree Ok Q (p >>= f) (q >>= g) := by
  induction h with
  | ret hab => exact hf _ _ hab
  | call _ ih => exact .call ih

theorem Agree.perform {op : S.Op} {f : S.Ret op → Program S α} {g : S.Ret op → Program S β}
    (h : ∀ r, Ok op r → Agree Ok R (f r) (g r)) :
    Agree Ok R (Program.perform op >>= f) (Program.perform op >>= g) :=
  .call h

theorem Agree.retrying {op : S.Op} {again : S.Ret op → Bool} {f : S.Ret op → Program S α}
    {g : S.Ret op → Program S β} (h : ∀ r, Ok op r → Agree Ok R (f r) (g r)) :
    Agree Ok R (Program.retrying op again >>= f) (Program.retrying op again >>= g) :=
  .call h

/-- On every run whose replies are within `Ok`, both programs go through the same states. -/
theorem Agree.exec {h : Handler S W O} (hOk : ∀ op w o, Ok op (h op w o).1) {p : Program S α}
    {q : Program S β} (hpq : Agree Ok R p q) (w : W) (ω : ℕ → O) (n : ℕ) :
    (Config.exec h (p, w) ω n).2 = (Config.exec h (q, w) ω n).2 ∧
      Agree Ok R (Config.exec h (p, w) ω n).1 (Config.exec h (q, w) ω n).1 := by
  induction n with
  | zero => exact ⟨rfl, hpq⟩
  | succ n ih =>
      obtain ⟨hw, hagree⟩ := ih
      rw [Config.exec, Config.exec]
      generalize Config.exec h (p, w) ω n = c at hw hagree ⊢
      generalize Config.exec h (q, w) ω n = d at hw hagree ⊢
      obtain ⟨p', v⟩ := c
      obtain ⟨q', v'⟩ := d
      obtain rfl : v = v' := hw
      cases hagree with
      | ret hab => exact ⟨rfl, .ret hab⟩
      | @call op again k l hnext =>
          refine ⟨rfl, ?_⟩
          simp only [Config.step]
          split
          · exact .call hnext
          · exact hnext _ (hOk op v (ω n))

end Agree

/-! ## Runs of a program on its own -/

/-- What the guarantee says of each state a program steps into holds along every run. -/
theorem Safe.along {h : Handler S W O} {ok : (op : S.Op) → W → O → Prop} {J : W → Prop}
    {Q : α → W → Prop} {p : Program S α} {w : W} (hp : p.Safe (h.sem ok) Eq (fun _ => J) Q w)
    (hw : J w) {ω : ℕ → O} (hok : Config.Admits h ok (p, w) ω) (n : ℕ) :
    (Config.exec h (p, w) ω n).1.Safe (h.sem ok) Eq (fun _ => J) Q (Config.exec h (p, w) ω n).2 ∧
      J (Config.exec h (p, w) ω n).2 := by
  induction n with
  | zero => exact ⟨hp, hw⟩
  | succ n ih =>
      have hadmit := hok n
      simp only [Config.exec, Config.step]
      obtain ⟨hsafe, hJ⟩ := ih
      cases hprog : (Config.exec h (p, w) ω n).1 with
      | ret a =>
          rw [hprog] at hsafe
          exact ⟨by rw [hprog]; exact hsafe, hJ⟩
      | call op again k =>
          rw [hprog] at hsafe
          have hnext := hsafe _ rfl _ _ ⟨ω n, hadmit op again k hprog, rfl⟩
          split at hnext
          · next ha =>
              simp only [ha, if_true, hnext]
              exact ⟨hsafe, hJ⟩
          · next ha =>
              simp only [if_neg ha]
              exact ⟨hnext.2, hnext.1⟩

/-- What `Always` says stays true along a run. -/
theorem Always.exec {h : Handler S W O} {ok : (op : S.Op) → W → O → Prop} {Q : α → W → Prop}
    {p : Program S α} {w : W} (hp : p.Always (h.sem ok) w Q) {ω : ℕ → O}
    (hok : Config.Admits h ok (p, w) ω) (n : ℕ) :
    (Config.exec h (p, w) ω n).1.Always (h.sem ok) (Config.exec h (p, w) ω n).2 Q :=
  (Safe.along (J := fun _ => True) hp trivial hok n).1

/-- A program that `Always` meets `Q` meets it wherever it returns. -/
theorem Always.of_returns {h : Handler S W O} {ok : (op : S.Op) → W → O → Prop} {Q : α → W → Prop}
    {p : Program S α} {w w' : W} {a : α} (hp : p.Always (h.sem ok) w Q) {ω : ℕ → O}
    (hok : Config.Admits h ok (p, w) ω) (hret : Config.Returns h (p, w) ω a w') : Q a w' := by
  obtain ⟨n, hn⟩ := hret
  have hq := hp.exec hok n
  rwa [hn] at hq

/-- While every reply asks for a retry the configuration stays as it is. -/
theorem Always.exec_retry {h : Handler S W O} {ok : (op : S.Op) → W → O → Prop}
    {Q : α → W → Prop} {op : S.Op} {again : S.Ret op → Bool} {k : S.Ret op → Program S α} {w : W}
    (hp : (Program.call op again k).Always (h.sem ok) w Q) {ω : ℕ → O}
    (hok : Config.Admits h ok (Program.call op again k, w) ω) (n : ℕ)
    (hn : ∀ i < n, again (h op w (ω i)).1 = true) :
    Config.exec h (Program.call op again k, w) ω n = (.call op again k, w) := by
  induction n with
  | zero => rfl
  | succ n ih =>
      have hexec := ih (fun i hi => hn i (by omega))
      have hagain := hn n (by omega)
      have hok' := hok n op again k (by rw [hexec])
      rw [hexec] at hok'
      have hw := hp w rfl (h op w (ω n)).1 (h op w (ω n)).2 ⟨ω n, hok', rfl⟩
      rw [if_pos hagain] at hw
      rw [Config.exec, hexec]
      simp only [Config.step, hagain, if_true, hw]

/-- **A program that `Always` meets `Q` returns on every fair schedule**, and meets `Q` there. The
    retries are the only way a program can go on forever, so no bound on the schedule is needed. -/
theorem Always.returns {h : Handler S W O} {ok : (op : S.Op) → W → O → Prop} {Q : α → W → Prop}
    {p : Program S α} {w : W} (hp : p.Always (h.sem ok) w Q) {ω : ℕ → O}
    (hok : Config.Admits h ok (p, w) ω) (hfair : Config.Fair h (p, w) ω) :
    ∃ a w', Config.Returns h (p, w) ω a w' ∧ Q a w' := by
  induction p generalizing w ω with
  | ret a => exact ⟨a, w, ⟨0, rfl⟩, hp⟩
  | call op again k ih =>
      have hex : ∃ i, again (h op w (ω i)).1 = false := by
        by_contra hne
        have hall : ∀ i, again (h op w (ω i)).1 = true := fun i => by
          simpa using not_exists.1 hne i
        obtain ⟨m, -, hm⟩ := hfair 0
        have hstay := hp.exec_retry hok m (fun i _ => hall i)
        have hm' := hm op again k (by rw [hstay])
        rw [hstay] at hm'
        exact absurd (hall m) (by simp [hm'])
      -- `i` is the first reply that is not retried: up to it nothing changes
      classical
      obtain ⟨i, hi, hlt⟩ : ∃ i, again (h op w (ω i)).1 = false ∧
          ∀ j < i, again (h op w (ω j)).1 = true :=
        ⟨Nat.find hex, Nat.find_spec hex, fun j hj => by simpa using Nat.find_min hex hj⟩
      have hat := hp.exec_retry hok i hlt
      have hoki := hok i op again k (by rw [hat])
      rw [hat] at hoki
      have hnext := hp w rfl (h op w (ω i)).1 (h op w (ω i)).2 ⟨ω i, hoki, rfl⟩
      rw [if_neg (by simp [hi])] at hnext
      have hcfg : Config.exec h (Program.call op again k, w) ω (i + 1)
          = (k (h op w (ω i)).1, (h op w (ω i)).2) := by
        rw [Config.exec, hat]
        simp [Config.step, hi]
      have hok' := hok.drop (i + 1)
      have hfair' := hfair.drop (i + 1)
      rw [hcfg] at hok' hfair'
      obtain ⟨a, w', ⟨n, hn⟩, hQ⟩ := ih (h op w (ω i)).1 hnext.2 hok' hfair'
      refine ⟨a, w', ⟨i + 1 + n, ?_⟩, hQ⟩
      rw [← Config.exec_exec, hcfg, hn]

/-! ## Runs among others -/

/-- The environment in which something else happens first whenever an operation is performed. -/
def amid (h : Handler S W O) : Handler S W ((W → W) × O) := fun op w e => h op (e.1 w) e.2

/-- What happens in between is within `R`, and the outcomes within `ok`. -/
def Within (R : W → W → Prop) (ok : (op : S.Op) → W → O → Prop) (op : S.Op) (w : W)
    (e : (W → W) × O) : Prop :=
  R w (e.1 w) ∧ ok op (e.1 w) e.2

/-- A program that is steady alone is steady where the same happens before each of its operations. -/
theorem Steady.amid {h : Handler S W O} {ok : (op : S.Op) → W → O → Prop} {o : O} {R : W → W → Prop}
    {f : W → W} {p : Program S α} (hp : p.Steady h ok o) (hf : ∀ w, R w (f w)) :
    p.Steady (Program.amid h) (Within R ok) (f, o) := by
  induction p with
  | ret a => trivial
  | call op again k ih =>
      exact ⟨fun w => ⟨⟨hf w, (hp.1 (f w)).1⟩, (hp.1 (f w)).2⟩, fun r => ih r (hp.2 r)⟩

/-- **A program that is safe among others returns on every fair schedule**, as one that runs alone. -/
theorem Safe.returns {h : Handler S W O} {ok : (op : S.Op) → W → O → Prop} {R G : W → W → Prop}
    {Q : α → W → Prop} (hrefl : ∀ w, R w w) (htrans : ∀ {u v w}, R u v → R v w → R u w)
    {p : Program S α} {w : W} (hp : p.Safe (h.sem ok) R G Q w) {ω : ℕ → (W → W) × O}
    (hok : Config.Admits (amid h) (Within R ok) (p, w) ω) (hfair : Config.Fair (amid h) (p, w) ω) :
    ∃ a w', Config.Returns (amid h) (p, w) ω a w' ∧ Q a w' := by
  induction p generalizing w ω with
  | ret a => exact ⟨a, w, ⟨0, rfl⟩, hp⟩
  | call op again k ih =>
      have hstep : ∀ {v e}, R w v → Within R ok op v e →
          if again (amid h op v e).1 then (amid h op v e).2 = e.1 v
          else (k (amid h op v e).1).Safe (h.sem ok) R G Q (amid h op v e).2 := by
        intro v e hR hwithin
        have hnext := hp (e.1 v) (htrans hR hwithin.1) _ _ ⟨e.2, hwithin.2, rfl⟩
        unfold amid
        split at hnext
        · next ha => simpa only [ha, if_true] using hnext
        · next ha =>
            rw [if_neg ha]
            exact hnext.2
      -- until the first reply that is not retried, the program stays and the state is in the rely
      have hstays : ∀ n, (∃ i v, Config.exec (amid h) (Program.call op again k, w) ω i
            = (.call op again k, v) ∧ R w v ∧ again (amid h op v (ω i)).1 = false) ∨
          ∃ v, Config.exec (amid h) (Program.call op again k, w) ω n = (.call op again k, v) ∧ R w v := by
        intro n
        induction n with
        | zero => exact Or.inr ⟨w, rfl, hrefl w⟩
        | succ n ihn =>
            rcases ihn with hdone | ⟨v, hv, hR⟩
            · exact Or.inl hdone
            · by_cases hagain : again (amid h op v (ω n)).1 = true
              · have hwithin := hok n op again k (by rw [hv])
                rw [hv] at hwithin
                have hnext := hstep hR hwithin
                rw [if_pos hagain] at hnext
                refine Or.inr ⟨(ω n).1 v, ?_, htrans hR hwithin.1⟩
                rw [Config.exec, hv]
                simp only [Config.step, hagain, if_true, hnext]
              · exact Or.inl ⟨n, v, hv, hR, by simpa using hagain⟩
      obtain ⟨i, v, hv, hR, hlast⟩ : ∃ i v, Config.exec (amid h) (Program.call op again k, w) ω i
          = (.call op again k, v) ∧ R w v ∧ again (amid h op v (ω i)).1 = false := by
        obtain ⟨m, -, hm⟩ := hfair 0
        rcases hstays m with hdone | ⟨v, hv, hR⟩
        · exact hdone
        · have hlast := hm op again k (by rw [hv])
          rw [hv] at hlast
          exact ⟨m, v, hv, hR, hlast⟩
      have hwithin := hok i op again k (by rw [hv])
      rw [hv] at hwithin
      have hnext := hstep hR hwithin
      rw [if_neg (by rw [Bool.not_eq_true]; exact hlast)] at hnext
      have hcfg : Config.exec (amid h) (Program.call op again k, w) ω (i + 1)
          = (k (amid h op v (ω i)).1, (amid h op v (ω i)).2) := by
        rw [Config.exec, hv]
        simp [Config.step, hlast]
      have hok' := hok.drop (i + 1)
      have hfair' := hfair.drop (i + 1)
      rw [hcfg] at hok' hfair'
      obtain ⟨a, w', ⟨n, hn⟩, hQ⟩ := ih _ hnext hok' hfair'
      refine ⟨a, w', ⟨i + 1 + n, ?_⟩, hQ⟩
      rw [← Config.exec_exec, hcfg, hn]

end Program

end Effects
