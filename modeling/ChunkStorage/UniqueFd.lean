import ChunkStorage.Lib.FileSystem

set_option autoImplicit false

/-! # `UniqueFd`

`common/unique_fd.h`. The numbers of descriptors are reused, so a number alone does not say which
descriptor is meant: `Fd` carries as a ghost the `open` it came from, and the table of the process
knows which `open` each number in use belongs to. A program is any list of statements on any number
of objects. `Ledger` says who holds each descriptor; every statement is put together from steps that
keep it. -/

namespace ChunkStorage

/-- An `int` for a descriptor. The ghost `serial` numbers the `open` that returned it. -/
structure Fd where
  number : ℤ
  serial : ℕ

/-- `-1`. -/
def noFd : Fd := ⟨-1, 0⟩

/-- The object, by its member `fd_`. -/
structure UniqueFd where
  fd : Fd

namespace UniqueFd

/-- `UniqueFd()`. -/
def empty : UniqueFd := ⟨noFd⟩

def valid (self : UniqueFd) : Bool := 0 ≤ self.fd.number

/-- `release()`: the descriptor, and the object after it. -/
def release (self : UniqueFd) : Fd × UniqueFd := (self.fd, ⟨noFd⟩)

/-- `reset(fd)`: the object after it, and the descriptor that it calls `close` on. -/
def reset (self : UniqueFd) (fd : Fd) : UniqueFd × Option Fd :=
  (⟨fd⟩, if self.fd.number ≥ 0 ∧ self.fd.number ≠ fd.number then some self.fd else none)

end UniqueFd

/-! ## Programs -/

/-- A call of `close`, and what the table had under the number. -/
structure CloseCall where
  fd : Fd
  found : Option ℕ

/-- The objects that are alive and the descriptors of the process. -/
structure FdWorld where
  objects : ℕ → Option UniqueFd
  /-- The numbers in use, with the `open` each belongs to. -/
  table : ℕ → Option ℕ
  /-- How many descriptors were opened. -/
  opened : ℕ
  /-- The descriptors that `release` handed out. -/
  released : List ℕ
  /-- The calls of `close` that objects made. -/
  closes : List CloseCall

namespace FdWorld

def start : FdWorld := ⟨fun _ => none, fun _ => none, 0, [], []⟩

def put (w : FdWorld) (a : ℕ) (u : UniqueFd) : FdWorld :=
  { w with objects := Function.update w.objects a (some u) }

def remove (w : FdWorld) (a : ℕ) : FdWorld :=
  { w with objects := Function.update w.objects a none }

/-- `open`, which fails or picks any number that is not in use. -/
def «open» (w : FdWorld) : Option ℕ → Option (Fd × FdWorld)
  | none => some (noFd, w)
  | some n =>
      if w.table n = none then
        some (⟨n, w.opened⟩,
          { w with table := Function.update w.table n (some w.opened), opened := w.opened + 1 })
      else none

/-- `close`. -/
def close (w : FdWorld) (fd : Fd) : FdWorld :=
  { w with
    table := Function.update w.table fd.number.toNat none
    closes := ⟨fd, w.table fd.number.toNat⟩ :: w.closes }

/-- `reset` of the object at `a`. -/
def reset (w : FdWorld) (a : ℕ) (u : UniqueFd) (fd : Fd) : FdWorld :=
  match u.reset fd with
  | (u', some old) => (w.close old).put a u'
  | (u', none) => w.put a u'

/-- A descriptor is handed out to the caller of `release`. -/
def handOut (w : FdWorld) (fd : Fd) : FdWorld :=
  if 0 ≤ fd.number then { w with released := fd.serial :: w.released } else w

end FdWorld

/-- The statements of a program, on objects named by their addresses. An `open` is given the number
    it returns, or `none` if it fails. -/
inductive FdOp where
  /-- `UniqueFd a;` -/
  | construct (a : ℕ)
  /-- `UniqueFd a(::open(..));` -/
  | constructOpen (a : ℕ) (n : Option ℕ)
  /-- `UniqueFd a(std::move(b));` -/
  | moveConstruct (a b : ℕ)
  /-- `a = std::move(b);` -/
  | moveAssign (a b : ℕ)
  /-- `a.release();` -/
  | release (a : ℕ)
  /-- `a.reset();` -/
  | reset (a : ℕ)
  /-- `a.reset(::open(..));` -/
  | resetOpen (a : ℕ) (n : Option ℕ)
  /-- `a.reset(a.get());` -/
  | resetOwn (a : ℕ)
  /-- The end of the lifetime of `a`. -/
  | destroy (a : ℕ)

/-- One statement. There is no result if it uses an object that is not alive, constructs one at an
    address in use, or an `open` returns a number in use. -/
def FdOp.run : FdOp → FdWorld → Option FdWorld
  | .construct a, w =>
      match w.objects a with
      | some _ => none
      | none => some (w.put a .empty)
  | .constructOpen a n, w =>
      match w.objects a with
      | some _ => none
      | none => (w.open n).map fun (fd, w) => w.put a ⟨fd⟩
  | .moveConstruct a b, w =>
      match w.objects a, w.objects b with
      | none, some v => some ((w.put b v.release.2).put a ⟨v.release.1⟩)
      | _, _ => none
  | .moveAssign a b, w =>
      match w.objects a, w.objects b with
      | some u, some v =>
          if a ≠ b then some ((w.put b v.release.2).reset a u v.release.1) else some w
      | _, _ => none
  | .release a, w => (w.objects a).map fun u => (w.put a u.release.2).handOut u.release.1
  | .reset a, w => (w.objects a).map fun u => w.reset a u noFd
  | .resetOpen a n, w =>
      match w.objects a with
      | some u => (w.open n).map fun (fd, w) => w.reset a u fd
      | none => none
  | .resetOwn a, w => (w.objects a).map fun u => w.reset a u u.fd
  | .destroy a, w => (w.objects a).map fun u => (w.reset a u noFd).remove a

/-- A whole program. -/
def runAll : List FdOp → FdWorld → Option FdWorld
  | [], w => some w
  | op :: ops, w => (op.run w).bind (runAll ops)

/-! ## Who holds what -/

/-- The descriptor of an `int`, if it is one. -/
def Fd.held (fd : Fd) : Option Fd := if 0 ≤ fd.number then some fd else none

/-- The descriptor each object holds. Under `none` is the one that the running statement has in its
    hands. -/
def FdWorld.holds (w : FdWorld) (hand : Option Fd) : Option ℕ → Option Fd
  | none => hand
  | some a => (w.objects a).bind fun u => u.fd.held

/-- The serials of the descriptors that were closed. -/
def FdWorld.closed (w : FdWorld) : List ℕ := w.closes.map fun c => c.fd.serial

/-- Every descriptor that was opened is held in one place, was handed out, or was closed. -/
structure Ledger (hand : Option Fd) (w : FdWorld) : Prop where
  /-- What is held is open under its number. -/
  current : ∀ x fd, w.holds hand x = some fd → 0 ≤ fd.number ∧
    w.table fd.number.toNat = some fd.serial ∧ fd.serial ∉ w.released ∧ fd.serial ∉ w.closed
  apart : ∀ x y fd fd', w.holds hand x = some fd → w.holds hand y = some fd' →
    fd.serial = fd'.serial → x = y
  known : ∀ k, (∃ n, w.table n = some k) ∨ k ∈ w.released ∨ k ∈ w.closed → k < w.opened
  accounted : ∀ k < w.opened, k ∈ w.released ∨ k ∈ w.closed ∨
    ∃ x fd, w.holds hand x = some fd ∧ fd.serial = k
  found : ∀ c ∈ w.closes, c.found = some c.fd.serial
  once : w.closed.Nodup
  kept : ∀ k ∈ w.released, k ∉ w.closed

@[simp] theorem held_noFd : noFd.held = none := rfl

theorem held_eq_some {fd fd' : Fd} : fd.held = some fd' ↔ fd = fd' ∧ 0 ≤ fd'.number := by
  unfold Fd.held
  split
  · next h =>
      constructor
      · intro heq
        obtain rfl := Option.some.inj heq
        exact ⟨rfl, h⟩
      · rintro ⟨rfl, -⟩
        rfl
  · next h =>
      refine ⟨fun heq => absurd heq (by simp), ?_⟩
      rintro ⟨rfl, hvalid⟩
      exact absurd hvalid h

theorem holds_put (w : FdWorld) (hand : Option Fd) (a : ℕ) (u : UniqueFd) :
    (w.put a u).holds hand = Function.update (w.holds hand) (some a) u.fd.held := by
  funext x
  cases x with
  | none => simp [FdWorld.holds]
  | some b =>
      by_cases hb : b = a
      · subst hb
        simp [FdWorld.holds, FdWorld.put]
      · simp [FdWorld.holds, FdWorld.put, hb]

section Steps

variable {w : FdWorld} {hand hand' : Option Fd} {a : ℕ}

theorem Ledger.empty : Ledger none FdWorld.start where
  current x fd h := by cases x <;> simp [FdWorld.holds, FdWorld.start] at h
  apart x y fd fd' h := by cases x <;> simp [FdWorld.holds, FdWorld.start] at h
  known k h := by simp [FdWorld.start, FdWorld.closed] at h
  accounted k hk := absurd hk (by simp [FdWorld.start])
  found c hc := absurd hc (by simp [FdWorld.start])
  once := by simp [FdWorld.start, FdWorld.closed]
  kept k hk := absurd hk (by simp [FdWorld.start])

/-- A descriptor that only changes hands stays in the ledger. -/
theorem Ledger.moves (h : Ledger hand w) (e : Option ℕ ≃ Option ℕ) (objects : ℕ → Option UniqueFd)
    (hholds : ({ w with objects := objects } : FdWorld).holds hand' = w.holds hand ∘ e) :
    Ledger hand' { w with objects := objects } where
  current x fd hx := by
    rw [hholds] at hx
    exact h.current (e x) fd hx
  apart x y fd fd' hx hy hserial := by
    rw [hholds] at hx hy
    exact e.injective (h.apart _ _ fd fd' hx hy hserial)
  known := h.known
  accounted k hk := by
    rcases h.accounted k hk with hout | hclosed | ⟨x, fd, hx, hserial⟩
    · exact Or.inl hout
    · exact Or.inr (Or.inl hclosed)
    · refine Or.inr (Or.inr ⟨e.symm x, fd, ?_, hserial⟩)
      rw [hholds, Function.comp_apply, e.apply_symm_apply]
      exact hx
  found := h.found
  once := h.once
  kept := h.kept

/-- `release` takes the descriptor out of the object. -/
theorem Ledger.take (h : Ledger none w) {v : UniqueFd} (hv : w.objects a = some v) :
    Ledger v.release.1.held (w.put a v.release.2) := by
  refine h.moves (Equiv.swap none (some a)) _ ?_
  have hput := holds_put w v.release.1.held a v.release.2
  refine hput.trans (funext fun x => ?_)
  by_cases hnone : x = none
  · subst hnone
    simp [FdWorld.holds, hv, UniqueFd.release]
  · by_cases ha : x = some a
    · subst ha
      simp [FdWorld.holds, UniqueFd.release]
    · rw [Function.comp_apply, Equiv.swap_apply_of_ne_of_ne hnone ha, Function.update_of_ne ha]
      cases x with
      | none => exact absurd rfl hnone
      | some b => rfl

/-- An object that holds nothing gets the descriptor in hand. -/
theorem Ledger.give {fd : Fd} (h : Ledger fd.held w) (ha : w.holds none (some a) = none) :
    Ledger none (w.put a ⟨fd⟩) := by
  refine h.moves (Equiv.swap none (some a)) _ ?_
  have hput := holds_put w none a ⟨fd⟩
  refine hput.trans (funext fun x => ?_)
  by_cases hnone : x = none
  · subst hnone
    simpa [FdWorld.holds] using ha.symm
  · by_cases hx : x = some a
    · subst hx
      simp [FdWorld.holds]
    · rw [Function.comp_apply, Equiv.swap_apply_of_ne_of_ne hnone hx, Function.update_of_ne hx]
      cases x with
      | none => exact absurd rfl hnone
      | some b => rfl

/-- A new descriptor comes into the hands of the statement. -/
theorem Ledger.opens (h : Ledger none w) {n : Option ℕ} {fd : Fd} {w' : FdWorld}
    (hopen : w.open n = some (fd, w')) : Ledger fd.held w' ∧ w'.objects = w.objects := by
  cases n with
  | none =>
      obtain ⟨rfl, rfl⟩ := Prod.mk.inj (Option.some.inj hopen)
      exact ⟨h, rfl⟩
  | some n =>
      unfold FdWorld.open at hopen
      dsimp only at hopen
      split at hopen
      · next hfree =>
          obtain ⟨rfl, rfl⟩ := Prod.mk.inj (Option.some.inj hopen)
          have hheld : (⟨n, w.opened⟩ : Fd).held = some ⟨n, w.opened⟩ := by simp [Fd.held]
          have hold : ∀ {x fd}, w.holds none x = some fd → fd.serial < w.opened ∧
              fd.number.toNat ≠ n := by
            intro x fd hx
            obtain ⟨-, htable, -⟩ := h.current x fd hx
            refine ⟨h.known _ (Or.inl ⟨_, htable⟩), fun hn => ?_⟩
            rw [hn, hfree] at htable
            exact absurd htable (by simp)
          have hcases : ∀ {x fd}, FdWorld.holds
              { w with table := Function.update w.table n (some w.opened), opened := w.opened + 1 }
              (⟨n, w.opened⟩ : Fd).held x = some fd →
              (x = none ∧ fd = ⟨n, w.opened⟩) ∨ (x ≠ none ∧ w.holds none x = some fd) := by
            intro x fd hx
            cases x with
            | none =>
                rw [FdWorld.holds, hheld] at hx
                exact Or.inl ⟨rfl, (Option.some.inj hx).symm⟩
            | some b => exact Or.inr ⟨by simp, hx⟩
          refine ⟨⟨?_, ?_, ?_, ?_, h.found, h.once, h.kept⟩, rfl⟩
          · intro x fd hx
            rcases hcases hx with ⟨-, rfl⟩ | ⟨-, hx⟩
            · refine ⟨by simp, by simp, fun hout => ?_, fun hclosed => ?_⟩
              · exact absurd (h.known _ (Or.inr (Or.inl hout))) (by simp)
              · exact absurd (h.known _ (Or.inr (Or.inr hclosed))) (by simp)
            · obtain ⟨hvalid, htable, hrest⟩ := h.current x fd hx
              refine ⟨hvalid, ?_, hrest⟩
              simpa [(hold hx).2] using htable
          · intro x y fd fd' hx hy hserial
            rcases hcases hx with ⟨rfl, rfl⟩ | ⟨-, hx⟩
            · rcases hcases hy with ⟨rfl, -⟩ | ⟨-, hy⟩
              · rfl
              · have hlt := (hold hy).1
                rw [← hserial] at hlt
                exact absurd hlt (by simp)
            · rcases hcases hy with ⟨-, rfl⟩ | ⟨-, hy⟩
              · have hlt := (hold hx).1
                rw [hserial] at hlt
                exact absurd hlt (by simp)
              · exact h.apart x y fd fd' hx hy hserial
          · rintro k (⟨m, hm⟩ | hrest)
            · dsimp only at hm
              by_cases hmn : m = n
              · subst hmn
                rw [Function.update_self] at hm
                rw [← Option.some.inj hm]
                exact Nat.lt_succ_self _
              · rw [Function.update_of_ne hmn] at hm
                exact Nat.lt_succ_of_lt (h.known k (Or.inl ⟨m, hm⟩))
            · exact Nat.lt_succ_of_lt (h.known k (Or.inr hrest))
          · intro k hk
            rcases Nat.lt_succ_iff_lt_or_eq.1 hk with hlt | rfl
            · rcases h.accounted k hlt with hout | hclosed | ⟨x, fd, hx, hserial⟩
              · exact Or.inl hout
              · exact Or.inr (Or.inl hclosed)
              · refine Or.inr (Or.inr ⟨x, fd, ?_, hserial⟩)
                cases x with
                | none => exact absurd hx (by simp [FdWorld.holds])
                | some b => exact hx
            · exact Or.inr (Or.inr ⟨none, ⟨n, w.opened⟩, hheld, rfl⟩)
      · exact absurd hopen (by simp)

/-- The descriptor in hand goes to the caller of `release`. -/
theorem Ledger.handOut {fd : Fd} (h : Ledger fd.held w) : Ledger none (w.handOut fd) := by
  unfold FdWorld.handOut
  by_cases hvalid : 0 ≤ fd.number
  · rw [if_pos hvalid]
    have hheld : fd.held = some fd := held_eq_some.2 ⟨rfl, hvalid⟩
    have hhand : w.holds fd.held none = some fd := hheld
    obtain ⟨-, htable, -, hopen⟩ := h.current none fd hhand
    have hother : ∀ {x fd'}, w.holds none x = some fd' → w.holds fd.held x = some fd' ∧ x ≠ none := by
      intro x fd' hx
      cases x with
      | none => exact absurd hx (by simp [FdWorld.holds])
      | some b => exact ⟨hx, by simp⟩
    refine ⟨?_, ?_, ?_, ?_, h.found, h.once, ?_⟩
    · intro x fd' hx
      obtain ⟨hx', hne⟩ := hother hx
      obtain ⟨hv, ht, hout, hclosed⟩ := h.current x fd' hx'
      refine ⟨hv, ht, ?_, hclosed⟩
      intro hmem
      rcases List.mem_cons.1 hmem with hserial | hmem'
      · exact hne (h.apart x none fd' fd hx' hhand hserial)
      · exact hout hmem'
    · intro x y fd₁ fd₂ hx hy hserial
      exact h.apart x y fd₁ fd₂ (hother hx).1 (hother hy).1 hserial
    · rintro k (htab | hout | hclosed)
      · exact h.known k (Or.inl htab)
      · rcases List.mem_cons.1 hout with rfl | hout'
        · exact h.known _ (Or.inl ⟨_, htable⟩)
        · exact h.known k (Or.inr (Or.inl hout'))
      · exact h.known k (Or.inr (Or.inr hclosed))
    · intro k hk
      rcases h.accounted k hk with hout | hclosed | ⟨x, fd', hx, hserial⟩
      · exact Or.inl (List.mem_cons_of_mem _ hout)
      · exact Or.inr (Or.inl hclosed)
      · cases x with
        | none =>
            obtain rfl : fd = fd' := Option.some.inj (hhand.symm.trans hx)
            exact Or.inl (by rw [← hserial]; exact List.mem_cons_self)
        | some b => exact Or.inr (Or.inr ⟨some b, fd', hx, hserial⟩)
    · intro k hk
      rcases List.mem_cons.1 hk with rfl | hk'
      · exact hopen
      · exact h.kept k hk'
  · rw [if_neg hvalid]
    have hheld : fd.held = none := by simp [Fd.held, hvalid]
    rwa [hheld] at h

/-- An object closes what it holds. -/
theorem Ledger.closes (h : Ledger hand w) {u : UniqueFd} (hu : w.objects a = some u)
    (hvalid : 0 ≤ u.fd.number) : Ledger hand ((w.close u.fd).put a ⟨noFd⟩) := by
  have hheld : w.holds hand (some a) = some u.fd := by
    rw [FdWorld.holds, hu]
    exact held_eq_some.2 ⟨rfl, hvalid⟩
  obtain ⟨-, htable, hout, hopen⟩ := h.current _ _ hheld
  have hother : ∀ {x fd}, ((w.close u.fd).put a ⟨noFd⟩).holds hand x = some fd →
      w.holds hand x = some fd ∧ x ≠ some a := by
    intro x fd hx
    rw [holds_put] at hx
    by_cases hxa : x = some a
    · subst hxa
      simp at hx
    · rw [Function.update_of_ne hxa] at hx
      cases x with
      | none => exact ⟨hx, hxa⟩
      | some b => exact ⟨hx, hxa⟩
  refine ⟨?_, ?_, ?_, ?_, ?_, ?_, ?_⟩
  · intro x fd hx
    obtain ⟨hx', hne⟩ := hother hx
    obtain ⟨hv, ht, hout', hopen'⟩ := h.current x fd hx'
    have hserial : fd.serial ≠ u.fd.serial := fun heq => hne (h.apart x (some a) fd u.fd hx' hheld heq)
    refine ⟨hv, ?_, hout', ?_⟩
    · have hnumber : fd.number.toNat ≠ u.fd.number.toNat := by
        intro heq
        rw [heq, htable] at ht
        exact hserial (Option.some.inj ht).symm
      exact (Function.update_of_ne hnumber _ _).trans ht
    · intro hmem
      rcases List.mem_cons.1 hmem with heq | hmem'
      · exact hserial heq
      · exact hopen' hmem'
  · intro x y fd fd' hx hy hserial
    exact h.apart x y fd fd' (hother hx).1 (hother hy).1 hserial
  · rintro k (⟨n, hn⟩ | hout' | hclosed)
    · by_cases hnumber : n = u.fd.number.toNat
      · subst hnumber
        simp [FdWorld.put, FdWorld.close] at hn
      · refine h.known k (Or.inl ⟨n, ?_⟩)
        exact (Function.update_of_ne hnumber _ _).symm.trans hn
    · exact h.known k (Or.inr (Or.inl hout'))
    · rcases List.mem_cons.1 hclosed with rfl | hmem
      · exact h.known _ (Or.inl ⟨_, htable⟩)
      · exact h.known k (Or.inr (Or.inr hmem))
  · intro k hk
    rcases h.accounted k hk with hout' | hclosed | ⟨x, fd, hx, hserial⟩
    · exact Or.inl hout'
    · exact Or.inr (Or.inl (List.mem_cons_of_mem _ hclosed))
    · by_cases hxa : x = some a
      · subst hxa
        obtain rfl : u.fd = fd := Option.some.inj (hheld.symm.trans hx)
        exact Or.inr (Or.inl (by rw [← hserial]; exact List.mem_cons_self))
      · refine Or.inr (Or.inr ⟨x, fd, ?_, hserial⟩)
        rw [holds_put, Function.update_of_ne hxa]
        cases x with
        | none => exact hx
        | some b => exact hx
  · intro c hc
    rcases List.mem_cons.1 hc with rfl | hmem
    · exact htable
    · exact h.found c hmem
  · exact List.nodup_cons.2 ⟨hopen, h.once⟩
  · intro k hk hmem
    rcases List.mem_cons.1 hmem with rfl | hmem'
    · exact hout hk
    · exact h.kept k hk hmem'

/-- `reset` to nothing or to a descriptor in hand. -/
theorem Ledger.reset {fd : Fd} (h : Ledger fd.held w) {u : UniqueFd} (hu : w.objects a = some u) :
    Ledger none (w.reset a u fd) := by
  unfold FdWorld.reset UniqueFd.reset
  by_cases hvalid : u.fd.number ≥ 0
  · -- the descriptor in hand is another one, so it has another number
    have hne : u.fd.number ≠ fd.number := by
      intro heq
      have hown : w.holds fd.held (some a) = some u.fd := by
        rw [FdWorld.holds, hu]
        exact held_eq_some.2 ⟨rfl, hvalid⟩
      have hhand : w.holds fd.held none = some fd := held_eq_some.2 ⟨rfl, heq ▸ hvalid⟩
      obtain ⟨-, hown', -⟩ := h.current _ _ hown
      obtain ⟨-, hhand', -⟩ := h.current _ _ hhand
      rw [heq, hhand'] at hown'
      exact absurd (h.apart _ _ _ _ hown hhand (Option.some.inj hown').symm) (by simp)
    simp only [hvalid, hne, ne_eq, not_false_eq_true, and_self, if_true]
    have hclosed := h.closes hu hvalid
    have hgiven : Ledger none (((w.close u.fd).put a ⟨noFd⟩).put a ⟨fd⟩) :=
      hclosed.give (by rw [holds_put]; simp)
    simpa [FdWorld.put] using hgiven
  · simp only [hvalid, false_and, if_false]
    refine h.give ?_
    rw [FdWorld.holds, hu]
    exact if_neg hvalid

/-- `reset` of an object to its own descriptor. -/
theorem Ledger.resetOwn (h : Ledger none w) {u : UniqueFd} (hu : w.objects a = some u) :
    Ledger none (w.reset a u u.fd) := by
  have hsame : w.reset a u u.fd = w := by
    have hput : w.put a u = w := by
      unfold FdWorld.put
      rw [← hu, Function.update_eq_self]
    simpa [FdWorld.reset, UniqueFd.reset] using hput
  rwa [hsame]

/-- An object that is reset holds nothing, and goes. -/
theorem Ledger.remove (h : Ledger none w) (ha : w.holds none (some a) = none) :
    Ledger none (w.remove a) := by
  refine h.moves (Equiv.refl _) _ (funext fun x => ?_)
  cases x with
  | none => rfl
  | some b =>
      by_cases hb : b = a
      · subst hb
        simpa [FdWorld.holds] using ha.symm
      · simp [FdWorld.holds, hb]

theorem holds_reset (w : FdWorld) (a : ℕ) (u : UniqueFd) (fd : Fd) :
    (w.reset a u fd).holds none (some a) = fd.held := by
  unfold FdWorld.reset
  split
  · next u' old hreset =>
      obtain rfl : ⟨fd⟩ = u' := congrArg Prod.fst hreset
      simp [holds_put]
  · next u' hreset =>
      obtain rfl : ⟨fd⟩ = u' := congrArg Prod.fst hreset
      simp [holds_put]

/-- **Every statement keeps the ledger.** -/
theorem Ledger.run (h : Ledger none w) (op : FdOp) {w' : FdWorld} (hrun : op.run w = some w') :
    Ledger none w' := by
  have hnothing : Ledger noFd.held w := h
  have hdead : ∀ {a}, w.objects a = none → w.holds none (some a) = none := by
    intro a ha
    rw [FdWorld.holds, ha]
    rfl
  cases op with
  | construct a =>
      cases ha : w.objects a with
      | some u => simp [FdOp.run, ha] at hrun
      | none =>
          simp only [FdOp.run, ha, Option.some.injEq] at hrun
          rw [← hrun]
          exact hnothing.give (hdead ha)
  | constructOpen a n =>
      cases ha : w.objects a with
      | some u => simp [FdOp.run, ha] at hrun
      | none =>
          simp only [FdOp.run, ha] at hrun
          obtain ⟨⟨fd, w₁⟩, hopen, rfl⟩ := Option.map_eq_some_iff.1 hrun
          obtain ⟨h₁, hobjects⟩ := h.opens hopen
          refine h₁.give ?_
          rw [FdWorld.holds, hobjects, ha]
          rfl
  | moveConstruct a b =>
      cases ha : w.objects a with
      | some u => simp [FdOp.run, ha] at hrun
      | none =>
          cases hb : w.objects b with
          | none => simp [FdOp.run, ha, hb] at hrun
          | some v =>
              simp only [FdOp.run, ha, hb, Option.some.injEq] at hrun
              rw [← hrun]
              refine (h.take hb).give ?_
              have hne : a ≠ b := by
                rintro rfl
                rw [ha] at hb
                exact absurd hb (by simp)
              rw [holds_put, Function.update_of_ne (by simpa using hne)]
              exact hdead ha
  | moveAssign a b =>
      cases ha : w.objects a with
      | none => simp [FdOp.run, ha] at hrun
      | some u =>
          cases hb : w.objects b with
          | none => simp [FdOp.run, ha, hb] at hrun
          | some v =>
              simp only [FdOp.run, ha, hb] at hrun
              by_cases hne : a ≠ b
              · rw [if_pos hne] at hrun
                rw [← Option.some.inj hrun]
                refine (h.take hb).reset ?_
                simpa [FdWorld.put, hne] using ha
              · rw [if_neg hne] at hrun
                rwa [← Option.some.inj hrun]
  | release a =>
      obtain ⟨u, hu, rfl⟩ := Option.map_eq_some_iff.1 hrun
      exact (h.take hu).handOut
  | reset a =>
      obtain ⟨u, hu, rfl⟩ := Option.map_eq_some_iff.1 hrun
      exact hnothing.reset hu
  | resetOpen a n =>
      cases ha : w.objects a with
      | none => simp [FdOp.run, ha] at hrun
      | some u =>
          simp only [FdOp.run, ha] at hrun
          obtain ⟨⟨fd, w₁⟩, hopen, rfl⟩ := Option.map_eq_some_iff.1 hrun
          obtain ⟨h₁, hobjects⟩ := h.opens hopen
          exact h₁.reset (by rw [hobjects, ha])
  | resetOwn a =>
      obtain ⟨u, hu, rfl⟩ := Option.map_eq_some_iff.1 hrun
      exact h.resetOwn hu
  | destroy a =>
      obtain ⟨u, hu, rfl⟩ := Option.map_eq_some_iff.1 hrun
      exact (hnothing.reset hu).remove (holds_reset w a u noFd)

theorem Ledger.runAll (h : Ledger none w) {program : List FdOp} {w' : FdWorld}
    (hrun : runAll program w = some w') : Ledger none w' := by
  induction program generalizing w with
  | nil =>
      obtain rfl := Option.some.inj hrun
      exact h
  | cons op program ih =>
      obtain ⟨w₁, hop, hrest⟩ := Option.bind_eq_some_iff.1 hrun
      exact ih (h.run op hop) hrest

end Steps

/-- **Every descriptor that a `UniqueFd` owns is closed exactly once.** For every program and every
    choice of the numbers that `open` returns: no two objects own one descriptor; every `close` is of
    a descriptor that is open, and is the one the object was given; none is closed twice or after it
    was released; and without objects every descriptor was released or closed. -/
theorem uniqueFd_closes_once (program : List FdOp) (w : FdWorld)
    (hrun : runAll program .start = some w) :
    (∀ a b u v, w.objects a = some u → w.objects b = some v → u.valid = true → a ≠ b →
        u.fd.number ≠ v.fd.number) ∧
      (∀ c ∈ w.closes, c.found = some c.fd.serial) ∧
      (w.closes.map fun c => c.fd.serial).Nodup ∧
      (∀ k ∈ w.released, ∀ c ∈ w.closes, c.fd.serial ≠ k) ∧
      ((∀ a, w.objects a = none) → ∀ k < w.opened, k ∉ w.released →
        ∃ c ∈ w.closes, c.fd.serial = k) := by
  have h := Ledger.empty.runAll hrun
  refine ⟨?_, h.found, h.once, ?_, ?_⟩
  · intro a b u v ha hb hvalid hne hnumber
    have hu : 0 ≤ u.fd.number := by simpa [UniqueFd.valid] using hvalid
    have hholds : w.holds none (some a) = some u.fd := by
      rw [FdWorld.holds, ha]
      exact held_eq_some.2 ⟨rfl, hu⟩
    have hholds' : w.holds none (some b) = some v.fd := by
      rw [FdWorld.holds, hb]
      exact held_eq_some.2 ⟨rfl, hnumber ▸ hu⟩
    obtain ⟨-, htable, -⟩ := h.current _ _ hholds
    obtain ⟨-, htable', -⟩ := h.current _ _ hholds'
    rw [hnumber, htable'] at htable
    exact hne (Option.some.inj (h.apart _ _ _ _ hholds hholds' (Option.some.inj htable).symm))
  · intro k hk c hc hserial
    exact h.kept k hk (List.mem_map.2 ⟨c, hc, hserial⟩)
  · intro hdead k hk hout
    rcases h.accounted k hk with hout' | hclosed | ⟨x, fd, hx, -⟩
    · exact absurd hout' hout
    · exact List.mem_map.1 hclosed
    · cases x with
      | none => exact absurd hx (by simp [FdWorld.holds])
      | some a => exact absurd hx (by simp [FdWorld.holds, hdead a])

/-- A descriptor is moved, closed by a `reset` to a new one and its number reused; the new one is
    released. -/
def sampleFds : List FdOp :=
  [.constructOpen 0 (some 3), .moveConstruct 1 0, .resetOpen 1 (some 4), .resetOpen 0 (some 3),
    .moveAssign 1 1, .release 1, .destroy 0, .destroy 1]

theorem uniqueFd_closes_once_sample :
    ∃ w, runAll sampleFds .start = some w ∧ w.opened = 3 ∧ w.released = [1] ∧
      (w.closes.map fun c => c.fd.serial).Nodup := by
  obtain ⟨w, hrun⟩ : ∃ w, runAll sampleFds .start = some w := ⟨_, rfl⟩
  have honce := (uniqueFd_closes_once sampleFds w hrun).2.2.1
  obtain rfl := Option.some.inj hrun
  exact ⟨_, rfl, rfl, rfl, honce⟩

end ChunkStorage
