import Mathlib.Data.List.Nodup
import Mathlib.Tactic

set_option autoImplicit false

/-! # Operations that seem to happen at one moment

A run of concurrent operations shows a sequence of states of the object they work on. If each
operation has a moment at which its answer is right, and every change of the object happens at the
moment of the operation that makes it, then the operations could have been performed one after
another, in the order of their moments (`Points.linearizes`). -/

namespace Linearization

variable {M : Type} {acts : ℕ → M → M → Prop}

/-- The operations of the list one after another, where `acts j m m'` says that operation `j` may take
    the object from `m` to `m'`. -/
inductive Serial (acts : ℕ → M → M → Prop) : M → List ℕ → M → Prop
  | nil {m : M} : Serial acts m [] m
  | cons {j : ℕ} {l : List ℕ} {m m' m'' : M} : acts j m m' → Serial acts m' l m'' →
      Serial acts m (j :: l) m''

theorem Serial.append {m m' m'' : M} {l l' : List ℕ} (h : Serial acts m l m')
    (h' : Serial acts m' l' m'') : Serial acts m (l ++ l') m'' := by
  induction h with
  | nil => exact h'
  | cons hj _ ih => exact .cons hj (ih h')

theorem Serial.imp {acts' : ℕ → M → M → Prop} (h : ∀ {j m m'}, acts j m m' → acts' j m m') {m m' : M}
    {l : List ℕ} (hl : Serial acts m l m') : Serial acts' m l m' := by
  induction hl with
  | nil => exact .nil
  | cons hj _ ih => exact .cons (h hj) ih

/-- Operations that leave the object as it is. -/
theorem Serial.of_reads {m : M} {l : List ℕ} (h : ∀ j ∈ l, acts j m m) : Serial acts m l m := by
  induction l with
  | nil => exact .nil
  | cons j l ih =>
      exact .cons (h j List.mem_cons_self) (ih fun k hk => h k (List.mem_cons_of_mem _ hk))

/-- The moments of the operations below `count`, and at each moment the operation that changes the
    object there, if any. -/
structure Points (acts : ℕ → M → M → Prop) (state : ℕ → M) (count : ℕ) (point writer : ℕ → Option ℕ) :
    Prop where
  writes : ∀ {n j}, writer n = some j →
    j < count ∧ point j = some n ∧ acts j (state n) (state (n + 1))
  still : ∀ {n}, writer n = none → state (n + 1) = state n
  reads : ∀ {n j}, j < count → point j = some n → writer n ≠ some j → acts j (state n) (state n)

section Order

variable (count : ℕ) (point writer : ℕ → Option ℕ)

/-- The operations of one moment: those that leave the object as it is before the one that changes it. -/
def together (n : ℕ) : List ℕ :=
  (List.range count).filter (fun j => decide (point j = some n ∧ writer n ≠ some j)) ++
    (writer n).toList

/-- The operations of the first moments, in their order. -/
def order (len : ℕ) : List ℕ := (List.range len).flatMap (together count point writer)

end Order

variable {state : ℕ → M} {count : ℕ} {point writer : ℕ → Option ℕ}

theorem order_succ (len : ℕ) :
    order count point writer (len + 1) = order count point writer len ++ together count point writer len := by
  simp [order, List.range_succ]

theorem Points.mem_together (h : Points acts state count point writer) {n j : ℕ} :
    j ∈ together count point writer n ↔ j < count ∧ point j = some n := by
  simp only [together, List.mem_append, List.mem_filter, List.mem_range, decide_eq_true_eq,
    Option.mem_toList]
  constructor
  · intro hmem
    rcases hmem with ⟨hj, hpoint, -⟩ | hwriter
    · exact ⟨hj, hpoint⟩
    · exact ⟨(h.writes hwriter).1, (h.writes hwriter).2.1⟩
  · intro hj
    by_cases hwriter : writer n = some j
    · exact Or.inr hwriter
    · exact Or.inl ⟨hj.1, hj.2, hwriter⟩

theorem Points.mem_order (h : Points acts state count point writer) {len j : ℕ} :
    j ∈ order count point writer len ↔ j < count ∧ ∃ n < len, point j = some n := by
  simp only [order, List.mem_flatMap, List.mem_range, h.mem_together]
  constructor
  · intro hmem
    obtain ⟨n, hn, hj, hpoint⟩ := hmem
    exact ⟨hj, n, hn, hpoint⟩
  · intro hmem
    obtain ⟨hj, n, hn, hpoint⟩ := hmem
    exact ⟨n, hn, hj, hpoint⟩

theorem together_nodup (n : ℕ) : (together count point writer n).Nodup := by
  refine List.Nodup.append (List.nodup_range.filter _) ?_ ?_
  · cases writer n with
    | none => exact List.nodup_nil
    | some j => exact List.nodup_singleton j
  · intro j hread hwrite
    have hno := (List.mem_filter.1 hread).2
    simp only [decide_eq_true_eq] at hno
    exact hno.2 (Option.mem_toList.1 hwrite)

theorem Points.order_nodup (h : Points acts state count point writer) (len : ℕ) :
    (order count point writer len).Nodup := by
  induction len with
  | zero => exact List.nodup_nil
  | succ len ih =>
      rw [order_succ]
      refine List.Nodup.append ih (together_nodup len) ?_
      intro j hearlier hnow
      obtain ⟨-, n, hn, hpoint⟩ := h.mem_order.1 hearlier
      have hlen := (h.mem_together.1 hnow).2
      rw [hpoint] at hlen
      have := Option.some.inj hlen
      omega

/-- **One moment.** -/
theorem Points.together_serial (h : Points acts state count point writer) (n : ℕ) :
    Serial acts (state n) (together count point writer n) (state (n + 1)) := by
  have hreads : Serial acts (state n)
      ((List.range count).filter (fun j => decide (point j = some n ∧ writer n ≠ some j)))
      (state n) := by
    refine .of_reads fun j hj => ?_
    obtain ⟨hrange, hpoint⟩ := List.mem_filter.1 hj
    simp only [decide_eq_true_eq] at hpoint
    exact h.reads (List.mem_range.1 hrange) hpoint.1 hpoint.2
  refine hreads.append ?_
  cases hwriter : writer n with
  | none =>
      rw [h.still hwriter]
      exact .nil
  | some j => exact .cons (h.writes hwriter).2.2 .nil

theorem Points.order_serial (h : Points acts state count point writer) (len : ℕ) :
    Serial acts (state 0) (order count point writer len) (state len) := by
  induction len with
  | zero => exact .nil
  | succ len ih =>
      rw [order_succ]
      exact ih.append (h.together_serial len)

/-- Nobody comes after somebody with a later moment. -/
theorem Points.order_sorted (h : Points acts state count point writer) (len : ℕ) :
    (order count point writer len).Pairwise fun i j =>
      ∀ {a b}, point i = some a → point j = some b → a ≤ b := by
  induction len with
  | zero => exact List.Pairwise.nil
  | succ len ih =>
      rw [order_succ, List.pairwise_append]
      refine ⟨ih, ?_, ?_⟩
      · refine List.pairwise_of_forall_mem_list fun i hi j hj a b ha hb => ?_
        have hi' := (h.mem_together.1 hi).2
        have hj' := (h.mem_together.1 hj).2
        rw [ha] at hi'
        rw [hb] at hj'
        rw [Option.some.inj hi', Option.some.inj hj']
      · intro i hi j hj a b ha hb
        obtain ⟨-, n, hn, hpoint⟩ := h.mem_order.1 hi
        have hj' := (h.mem_together.1 hj).2
        rw [ha] at hpoint
        rw [hb] at hj'
        have := Option.some.inj hpoint
        have := Option.some.inj hj'
        omega

/-- **Operations with a moment each can be performed one after another.** If nobody comes `before`
    somebody with an earlier moment, the order respects it. -/
theorem Points.linearizes (h : Points acts state count point writer) {len : ℕ}
    (hlen : ∀ {j n}, point j = some n → n < len) {before : ℕ → ℕ → Prop}
    (hbefore : ∀ {i j a b}, before i j → point i = some a → point j = some b → a < b) :
    ∃ order : List ℕ, order.Nodup ∧ (∀ j, j ∈ order ↔ j < count ∧ (point j).isSome) ∧
      Serial acts (state 0) order (state len) ∧ order.Pairwise fun i j => ¬ before j i := by
  refine ⟨order count point writer len, h.order_nodup len, fun j => ?_, h.order_serial len, ?_⟩
  · rw [h.mem_order, Option.isSome_iff_exists]
    constructor
    · intro hmem
      obtain ⟨hj, n, -, hpoint⟩ := hmem
      exact ⟨hj, n, hpoint⟩
    · intro hmem
      obtain ⟨hj, n, hpoint⟩ := hmem
      exact ⟨hj, n, hlen hpoint, hpoint⟩
  · refine (h.order_sorted len).imp_of_mem fun {i j} hi hj hle hji => ?_
    obtain ⟨-, a, -, ha⟩ := h.mem_order.1 hi
    obtain ⟨-, b, -, hb⟩ := h.mem_order.1 hj
    have := hle ha hb
    have := hbefore hji hb ha
    omega

end Linearization
