/-
The machine in the middle of an expression.

The code of an expression works on top of the stack.  Each operation takes its operands
from there and puts its result in their place, and the shape of the stack says that the
operands are there, so that nothing further down is ever looked at:

* `Operates.exists_given` — what an operation takes, gives and leaves alone;
* `reachesIn_above` — while code without effect is executed, the stack has the shape
  that the rest of this code needs, and below it nothing changes;
* `Configuration.pushes_outcomes` — the code of an expression goes through without a
  fault and puts exactly the outcomes of the expression on top of the stack.
-/
import SignAnalysis.Proofs.Evaluation
import SignAnalysis.Proofs.StackShape

namespace SignAnalysis

namespace Configuration

variable {σ : Store} {own base : List Operand} {s : Shape}

/-- An operation takes some operands from the top of the stack and leaves the others. -/
theorem Operates.exists_given {op : Operation} {st st' : List Operand}
    (h : Operates σ op st st') :
    ∃ taken given below, st = taken ++ below ∧ st' = given ++ below ∧
      taken.map Operand.sort = op.takes ∧ given.map Operand.sort = op.gives := by
  cases h with
  | push | truth | fetch => exact ⟨[], [_], _, rfl, rfl, rfl, rfl⟩
  | noop => exact ⟨[], [], _, rfl, rfl, rfl, rfl⟩
  | negate => exact ⟨[_], [_], _, rfl, rfl, rfl, rfl⟩
  | conj | arith | compare => exact ⟨[_, _], [_], _, rfl, rfl, rfl, rfl⟩

/-- If the operands of an operation lie above `base`, so does its result. -/
theorem Operates.above {op : Operation} {st : List Operand}
    (hown : own.map Operand.sort = op.takes ++ s) (h : Operates σ op (own ++ base) st) :
    ∃ own', own'.map Operand.sort = op.gives ++ s ∧ st = own' ++ base := by
  obtain ⟨taken, given, below, hst, rfl, htaken, hgiven⟩ := h.exists_given
  obtain ⟨first, kept, rfl, hfirst, hkept⟩ := List.map_eq_append_iff.mp hown
  have hlength : first.length = taken.length := by
    rw [← List.length_map Operand.sort, hfirst, ← htaken, List.length_map]
  rw [List.append_assoc] at hst
  obtain ⟨rfl, rfl⟩ := List.append_inj hst hlength
  refine ⟨given ++ kept, ?_, (List.append_assoc ..).symm⟩
  rw [List.map_append, hgiven, hkept]

variable {rest a : Code} {x : Bool} {t e : Nat}

/-- An instruction without effect finds its operands on a stack of the shape that it needs. -/
theorem exists_step_above {i : Instruction} (hi : i.isPure = true)
    (hown : i.before s = some (own.map Operand.sort)) :
    ∃ ds, step ⟨σ, own ++ base, i :: rest, x, t, e⟩ = .ok ds := by
  refine exists_step_of_fault?_eq_none ?_
  cases i with
  | basic p op =>
    obtain ⟨r, -, hst⟩ := Instruction.before_basic_eq_some hown
    show Instruction.lack? _ op.takes ((own ++ base).map Operand.sort) = none
    rw [List.map_append, hst, List.append_assoc]
    exact Instruction.lack?_append _ op.takes _
  | branch | loop | attempt | dispatch => cases hi

theorem Move.above {i : Instruction} {d : Configuration} (hi : i.isPure = true)
    (hown : i.before s = some (own.map Operand.sort))
    (h : Move ⟨σ, own ++ base, i :: rest, x, t, e⟩ d) :
    ∃ own', own'.map Operand.sort = s ∧ d = ⟨σ, own' ++ base, rest, x, t, e⟩ := by
  cases i with
  | basic p op =>
    obtain ⟨r, rfl, hst⟩ := Instruction.before_basic_eq_some hown
    obtain ⟨st, hop, rfl⟩ := (computes_basic p op hi ..).mp (reachesIn_one.mpr h)
    obtain ⟨own', hown', rfl⟩ := hop.above hst
    exact ⟨own', hown', rfl⟩
  | branch | loop | attempt | dispatch => cases hi

/-- While code without effect is executed on top of `base`, the stack has the shape that the
rest of this code needs, and `base` stays below it. -/
theorem reachesIn_above (ha : ∀ i ∈ a, i.isPure = true)
    (hown : Code.before a s = some (own.map Operand.sort)) {n : Nat} (hn : n ≤ a.length)
    {d : Configuration} (h : ReachesIn n ⟨σ, own ++ base, a ++ rest, x, t, e⟩ d) :
    ∃ own', Code.before (a.drop n) s = some (own'.map Operand.sort) ∧
      d = ⟨σ, own' ++ base, a.drop n ++ rest, x, t, e⟩ := by
  induction n generalizing a own with
  | zero => exact ⟨own, hown, h.symm⟩
  | succ n ih =>
    cases a with
    | nil => exact absurd hn (Nat.not_succ_le_zero n)
    | cons i a =>
      rw [Code.before_cons, Option.bind_eq_some_iff] at hown
      obtain ⟨s', hs', hi⟩ := hown
      obtain ⟨c', hmove, h⟩ := h
      obtain ⟨own', rfl, rfl⟩ := hmove.above (ha i (List.mem_cons_self ..)) hi
      exact ih (fun j hj => ha j (List.mem_cons_of_mem _ hj)) hs' (Nat.le_of_succ_le_succ hn) h

/-- The code `a` in front of `rest` puts one of the operands `os` on top of the stack, in as
many steps as it is long. -/
structure Pushes (c : Configuration) (a rest : Code) (os : List Operand) : Prop where
  /-- Each of the operands is met, and nothing else has changed. -/
  ends : ∀ d, ReachesIn a.length c d ↔
    ∃ o ∈ os, d = { c with code := rest, stack := o :: c.stack }
  /-- On the way nothing changes but the stack, and that only above the operands of `c`. -/
  passes : ∀ n ≤ a.length, ∀ d, ReachesIn n c d →
    ∃ own, d = { c with code := a.drop n ++ rest, stack := own ++ c.stack }
  steps : ∀ n < a.length, ∀ d, ReachesIn n c d → ∃ ds, d.step = .ok ds

/-- Code without effect that needs nothing on the stack pushes what it computes. -/
theorem Pushes.of_computes {c : Configuration} {os : List Operand} {sort : OperandSort}
    (hcode : c.code = a ++ rest) (ha : ∀ i ∈ a, i.isPure = true)
    (hshape : Code.before a [sort] = some [])
    (hends : ∀ d, ReachesIn a.length c d ↔
      ∃ o ∈ os, d = { c with code := rest, stack := o :: c.stack }) :
    c.Pushes a rest os := by
  have hway : ∀ n ≤ a.length, ∀ d, ReachesIn n c d →
      ∃ own, Code.before (a.drop n) [sort] = some (own.map Operand.sort) ∧
        d = { c with code := a.drop n ++ rest, stack := own ++ c.stack } := by
    intro n hn d hd
    obtain ⟨σ, st, code, x, t, e⟩ := c
    subst hcode
    -- at first nothing lies on top of the operands of `c`
    have hown : Code.before a [sort] = some (([] : List Operand).map Operand.sort) := hshape
    exact reachesIn_above ha hown hn hd
  refine ⟨hends, ?_, ?_⟩
  · intro n hn d hd
    obtain ⟨own, -, hown⟩ := hway n hn d hd
    exact ⟨own, hown⟩
  · intro n hn d hd
    obtain ⟨own, hown, rfl⟩ := hway n (Nat.le_of_lt hn) d hd
    rw [List.drop_eq_getElem_cons hn, Code.before_cons, Option.bind_eq_some_iff] at hown
    obtain ⟨s, -, hi⟩ := hown
    rw [List.drop_eq_getElem_cons hn]
    exact exists_step_above (ha _ (List.getElem_mem hn)) hi

/-- **Expressions compute their outcomes.**  Let the code that remains begin with the code of
an expression or of a guard.  After as many steps as that code is long, the machine has come
to exactly the configurations in which one outcome lies on top of the stack and the code has
been executed; all else, the operands below included, is as it was.  No step on the way meets
a fault. -/
theorem pushes_outcomes (p : Nat) (c : Configuration) (rest : Code) :
    (∀ e : Expr, c.code = e.code p ++ rest →
      c.Pushes (e.code p) rest ((e.outcomes c.valueOf).map .int)) ∧
    ∀ g : Guard, c.code = g.code p ++ rest →
      c.Pushes (g.code p) rest ((g.outcomes c.valueOf).map .bool) := by
  constructor
  · intro e hcode
    refine .of_computes hcode (fun _ => Expr.isPure_of_mem_code) (e.before_code p []) ?_
    intro d
    obtain ⟨σ, st, code, x, t, k⟩ := c
    subst hcode
    rw [Expr.reachesIn_code_iff]
    simp only [List.mem_map, exists_exists_and_eq_and]
    rfl
  · intro g hcode
    refine .of_computes hcode (fun _ => Guard.isPure_of_mem_code) (g.before_code p []) ?_
    intro d
    obtain ⟨σ, st, code, x, t, k⟩ := c
    subst hcode
    rw [Guard.reachesIn_code_iff]
    simp only [List.mem_map, exists_exists_and_eq_and]
    rfl

/-- `0 - (x + 0 * (1 / y))` -/
def negatedSum : Expr :=
  .binary .sub (.num 0) (.binary .add (.var "x")
    (.binary .mul (.num 0) (.binary .div (.num 1) (.var "y"))))

/-- An exception is pending, `x` is positive and an operand waits on the stack. -/
def midway (code : Code) : Configuration where
  store := Store.empty.insert "x" .positive
  stack := [.bool .any]
  code := code
  exceptional := true
  tryDepth := 2
  exceptionDepth := 1

/-- The order of the operands tells in the sign of a difference and in a comparison, and the
division gives each of them a second outcome. -/
theorem pushes_at_negatedSum :
    (midway (negatedSum.code 3 ++ [.basic 3 (.store "z")])).Pushes (negatedSum.code 3)
        [.basic 3 (.store "z")] [.int .negative, .int .error] ∧
      (midway (Guard.code 3 (.compare .le negatedSum (.num 0)) ++ [.branch 3 [] []])).Pushes
        (Guard.code 3 (.compare .le negatedSum (.num 0))) [.branch 3 [] []]
        [.bool .yes, .bool .error] :=
  ⟨(pushes_outcomes 3 _ _).1 negatedSum rfl,
    (pushes_outcomes 3 _ _).2 (.compare .le negatedSum (.num 0)) rfl⟩

end Configuration

end SignAnalysis
