/-
The stack discipline of code.

The shape of a stack is the list of the sorts of its operands.  Going backwards
through a piece of code, the shape that it leaves determines the shape that it
needs (`Code.before`); conditionals, loops and try blocks must leave the stack as
they found it.  A configuration fits if its stack has the shape that its code
needs to leave nothing behind:

* `Stmt.before_code` — statements leave every stack as they found it;
* `Move.fits` — every step keeps the fit;
* `Configuration.fault?` — what a step fails with (`step_eq_error_iff`);
* `Fits.exists_step` — a configuration that fits lacks no operand.
-/
import Mathlib.Data.List.Infix
import SignAnalysis.Code.OfProgram
import SignAnalysis.Proofs.Runs

namespace SignAnalysis

def Operand.sort : Operand → OperandSort
  | int _ => .integer
  | bool _ => .boolean

/-- The sorts of the operands on a stack, the top one first. -/
abbrev Shape := List OperandSort

/-- The sorts of the operands that an operation takes. -/
def Operation.takes : Operation → Shape
  | push _ | truth _ | fetch _ | noop => []
  | store _ => [.integer]
  | negate => [.boolean]
  | conj => [.boolean, .boolean]
  | arith _ | compare _ => [.integer, .integer]

/-- The sorts of the operands that an operation puts in their place. -/
def Operation.gives : Operation → Shape
  | store _ | noop => []
  | push _ | fetch _ | arith _ => [.integer]
  | truth _ | negate | conj | compare _ => [.boolean]

mutual

/-- The shape that an instruction needs to leave the given one. -/
def Instruction.before : Instruction → Shape → Option Shape
  | .basic _ op, s => (op.gives.isPrefixOf? s).map (op.takes ++ ·)
  | .branch _ a b, s =>
    if Code.before a s = some s ∧ Code.before b s = some s then some (.boolean :: s) else none
  | .loop _ g a, s =>
    if Code.before g (.boolean :: s) = some s ∧ Code.before a s = some s then some s else none
  | .attempt _ a h, s =>
    if Code.before a s = some s ∧ Code.before h s = some s then some s else none
  | .dispatch _ h, s => if Code.before h s = some s then some s else none

/-- The shape that a piece of code needs to leave the given one. -/
def Code.before : List Instruction → Shape → Option Shape
  | [], s => some s
  | i :: c, s => (Code.before c s).bind i.before

end

namespace Code

@[simp] theorem before_nil (s : Shape) : Code.before [] s = some s := by
  rw [Code.before]

@[simp] theorem before_cons (i : Instruction) (c : Code) (s : Shape) :
    Code.before (i :: c) s = (Code.before c s).bind i.before := by
  rw [Code.before]

@[simp] theorem before_append (a b : Code) (s : Shape) :
    Code.before (a ++ b) s = (Code.before b s).bind (Code.before a) := by
  induction a with
  | nil => cases h : Code.before b s <;> simp [h]
  | cons i a ih => cases h : Code.before b s <;> simp [ih, h]

end Code

theorem Instruction.before_basic (p : Nat) (op : Operation) (s : Shape) :
    (Instruction.basic p op).before (op.gives ++ s) = some (op.takes ++ s) := by
  rw [Instruction.before, List.isPrefixOf?_eq_some_iff_append_eq.mpr rfl]
  rfl

/-- What an operation leaves in front of the rest is in the place of what it takes. -/
theorem Instruction.before_basic_eq_some {p : Nat} {op : Operation} {s sh : Shape}
    (h : (Instruction.basic p op).before s = some sh) :
    ∃ r, s = op.gives ++ r ∧ sh = op.takes ++ r := by
  rw [Instruction.before, Option.map_eq_some_iff] at h
  obtain ⟨r, hr, hsh⟩ := h
  rw [List.isPrefixOf?_eq_some_iff_append_eq] at hr
  exact ⟨r, hr.symm, hsh.symm⟩

/-! ### Compiled code -/

@[simp] theorem Expr.before_code (p : Nat) (e : Expr) (s : Shape) :
    Code.before (e.code p) (.integer :: s) = some s := by
  induction e generalizing s with
  | num n =>
    rw [code, Code.before_cons, Code.before_nil]
    exact Instruction.before_basic p (.push n) s
  | var x =>
    rw [code, Code.before_cons, Code.before_nil]
    exact Instruction.before_basic p (.fetch x) s
  | binary op l r ihl ihr =>
    have hop : (Instruction.basic p (.arith op)).before (.integer :: s) =
        some (.integer :: .integer :: s) := Instruction.before_basic p (.arith op) s
    simp [code, hop, ihl, ihr]

@[simp] theorem Guard.before_code (p : Nat) (g : Guard) (s : Shape) :
    Code.before (g.code p) (.boolean :: s) = some s := by
  induction g generalizing s with
  | const b =>
    rw [code, Code.before_cons, Code.before_nil]
    exact Instruction.before_basic p (.truth b) s
  | compare op l r =>
    have hop : (Instruction.basic p (.compare op)).before (.boolean :: s) =
        some (.integer :: .integer :: s) := Instruction.before_basic p (.compare op) s
    simp [code, hop]
  | not g ih =>
    have hop : (Instruction.basic p .negate).before (.boolean :: s) = some (.boolean :: s) :=
      Instruction.before_basic p .negate s
    simp [code, hop, ih]
  | and l r ihl ihr =>
    have hop : (Instruction.basic p .conj).before (.boolean :: s) =
        some (.boolean :: .boolean :: s) := Instruction.before_basic p .conj s
    simp [code, hop, ihl, ihr]

/-- A statement leaves every stack as it found it. -/
@[simp] theorem Stmt.before_code (k : Nat) (s : Stmt) (sh : Shape) :
    Code.before (s.code k) sh = some sh := by
  induction s generalizing k with
  | assign x e =>
    have hop : (Instruction.basic (k + 1) (.store x)).before sh = some (.integer :: sh) :=
      Instruction.before_basic (k + 1) (.store x) sh
    simp [code, hop]
  | skip =>
    rw [code, Code.before_cons, Code.before_nil]
    exact Instruction.before_basic k .noop sh
  | seq s t ihs iht => simp [code, ihs, iht]
  | cond g s t ihs iht => simp [code, Instruction.before, ihs, iht]
  | loop g s ih => simp [code, Instruction.before, ih]
  | attempt s t ihs iht => simp [code, Instruction.before, ihs, iht]

/-! ### Configurations -/

namespace Configuration

/-- The stack is of the shape that the code needs to leave nothing behind. -/
def Fits (c : Configuration) : Prop := Code.before c.code [] = some (c.stack.map Operand.sort)

theorem Fits.initial (s : Stmt) (k : Nat) : (Configuration.initial (s.code k)).Fits :=
  s.before_code k []

theorem Fits.cons {i : Instruction} {σ : Store} {st : List Operand} {rest : Code} {x : Bool}
    {t e : Nat} (h : Fits ⟨σ, st, i :: rest, x, t, e⟩) :
    ∃ s, Code.before rest [] = some s ∧ i.before s = some (st.map Operand.sort) := by
  unfold Fits at h
  rw [Code.before_cons] at h
  exact Option.bind_eq_some_iff.mp h

theorem Fits.basic {op : Operation} {σ : Store} {st : List Operand} {rest : Code} {x : Bool}
    {t e p : Nat} (h : Fits ⟨σ, st, .basic p op :: rest, x, t, e⟩) :
    ∃ s, Code.before rest [] = some (op.gives ++ s) ∧ st.map Operand.sort = op.takes ++ s := by
  obtain ⟨s, hs, hi⟩ := h.cons
  obtain ⟨r, rfl, hst⟩ := Instruction.before_basic_eq_some hi
  exact ⟨r, hs, hst⟩

theorem Fits.branch {a b : Code} {σ : Store} {st : List Operand} {rest : Code} {x : Bool}
    {t e p : Nat} (h : Fits ⟨σ, st, .branch p a b :: rest, x, t, e⟩) :
    ∃ s, Code.before rest [] = some s ∧ Code.before a s = some s ∧ Code.before b s = some s ∧
      st.map Operand.sort = .boolean :: s := by
  obtain ⟨s, hs, hi⟩ := h.cons
  rw [Instruction.before] at hi
  split at hi
  · rename_i hab
    exact ⟨s, hs, hab.1, hab.2, (Option.some_inj.mp hi).symm⟩
  · cases hi

/-- Every step keeps the fit. -/
theorem Move.fits {c d : Configuration} (h : Move c d) (hc : c.Fits) : d.Fits := by
  cases h with
  | push | truth | fetch | noop | ignoreStore | assign | failStore | negate | conj | arith
  | compare =>
    obtain ⟨s, hs, hst⟩ := hc.basic
    simp only [List.map_cons, Operation.takes, List.cons_append, List.nil_append,
      List.cons.injEq] at hst
    rw [Fits, hs]
    simp [Operation.gives, Operand.sort, hst]
  | hold hg =>
    obtain ⟨s, hs, ha, hb, hst⟩ := hc.branch
    rw [List.map_cons, List.cons.injEq] at hst
    rw [Fits, Code.before_append, hs, hst.2]
    exact ha
  | refuse hg =>
    obtain ⟨s, hs, ha, hb, hst⟩ := hc.branch
    rw [List.map_cons, List.cons.injEq] at hst
    rw [Fits, Code.before_append, hs, hst.2]
    exact hb
  | failGuard | ignoreGuard =>
    obtain ⟨s, hs, ha, hb, hst⟩ := hc.branch
    rw [List.map_cons, List.cons.injEq] at hst
    rw [Fits, hs, hst.2]
  | @unroll σ st p a b rest x t e =>
    obtain ⟨s, hs, hi⟩ := hc.cons
    rw [Instruction.before] at hi
    split at hi
    · rename_i hab
      -- the unrolled body ends in the loop, which leaves the stack alone
      have hloop : (Instruction.loop p a b).before s = some s := by
        rw [Instruction.before, if_pos hab]
      have hbody : Code.before (b ++ [.loop p a b]) s = some s := by
        simp only [Code.before_append, Code.before_cons, Code.before_nil, Option.bind_some, hloop,
          hab.2]
      have hskip : Code.before [.basic p .noop] s = some s := by
        rw [Code.before_cons, Code.before_nil]
        exact Instruction.before_basic p .noop s
      have hbranch : (Instruction.branch p (b ++ [.loop p a b]) [.basic p .noop]).before s =
          some (.boolean :: s) := by
        rw [Instruction.before, if_pos ⟨hbody, hskip⟩]
      rw [Fits, Code.before_append, Code.before_cons, hs]
      simp only [Option.bind_some, hbranch, hab.1]
      exact hi
    · cases hi
  | @attempt σ st p a h rest x t e =>
    obtain ⟨s, hs, hi⟩ := hc.cons
    rw [Instruction.before] at hi
    split at hi
    · rename_i hab
      rw [Fits, Code.before_append, Code.before_cons, hs]
      simp only [Option.bind_some, Instruction.before, hab, if_true]
      exact hi
    · cases hi
  | handle =>
    obtain ⟨s, hs, hi⟩ := hc.cons
    rw [Instruction.before] at hi
    split at hi
    · rename_i hh
      rw [Fits, Code.before_append, hs, ← hi]
      exact hh
    · cases hi
  | leave =>
    obtain ⟨s, hs, hi⟩ := hc.cons
    rw [Instruction.before] at hi
    split at hi
    · rw [Fits, hs, ← hi]
    · cases hi

end Configuration

/-! ### Faults -/

namespace Instruction

/-- The sorts of the operands that an instruction takes. -/
def takes : Instruction → Shape
  | basic _ op => op.takes
  | branch .. => [.boolean]
  | loop .. | attempt .. | dispatch .. => []

/-- What is wrong with the operands on a stack for the instruction `i`, which takes
operands of the given sorts. -/
def lack? (i : Instruction) : Shape → Shape → Option Fault
  | [], _ => none
  | _ :: _, [] => some (.missingOperand i)
  | s :: taken, s' :: sh => if s = s' then i.lack? taken sh else some (.wrongOperand s i)

theorem lack?_append (i : Instruction) (taken sh : Shape) :
    i.lack? taken (taken ++ sh) = none := by
  induction taken with
  | nil => rw [lack?]
  | cons s taken ih => rw [List.cons_append, lack?, if_pos rfl, ih]

/-- What is wrong with the operands is no dispatch. -/
theorem lack?_ne_strayDispatch (i j : Instruction) (taken sh : Shape) :
    i.lack? taken sh ≠ some (.strayDispatch j) := by
  fun_induction lack? i taken sh with
  | case1 => exact (Option.some_ne_none _).symm
  | case2 => simp
  | case3 s taken sh ih => exact ih
  | case4 => simp

end Instruction

namespace Configuration

/-- Why a configuration cannot step, if it cannot: the code that remains, the sorts of the
operands and the try depth decide that. -/
def fault? (c : Configuration) : Option Fault :=
  match c.code with
  | [] => some .nothingRemains
  | .dispatch p h :: _ => if c.tryDepth = 0 then some (.strayDispatch (.dispatch p h)) else none
  | i :: _ => i.lack? i.takes (c.stack.map Operand.sort)

theorem perform_eq_error_iff {c : Configuration} {i : Instruction} {op : Operation} {f : Fault} :
    c.perform i op = .error f ↔ i.lack? op.takes (c.stack.map Operand.sort) = some f := by
  obtain ⟨σ, st, code, x, t, e⟩ := c
  -- an operation takes at most two operands, and the first that is missing or wrong is named
  cases op with
  | push | truth | fetch | noop => simp [perform, Operation.takes, Instruction.lack?]
  | store =>
    rcases st with _ | ⟨_ | _, st⟩ <;>
      simp [perform, popInt, bind, Except.bind, Operation.takes, Instruction.lack?, Operand.sort]
  | negate =>
    rcases st with _ | ⟨_ | _, st⟩ <;>
      simp [perform, popBool, bind, Except.bind, Operation.takes, Instruction.lack?, Operand.sort]
  | conj =>
    rcases st with _ | ⟨_ | _, _ | ⟨_ | _, st⟩⟩ <;>
      simp [perform, popBool, bind, Except.bind, Operation.takes, Instruction.lack?, Operand.sort]
  | arith | compare =>
    rcases st with _ | ⟨_ | _, _ | ⟨_ | _, st⟩⟩ <;>
      simp [perform, popInt, bind, Except.bind, Operation.takes, Instruction.lack?, Operand.sort]

/-- The faults of a step. -/
theorem step_eq_error_iff {c : Configuration} {f : Fault} :
    c.step = .error f ↔ c.fault? = some f := by
  obtain ⟨σ, st, code, x, t, e⟩ := c
  cases code with
  | nil => simp [step, fault?]
  | cons i rest =>
    cases i with
    | basic p op => exact perform_eq_error_iff
    | branch p a b =>
      rcases st with _ | ⟨_ | _, st⟩ <;>
        simp [step, execute, fault?, popBool, bind, Except.bind, Instruction.takes,
          Instruction.lack?, Operand.sort]
    | loop | attempt => simp [step, execute, fault?, Instruction.takes, Instruction.lack?]
    | dispatch p h => by_cases ht : t = 0 <;> simp [step, execute, fault?, ht]

theorem exists_step_of_fault?_eq_none {c : Configuration} (h : c.fault? = none) :
    ∃ ds, c.step = .ok ds := by
  cases hstep : c.step with
  | ok ds => exact ⟨ds, rfl⟩
  | error f =>
    rw [step_eq_error_iff, h] at hstep
    cases hstep

/-- A configuration that fits can execute its next instruction, unless that is a
dispatch outside of every try block. -/
theorem Fits.exists_step {c : Configuration} (hc : c.Fits) {i : Instruction} {rest : Code}
    (hcode : c.code = i :: rest) (hdispatch : ∀ p h, i = .dispatch p h → c.tryDepth ≠ 0) :
    ∃ ds, c.step = .ok ds := by
  obtain ⟨σ, st, code, x, t, e⟩ := c
  cases hcode
  refine exists_step_of_fault?_eq_none ?_
  cases i with
  | basic p op =>
    obtain ⟨s, -, hst⟩ := hc.basic
    show Instruction.lack? _ op.takes (st.map Operand.sort) = none
    rw [hst]
    exact Instruction.lack?_append _ op.takes s
  | branch p a b =>
    obtain ⟨s, -, -, -, hst⟩ := hc.branch
    show Instruction.lack? _ [.boolean] (st.map Operand.sort) = none
    rw [hst]
    exact Instruction.lack?_append _ [.boolean] s
  | loop p a b => rfl
  | attempt p a h => rfl
  | dispatch p h => exact if_neg (hdispatch p h rfl)

end Configuration

end SignAnalysis
