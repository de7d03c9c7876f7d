/-
Programs never get stuck.

A step can go wrong in two ways: the machine meets a fault, or a conditional finds
a guard without a value, of which nothing comes.  Neither happens to a program:

* `Configuration.Decided` — every truth value on the stack is one, which each step
  keeps (`Move.decided`), because the connectives and comparisons read a value that
  was never given as any value;
* `Configuration.Decided.step_ne_nil` — so a step that meets no fault has a successor;
* `Stmt.never_stuck` — a configuration of a program goes on until nothing is left
  to execute, and then holds no operands and is outside of every try block.
-/
import SignAnalysis.Proofs.Finiteness

namespace SignAnalysis

/-! ### Truth values -/

namespace Truth

theorem ofBool_ne_uninitialized (b : Bool) : ofBool b ≠ uninitialized := by
  cases b <;> decide

theorem not_ne_uninitialized (u : Truth) : u.not ≠ uninitialized := by
  cases u <;> decide

theorem and_ne_uninitialized (u v : Truth) : u.and v ≠ uninitialized := by
  cases u <;> cases v <;> decide

end Truth

namespace Sign

theorem compareRanks_ne_uninitialized (op : CompareOp) (l r : Int) :
    compareRanks op l r ≠ .uninitialized := by
  cases op with
  | eq | le =>
    simp only [compareRanks]
    split
    · exact Truth.noConfusion
    · split <;> exact Truth.noConfusion

/-- A comparison has exactly one outcome, which is a truth value or an error. -/
theorem exists_compare_eq (op : CompareOp) (a b : Sign) :
    ∃ g, compare op a b = [g] ∧ g ≠ .uninitialized := by
  simp only [compare, strict]
  split
  · exact ⟨.error, rfl, Truth.noConfusion⟩
  · split
    · exact ⟨_, rfl, compareRanks_ne_uninitialized op _ _⟩
    · exact ⟨.any, rfl, Truth.noConfusion⟩

end Sign

namespace Configuration

/-! ### Stacks without undecided truth values -/

/-- No truth value on the stack is one that was never given. -/
def Decided (c : Configuration) : Prop := .bool .uninitialized ∉ c.stack

theorem decided_cons {σ : Store} {o : Operand} {st : List Operand} {code : Code} {x : Bool}
    {t e : Nat} : Decided ⟨σ, o :: st, code, x, t, e⟩ ↔
      o ≠ .bool .uninitialized ∧ Decided ⟨σ, st, code, x, t, e⟩ := by
  unfold Decided
  rw [List.mem_cons, not_or, ne_comm]

/-- Every step keeps the truth values decided. -/
theorem Move.decided {c d : Configuration} (h : Move c d) (hc : c.Decided) : d.Decided := by
  cases h with
  | noop | unroll | attempt | handle | leave => exact hc
  | assign | failStore | ignoreStore | hold | refuse | failGuard | ignoreGuard =>
    exact (decided_cons.mp hc).2
  | push | fetch => exact decided_cons.mpr ⟨Operand.noConfusion, hc⟩
  | @truth σ st p b rest x t e =>
    refine decided_cons.mpr ⟨?_, hc⟩
    intro heq
    exact Truth.ofBool_ne_uninitialized b (Operand.bool.inj heq)
  | @negate σ u st p rest x t e =>
    refine decided_cons.mpr ⟨?_, (decided_cons.mp hc).2⟩
    intro heq
    exact u.not_ne_uninitialized (Operand.bool.inj heq)
  | @conj σ u v st p rest x t e =>
    refine decided_cons.mpr ⟨?_, (decided_cons.mp (decided_cons.mp hc).2).2⟩
    intro heq
    exact u.and_ne_uninitialized v (Operand.bool.inj heq)
  | arith =>
    exact decided_cons.mpr ⟨Operand.noConfusion, (decided_cons.mp (decided_cons.mp hc).2).2⟩
  | @compare σ l r g st p op rest x t e hg =>
    refine decided_cons.mpr ⟨?_, (decided_cons.mp (decided_cons.mp hc).2).2⟩
    intro heq
    obtain ⟨g', hg', hne⟩ := Sign.exists_compare_eq op l r
    rw [hg', List.mem_singleton] at hg
    exact hne (hg ▸ Operand.bool.inj heq)

/-! ### Successors -/

theorem enterArms_ne_nil (c : Configuration) {g : Truth} (hg : g ≠ .uninitialized)
    (yes no : Code) : c.enterArms g yes no ≠ [] := by
  unfold enterArms
  cases g with
  | uninitialized => exact absurd rfl hg
  | yes | no | any | error => simp [Truth.mayHold, Truth.mayFail]

/-- An operation that meets no fault has one successor, or one for each sign that an
arithmetic operator may give. -/
theorem perform_eq_ok {c : Configuration} {i : Instruction} {op : Operation}
    {ds : List Configuration} (h : c.perform i op = .ok ds) :
    (∃ d, ds = [d]) ∨
      ∃ (d : Configuration) (op : ArithOp) (a b : Sign),
        ds = d.fork ((Sign.arith op a b).map .int) := by
  cases op with
  | push | truth | fetch | noop =>
    cases h
    exact .inl ⟨_, rfl⟩
  | store | negate =>
    obtain ⟨⟨a, c₁⟩, -, h⟩ := bind_eq_ok h
    cases h
    exact .inl ⟨_, rfl⟩
  | conj =>
    obtain ⟨⟨a, c₁⟩, -, h⟩ := bind_eq_ok h
    obtain ⟨⟨b, c₂⟩, -, h⟩ := bind_eq_ok h
    cases h
    exact .inl ⟨_, rfl⟩
  | arith op =>
    obtain ⟨⟨a, c₁⟩, -, h⟩ := bind_eq_ok h
    obtain ⟨⟨b, c₂⟩, -, h⟩ := bind_eq_ok h
    cases h
    exact .inr ⟨c₂, op, a, b, rfl⟩
  | compare op =>
    obtain ⟨⟨a, c₁⟩, -, h⟩ := bind_eq_ok h
    obtain ⟨⟨b, c₂⟩, -, h⟩ := bind_eq_ok h
    cases h
    obtain ⟨g, hg, -⟩ := Sign.exists_compare_eq op a b
    rw [hg]
    exact .inl ⟨_, rfl⟩

/-- An operation that meets no fault has a successor, whatever it finds. -/
theorem perform_ne_nil {c : Configuration} {i : Instruction} {op : Operation}
    {ds : List Configuration} (h : c.perform i op = .ok ds) : ds ≠ [] := by
  obtain ⟨d, rfl⟩ | ⟨d, op, a, b, rfl⟩ := perform_eq_ok h
  · exact List.cons_ne_nil _ _
  · simpa [fork] using Sign.arith_ne_nil op a b

/-- A step that meets no fault has a successor, unless it is a conditional whose guard
was never given. -/
theorem Decided.step_ne_nil {c : Configuration} (hc : c.Decided) {ds : List Configuration}
    (h : c.step = .ok ds) : ds ≠ [] := by
  obtain ⟨σ, st, code, x, t, e⟩ := c
  cases code with
  | nil => cases h
  | cons i rest =>
    cases i with
    | basic p op => exact perform_ne_nil h
    | branch p a b =>
      obtain ⟨⟨g, c₁⟩, hpop, h⟩ := bind_eq_ok h
      obtain ⟨st', hst, rfl⟩ := popBool_eq_ok hpop
      cases h
      cases hst
      refine enterArms_ne_nil _ ?_ a b
      intro hg
      exact (decided_cons.mp hc).1 (congrArg Operand.bool hg)
    | loop p a b =>
      cases h
      exact List.cons_ne_nil _ _
    | attempt p a b =>
      cases h
      exact List.cons_ne_nil _ _
    | dispatch p a =>
      obtain ⟨-, rfl⟩ := execute_dispatch_eq_ok h
      exact List.cons_ne_nil _ _

end Configuration

namespace Stmt

open SignAnalysis.Configuration

theorem decided_of_reachable {s : Stmt} {c : Configuration}
    (h : (Configuration.initial s.compile.code).Reachable c) : c.Decided := by
  have hstart : (Configuration.initial s.compile.code).Decided := List.not_mem_nil
  exact h.invariant hstart Move.decided

/-- With nothing left to execute there are no operands and no open try blocks. -/
theorem clean_of_isTerminal {s : Stmt} {c : Configuration}
    (h : (Configuration.initial s.compile.code).Reachable c) (hterm : c.isTerminal = true) :
    c.stack = [] ∧ c.tryDepth = 0 ∧ c.exceptionDepth = 0 := by
  have hc := bounded_of_reachable h
  have hcode : c.code = [] := List.isEmpty_iff.mp hterm
  have hstack : Code.before c.code [] = some (c.stack.map Operand.sort) := hc.fits
  have htry : c.tryDepth = c.code.dispatches := hc.nested.tryDepth
  rw [hcode, Code.before_nil, Option.some_inj] at hstack
  rw [hcode] at htry
  have hzero : c.tryDepth = 0 := htry
  have hexception := hc.nested.exceptionDepth_le
  rw [hzero, Nat.le_zero] at hexception
  exact ⟨List.map_eq_nil_iff.mp hstack.symm, hzero, hexception⟩

/-- **A program never gets stuck.**  A configuration that it comes to has a successor as
long as something is left to execute, and meets no fault.  When nothing is left, there is
no operand on the stack and both depths are 0. -/
theorem never_stuck (s : Stmt) {c : Configuration}
    (h : (Configuration.initial s.compile.code).Reachable c) :
    (c.isTerminal = false → ∃ d ds, c.step = .ok (d :: ds)) ∧
      (c.isTerminal = true → c.stack = [] ∧ c.tryDepth = 0 ∧ c.exceptionDepth = 0) := by
  refine ⟨?_, clean_of_isTerminal h⟩
  intro hterm
  obtain ⟨ds, hstep⟩ := exists_step_of_reachable h hterm
  obtain ⟨d, ds', rfl⟩ := List.exists_cons_of_ne_nil ((decided_of_reachable h).step_ne_nil hstep)
  exact ⟨d, ds', hstep⟩

/-- `try if 1 / 0 = y then skip else skip catch skip` -/
def guardThatRaises : Stmt :=
  .attempt (.cond (.compare .eq (.binary .div (.num 1) (.num 0)) (.var "y")) .skip .skip) .skip

/-- A guard that is an error is followed by the dispatch, and the handler by the end. -/
theorem never_stuck_at_guardThatRaises :
    ∃ c e, (Configuration.initial guardThatRaises.compile.code).Reachable c ∧
      c.exceptional = true ∧ (∃ d ds, c.step = .ok (d :: ds)) ∧
      (Configuration.initial guardThatRaises.compile.code).Reachable e ∧
      e.isTerminal = true ∧ e.stack = [] ∧ e.tryDepth = 0 ∧ e.exceptionDepth = 0 := by
  have hraised : (Configuration.initial guardThatRaises.compile.code).Reachable
      ⟨.empty, [], [.dispatch 2 [.basic 2 .noop]], true, 1, 1⟩ :=
    .head .attempt (.head .fetch (.head .push (.head .push (.head (.arith (List.mem_cons_self ..))
      (.head (.compare (List.mem_cons_self ..)) (.head .failGuard .refl))))))
  have hend : (Configuration.initial guardThatRaises.compile.code).Reachable
      ⟨.empty, [], [], false, 0, 0⟩ :=
    hraised.trans (.head .handle (.head .noop .refl))
  exact ⟨_, _, hraised, rfl, (never_stuck guardThatRaises hraised).1 rfl, hend, rfl,
    (never_stuck guardThatRaises hend).2 rfl⟩

end Stmt

end SignAnalysis
