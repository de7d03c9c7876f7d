/-
The depth counters of configurations.

A dispatch is put in front of the rest of the code when a try block is entered
and taken away when it is left.  In code that holds no dispatch from the start,
the dispatches that remain are therefore those of the blocks that are open:

* `Code.dispatchFree` — there is no dispatch in the code, at any depth;
* `Nested` — `tryDepth` is the number of dispatches that remain, the exception
  depth does not exceed it, and is 0 while no exception is pending;
* `Move.nested` — every step keeps this;
* `Configuration.depths_follow_code` — hence the counters are determined by the code
  while no exception is pending, and no dispatch is ever met outside of a block.
-/
import SignAnalysis.Proofs.Evaluation
import SignAnalysis.Proofs.StackShape

namespace SignAnalysis

mutual

/-- There is no dispatch in the instruction. -/
def Instruction.dispatchFree : Instruction → Bool
  | .basic _ _ => true
  | .branch _ a b | .loop _ a b | .attempt _ a b => Code.dispatchFree a && Code.dispatchFree b
  | .dispatch _ _ => false

/-- There is no dispatch in the code, at any depth. -/
def Code.dispatchFree : List Instruction → Bool
  | [] => true
  | i :: c => i.dispatchFree && Code.dispatchFree c

end

def Instruction.isDispatch : Instruction → Bool
  | dispatch _ _ => true
  | _ => false

/-- Every dispatch of the code stands at its top level. -/
def Code.Nested (c : Code) : Prop :=
  ∀ i ∈ c, match i with
    | .dispatch _ h => Code.dispatchFree h = true
    | i => i.dispatchFree = true

/-- The number of dispatches at the top level. -/
def Code.dispatches (c : Code) : Nat := c.countP Instruction.isDispatch

namespace Code

theorem dispatchFree_iff {c : Code} :
    Code.dispatchFree c = true ↔ ∀ i ∈ c, i.dispatchFree = true := by
  induction c with
  | nil => simp [Code.dispatchFree]
  | cons i c ih => simp [Code.dispatchFree, ih]

@[simp] theorem dispatchFree_append (a b : Code) :
    Code.dispatchFree (a ++ b) = (Code.dispatchFree a && Code.dispatchFree b) := by
  rw [Bool.eq_iff_iff, Bool.and_eq_true, dispatchFree_iff, dispatchFree_iff, dispatchFree_iff]
  exact List.forall_mem_append

@[simp] theorem dispatchFree_cons (i : Instruction) (c : Code) :
    Code.dispatchFree (i :: c) = (i.dispatchFree && Code.dispatchFree c) := by
  rw [Code.dispatchFree]

@[simp] theorem dispatchFree_nil : Code.dispatchFree [] = true := by
  rw [Code.dispatchFree]

theorem dispatchFree_of_isPure {c : Code} (h : ∀ i ∈ c, i.isPure = true) :
    Code.dispatchFree c = true := by
  refine dispatchFree_iff.mpr ?_
  intro i hi
  have hpure := h i hi
  cases i with
  | basic p op => rw [Instruction.dispatchFree]
  | branch | loop | attempt | dispatch => cases hpure

theorem nested_of_dispatchFree {c : Code} (h : Code.dispatchFree c = true) : c.Nested := by
  intro i hi
  have hfree := dispatchFree_iff.mp h i hi
  cases i with
  | dispatch p a => simp [Instruction.dispatchFree] at hfree
  | basic | branch | loop | attempt => exact hfree

theorem dispatches_of_dispatchFree {c : Code} (h : Code.dispatchFree c = true) :
    c.dispatches = 0 := by
  refine List.countP_eq_zero.mpr ?_
  intro i hi
  have hfree := dispatchFree_iff.mp h i hi
  cases i with
  | dispatch p a => simp [Instruction.dispatchFree] at hfree
  | basic | branch | loop | attempt => exact Bool.false_ne_true

theorem Nested.append {a b : Code} (ha : a.Nested) (hb : b.Nested) : Nested (a ++ b) :=
  List.forall_mem_append.mpr ⟨ha, hb⟩

theorem Nested.tail {i : Instruction} {c : Code} (h : Nested (i :: c)) : c.Nested :=
  fun j hj => h j (List.mem_cons_of_mem _ hj)

theorem dispatches_append (a b : Code) :
    Code.dispatches (a ++ b) = a.dispatches + b.dispatches :=
  List.countP_append

theorem dispatches_dispatch (p : Nat) (handler rest : Code) :
    Code.dispatches (.dispatch p handler :: rest) = rest.dispatches + 1 :=
  List.countP_cons_of_pos rfl

end Code

/-- Compiled code holds no dispatch. -/
theorem Stmt.dispatchFree_code (k : Nat) (s : Stmt) : Code.dispatchFree (s.code k) = true := by
  have hexpr : ∀ (p : Nat) (e : Expr), Code.dispatchFree (e.code p) = true := fun p e =>
    Code.dispatchFree_of_isPure fun i hi => Expr.isPure_of_mem_code hi
  have hguard : ∀ (p : Nat) (g : Guard), Code.dispatchFree (g.code p) = true := fun p g =>
    Code.dispatchFree_of_isPure fun i hi => Guard.isPure_of_mem_code hi
  induction s generalizing k with
  | assign x e => simp [code, hexpr, Instruction.dispatchFree]
  | skip => simp [code, Instruction.dispatchFree]
  | seq s t ihs iht => simp [code, ihs, iht]
  | cond g s t ihs iht => simp [code, hguard, Instruction.dispatchFree, ihs, iht]
  | loop g s ih => simp [code, hguard, Instruction.dispatchFree, ih]
  | attempt s t ihs iht => simp [code, Instruction.dispatchFree, ihs, iht]

namespace Configuration

/-- The depth counters agree with the dispatches that remain. -/
structure Nested (c : Configuration) : Prop where
  code : c.code.Nested
  tryDepth : c.tryDepth = c.code.dispatches
  exceptionDepth_le : c.exceptionDepth ≤ c.tryDepth
  exceptionDepth_eq_zero : c.exceptional = false → c.exceptionDepth = 0

theorem nested_initial {code : Code} (h : Code.dispatchFree code = true) :
    (Configuration.initial code).Nested :=
  ⟨Code.nested_of_dispatchFree h, (Code.dispatches_of_dispatchFree h).symm, Nat.le_refl 0,
    fun _ => rfl⟩

variable {σ σ' : Store} {st st' : List Operand} {rest a : Code} {x : Bool} {t e : Nat}
  {i : Instruction}

/-- An instruction that is no dispatch may be replaced by code without dispatches. -/
theorem Nested.replace (h : Nested ⟨σ, st, i :: rest, x, t, e⟩) (hi : i.isDispatch = false)
    (ha : Code.dispatchFree a = true) : Nested ⟨σ', st', a ++ rest, x, t, e⟩ := by
  refine ⟨(Code.nested_of_dispatchFree ha).append h.code.tail, ?_, h.exceptionDepth_le,
    h.exceptionDepth_eq_zero⟩
  have ht : t = Code.dispatches (i :: rest) := h.tryDepth
  rw [Code.dispatches, List.countP_cons_of_neg (by rw [hi]; exact Bool.false_ne_true)] at ht
  show t = Code.dispatches (a ++ rest)
  rw [Code.dispatches_append, Code.dispatches_of_dispatchFree ha, Nat.zero_add]
  exact ht

/-- Raising an exception keeps the counters in order. -/
theorem Nested.raise (h : Nested ⟨σ, st, rest, false, t, e⟩) : Nested ⟨σ, st, rest, true, t, t⟩ :=
  ⟨h.code, h.tryDepth, Nat.le_refl t, fun hx => absurd hx (Bool.noConfusion ·)⟩

/-- The parts of the next instruction hold no dispatch. -/
theorem Nested.parts {a b : Code} (h : Nested ⟨σ, st, i :: rest, x, t, e⟩) {p : Nat}
    (hi : i = .branch p a b ∨ i = .loop p a b ∨ i = .attempt p a b) :
    Code.dispatchFree a = true ∧ Code.dispatchFree b = true := by
  have hfree := h.code i (List.mem_cons_self ..)
  rcases hi with rfl | rfl | rfl
  all_goals
    simp only [Instruction.dispatchFree, Bool.and_eq_true] at hfree
    exact hfree

/-- Every step keeps the counters in order. -/
theorem Move.nested {c d : Configuration} (h : Move c d) (hc : c.Nested) : d.Nested := by
  cases h with
  | push | truth | fetch | noop | negate | conj | arith | compare | assign | ignoreStore =>
    exact hc.replace rfl Code.dispatchFree_nil
  | failStore => exact (hc.replace rfl Code.dispatchFree_nil).raise
  | hold => exact hc.replace rfl (hc.parts (.inl rfl)).1
  | refuse => exact hc.replace rfl (hc.parts (.inl rfl)).2
  | failGuard => exact (hc.replace rfl Code.dispatchFree_nil).raise
  | ignoreGuard => exact hc.replace rfl Code.dispatchFree_nil
  | @unroll σ st p a b rest x t e =>
    obtain ⟨ha, hb⟩ := hc.parts (.inr (.inl rfl))
    have hfree : Code.dispatchFree (a ++ [.branch p (b ++ [.loop p a b]) [.basic p .noop]]) =
        true := by
      simp [Instruction.dispatchFree, ha, hb]
    have hnew : Nested ⟨σ, st, (a ++ [_]) ++ rest, x, t, e⟩ := hc.replace rfl hfree
    rwa [List.append_assoc] at hnew
  | @attempt σ st p a h rest x t e =>
    obtain ⟨ha, hh⟩ := hc.parts (.inr (.inr rfl))
    have hrest : Nested ⟨σ, st, rest, x, t, e⟩ := hc.replace rfl Code.dispatchFree_nil
    refine ⟨?_, ?_, Nat.le_succ_of_le hc.exceptionDepth_le, hc.exceptionDepth_eq_zero⟩
    · refine (Code.nested_of_dispatchFree ha).append ?_
      intro j hj
      rcases List.mem_cons.mp hj with rfl | hj
      · exact hh
      · exact hrest.code j hj
    · show t + 1 = Code.dispatches (a ++ _ :: rest)
      rw [Code.dispatches_append, Code.dispatches_of_dispatchFree ha,
        Code.dispatches_dispatch, Nat.zero_add]
      exact congrArg (· + 1) hrest.tryDepth
  | @handle σ st p h rest t =>
    -- the handler holds no dispatch, and the block that it belongs to is left
    have hh : Code.dispatchFree h = true := hc.code _ (List.mem_cons_self ..)
    have ht : t + 1 = Code.dispatches (.dispatch p h :: rest) := hc.tryDepth
    rw [Code.dispatches_dispatch] at ht
    refine ⟨(Code.nested_of_dispatchFree hh).append hc.code.tail, ?_, Nat.zero_le _, fun _ => rfl⟩
    show t = Code.dispatches (h ++ rest)
    rw [Code.dispatches_append, Code.dispatches_of_dispatchFree hh, Nat.zero_add]
    exact Nat.succ.inj ht
  | @leave σ st p h rest x t e hx =>
    have ht : t + 1 = Code.dispatches (.dispatch p h :: rest) := hc.tryDepth
    rw [Code.dispatches_dispatch] at ht
    refine ⟨hc.code.tail, Nat.succ.inj ht, ?_, hc.exceptionDepth_eq_zero⟩
    -- a pending exception that is not handled here was raised further out
    have hle : e ≤ t + 1 := hc.exceptionDepth_le
    show e ≤ t
    cases x with
    | false => exact Nat.le_trans (Nat.le_of_eq (hc.exceptionDepth_eq_zero rfl)) (Nat.zero_le t)
    | true => exact Nat.le_of_lt_succ (Nat.lt_of_le_of_ne hle (hx rfl))

theorem Nested.of_reachable {c d : Configuration} (hc : c.Nested) (h : c.Reachable d) : d.Nested :=
  h.invariant hc Move.nested

/-- No dispatch stands outside of every try block. -/
theorem Nested.tryDepth_ne_zero {c : Configuration} (hc : c.Nested) {p : Nat} {h rest : Code}
    (hcode : c.code = .dispatch p h :: rest) : c.tryDepth ≠ 0 := by
  rw [hc.tryDepth, hcode, Code.dispatches_dispatch]
  exact Nat.succ_ne_zero _

theorem Nested.step_ne_strayDispatch {c : Configuration} (hc : c.Nested) (i : Instruction) :
    c.step ≠ .error (.strayDispatch i) := by
  intro hstep
  rw [step_eq_error_iff] at hstep
  cases hcode : c.code with
  | nil =>
    rw [fault?, hcode] at hstep
    cases hstep
  | cons j rest =>
    cases j with
    | dispatch p h =>
      have ht : c.tryDepth ≠ 0 := hc.tryDepth_ne_zero hcode
      simp only [fault?, hcode, if_neg ht] at hstep
      cases hstep
    | basic | branch | loop | attempt =>
      simp only [fault?, hcode] at hstep
      exact Instruction.lack?_ne_strayDispatch _ i _ _ hstep

/-- Without a pending exception the code that remains determines both depths. -/
theorem Nested.eq_of_normal {c d : Configuration} (hc : c.Nested) (hd : d.Nested)
    (hx : c.exceptional = false) (hx' : d.exceptional = false) (hstore : c.store = d.store)
    (hstack : c.stack = d.stack) (hcode : c.code = d.code) : c = d := by
  have htry : c.tryDepth = d.tryDepth := by
    rw [hc.tryDepth, hd.tryDepth, hcode]
  have hexception : c.exceptionDepth = d.exceptionDepth := by
    rw [hc.exceptionDepth_eq_zero hx, hd.exceptionDepth_eq_zero hx']
  obtain ⟨σ, st, code, x, t, e⟩ := c
  obtain ⟨σ', st', code', x', t', e'⟩ := d
  cases hx
  cases hx'
  cases hstore
  cases hstack
  cases hcode
  cases htry
  cases hexception
  rfl

/-- **The depth counters follow the code.**  Let a configuration be reached from code that
holds no dispatch.

* The try depth is the number of dispatches at the top level of the code that remains.
* The exception depth is 0 if no exception is pending, and at most the try depth if one is.
* The step does not fail with a dispatch outside of every try block.
* Another configuration that is reached from that code is the same if in both no exception
  is pending and the stores, the stacks and the code that remains are equal. -/
theorem depths_follow_code {code : Code} (hfree : Code.dispatchFree code = true)
    {c : Configuration} (hc : (Configuration.initial code).Reachable c) :
    c.tryDepth = c.code.dispatches ∧
      (c.exceptional = false → c.exceptionDepth = 0) ∧
      (c.exceptional = true → c.exceptionDepth ≤ c.tryDepth) ∧
      (∀ i, c.step ≠ .error (.strayDispatch i)) ∧
      ∀ d, (Configuration.initial code).Reachable d → c.exceptional = false →
        d.exceptional = false → c.store = d.store → c.stack = d.stack → c.code = d.code →
        c = d := by
  have hnested : c.Nested := (nested_initial hfree).of_reachable hc
  refine ⟨hnested.tryDepth, hnested.exceptionDepth_eq_zero, fun _ => hnested.exceptionDepth_le,
    hnested.step_ne_strayDispatch, ?_⟩
  intro d hd hx hx' hstore hstack hcode
  exact hnested.eq_of_normal ((nested_initial hfree).of_reachable hd) hx hx' hstore hstack hcode

/-- `try (try x := 1 / y catch skip) catch skip` -/
def nestedDivision : Code :=
  [.attempt 1 [.attempt 2 [.basic 3 (.fetch "y"), .basic 3 (.push 1), .basic 3 (.arith .div),
    .basic 3 (.store "x")] [.basic 3 .noop]] [.basic 3 .noop]]

/-- The counters where the division has raised, in two blocks, and after its handler, in one;
there a normal configuration is told from no other by its counters. -/
theorem depths_at_nestedDivision :
    ∃ c d, (Configuration.initial nestedDivision).Reachable c ∧ c.exceptional = true ∧
      c.tryDepth = 2 ∧ c.code.dispatches = 2 ∧ c.exceptionDepth ≤ c.tryDepth ∧
      (∀ i, c.step ≠ .error (.strayDispatch i)) ∧
      (Configuration.initial nestedDivision).Reachable d ∧ d.exceptional = false ∧
      d.tryDepth = 1 ∧ d.code.dispatches = 1 ∧ d.exceptionDepth = 0 ∧
      ∀ e, (Configuration.initial nestedDivision).Reachable e → e.exceptional = false →
        d.store = e.store → d.stack = e.stack → d.code = e.code → d = e := by
  have hc : (Configuration.initial nestedDivision).Reachable ⟨Store.empty.declare "x", [],
      [.dispatch 3 [.basic 3 .noop], .dispatch 3 [.basic 3 .noop]], true, 2, 2⟩ :=
    .head .attempt (.head .attempt (.head .fetch (.head .push
      (.head (.arith (List.mem_cons_of_mem _ (List.mem_singleton_self _)))
        (.head .failStore .refl)))))
  have hd : (Configuration.initial nestedDivision).Reachable ⟨Store.empty.declare "x", [],
      [.dispatch 3 [.basic 3 .noop]], false, 1, 0⟩ :=
    hc.trans (.head .handle (.head .noop .refl))
  obtain ⟨htry, -, hle, hstray, -⟩ := depths_follow_code (by decide) hc
  obtain ⟨htry', hzero, -, -, hunique⟩ := depths_follow_code (by decide) hd
  exact ⟨_, _, hc, rfl, rfl, htry.symm, hle rfl, hstray, hd, rfl, rfl, htry'.symm, hzero rfl,
    fun e he hx => hunique e he rfl hx⟩

end Configuration

end SignAnalysis
