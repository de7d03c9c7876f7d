/-
The abstract machine, statement by statement.

Between two statements the machine holds no operands and what remains of its code
is that of some tasks.  A `Moment` is such a configuration, and `Moment.Goes` says
what the next task makes of it, given the outcomes of its expressions:

* `Moment.Goes.reachable` — every step from moment to moment is a run of the
  machine;
* `Moment.exists_reaches` — every configuration that the machine comes to lies in
  the next task of a moment that can be reached from the first, and one with
  nothing left to execute is such a moment itself.

While an exception is pending, the tasks that it abandons are carried out all the
same; only the store does not change, and no handler runs but that of the block in
which it was raised.
-/
import Mathlib.Logic.Relation
import SignAnalysis.Proofs.Evaluation
import SignAnalysis.Proofs.Execution

namespace SignAnalysis

/-! ### Tasks -/

namespace Task

/-- The code of a task. -/
def code : Task → Code
  | run k s => s.code k
  | leave k h => [.dispatch (Code.handlerPoint 0 (h.code k)) (h.code k)]

/-- The code of some tasks, one after the other. -/
def codes (ts : List Task) : Code := ts.flatMap code

/-- The number of try blocks that the tasks leave. -/
def openBlocks : List Task → Nat
  | [] => 0
  | run _ _ :: ts => openBlocks ts
  | leave _ _ :: ts => openBlocks ts + 1

end Task

/-- Outside of all try blocks nothing is caught. -/
theorem State.handling?_eq_none {ts : List Task} (h : Task.openBlocks ts = 0) :
    handling? ts = none := by
  induction ts with
  | nil => rfl
  | cons task ts ih =>
    cases task with
    | run k s => exact ih h
    | leave k s => cases h

theorem Stmt.code_ne_nil (k : Nat) (s : Stmt) : s.code k ≠ [] := by
  induction s generalizing k with
  | assign y e => exact List.append_ne_nil_of_right_ne_nil _ (List.cons_ne_nil _ _)
  | skip => exact List.cons_ne_nil _ _
  | seq s t ihs _ => exact List.append_ne_nil_of_left_ne_nil (ihs k) _
  | cond g s t _ _ => exact List.append_ne_nil_of_right_ne_nil _ (List.cons_ne_nil _ _)
  | loop g s _ => exact List.cons_ne_nil _ _
  | attempt s h _ _ => exact List.cons_ne_nil _ _

/-- The point of a dispatch is that of its handler, whatever the try block's is. -/
theorem Code.handlerPoint_eq {h : Code} (hne : h ≠ []) (p q : Nat) :
    handlerPoint p h = handlerPoint q h := by
  cases h with
  | nil => exact absurd rfl hne
  | cons i h => rfl

/-! ### Moments -/

/-- A configuration between two tasks. -/
structure Moment where
  store : Store
  tasks : List Task
  /-- Whether an exception is pending. -/
  exceptional : Bool
  exceptionDepth : Nat

namespace Moment

/-- The configuration that a moment stands for. -/
def configuration (m : Moment) : Configuration :=
  { store := m.store, stack := [], code := Task.codes m.tasks, exceptional := m.exceptional,
    tryDepth := Task.openBlocks m.tasks, exceptionDepth := m.exceptionDepth }

/-- The first moment of a program. -/
def initial (s : Stmt) : Moment := ⟨.empty, [.run 0 s], false, 0⟩

theorem configuration_initial (s : Stmt) :
    (initial s).configuration = .initial s.compile.code := by
  show Configuration.mk _ _ (s.code 0 ++ []) _ _ _ = _
  rw [List.append_nil]
  rfl

/-- An exception is raised, unless one is pending already. -/
def raise (m : Moment) : Moment :=
  if m.exceptional then m
  else { m with exceptional := true, exceptionDepth := Task.openBlocks m.tasks }

/-- What the next task can do. -/
inductive Goes : Moment → Moment → Prop
  | assign {σ : Store} {k d : Nat} {y : Var} {e : Expr} {ts : List Task} {m : Sign}
      (hm : m ∈ e.outcomes σ.get) (hv : m ≠ .error) :
      Goes ⟨σ, .run k (.assign y e) :: ts, false, d⟩ ⟨σ.insert y m, ts, false, d⟩
  | failAssign {σ : Store} {k d : Nat} {y : Var} {e : Expr} {ts : List Task} {x : Bool}
      (hm : .error ∈ e.outcomes σ.get) :
      Goes ⟨σ, .run k (.assign y e) :: ts, x, d⟩ (raise ⟨σ.declare y, ts, x, d⟩)
  /-- While an exception is pending, nothing is stored. -/
  | ignoreAssign {σ : Store} {k d : Nat} {y : Var} {e : Expr} {ts : List Task} {m : Sign}
      (hm : m ∈ e.outcomes σ.get) :
      Goes ⟨σ, .run k (.assign y e) :: ts, true, d⟩ ⟨σ.declare y, ts, true, d⟩
  | skip {σ : Store} {k d : Nat} {ts : List Task} {x : Bool} :
      Goes ⟨σ, .run k .skip :: ts, x, d⟩ ⟨σ, ts, x, d⟩
  | seq {σ : Store} {k d : Nat} {s t : Stmt} {ts : List Task} {x : Bool} :
      Goes ⟨σ, .run k (.seq s t) :: ts, x, d⟩
        ⟨σ, .run k s :: .run (k + s.pointCount) t :: ts, x, d⟩
  | condTrue {σ : Store} {k d : Nat} {g : Guard} {s t : Stmt} {ts : List Task} {x : Bool}
      {m : Truth} (hm : m ∈ g.outcomes σ.get) (hv : m.mayHold = true) :
      Goes ⟨σ, .run k (.cond g s t) :: ts, x, d⟩ ⟨σ, .run (k + 1) s :: ts, x, d⟩
  | condFalse {σ : Store} {k d : Nat} {g : Guard} {s t : Stmt} {ts : List Task} {x : Bool}
      {m : Truth} (hm : m ∈ g.outcomes σ.get) (hv : m.mayFail = true) :
      Goes ⟨σ, .run k (.cond g s t) :: ts, x, d⟩ ⟨σ, .run (k + 1 + s.pointCount) t :: ts, x, d⟩
  | failCond {σ : Store} {k d : Nat} {g : Guard} {s t : Stmt} {ts : List Task} {x : Bool}
      (hm : .error ∈ g.outcomes σ.get) :
      Goes ⟨σ, .run k (.cond g s t) :: ts, x, d⟩ (raise ⟨σ, ts, x, d⟩)
  | loopTrue {σ : Store} {k d : Nat} {g : Guard} {s : Stmt} {ts : List Task} {x : Bool}
      {m : Truth} (hm : m ∈ g.outcomes σ.get) (hv : m.mayHold = true) :
      Goes ⟨σ, .run k (.loop g s) :: ts, x, d⟩
        ⟨σ, .run (k + 1) s :: .run k (.loop g s) :: ts, x, d⟩
  | loopFalse {σ : Store} {k d : Nat} {g : Guard} {s : Stmt} {ts : List Task} {x : Bool}
      {m : Truth} (hm : m ∈ g.outcomes σ.get) (hv : m.mayFail = true) :
      Goes ⟨σ, .run k (.loop g s) :: ts, x, d⟩ ⟨σ, ts, x, d⟩
  | failLoop {σ : Store} {k d : Nat} {g : Guard} {s : Stmt} {ts : List Task} {x : Bool}
      (hm : .error ∈ g.outcomes σ.get) :
      Goes ⟨σ, .run k (.loop g s) :: ts, x, d⟩ (raise ⟨σ, ts, x, d⟩)
  | attempt {σ : Store} {k d : Nat} {s h : Stmt} {ts : List Task} {x : Bool} :
      Goes ⟨σ, .run k (.attempt s h) :: ts, x, d⟩
        ⟨σ, .run (k + 1) s :: .leave (k + 1 + s.pointCount) h :: ts, x, d⟩
  /-- The block that raised runs its handler. -/
  | handle {σ : Store} {k d : Nat} {h : Stmt} {ts : List Task}
      (hd : d = Task.openBlocks ts + 1) :
      Goes ⟨σ, .leave k h :: ts, true, d⟩ ⟨σ, .run k h :: ts, false, 0⟩
  | leave {σ : Store} {k d : Nat} {h : Stmt} {ts : List Task} {x : Bool}
      (hd : x = true → d ≠ Task.openBlocks ts + 1) :
      Goes ⟨σ, .leave k h :: ts, x, d⟩ ⟨σ, ts, x, d⟩

/-- Any number of tasks may lead from one moment to the other. -/
abbrev Reaches : Moment → Moment → Prop := Relation.ReflTransGen Goes

/-! ### From moments to runs -/

open SignAnalysis.Configuration

section

variable {σ : Store} {ts : List Task} {x : Bool} {k d : Nat}

/-- An assignment evaluates its right-hand side. -/
theorem reachable_store {y : Var} {e : Expr} {m : Sign} (hm : m ∈ e.outcomes σ.get) :
    (configuration ⟨σ, .run k (.assign y e) :: ts, x, d⟩).Reachable
      ⟨σ, [.int m], .basic (k + 1) (.store y) :: Task.codes ts, x, Task.openBlocks ts, d⟩ := by
  show Reachable ⟨σ, [], (e.code (k + 1) ++ [_]) ++ Task.codes ts, x, _, d⟩ _
  rw [List.append_assoc]
  exact (Expr.reachesIn_code_iff.mpr ⟨m, hm, rfl⟩).reachable

/-- A conditional evaluates its guard. -/
theorem reachable_cond {g : Guard} {s t : Stmt} {m : Truth} (hm : m ∈ g.outcomes σ.get) :
    (configuration ⟨σ, .run k (.cond g s t) :: ts, x, d⟩).Reachable
      ⟨σ, [.bool m], .branch (k + 1) (s.code (k + 1)) (t.code (k + 1 + s.pointCount)) ::
        Task.codes ts, x, Task.openBlocks ts, d⟩ := by
  show Reachable ⟨σ, [], (g.code (k + 1) ++ [_]) ++ Task.codes ts, x, _, d⟩ _
  rw [List.append_assoc]
  exact (Guard.reachesIn_code_iff.mpr ⟨m, hm, rfl⟩).reachable

/-- A loop evaluates its guard, having put itself behind its body. -/
theorem reachable_loop {g : Guard} {s : Stmt} {m : Truth} (hm : m ∈ g.outcomes σ.get) :
    (configuration ⟨σ, .run k (.loop g s) :: ts, x, d⟩).Reachable
      ⟨σ, [.bool m], .branch (k + 1) (s.code (k + 1) ++ Stmt.code k (.loop g s))
        [.basic (k + 1) .noop] :: Task.codes ts, x, Task.openBlocks ts, d⟩ :=
  .head .unroll (Guard.reachesIn_code_iff.mpr ⟨m, hm, rfl⟩).reachable

/-- A guard that is an error raises an exception. -/
theorem reachable_raise {p : Nat} {a b : Code} :
    Reachable ⟨σ, [.bool .error], .branch p a b :: Task.codes ts, x, Task.openBlocks ts, d⟩
      (raise ⟨σ, ts, x, d⟩).configuration := by
  cases x with
  | false => exact Move.failGuard.reachable
  | true => exact Move.ignoreGuard.reachable

end

/-- Every step from moment to moment is a run of the machine. -/
theorem Goes.reachable {m m' : Moment} (h : m.Goes m') :
    m.configuration.Reachable m'.configuration := by
  cases h with
  | assign hm hv => exact (reachable_store hm).trans (Move.assign hv).reachable
  | @failAssign σ k d y e ts x hm =>
    refine (reachable_store hm).trans ?_
    cases x with
    | false => exact Move.failStore.reachable
    | true => exact Move.ignoreStore.reachable
  | ignoreAssign hm => exact (reachable_store hm).trans Move.ignoreStore.reachable
  | skip => exact Move.noop.reachable
  | @seq σ k d s t ts x =>
    show Reachable ⟨σ, [], (s.code k ++ t.code (k + s.pointCount)) ++ Task.codes ts, x, _, d⟩ _
    rw [List.append_assoc]
    exact .refl
  | condTrue hm hv => exact (reachable_cond hm).trans (Move.hold hv).reachable
  | condFalse hm hv => exact (reachable_cond hm).trans (Move.refuse hv).reachable
  | failCond hm => exact (reachable_cond hm).trans reachable_raise
  | @loopTrue σ k d g s ts x m hm hv =>
    refine (reachable_loop hm).trans (Move.reachable ?_)
    show Move _ ⟨σ, [], s.code (k + 1) ++ (Stmt.code k (.loop g s) ++ Task.codes ts), x, _, d⟩
    rw [← List.append_assoc]
    exact .hold hv
  | loopFalse hm hv =>
    exact (reachable_loop hm).trans (.head (.refuse hv) Move.noop.reachable)
  | failLoop hm => exact (reachable_loop hm).trans reachable_raise
  | @attempt σ k d s h ts x =>
    show Reachable _ ⟨σ, [], s.code (k + 1) ++ .dispatch (Code.handlerPoint 0 _) _ :: Task.codes ts,
      x, Task.openBlocks ts + 1, d⟩
    -- the handler has code, so that its first point is that of the dispatch
    rw [Code.handlerPoint_eq (h.code_ne_nil _) 0 (k + 1)]
    exact Move.attempt.reachable
  | @handle σ k d h ts hd =>
    subst hd
    exact Move.handle.reachable
  | leave hd => exact (Move.leave hd).reachable

theorem Reaches.reachable {m m' : Moment} (h : m.Reaches m') :
    m.configuration.Reachable m'.configuration := by
  induction h with
  | refl => exact .refl
  | tail _ hgoes ih => exact ih.trans hgoes.reachable

/-! ### From runs to moments -/

/-- The configuration lies in the next task of the moment: an expression is being evaluated,
or the machine is about to do what only the instruction of a statement does. -/
inductive Within : Moment → Configuration → Prop
  | evaluate {σ : Store} {ts : List Task} {x : Bool} {b d : Nat} {st : List Operand}
      {i : Instruction} {rest : Code} (hi : i.isPure = true) :
      Within ⟨σ, ts, x, d⟩ ⟨σ, st, i :: rest, x, b, d⟩
  | store {σ : Store} {k d : Nat} {y : Var} {e : Expr} {ts : List Task} {x : Bool} {m : Sign}
      (hm : m ∈ e.outcomes σ.get) : Within ⟨σ, .run k (.assign y e) :: ts, x, d⟩
        ⟨σ, [.int m], .basic (k + 1) (.store y) :: Task.codes ts, x, Task.openBlocks ts, d⟩
  | test {σ : Store} {k d : Nat} {g : Guard} {s t : Stmt} {ts : List Task} {x : Bool}
      {m : Truth} (hm : m ∈ g.outcomes σ.get) : Within ⟨σ, .run k (.cond g s t) :: ts, x, d⟩
        ⟨σ, [.bool m], .branch (k + 1) (s.code (k + 1)) (t.code (k + 1 + s.pointCount)) ::
          Task.codes ts, x, Task.openBlocks ts, d⟩
  | unroll {σ : Store} {k d : Nat} {g : Guard} {s : Stmt} {ts : List Task} {x : Bool} :
      Within ⟨σ, .run k (.loop g s) :: ts, x, d⟩
        ⟨σ, [], .loop (k + 1) (g.code (k + 1)) (s.code (k + 1)) :: Task.codes ts, x,
          Task.openBlocks ts, d⟩
  | testLoop {σ : Store} {k d : Nat} {g : Guard} {s : Stmt} {ts : List Task} {x : Bool}
      {m : Truth} (hm : m ∈ g.outcomes σ.get) : Within ⟨σ, .run k (.loop g s) :: ts, x, d⟩
        ⟨σ, [.bool m], .branch (k + 1) (s.code (k + 1) ++ Stmt.code k (.loop g s))
          [.basic (k + 1) .noop] :: Task.codes ts, x, Task.openBlocks ts, d⟩
  | attempt {σ : Store} {k d : Nat} {s t : Stmt} {ts : List Task} {x : Bool} :
      Within ⟨σ, .run k (.attempt s t) :: ts, x, d⟩
        ⟨σ, [], .attempt (k + 1) (s.code (k + 1)) (t.code (k + 1 + s.pointCount)) ::
          Task.codes ts, x, Task.openBlocks ts, d⟩
  | leave {σ : Store} {k d : Nat} {h : Stmt} {ts : List Task} {x : Bool} :
      Within ⟨σ, .leave k h :: ts, x, d⟩
        ⟨σ, [], .dispatch (Code.handlerPoint 0 (h.code k)) (h.code k) :: Task.codes ts, x,
          Task.openBlocks ts + 1, d⟩

theorem Within.isTerminal {m : Moment} {c : Configuration} (h : m.Within c) :
    c.isTerminal = false := by
  cases h <;> rfl

theorem Within.exceptional {m : Moment} {c : Configuration} (h : m.Within c) :
    c.exceptional = m.exceptional := by
  cases h <;> rfl

/-- The run to `c` comes to another moment in fewer than `n` steps from the end. -/
def Later (m : Moment) (n : Nat) (c : Configuration) : Prop :=
  ∃ m' j, m.Reaches m' ∧ j < n ∧ ReachesIn j m'.configuration c

theorem Goes.later {m m' : Moment} (h : m.Goes m') {n j : Nat} {c : Configuration} (hj : j < n)
    (hc : ReachesIn j m'.configuration c) : m.Later n c :=
  ⟨m', j, .single h, hj, hc⟩

section

variable {σ : Store} {ts : List Task} {x : Bool} {k d n : Nat} {c : Configuration}

theorem within_or_later_assign {y : Var} {e : Expr}
    (h : ReachesIn n (configuration ⟨σ, .run k (.assign y e) :: ts, x, d⟩) c) :
    Within ⟨σ, .run k (.assign y e) :: ts, x, d⟩ c ∨
      Later ⟨σ, .run k (.assign y e) :: ts, x, d⟩ n c := by
  have h' : ReachesIn n ⟨σ, [], e.code (k + 1) ++ .basic (k + 1) (.store y) :: Task.codes ts, x,
      Task.openBlocks ts, d⟩ c := by
    rw [List.append_cons]
    exact h
  rcases h'.split fun i hi => Expr.isPure_of_mem_code hi with
    ⟨st, i, rest, hi, rfl⟩ | hend | ⟨b, c', j, hb, hmove, hj, hc⟩
  · exact .inl (.evaluate hi)
  · obtain ⟨m, hm, rfl⟩ := Expr.reachesIn_code_iff.mp hend
    exact .inl (.store hm)
  · obtain ⟨m, hm, rfl⟩ := Expr.reachesIn_code_iff.mp hb
    refine .inr ?_
    cases hmove with
    | assign hv => exact (Goes.assign hm hv).later hj hc
    | failStore => exact (Goes.failAssign hm).later hj hc
    | ignoreStore => exact (Goes.ignoreAssign hm).later hj hc

theorem within_or_later_cond {g : Guard} {s t : Stmt}
    (h : ReachesIn n (configuration ⟨σ, .run k (.cond g s t) :: ts, x, d⟩) c) :
    Within ⟨σ, .run k (.cond g s t) :: ts, x, d⟩ c ∨
      Later ⟨σ, .run k (.cond g s t) :: ts, x, d⟩ n c := by
  have h' : ReachesIn n ⟨σ, [], g.code (k + 1) ++ .branch (k + 1) (s.code (k + 1))
      (t.code (k + 1 + s.pointCount)) :: Task.codes ts, x, Task.openBlocks ts, d⟩ c := by
    rw [List.append_cons]
    exact h
  rcases h'.split fun i hi => Guard.isPure_of_mem_code hi with
    ⟨st, i, rest, hi, rfl⟩ | hend | ⟨b, c', j, hb, hmove, hj, hc⟩
  · exact .inl (.evaluate hi)
  · obtain ⟨m, hm, rfl⟩ := Guard.reachesIn_code_iff.mp hend
    exact .inl (.test hm)
  · obtain ⟨m, hm, rfl⟩ := Guard.reachesIn_code_iff.mp hb
    refine .inr ?_
    cases hmove with
    | hold hv => exact (Goes.condTrue hm hv).later hj hc
    | refuse hv => exact (Goes.condFalse hm hv).later hj hc
    | failGuard => exact (Goes.failCond hm).later hj hc
    | ignoreGuard => exact (Goes.failCond hm).later hj hc

theorem within_or_later_loop {g : Guard} {s : Stmt}
    (h : ReachesIn n (configuration ⟨σ, .run k (.loop g s) :: ts, x, d⟩) c) :
    Within ⟨σ, .run k (.loop g s) :: ts, x, d⟩ c ∨
      Later ⟨σ, .run k (.loop g s) :: ts, x, d⟩ n c := by
  cases n with
  | zero =>
    cases h
    exact .inl .unroll
  | succ n =>
    obtain ⟨c₁, hunroll, h⟩ := h
    cases hunroll
    rcases h.split fun i hi => Guard.isPure_of_mem_code hi with
      ⟨st, i, rest, hi, rfl⟩ | hend | ⟨b, c', j, hb, hmove, hj, hc⟩
    · exact .inl (.evaluate hi)
    · obtain ⟨m, hm, rfl⟩ := Guard.reachesIn_code_iff.mp hend
      exact .inl (.testLoop hm)
    · obtain ⟨m, hm, rfl⟩ := Guard.reachesIn_code_iff.mp hb
      have hj' : j < n + 1 := Nat.lt_succ_of_lt hj
      cases hmove with
      | hold hv =>
        rw [List.append_assoc] at hc
        exact .inr ((Goes.loopTrue hm hv).later hj' hc)
      | refuse hv =>
        -- the arm that ends the loop is one instruction that does nothing
        cases j with
        | zero =>
          cases hc
          exact .inl (.evaluate rfl)
        | succ j =>
          obtain ⟨c₂, hnoop, hc⟩ := hc
          cases hnoop
          exact .inr ((Goes.loopFalse hm hv).later (Nat.lt_of_succ_lt hj') hc)
      | failGuard => exact .inr ((Goes.failLoop hm).later hj' hc)
      | ignoreGuard => exact .inr ((Goes.failLoop hm).later hj' hc)

/-- A run of the machine stays in the next statement, or in the first part of it if it is a
sequence, or comes to another moment. -/
theorem within_or_later_run {s : Stmt}
    (h : ReachesIn n (configuration ⟨σ, .run k s :: ts, x, d⟩) c) :
    (∃ m, Reaches ⟨σ, .run k s :: ts, x, d⟩ m ∧ m.Within c) ∨
      Later ⟨σ, .run k s :: ts, x, d⟩ n c := by
  induction s generalizing k ts with
  | assign y e => exact (within_or_later_assign h).imp_left fun hin => ⟨_, .refl, hin⟩
  | cond g s t => exact (within_or_later_cond h).imp_left fun hin => ⟨_, .refl, hin⟩
  | loop g s => exact (within_or_later_loop h).imp_left fun hin => ⟨_, .refl, hin⟩
  | skip =>
    cases n with
    | zero =>
      cases h
      exact .inl ⟨_, .refl, .evaluate rfl⟩
    | succ n =>
      obtain ⟨c₁, hmove, hc⟩ := h
      cases hmove
      exact .inr (Goes.skip.later (Nat.lt_succ_self n) hc)
  | seq s t ihs _ =>
    -- the code of a sequence is that of its parts, so the machine makes no step here
    have h' : ReachesIn n (configuration ⟨σ, .run k s :: .run (k + s.pointCount) t :: ts, x, d⟩)
        c := by
      show ReachesIn n ⟨σ, [], s.code k ++ (t.code (k + s.pointCount) ++ Task.codes ts), x,
        Task.openBlocks ts, d⟩ c
      rw [← List.append_assoc]
      exact h
    rcases ihs h' with ⟨m', hreach, hin⟩ | ⟨m', j, hreach, hj, hc⟩
    · exact .inl ⟨m', .head .seq hreach, hin⟩
    · exact .inr ⟨m', j, .head .seq hreach, hj, hc⟩
  | attempt s t =>
    cases n with
    | zero =>
      cases h
      exact .inl ⟨_, .refl, .attempt⟩
    | succ n =>
      obtain ⟨c₁, hmove, hc⟩ := h
      cases hmove
      rw [Code.handlerPoint_eq (t.code_ne_nil _) (k + 1) 0] at hc
      exact .inr (Goes.attempt.later (Nat.lt_succ_self n) hc)

theorem within_or_later_leave {s : Stmt}
    (h : ReachesIn n (configuration ⟨σ, .leave k s :: ts, x, d⟩) c) :
    Within ⟨σ, .leave k s :: ts, x, d⟩ c ∨ Later ⟨σ, .leave k s :: ts, x, d⟩ n c := by
  cases n with
  | zero =>
    cases h
    exact .inl .leave
  | succ n =>
    obtain ⟨c₁, hmove, hc⟩ := h
    refine .inr ?_
    cases hmove with
    | handle => exact (Goes.handle rfl).later (Nat.lt_succ_self n) hc
    | leave hd => exact (Goes.leave hd).later (Nat.lt_succ_self n) hc

end

/-- Every configuration that the machine comes to lies in the next task of a moment
that can be reached, or is such a moment, with nothing left to execute. -/
theorem exists_reaches {m : Moment} {c : Configuration} (h : m.configuration.Reachable c) :
    ∃ m', m.Reaches m' ∧ (m'.Within c ∨ m'.tasks = [] ∧ c = m'.configuration) := by
  -- by induction on the number of steps: a run that leaves the next task is shorter
  -- from the moment on that it comes to
  obtain ⟨n, hn⟩ := reachable_iff_reachesIn.mp h
  clear h
  induction n using Nat.strongRecOn generalizing m with
  | ind n ih =>
    obtain ⟨σ, ts, x, d⟩ := m
    have hlater : Later ⟨σ, ts, x, d⟩ n c →
        ∃ m', Reaches ⟨σ, ts, x, d⟩ m' ∧ (m'.Within c ∨ m'.tasks = [] ∧ c = m'.configuration) := by
      rintro ⟨m₁, j, hreach, hj, hc⟩
      obtain ⟨m', hm', hor⟩ := ih j hj hc
      exact ⟨m', hreach.trans hm', hor⟩
    cases ts with
    | nil =>
      cases n with
      | zero =>
        cases hn
        exact ⟨_, .refl, .inr ⟨rfl, rfl⟩⟩
      | succ n =>
        obtain ⟨c₁, hmove, _⟩ := hn
        cases hmove
    | cons task ts =>
      cases task with
      | run k s =>
        refine (within_or_later_run hn).elim ?_ hlater
        rintro ⟨m', hreach, hin⟩
        exact ⟨m', hreach, .inl hin⟩
      | leave k s =>
        exact (within_or_later_leave hn).elim (fun hin => ⟨_, .refl, .inl hin⟩) hlater

end Moment

end SignAnalysis
