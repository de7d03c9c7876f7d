/-
Executions of programs.

What a program does when it runs on integers, without bound and without a
machine.  Every variable is undefined until it is assigned; to copy an undefined
variable copies that it is undefined, and an undefined operand of an operator
stands for an arbitrary integer.  Operators evaluate both of their operands, and
a division by zero raises an exception.

* `Expr.Evaluates`, `Guard.Evaluates` — what an expression may come to;
* `State` — the values of the variables and what remains to be done;
* `State.Goes` — a step in which nothing is raised;
* `State.Raises`, `State.handled?` — the next statement raises, and control
  passes to the handler of the innermost try block around it;
* `Stmt.Executes` — the states that an execution comes to, with the states in
  which it has raised an exception before.

An infinite execution comes to each of its states after finitely many steps, so
what holds of all states that executions come to holds at every moment of all
executions, finite or infinite.
-/
import SignAnalysis.Program.Basic

namespace SignAnalysis

/-- What an evaluation comes to. -/
inductive Result (α : Type) where
  | value (a : α)
  | raised
deriving DecidableEq

/-- The values of the variables; one without a value is undefined. -/
abbrev Memory := Var → Option Int

/-! ### Expressions -/

/-- A strict operator evaluates both operands and raises if one of them does;
`table` says what it makes of two values. -/
inductive Strict {α β γ : Type} (table : α → β → Result γ → Prop) :
    Result α → Result β → Result γ → Prop
  | values {a : α} {b : β} {o : Result γ} (h : table a b o) : Strict table (.value a) (.value b) o
  | left {r : Result β} : Strict table .raised r .raised
  | right {l : Result α} : Strict table l .raised .raised

/-- An operand that is undefined stands for an arbitrary integer. -/
def StandsFor : Option Int → Int → Prop
  | none, _ => True
  | some n, i => i = n

/-- What an arithmetic operator makes of two integers.  A quotient may be rounded
either way. -/
inductive ArithOp.Gives : ArithOp → Int → Int → Result (Option Int) → Prop
  | add {i j : Int} : Gives .add i j (.value (some (i + j)))
  | sub {i j : Int} : Gives .sub i j (.value (some (i - j)))
  | mul {i j : Int} : Gives .mul i j (.value (some (i * j)))
  | div {i j q : Int} (hj : j ≠ 0) (hq : (i - q * j).natAbs < j.natAbs) :
      Gives .div i j (.value (some q))
  | divZero {i : Int} : Gives .div i 0 .raised

/-- Whether a comparison holds of two integers. -/
def CompareOp.holds : CompareOp → Int → Int → Bool
  | eq, i, j => i = j
  | le, i, j => i ≤ j

/-- What an arithmetic operator may make of two operands. -/
def ArithOp.Combines (op : ArithOp) (a b : Option Int) (o : Result (Option Int)) : Prop :=
  ∃ i j, StandsFor a i ∧ StandsFor b j ∧ op.Gives i j o

/-- What a comparison may make of two operands. -/
def CompareOp.Combines (op : CompareOp) (a b : Option Int) (o : Result Bool) : Prop :=
  ∃ i j, StandsFor a i ∧ StandsFor b j ∧ o = .value (op.holds i j)

/-- What an expression may come to. -/
inductive Expr.Evaluates (μ : Memory) : Expr → Result (Option Int) → Prop
  | num {n : Int} : Evaluates μ (num n) (.value (some n))
  | var {y : Var} : Evaluates μ (var y) (.value (μ y))
  | binary {op : ArithOp} {l r : Expr} {a b o : Result (Option Int)} (hl : Evaluates μ l a)
      (hr : Evaluates μ r b) (ho : Strict op.Combines a b o) : Evaluates μ (binary op l r) o

/-- What a guard may come to. -/
inductive Guard.Evaluates (μ : Memory) : Guard → Result Bool → Prop
  | const {b : Bool} : Evaluates μ (const b) (.value b)
  | compare {op : CompareOp} {l r : Expr} {a b : Result (Option Int)} {o : Result Bool}
      (hl : l.Evaluates μ a) (hr : r.Evaluates μ b) (ho : Strict op.Combines a b o) :
      Evaluates μ (compare op l r) o
  | not {g : Guard} {b : Bool} (hg : Evaluates μ g (.value b)) : Evaluates μ (not g) (.value !b)
  | notRaised {g : Guard} (hg : Evaluates μ g .raised) : Evaluates μ (not g) .raised
  | and {l r : Guard} {a b o : Result Bool} (hl : Evaluates μ l a) (hr : Evaluates μ r b)
      (ho : Strict (fun a b o => o = .value (a && b)) a b o) : Evaluates μ (and l r) o

/-! ### Statements -/

/-- Something that remains to be done.  The number in front of a statement is
that of the control points taken before it. -/
inductive Task where
  | run (k : Nat) (s : Stmt)
  /-- The end of a try block, with its handler. -/
  | leave (k : Nat) (handler : Stmt)
deriving DecidableEq

/-- A moment of an execution. -/
structure State where
  memory : Memory
  tasks : List Task

namespace State

/-- Where executions of a program begin. -/
def initial (s : Stmt) : State := ⟨fun _ => none, [.run 0 s]⟩

/-- The control point of the statement that starts. -/
def starting? (u : State) : Option Nat :=
  match u.tasks with
  | .run _ .skip :: _ | .run _ (.seq _ _) :: _ => none
  | .run k _ :: _ => some (k + 1)
  | _ => none

/-- The assignment that is carried out: its control point and its right-hand side. -/
def assigning? (u : State) : Option (Nat × Expr) :=
  match u.tasks with
  | .run k (.assign _ e) :: _ => some (k + 1, e)
  | _ => none

/-- The guard that is tested, with the control point of its conditional or loop. -/
def testing? (u : State) : Option (Nat × Guard) :=
  match u.tasks with
  | .run k (.cond g _ _) :: _ | .run k (.loop g _) :: _ => some (k + 1, g)
  | _ => none

theorem assigning?_eq_some {u : State} {p : Nat} {e : Expr} (h : u.assigning? = some (p, e)) :
    ∃ k y ts, u.tasks = .run k (.assign y e) :: ts ∧ p = k + 1 := by
  unfold assigning? at h
  split at h
  · rename_i k y e' ts hts
    cases h
    exact ⟨k, y, ts, hts, rfl⟩
  · cases h

theorem testing?_eq_some {u : State} {p : Nat} {g : Guard} (h : u.testing? = some (p, g)) :
    ∃ k ts, p = k + 1 ∧ ((∃ s t, u.tasks = .run k (.cond g s t) :: ts) ∨
      ∃ s, u.tasks = .run k (.loop g s) :: ts) := by
  unfold testing? at h
  split at h
  · rename_i k g' s t ts hts
    cases h
    exact ⟨k, ts, rfl, .inl ⟨s, t, hts⟩⟩
  · rename_i k g' s ts hts
    cases h
    exact ⟨k, ts, rfl, .inr ⟨s, hts⟩⟩
  · cases h

/-- A step in which no exception is raised. -/
inductive Goes : State → State → Prop
  | assign {μ : Memory} {k : Nat} {y : Var} {e : Expr} {ts : List Task} {a : Option Int}
      (he : e.Evaluates μ (.value a)) :
      Goes ⟨μ, .run k (.assign y e) :: ts⟩ ⟨fun z => if z = y then a else μ z, ts⟩
  | skip {μ : Memory} {k : Nat} {ts : List Task} : Goes ⟨μ, .run k .skip :: ts⟩ ⟨μ, ts⟩
  | seq {μ : Memory} {k : Nat} {s t : Stmt} {ts : List Task} :
      Goes ⟨μ, .run k (.seq s t) :: ts⟩ ⟨μ, .run k s :: .run (k + s.pointCount) t :: ts⟩
  | condTrue {μ : Memory} {k : Nat} {g : Guard} {s t : Stmt} {ts : List Task}
      (hg : g.Evaluates μ (.value true)) :
      Goes ⟨μ, .run k (.cond g s t) :: ts⟩ ⟨μ, .run (k + 1) s :: ts⟩
  | condFalse {μ : Memory} {k : Nat} {g : Guard} {s t : Stmt} {ts : List Task}
      (hg : g.Evaluates μ (.value false)) :
      Goes ⟨μ, .run k (.cond g s t) :: ts⟩ ⟨μ, .run (k + 1 + s.pointCount) t :: ts⟩
  | loopTrue {μ : Memory} {k : Nat} {g : Guard} {s : Stmt} {ts : List Task}
      (hg : g.Evaluates μ (.value true)) :
      Goes ⟨μ, .run k (.loop g s) :: ts⟩ ⟨μ, .run (k + 1) s :: .run k (.loop g s) :: ts⟩
  | loopFalse {μ : Memory} {k : Nat} {g : Guard} {s : Stmt} {ts : List Task}
      (hg : g.Evaluates μ (.value false)) : Goes ⟨μ, .run k (.loop g s) :: ts⟩ ⟨μ, ts⟩
  | attempt {μ : Memory} {k : Nat} {s h : Stmt} {ts : List Task} :
      Goes ⟨μ, .run k (.attempt s h) :: ts⟩
        ⟨μ, .run (k + 1) s :: .leave (k + 1 + s.pointCount) h :: ts⟩
  | leave {μ : Memory} {k : Nat} {h : Stmt} {ts : List Task} : Goes ⟨μ, .leave k h :: ts⟩ ⟨μ, ts⟩

/-- The statement that starts may raise an exception. -/
def Raises (u : State) : Prop :=
  (∃ p e, u.assigning? = some (p, e) ∧ e.Evaluates u.memory .raised) ∨
    ∃ p g, u.testing? = some (p, g) ∧ g.Evaluates u.memory .raised

/-- What an exception leaves to be done: the statements up to the end of the
innermost try block are abandoned, and its handler runs. -/
def handling? : List Task → Option (List Task)
  | [] => none
  | .run _ _ :: ts => handling? ts
  | .leave k h :: ts => some (.run k h :: ts)

/-- The state after an exception, if a handler is there to catch it. -/
def handled? (u : State) : Option State := (handling? u.tasks).map (⟨u.memory, ·⟩)

end State

/-- An execution of `s` may come to the state `u` after it has raised exceptions in
the states `raised`, all of which were caught. -/
inductive Stmt.Executes (s : Stmt) : State → List State → Prop
  | start : Executes s (.initial s) []
  | go {u v : State} {raised : List State} (hu : Executes s u raised) (h : u.Goes v) :
      Executes s v raised
  | recover {u v : State} {raised : List State} (hu : Executes s u raised) (h : u.Raises)
      (hv : u.handled? = some v) : Executes s v (raised ++ [u])

end SignAnalysis
