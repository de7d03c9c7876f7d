/-
Findings account for executions.

An execution of a program is followed by moments of the abstract machine whose
stores describe its memory.  What the machine comes to is in the findings, so the
findings say of every moment of the execution that it may happen:

* `Findings.AccountsFor` — what it means for the findings to allow for a state;
* `State.Goes.simulated` — a step without an exception is a step of the machine;
* `Findings.accountsFor_of_reaches` — states that are described by moments of the
  machine are accounted for;
* `Stmt.sound_before_first_exception` — so are all states of an execution up to
  its first exception.
-/
import SignAnalysis.Proofs.Accounts
import SignAnalysis.Proofs.Finiteness
import SignAnalysis.Proofs.Moments

namespace SignAnalysis

/-- The signs of the variables fit their values; those without a value are
uninitialised. -/
def Store.Describes (σ : Store) (μ : Memory) : Prop :=
  ∀ y, (σ.get y).Describes (.value (μ y))

/-- The summary says that an assigned expression may come to this. -/
def Summary.AllowsValue (s : Summary Sign) : Result (Option Int) → Prop
  | .value (some n) => s.value.Covers n
  | .value none => True
  | .raised => s.raises = true

/-- The summary says that a guard may come to this. -/
def Summary.AllowsTruth (s : Summary Truth) : Result Bool → Prop
  | .value b => s.value.Covers b
  | .raised => s.raises = true

/-- The findings allow for a state of an execution. -/
structure Findings.AccountsFor (f : Findings) (u : State) : Prop where
  /-- The statement that starts finds the variables as the findings have them. -/
  start : ∀ p, u.starting? = some p →
    ∃ σ, f.store? p = some σ ∧ ∀ y n, u.memory y = some n → σ.Claims y n
  /-- A right-hand side comes to what the findings have for it. -/
  assignment : ∀ p e o, u.assigning? = some (p, e) → e.Evaluates u.memory o →
    ∃ s, f.rightHandSide? p = some s ∧ s.AllowsValue o
  /-- A guard comes to what the findings have for it. -/
  guard : ∀ p g o, u.testing? = some (p, g) → g.Evaluates u.memory o →
    ∃ s, f.guard? p = some s ∧ s.AllowsTruth o
  /-- The program ends, and the variables are as the findings have them in the end. -/
  finish : u.tasks = [] → f.normal = true ∧
    ∃ σ, f.store? f.lastPoint = some σ ∧ ∀ y n, u.memory y = some n → σ.Claims y n

/-! ### Control points -/

theorem Code.head?_append_point {a : Code} (hne : a ≠ []) {p : Nat} (ha : ∀ i ∈ a, i.point = p)
    (rest : Code) : (a ++ rest).head?.map (·.point) = some p := by
  cases a with
  | nil => exact absurd rfl hne
  | cons i a => exact congrArg some (ha i (List.mem_cons_self ..))

/-- A moment counts for the point of the statement that starts. -/
theorem Moment.point?_configuration {σ : Store} {u : State} {x : Bool} {d p : Nat}
    (h : u.starting? = some p) : (configuration ⟨σ, u.tasks, x, d⟩).point? = some p := by
  obtain ⟨μ, ts⟩ := u
  cases ts with
  | nil => cases h
  | cons task ts =>
    cases task with
    | leave k s => cases h
    | run k s =>
      cases s with
      | skip => cases h
      | seq s t => cases h
      | loop g s => exact h
      | attempt s t => exact h
      | assign y e =>
        cases h
        refine Code.head?_append_point (Stmt.code_ne_nil k (.assign y e)) ?_ _
        intro i hi
        rcases List.mem_append.mp hi with hi | hi
        · exact Expr.point_of_mem_code hi
        · exact (List.mem_singleton.mp hi) ▸ rfl
      | cond g s t =>
        cases h
        refine Code.head?_append_point (Stmt.code_ne_nil k (.cond g s t)) ?_ _
        intro i hi
        rcases List.mem_append.mp hi with hi | hi
        · exact Guard.point_of_mem_code hi
        · exact (List.mem_singleton.mp hi) ▸ rfl

/-! ### Simulation -/

theorem Truth.mayHold_of_covers {m : Truth} (h : m.Covers true) : m.mayHold = true := by
  cases m with
  | yes | any => rfl
  | no => cases h
  | uninitialized | error => exact h.elim

theorem Truth.mayFail_of_covers {m : Truth} (h : m.Covers false) : m.mayFail = true := by
  cases m with
  | no | any => rfl
  | yes => cases h
  | uninitialized | error => exact h.elim

theorem Store.describes_empty : Store.empty.Describes fun _ => none := fun _ => rfl

theorem Store.Describes.insert {σ : Store} {μ : Memory} (h : σ.Describes μ) {y : Var} {m : Sign}
    {a : Option Int} (hm : m.Describes (.value a)) :
    (σ.insert y m).Describes fun z => if z = y then a else μ z := by
  intro z
  show (Store.get _ z).Describes (.value (if z = y then a else μ z))
  rw [get_insert]
  by_cases hz : z = y
  · rw [if_pos hz, if_pos hz]
    exact hm
  · rw [if_neg hz, if_neg hz]
    exact h z

/-- A step of an execution without an exception is followed by the machine. -/
theorem State.Goes.simulated {u v : State} (h : u.Goes v) {σ : Store}
    (hσ : σ.Describes u.memory) :
    ∃ τ : Store, τ.Describes v.memory ∧
      Moment.Goes ⟨σ, u.tasks, false, 0⟩ ⟨τ, v.tasks, false, 0⟩ := by
  cases h with
  | assign he =>
    obtain ⟨m, hm, hdescribes⟩ := Expr.exists_outcome hσ he
    exact ⟨_, hσ.insert hdescribes, .assign hm (Sign.ne_error_of_describes hdescribes)⟩
  | skip => exact ⟨σ, hσ, .skip⟩
  | seq => exact ⟨σ, hσ, .seq⟩
  | condTrue hg =>
    obtain ⟨m, hm, hcovers⟩ := Guard.exists_outcome hσ hg
    exact ⟨σ, hσ, .condTrue hm (Truth.mayHold_of_covers hcovers)⟩
  | condFalse hg =>
    obtain ⟨m, hm, hcovers⟩ := Guard.exists_outcome hσ hg
    exact ⟨σ, hσ, .condFalse hm (Truth.mayFail_of_covers hcovers)⟩
  | loopTrue hg =>
    obtain ⟨m, hm, hcovers⟩ := Guard.exists_outcome hσ hg
    exact ⟨σ, hσ, .loopTrue hm (Truth.mayHold_of_covers hcovers)⟩
  | loopFalse hg =>
    obtain ⟨m, hm, hcovers⟩ := Guard.exists_outcome hσ hg
    exact ⟨σ, hσ, .loopFalse hm (Truth.mayFail_of_covers hcovers)⟩
  | attempt => exact ⟨σ, hσ, .attempt⟩
  | leave => exact ⟨σ, hσ, .leave fun hx => absurd hx Bool.false_ne_true⟩

/-! ### Soundness -/

/-- The outcome of a right-hand side is about to be stored at some time. -/
theorem Moment.exists_storing {σ : Store} {u : State} {x : Bool} {d p : Nat} {e : Expr} {m : Sign}
    (h : u.assigning? = some (p, e)) (hm : m ∈ e.outcomes σ.get) :
    ∃ c, (configuration ⟨σ, u.tasks, x, d⟩).Reachable c ∧ c.point? = some p ∧
      c.storing? = some m := by
  obtain ⟨k, y, ts, htasks, rfl⟩ := State.assigning?_eq_some h
  rw [htasks]
  exact ⟨_, reachable_store hm, rfl, rfl⟩

/-- The outcome of a guard is about to be tested at some time. -/
theorem Moment.exists_testing {σ : Store} {u : State} {x : Bool} {d p : Nat} {g : Guard} {m : Truth}
    (h : u.testing? = some (p, g)) (hm : m ∈ g.outcomes σ.get) :
    ∃ c, (configuration ⟨σ, u.tasks, x, d⟩).Reachable c ∧ c.point? = some p ∧
      c.testing? = some m := by
  obtain ⟨k, ts, rfl, ⟨s, t, htasks⟩ | ⟨s, htasks⟩⟩ := State.testing?_eq_some h
  · rw [htasks]
    exact ⟨_, reachable_cond hm, rfl, rfl⟩
  · rw [htasks]
    exact ⟨_, reachable_loop hm, rfl, rfl⟩

/-- A state that is described by a moment of the machine is accounted for. -/
theorem Findings.accountsFor_of_reachable {code : Code} {f : Findings} (hf : code.Yields f)
    (hend : code.HasEnd) {σ : Store} {u : State} (hσ : σ.Describes u.memory)
    (h : (Configuration.initial code).Reachable (Moment.configuration ⟨σ, u.tasks, false, 0⟩)) :
    f.AccountsFor u := by
  have hclaims : ∀ y n, u.memory y = some n → σ.Claims y n := by
    intro y n hy
    have hcovers := hσ y
    rw [hy] at hcovers
    exact Store.claims_iff.mpr hcovers
  have hhere := hf.includes hend h
  constructor
  · intro p hp
    obtain ⟨τ, hτ, hle⟩ := hhere.store
    rw [Configuration.pointOr, Moment.point?_configuration hp] at hτ
    exact ⟨τ, hτ, fun y n hy => hle y n (hclaims y n hy)⟩
  · intro p e o hassign he
    -- one of the outcomes describes the result, and the machine comes to store it
    obtain ⟨m, hm, hdescribes⟩ := Expr.exists_outcome hσ he
    obtain ⟨c, hc, hp, hstoring⟩ := Moment.exists_storing hassign hm
    obtain ⟨s, hs, hraises, hvalue⟩ := (hf.includes hend (h.trans hc)).storing m hstoring
    rw [Configuration.pointOr, hp] at hs
    refine ⟨s, hs, ?_⟩
    cases o with
    | raised => exact hraises hdescribes
    | value a =>
      -- nothing is said of an undefined value that is copied
      cases a with
      | none => trivial
      | some n => exact hvalue n hdescribes
  · intro p g o htest hg
    obtain ⟨m, hm, hdescribes⟩ := Guard.exists_outcome hσ hg
    obtain ⟨c, hc, hp, htesting⟩ := Moment.exists_testing htest hm
    obtain ⟨s, hs, hraises, hvalue⟩ := (hf.includes hend (h.trans hc)).testing m htesting
    rw [Configuration.pointOr, hp] at hs
    refine ⟨s, hs, ?_⟩
    cases o with
    | raised => exact hraises hdescribes
    | value b => exact hvalue b hdescribes
  · intro htasks
    rw [htasks] at hhere
    obtain ⟨τ, hτ, hle⟩ := hhere.store
    exact ⟨hhere.normal rfl rfl, τ, hτ, fun y n hy => hle y n (hclaims y n hy)⟩

namespace Stmt

/-- An execution is followed by the machine if, after every exception that is caught,
the machine comes to a moment that describes where the handler begins. -/
theorem exists_reachable_of_executes {s : Stmt} {u : State} {raised : List State}
    (h : s.Executes u raised)
    (hraised : ∀ r ∈ raised, r.Raises → ∀ v, r.handled? = some v →
      ∃ σ : Store, σ.Describes v.memory ∧
        (Configuration.initial s.compile.code).Reachable
          (Moment.configuration ⟨σ, v.tasks, false, 0⟩)) :
    ∃ σ : Store, σ.Describes u.memory ∧
      (Configuration.initial s.compile.code).Reachable
        (Moment.configuration ⟨σ, u.tasks, false, 0⟩) := by
  induction h with
  | start =>
    refine ⟨.empty, Store.describes_empty, ?_⟩
    rw [← Moment.configuration_initial]
    exact .refl
  | go _ hgoes ih =>
    obtain ⟨σ, hσ, hreach⟩ := ih hraised
    obtain ⟨τ, hτ, hstep⟩ := hgoes.simulated hσ
    exact ⟨τ, hτ, hreach.trans hstep.reachable⟩
  | @recover r v _ _ hraises hv _ =>
    exact hraised r (List.mem_append_right _ (List.mem_singleton_self r)) hraises v hv

theorem exists_yields (s : Stmt) : ∃ f, s.compile.code.Yields f := by
  obtain ⟨n, hn⟩ := s.exists_run_finished
  obtain ⟨t, ht⟩ := hn n (Nat.le_refl n)
  exact ⟨_, Code.yields_of_run_eq ht⟩

/-- **Soundness before the first exception.**  The analysis of a program without a limit
has findings, and these account for every state that an execution comes to before it
has raised an exception, the one in which it raises included. -/
theorem sound_before_first_exception (s : Stmt) :
    (∃ f, s.compile.code.Yields f) ∧
      ∀ f, s.compile.code.Yields f → ∀ u, s.Executes u [] → f.AccountsFor u := by
  refine ⟨s.exists_yields, ?_⟩
  intro f hf u hu
  obtain ⟨σ, hσ, hreach⟩ := exists_reachable_of_executes hu fun r hr => absurd hr List.not_mem_nil
  exact Findings.accountsFor_of_reachable hf s.hasEnd hσ hreach

/-- `x := 10; try y := 1 / (x - 10) catch y := 0` -/
def guardedDivision : Stmt :=
  .seq (.assign "x" (.num 10))
    (.attempt (.assign "y" (.binary .div (.num 1) (.binary .sub (.var "x") (.num 10))))
      (.assign "y" (.num 0)))

/-- The state in which the division is about to raise is accounted for. -/
theorem sound_at_guardedDivision :
    ∃ f u, guardedDivision.compile.code.Yields f ∧ guardedDivision.Executes u [] ∧ u.Raises ∧
      f.AccountsFor u := by
  obtain ⟨⟨f, hf⟩, hsound⟩ := sound_before_first_exception guardedDivision
  have hu : guardedDivision.Executes ⟨fun z => if z = "x" then some 10 else none,
      [.run 2 (.assign "y" (.binary .div (.num 1) (.binary .sub (.var "x") (.num 10)))),
        .leave 3 (.assign "y" (.num 0))]⟩ [] :=
    .go (.go (.go .start .seq) (.assign .num)) .attempt
  refine ⟨f, _, hf, hu, ?_, hsound f hf _ hu⟩
  refine .inl ⟨3, _, rfl, ?_⟩
  refine .binary .num (.binary .var .num (.values ⟨10, 10, rfl, rfl, .sub⟩)) ?_
  exact .values ⟨1, 0, rfl, rfl, .divZero⟩

end Stmt

end SignAnalysis
