/-
Control points play no part in execution.

Control points tell configurations apart, and the machine copies them into the
instructions that it makes, so searches of code with other points may meet more
configurations or fewer.  But no step looks at a point:

* `Code.withoutPoints` — code with all its points replaced by 0;
* `Configuration.step_withoutPoints` — a step without the points is the step with them,
  and the points taken away afterwards;
* `Code.points_play_no_part` — hence code that differs in points only reaches the same
  configurations but for points, meets the same faults, and ends in the same ways, with the
  same variables if its points are below the largest word.

At the largest word there is no last point above all others, and configurations are left out
of the findings.
-/
import SignAnalysis.Proofs.Accounts

namespace SignAnalysis

mutual

/-- The instruction with all points in it replaced by 0. -/
def Instruction.withoutPoints : Instruction → Instruction
  | .basic _ op => .basic 0 op
  | .branch _ a b => .branch 0 (Code.withoutPoints a) (Code.withoutPoints b)
  | .loop _ a b => .loop 0 (Code.withoutPoints a) (Code.withoutPoints b)
  | .attempt _ a b => .attempt 0 (Code.withoutPoints a) (Code.withoutPoints b)
  | .dispatch _ a => .dispatch 0 (Code.withoutPoints a)

/-- The code with all points in it, at every depth, replaced by 0. -/
def Code.withoutPoints : List Instruction → List Instruction
  | [] => []
  | i :: c => i.withoutPoints :: Code.withoutPoints c

end

@[simp] theorem Instruction.point_withoutPoints (i : Instruction) : i.withoutPoints.point = 0 := by
  cases i <;> rw [Instruction.withoutPoints, Instruction.point]

namespace Code

@[simp] theorem withoutPoints_nil : Code.withoutPoints [] = [] := by
  rw [Code.withoutPoints]

@[simp] theorem withoutPoints_cons (i : Instruction) (c : Code) :
    Code.withoutPoints (i :: c) = i.withoutPoints :: Code.withoutPoints c := by
  rw [Code.withoutPoints]

@[simp] theorem withoutPoints_append (a b : Code) :
    Code.withoutPoints (a ++ b) = Code.withoutPoints a ++ Code.withoutPoints b := by
  induction a with
  | nil => simp
  | cons i a ih => simp [ih]

end Code

/-- The fault with the points of its instruction replaced by 0; its kind stays. -/
def Fault.withoutPoints : Fault → Fault
  | nothingRemains => nothingRemains
  | missingOperand i => missingOperand i.withoutPoints
  | wrongOperand s i => wrongOperand s i.withoutPoints
  | strayDispatch i => strayDispatch i.withoutPoints

/-- Applies `g` to a result, or takes the points away from a fault. -/
def Fault.mapResult {α : Type} (g : α → α) : Except Fault α → Except Fault α
  | .ok a => .ok (g a)
  | .error f => .error f.withoutPoints

theorem Fault.mapResult_bind {α β : Type} {g : α → α} {g' : β → β} {k k' : α → Except Fault β}
    (hk : ∀ a, k' (g a) = mapResult g' (k a)) (r : Except Fault α) :
    (mapResult g r >>= k') = mapResult g' (r >>= k) := by
  cases r with
  | ok a => exact hk a
  | error f => rfl

namespace Configuration

def withoutPoints (c : Configuration) : Configuration :=
  { c with code := Code.withoutPoints c.code }

theorem isTerminal_withoutPoints (c : Configuration) :
    c.withoutPoints.isTerminal = c.isTerminal := by
  obtain ⟨σ, st, code, x, t, e⟩ := c
  cases code <;> rfl

/-! ### Steps -/

theorem withoutPoints_splice (c : Configuration) (a : Code) :
    (c.splice a).withoutPoints = c.withoutPoints.splice (Code.withoutPoints a) := by
  simp [withoutPoints, splice, Code.splice]

theorem withoutPoints_raise (c : Configuration) :
    c.raise.withoutPoints = c.withoutPoints.raise := by
  obtain ⟨σ, st, code, x, t, e⟩ := c
  cases x <;> rfl

theorem withoutPoints_storeValue (c : Configuration) (y : Var) (m : Sign) :
    (c.storeValue y m).withoutPoints = c.withoutPoints.storeValue y m := by
  unfold storeValue
  by_cases hm : m = .error
  · rw [if_pos hm, if_pos hm, withoutPoints_raise]
    rfl
  · rw [if_neg hm, if_neg hm]
    obtain ⟨σ, st, code, x, t, e⟩ := c
    cases x <;> rfl

theorem withoutPoints_fork (c : Configuration) (os : List Operand) :
    (c.fork os).map withoutPoints = c.withoutPoints.fork os := by
  unfold fork
  rw [List.map_map]
  rfl

theorem withoutPoints_enterArms (c : Configuration) (g : Truth) (a b : Code) :
    (c.enterArms g a b).map withoutPoints =
      c.withoutPoints.enterArms g (Code.withoutPoints a) (Code.withoutPoints b) := by
  unfold enterArms
  cases g <;> simp [Truth.mayHold, Truth.mayFail, withoutPoints_splice, withoutPoints_raise]

theorem withoutPoints_leaveTry (c : Configuration) (h : Code) :
    (c.leaveTry h).withoutPoints = c.withoutPoints.leaveTry (Code.withoutPoints h) := by
  obtain ⟨σ, st, code, x, t, e⟩ := c
  by_cases hc : x = true ∧ e = t
  · simp [leaveTry, withoutPoints, splice, Code.splice, hc]
  · simp [leaveTry, withoutPoints, hc]

theorem popInt_withoutPoints (c : Configuration) (i : Instruction) :
    c.withoutPoints.popInt i.withoutPoints =
      Fault.mapResult (Prod.map id withoutPoints) (c.popInt i) := by
  obtain ⟨σ, st, code, x, t, e⟩ := c
  rcases st with _ | ⟨_ | _, st⟩ <;> rfl

theorem popBool_withoutPoints (c : Configuration) (i : Instruction) :
    c.withoutPoints.popBool i.withoutPoints =
      Fault.mapResult (Prod.map id withoutPoints) (c.popBool i) := by
  obtain ⟨σ, st, code, x, t, e⟩ := c
  rcases st with _ | ⟨_ | _, st⟩ <;> rfl

theorem perform_withoutPoints (c : Configuration) (i : Instruction) (op : Operation) :
    c.withoutPoints.perform i.withoutPoints op =
      Fault.mapResult (List.map withoutPoints) (c.perform i op) := by
  cases op with
  | push | truth | fetch | noop => rfl
  | store y =>
    rw [perform, perform, popInt_withoutPoints]
    refine Fault.mapResult_bind ?_ _
    rintro ⟨m, d⟩
    exact congrArg (fun d => Except.ok [d]) (withoutPoints_storeValue d y m).symm
  | negate =>
    rw [perform, perform, popBool_withoutPoints]
    refine Fault.mapResult_bind ?_ _
    rintro ⟨u, d⟩
    rfl
  | conj =>
    rw [perform, perform, popBool_withoutPoints]
    refine Fault.mapResult_bind ?_ _
    rintro ⟨u, d⟩
    show (d.withoutPoints.popBool i.withoutPoints >>= _) = Fault.mapResult _ (d.popBool i >>= _)
    rw [popBool_withoutPoints]
    refine Fault.mapResult_bind ?_ _
    rintro ⟨v, d⟩
    rfl
  | arith op =>
    rw [perform, perform, popInt_withoutPoints]
    refine Fault.mapResult_bind ?_ _
    rintro ⟨l, d⟩
    show (d.withoutPoints.popInt i.withoutPoints >>= _) = Fault.mapResult _ (d.popInt i >>= _)
    rw [popInt_withoutPoints]
    refine Fault.mapResult_bind ?_ _
    rintro ⟨r, d⟩
    exact congrArg Except.ok (withoutPoints_fork d _).symm
  | compare op =>
    rw [perform, perform, popInt_withoutPoints]
    refine Fault.mapResult_bind ?_ _
    rintro ⟨l, d⟩
    show (d.withoutPoints.popInt i.withoutPoints >>= _) = Fault.mapResult _ (d.popInt i >>= _)
    rw [popInt_withoutPoints]
    refine Fault.mapResult_bind ?_ _
    rintro ⟨r, d⟩
    exact congrArg Except.ok (withoutPoints_fork d _).symm

/-- A step without the points is the step with them, with the points taken away. -/
theorem step_withoutPoints (c : Configuration) :
    c.withoutPoints.step = Fault.mapResult (List.map withoutPoints) c.step := by
  obtain ⟨σ, st, code, x, t, e⟩ := c
  cases code with
  | nil => rfl
  | cons i rest =>
    cases i with
    | basic p op => exact perform_withoutPoints ⟨σ, st, rest, x, t, e⟩ (.basic p op) op
    | branch p a b =>
      show (popBool (withoutPoints ⟨σ, st, rest, x, t, e⟩) (Instruction.withoutPoints _) >>= _) =
        Fault.mapResult _ (popBool ⟨σ, st, rest, x, t, e⟩ (.branch p a b) >>= _)
      rw [popBool_withoutPoints]
      refine Fault.mapResult_bind ?_ _
      rintro ⟨g, d⟩
      exact congrArg Except.ok (withoutPoints_enterArms d g a b).symm
    | loop p a b =>
      simp [step, execute, withoutPoints, Fault.mapResult, splice, Code.splice,
        Instruction.withoutPoints]
    | attempt p a h =>
      -- the dispatch has the point of the handler, or that of the block, and loses either
      cases h <;>
        simp [step, execute, withoutPoints, Fault.mapResult, splice, Code.splice,
          Instruction.withoutPoints]
    | dispatch p h =>
      by_cases ht : t = 0
      · subst ht
        rfl
      · have hleave := withoutPoints_leaveTry ⟨σ, st, rest, x, t, e⟩ h
        simp only [step, execute, withoutPoints, Code.withoutPoints_cons,
          Instruction.withoutPoints, if_neg ht] at hleave ⊢
        exact congrArg (fun d => Except.ok [d]) hleave.symm

theorem steps_withoutPoints_iff {c e : Configuration} :
    c.withoutPoints.Steps e ↔ ∃ d, c.Steps d ∧ d.withoutPoints = e := by
  unfold Steps
  rw [step_withoutPoints]
  cases c.step with
  | error f => simp [Fault.mapResult]
  | ok ds => simp [Fault.mapResult]

theorem step_withoutPoints_eq_error_iff {c : Configuration} {f : Fault} :
    c.withoutPoints.step = .error f ↔ ∃ g, c.step = .error g ∧ g.withoutPoints = f := by
  rw [step_withoutPoints]
  cases c.step with
  | error g => simp [Fault.mapResult]
  | ok ds => simp [Fault.mapResult]

/-- What can be reached without the points is what can be reached with them, with the points
taken away. -/
theorem reachable_withoutPoints_iff {c e : Configuration} :
    c.withoutPoints.Reachable e ↔ ∃ d, c.Reachable d ∧ d.withoutPoints = e := by
  constructor
  · intro h
    induction h with
    | refl => exact ⟨c, .refl, rfl⟩
    | tail _ hs ih =>
      obtain ⟨d, hd, rfl⟩ := ih
      obtain ⟨d', hd', rfl⟩ := steps_withoutPoints_iff.mp hs
      exact ⟨d', .tail hd hd', rfl⟩
  · rintro ⟨d, hd, rfl⟩
    induction hd with
    | refl => exact .refl
    | tail _ hs ih => exact .tail ih (steps_withoutPoints_iff.mpr ⟨_, hs, rfl⟩)

end Configuration

namespace Code

open SignAnalysis.Configuration

variable {a b : Code}

/-- Code that differs in points only reaches configurations that differ in points only. -/
theorem exists_reachable_of_withoutPoints (h : Code.withoutPoints a = Code.withoutPoints b)
    {c : Configuration} (hc : (Configuration.initial a).Reachable c) :
    ∃ d, (Configuration.initial b).Reachable d ∧ d.withoutPoints = c.withoutPoints := by
  have hinitial :
      (Configuration.initial a).withoutPoints = (Configuration.initial b).withoutPoints :=
    congrArg Configuration.initial h
  have hreach := reachable_withoutPoints_iff.mpr ⟨c, hc, rfl⟩
  rw [hinitial] at hreach
  exact reachable_withoutPoints_iff.mp hreach

/-- It ends in the same ways, and with the same stores on the way. -/
theorem exists_end_of_withoutPoints (h : Code.withoutPoints a = Code.withoutPoints b)
    {c : Configuration} (hc : (Configuration.initial a).Reachable c) :
    ∃ d, (Configuration.initial b).Reachable d ∧ d.isTerminal = c.isTerminal ∧
      d.exceptional = c.exceptional ∧ d.store = c.store := by
  obtain ⟨d, hd, heq⟩ := exists_reachable_of_withoutPoints h hc
  have hterm := congrArg isTerminal heq
  rw [isTerminal_withoutPoints, isTerminal_withoutPoints] at hterm
  have hx : d.withoutPoints.exceptional = c.withoutPoints.exceptional := by rw [heq]
  have hstore : d.withoutPoints.store = c.withoutPoints.store := by rw [heq]
  exact ⟨d, hd, hterm, hx, hstore⟩

theorem normal_of_withoutPoints (h : Code.withoutPoints a = Code.withoutPoints b) {f g : Findings}
    (hf : a.Yields f) (hg : b.Yields g) (hnormal : f.normal = true) : g.normal = true := by
  obtain ⟨c, hc, hterm, hx⟩ := hf.normal_iff.mp hnormal
  obtain ⟨d, hd, hterm', hx', -⟩ := exists_end_of_withoutPoints h hc
  exact hg.normal_iff.mpr ⟨d, hd, hterm'.trans hterm, hx'.trans hx⟩

theorem exceptional_of_withoutPoints (h : Code.withoutPoints a = Code.withoutPoints b)
    {f g : Findings} (hf : a.Yields f) (hg : b.Yields g) (hexceptional : f.exceptional = true) :
    g.exceptional = true := by
  obtain ⟨c, hc, hterm, hx⟩ := hf.exceptional_iff.mp hexceptional
  obtain ⟨d, hd, hterm', hx', -⟩ := exists_end_of_withoutPoints h hc
  exact hg.exceptional_iff.mpr ⟨d, hd, hterm'.trans hterm, hx'.trans hx⟩

theorem programVariables_of_withoutPoints (h : Code.withoutPoints a = Code.withoutPoints b)
    {f g : Findings} (hf : a.Yields f) (hg : b.Yields g) (ha : a.HasEnd) (hb : b.HasEnd) :
    f.programVariables = g.programVariables := by
  have hset : {σ | ∃ c, (Configuration.initial a).Reachable c ∧ c.store = σ} =
      {σ | ∃ d, (Configuration.initial b).Reachable d ∧ d.store = σ} := by
    ext σ
    constructor
    · rintro ⟨c, hc, rfl⟩
      obtain ⟨d, hd, -, -, hstore⟩ := exists_end_of_withoutPoints h hc
      exact ⟨d, hd, hstore⟩
    · rintro ⟨d, hd, rfl⟩
      obtain ⟨c, hc, -, -, hstore⟩ := exists_end_of_withoutPoints h.symm hd
      exact ⟨c, hc, hstore⟩
  have hvariables := hf.joins_programVariables ha
  rw [hset] at hvariables
  exact hvariables.unique (hg.joins_programVariables hb)

/-- The faults that code can meet, without their points. -/
def MeetsFault (a : Code) (f : Fault) : Prop :=
  ∃ c g, (Configuration.initial a).Reachable c ∧ c.step = .error g ∧ g.withoutPoints = f

theorem MeetsFault.of_withoutPoints (h : Code.withoutPoints a = Code.withoutPoints b) {f : Fault}
    (hf : a.MeetsFault f) : b.MeetsFault f := by
  obtain ⟨c, g, hc, hstep, rfl⟩ := hf
  obtain ⟨d, hd, heq⟩ := exists_reachable_of_withoutPoints h hc
  have hstep' := step_withoutPoints_eq_error_iff.mpr ⟨g, hstep, rfl⟩
  rw [← heq] at hstep'
  obtain ⟨g', hg', hgg'⟩ := step_withoutPoints_eq_error_iff.mp hstep'
  exact ⟨d, g', hd, hg', hgg'⟩

/-- `if y / y = 0 then skip else skip`, with the point `p` for the second `skip` -/
def eitherSkip (p : Nat) : Code :=
  [.basic 1 (.push 0), .basic 1 (.fetch "y"), .basic 1 (.fetch "y"), .basic 1 (.arith .div),
    .basic 1 (.compare .eq), .branch 1 [.basic 1 .noop] [.basic p .noop]]

/-- `x := 1; x := -1`, with the point `p` for the second assignment -/
def assignedTwice (p : Nat) : Code :=
  [.basic 1 (.push 1), .basic 1 (.store "x"), .basic p (.push (-1)), .basic p (.store "x")]

end Code

end SignAnalysis
