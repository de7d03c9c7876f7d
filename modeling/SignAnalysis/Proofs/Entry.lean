/-
Which statements a run comes to.

The tasks of a moment are statements of the program that a run has entered: an arm only
after its guard was tested and allowed it, and everything else with the statement around
it.  The instruction of a statement is executed only within that statement:

* `Stmt.Enters` — a statement in its place in the program that runs can come to;
* `Moment.entered_of_reaches` — the tasks of every moment that is reached are such;
* `Stmt.exists_enters` — so is the statement of the next instruction, if it stands for one;
* `Stmt.exists_of_store`, `Stmt.exists_of_branch` — what a store or a conditional that is
  about to be executed finds on the stack.
-/
import SignAnalysis.Proofs.Aggregation
import SignAnalysis.Proofs.BigStep
import SignAnalysis.Proofs.Moments
import SignAnalysis.Proofs.Points

namespace SignAnalysis

/-! ### Statements that are entered -/

/-- A guard with this marker can have the value `b`. -/
def Truth.MayBe (m : Truth) (b : Bool) : Prop := m = .ofBool b ∨ m = .any

instance (m : Truth) (b : Bool) : Decidable (m.MayBe b) := inferInstanceAs (Decidable (_ ∨ _))

namespace Stmt

/-- Some guard that is tested at the point `p` may be `b`. -/
def Chooses (s : Stmt) (p : Nat) (b : Bool) : Prop :=
  ∃ c g, (Configuration.initial s.compile.code).Reachable c ∧ c.Tests p g ∧ g.MayBe b

/-- Runs of a program can come to a statement in front of which `k` points are taken. -/
inductive Enters (s : Stmt) : Nat → Stmt → Prop
  | program : Enters s 0 s
  | first {k : Nat} {a b : Stmt} (h : Enters s k (.seq a b)) : Enters s k a
  | second {k : Nat} {a b : Stmt} (h : Enters s k (.seq a b)) : Enters s (k + a.pointCount) b
  | yes {k : Nat} {g : Guard} {a b : Stmt} (h : Enters s k (.cond g a b))
      (hg : s.Chooses (k + 1) true) : Enters s (k + 1) a
  | no {k : Nat} {g : Guard} {a b : Stmt} (h : Enters s k (.cond g a b))
      (hg : s.Chooses (k + 1) false) : Enters s (k + 1 + a.pointCount) b
  | body {k : Nat} {g : Guard} {a : Stmt} (h : Enters s k (.loop g a))
      (hg : s.Chooses (k + 1) true) : Enters s (k + 1) a
  | block {k : Nat} {a b : Stmt} (h : Enters s k (.attempt a b)) : Enters s (k + 1) a
  | handler {k : Nat} {a b : Stmt} (h : Enters s k (.attempt a b)) :
      Enters s (k + 1 + a.pointCount) b

variable {s t : Stmt} {k : Nat}

/-- A statement that is entered has the points that it has in the program. -/
theorem Enters.numbered_subset (h : s.Enters k t) : t.numbered k ⊆ s.numbered 0 := by
  induction h with
  | program => exact List.Subset.refl _
  | first _ ih =>
    rw [numbered_seq] at ih
    exact (List.append_subset.mp ih).1
  | second _ ih =>
    rw [numbered_seq] at ih
    exact (List.append_subset.mp ih).2
  | yes _ _ ih =>
    rw [numbered_cond] at ih
    exact (List.append_subset.mp (List.cons_subset.mp ih).2).1
  | no _ _ ih =>
    rw [numbered_cond] at ih
    exact (List.append_subset.mp (List.cons_subset.mp ih).2).2
  | body _ _ ih =>
    rw [numbered_loop] at ih
    exact (List.cons_subset.mp ih).2
  | block _ ih =>
    rw [numbered_attempt] at ih
    exact (List.append_subset.mp (List.cons_subset.mp ih).2).1
  | handler _ ih =>
    rw [numbered_attempt] at ih
    exact (List.append_subset.mp (List.cons_subset.mp ih).2).2

theorem mem_numbered_self (k : Nat) {t : Stmt} (ht : t.hasPoint = true) :
    (t, k + 1) ∈ t.numbered k := by
  cases t with
  | skip | seq => cases ht
  | assign x e => exact List.mem_singleton_self _
  | cond g a b =>
    rw [numbered_cond]
    exact List.mem_cons_self ..
  | loop g a =>
    rw [numbered_loop]
    exact List.mem_cons_self ..
  | attempt a b =>
    rw [numbered_attempt]
    exact List.mem_cons_self ..

theorem Enters.statementAt?_eq (h : s.Enters k t) (ht : t.hasPoint = true) :
    s.statementAt? (k + 1) = some t :=
  mem_numbered_iff.mp (h.numbered_subset (mem_numbered_self k ht))

end Stmt

/-! ### The tasks of a run -/

/-- The statement of a task, in its place, is one that runs come to. -/
def Task.Entered (s : Stmt) : Task → Prop
  | run k t | leave k t => s.Enters k t

namespace Moment

variable {s : Stmt} {m m' : Moment}

theorem tasks_raise (m : Moment) : m.raise.tasks = m.tasks := by
  unfold raise
  split <;> rfl

/-- A step from moment to moment enters what `Stmt.Enters` allows: if it takes an arm, the
guard has been tested and allows the arm. -/
theorem Goes.entered (hm : (initial s).Reaches m) (h : m.Goes m')
    (hts : ∀ task ∈ m.tasks, task.Entered s) : ∀ task ∈ m'.tasks, task.Entered s := by
  have hreach := hm.reachable
  rw [configuration_initial] at hreach
  cases h with
  | assign | ignoreAssign | skip | loopFalse | leave => exact (List.forall_mem_cons.mp hts).2
  | failAssign | failCond | failLoop =>
    rw [tasks_raise]
    exact (List.forall_mem_cons.mp hts).2
  | seq =>
    obtain ⟨hseq, hts⟩ := List.forall_mem_cons.mp hts
    exact List.forall_mem_cons.mpr ⟨.first hseq, List.forall_mem_cons.mpr ⟨.second hseq, hts⟩⟩
  | @condTrue σ k d g a b ts x v hv hhold =>
    obtain ⟨hcond, hts⟩ := List.forall_mem_cons.mp hts
    have hchooses : s.Chooses (k + 1) true :=
      ⟨_, v, hreach.trans (reachable_cond hv), ⟨_, _, _, _, rfl, rfl⟩, Truth.mayHold_iff.mp hhold⟩
    exact List.forall_mem_cons.mpr ⟨.yes hcond hchooses, hts⟩
  | @condFalse σ k d g a b ts x v hv hfail =>
    obtain ⟨hcond, hts⟩ := List.forall_mem_cons.mp hts
    have hchooses : s.Chooses (k + 1) false :=
      ⟨_, v, hreach.trans (reachable_cond hv), ⟨_, _, _, _, rfl, rfl⟩, Truth.mayFail_iff.mp hfail⟩
    exact List.forall_mem_cons.mpr ⟨.no hcond hchooses, hts⟩
  | @loopTrue σ k d g a ts x v hv hhold =>
    obtain ⟨hloop, -⟩ := List.forall_mem_cons.mp hts
    have hchooses : s.Chooses (k + 1) true :=
      ⟨_, v, hreach.trans (reachable_loop hv), ⟨_, _, _, _, rfl, rfl⟩, Truth.mayHold_iff.mp hhold⟩
    exact List.forall_mem_cons.mpr ⟨.body hloop hchooses, hts⟩
  | attempt =>
    obtain ⟨htry, hts⟩ := List.forall_mem_cons.mp hts
    exact List.forall_mem_cons.mpr ⟨.block htry, List.forall_mem_cons.mpr ⟨.handler htry, hts⟩⟩
  | handle =>
    obtain ⟨hhandler, hts⟩ := List.forall_mem_cons.mp hts
    exact List.forall_mem_cons.mpr ⟨hhandler, hts⟩

theorem entered_of_reaches (h : (initial s).Reaches m) : ∀ task ∈ m.tasks, task.Entered s := by
  induction h with
  | refl => exact List.forall_mem_singleton.mpr .program
  | tail hreach hgoes ih => exact hgoes.entered hreach ih

/-- The instruction that stands for a statement is executed within that statement. -/
theorem Within.exists_run {c : Configuration} (h : m.Within c) {i : Instruction} {rest : Code}
    (hcode : c.code = i :: rest) (hi : i.isMark = true) :
    ∃ k t ts, m.tasks = .run k t :: ts ∧ t.hasPoint = true ∧ i.point = k + 1 := by
  cases h with
  | evaluate hpure =>
    cases hcode
    rw [Instruction.isMark_of_isPure hpure] at hi
    cases hi
  | store | test | unroll | testLoop | attempt =>
    cases hcode
    exact ⟨_, _, _, rfl, rfl, rfl⟩
  | leave =>
    cases hcode
    cases hi

end Moment

/-! ### The next instruction -/

namespace Stmt

variable {s : Stmt} {c : Configuration} {rest : Code} {p : Nat}

/-- The statement of the next instruction has been entered. -/
theorem exists_enters (hc : (Configuration.initial s.compile.code).Reachable c) {i : Instruction}
    (hcode : c.code = i :: rest) (hi : i.isMark = true) :
    ∃ m k t ts, Moment.Within m c ∧ m.tasks = .run k t :: ts ∧ s.Enters k t ∧
      t.hasPoint = true ∧ i.point = k + 1 := by
  rw [← Moment.configuration_initial] at hc
  obtain ⟨m, hreach, hin | ⟨hnil, rfl⟩⟩ := Moment.exists_reaches hc
  · obtain ⟨k, t, ts, htasks, ht, hp⟩ := hin.exists_run hcode hi
    have hentered : s.Enters k t :=
      Moment.entered_of_reaches hreach (.run k t) (htasks ▸ List.mem_cons_self ..)
    exact ⟨m, k, t, ts, hin, htasks, hentered, ht, hp⟩
  · rw [Moment.configuration, hnil] at hcode
    cases hcode

/-- A store finds one of the outcomes of its right-hand side on the stack. -/
theorem exists_of_store (hc : (Configuration.initial s.compile.code).Reachable c) {y : Var}
    (hcode : c.code = .basic p (.store y) :: rest) :
    ∃ e v, s.statementAt? p = some (assign y e) ∧ v ∈ e.outcomes c.store.get ∧
      c.stack = [.int v] := by
  obtain ⟨m, k, t, ts, hin, htasks, hentered, ht, hp⟩ := exists_enters hc hcode rfl
  have hstatement := hentered.statementAt?_eq ht
  cases hin with
  | evaluate hpure =>
    cases hcode
    cases hpure
  | store hv =>
    cases hcode
    cases htasks
    exact ⟨_, _, hstatement, hv, rfl⟩
  | test | unroll | testLoop | attempt | leave => cases hcode

/-- A conditional that is about to be executed finds a truth value on the stack.  It is that
of a conditional of the program, or that of a loop, with the loop itself behind the body. -/
theorem exists_of_branch (hc : (Configuration.initial s.compile.code).Reachable c) {yes no : Code}
    (hcode : c.code = .branch p yes no :: rest) :
    (∃ v, c.stack = [.bool v]) ∧
      ((∃ g t u, s.statementAt? p = some (cond g t u) ∧ yes = t.code p ∧
          no = u.code (p + t.pointCount)) ∨
        ∃ g t, s.statementAt? p = some (loop g t) ∧ yes = t.code p ++ [(loop g t).mark p] ∧
          no = [.basic p .noop]) := by
  obtain ⟨m, k, t, ts, hin, htasks, hentered, ht, hp⟩ := exists_enters hc hcode rfl
  have hstatement := hentered.statementAt?_eq ht
  cases hin with
  | evaluate hpure =>
    cases hcode
    cases hpure
  | test =>
    cases hcode
    cases htasks
    exact ⟨⟨_, rfl⟩, .inl ⟨_, _, _, hstatement, rfl, rfl⟩⟩
  | testLoop =>
    cases hcode
    cases htasks
    exact ⟨⟨_, rfl⟩, .inr ⟨_, _, hstatement, rfl, rfl⟩⟩
  | store | unroll | attempt | leave => cases hcode

end Stmt

end SignAnalysis
