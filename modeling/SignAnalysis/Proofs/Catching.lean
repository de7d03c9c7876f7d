/-
Which dispatch catches an exception.

With an exception pending, the machine goes on executing: it enters and leaves try
blocks, unrolls loops and may fail again.  All this happens in front of the dispatch
of the block in which the exception was raised, and only the two depths tell that
dispatch from the others:

* `Move.of_exceptional` — what a step with a pending exception can do;
* `Configuration.Awaits` — the exception is to be caught by a given dispatch, which
  each step keeps unless it executes that dispatch (`Awaits.move`);
* `Configuration.Uncaught` — the exception was raised outside of every try block,
  which each step keeps (`Uncaught.move`);
* `Code.caught_by_innermost_dispatch` — an exception is caught by the innermost
  dispatch around the place where it was raised, and by no other.
-/
import SignAnalysis.Proofs.TryDepth

namespace SignAnalysis

theorem Code.dispatches_append_dispatch (pre : Code) (p : Nat) (handler post : Code) :
    Code.dispatches (pre ++ .dispatch p handler :: post) =
      pre.dispatches + post.dispatches + 1 := by
  rw [Code.dispatches_append, Code.dispatches_dispatch, Nat.add_assoc]

namespace Configuration

/-! ### Steps with a pending exception -/

/-- With an exception pending, a step either replaces the next instruction by other code
and leaves the exception as it is, or it executes the dispatch at whose depth the
exception was raised, and that catches it. -/
theorem Move.of_exceptional {c d : Configuration} (h : Move c d) (hx : c.exceptional = true) :
    (∃ i rest a, c.code = i :: rest ∧ d.code = a ++ rest ∧ d.exceptional = true ∧
      d.exceptionDepth = c.exceptionDepth ∧
      (i.isDispatch = true → c.exceptionDepth ≠ c.tryDepth)) ∨
    ∃ p handler rest, c.code = .dispatch p handler :: rest ∧ c.exceptionDepth = c.tryDepth ∧
      d.exceptional = false ∧ d.code = handler ++ rest := by
  cases h with
  | assign | failStore | failGuard => cases hx
  | push | truth | fetch | noop | negate | conj | arith | compare | ignoreStore | ignoreGuard =>
    exact .inl ⟨_, _, [], rfl, rfl, hx, rfl, fun hi => absurd hi Bool.false_ne_true⟩
  | hold | refuse =>
    exact .inl ⟨_, _, _, rfl, rfl, hx, rfl, fun hi => absurd hi Bool.false_ne_true⟩
  | unroll | attempt =>
    exact .inl ⟨_, _, _, rfl, List.append_cons .., hx, rfl, fun hi => absurd hi Bool.false_ne_true⟩
  | handle => exact .inr ⟨_, _, _, rfl, rfl, rfl, rfl⟩
  | leave hne => exact .inl ⟨_, _, [], rfl, rfl, hx, rfl, fun _ => hne hx⟩

/-- An exception is raised at the depth of the blocks that are open. -/
theorem Move.exceptionDepth_of_raise {c d : Configuration} (h : Move c d)
    (hx : c.exceptional = false) (hx' : d.exceptional = true) : d.exceptionDepth = d.tryDepth := by
  cases h with
  | failStore | failGuard => rfl
  | assign | handle => cases hx'
  | ignoreStore | ignoreGuard => cases hx
  | push | truth | fetch | noop | negate | conj | arith | compare | hold | refuse | unroll
  | attempt | leave => exact absurd (hx.symm.trans hx') Bool.false_ne_true

/-- The configurations that steps may come to while the exception stays pending. -/
inductive Pends (c : Configuration) : Configuration → Prop
  | refl : Pends c c
  | tail {d e : Configuration} : Pends c d → d.Steps e → e.exceptional = true → Pends c e

/-! ### The dispatch that catches -/

/-- A pending exception was raised in the innermost of the blocks that end with the code
`.dispatch p handler :: post`. -/
structure Awaits (p : Nat) (handler post : Code) (c : Configuration) : Prop where
  nested : c.Nested
  exceptional : c.exceptional = true
  depth : c.exceptionDepth = post.dispatches + 1
  code : ∃ pre, c.code = pre ++ .dispatch p handler :: post

/-- A step either leaves the exception to the same dispatch, or executes that dispatch. -/
theorem Awaits.move {p : Nat} {handler post : Code} {c d : Configuration}
    (hc : Awaits p handler post c) (h : Move c d) :
    (Awaits p handler post d ∧ c.code ≠ .dispatch p handler :: post) ∨
      c.code = .dispatch p handler :: post ∧ d.exceptional = false ∧ d.code = handler ++ post := by
  obtain ⟨pre, hpre⟩ := hc.code
  -- the dispatches in front of the awaited one make up the difference of the depths
  have htry : c.tryDepth = Code.dispatches pre + post.dispatches + 1 := by
    rw [hc.nested.tryDepth, hpre, Code.dispatches_append_dispatch]
  have hdepth := hc.depth
  rcases h.of_exceptional hc.exceptional with ⟨i, rest, a, hcode, hd, hx, he, hne⟩ |
    ⟨q, handler', rest, hcode, heq, hx, hd⟩
  · cases pre with
    | nil =>
      rw [hcode, List.nil_append, List.cons.injEq] at hpre
      refine absurd ?_ (hne (by rw [hpre.1]; rfl))
      rw [hdepth, htry]
      exact congrArg (· + 1) (Nat.zero_add _).symm
    | cons j pre =>
      rw [hcode, List.cons_append, List.cons.injEq] at hpre
      refine .inl ⟨⟨h.nested hc.nested, hx, he.trans hdepth, a ++ pre, ?_⟩, ?_⟩
      · rw [hd, hpre.2, List.append_assoc]
      · intro hfirst
        rw [hcode, List.cons.injEq, hpre.2] at hfirst
        have hlength := congrArg List.length hfirst.2
        rw [List.length_append, List.length_cons] at hlength
        omega
  · cases pre with
    | nil =>
      rw [hcode, List.nil_append, List.cons.injEq, Instruction.dispatch.injEq] at hpre
      obtain ⟨⟨rfl, rfl⟩, rfl⟩ := hpre
      exact .inr ⟨hcode, hx, hd⟩
    | cons j pre =>
      -- a dispatch further in belongs to a block that was entered later
      rw [hcode, List.cons_append, List.cons.injEq] at hpre
      rw [← hpre.1, Code.dispatches_dispatch] at htry
      omega

theorem Awaits.of_pends {p : Nat} {handler post : Code} {c d : Configuration}
    (hc : Awaits p handler post c) (h : c.Pends d) : Awaits p handler post d := by
  induction h with
  | refl => exact hc
  | tail _ hs hx ih =>
    rcases ih.move hs.move with ⟨hd, -⟩ | ⟨-, hx', -⟩
    · exact hd
    · exact absurd (hx'.symm.trans hx) Bool.false_ne_true

/-- The step at the awaited dispatch, which is the only one there, catches the exception. -/
theorem Awaits.step_eq {p : Nat} {handler post : Code} {c : Configuration}
    (hc : Awaits p handler post c) (hcode : c.code = .dispatch p handler :: post) :
    c.step = .ok [⟨c.store, c.stack, handler ++ post, false, post.dispatches, 0⟩] := by
  have htry : c.tryDepth = post.dispatches + 1 := by
    rw [hc.nested.tryDepth, hcode, Code.dispatches_dispatch]
  have hdepth := hc.depth
  have hx := hc.exceptional
  obtain ⟨σ, st, code, x, t, e⟩ := c
  cases hcode
  cases hx
  cases htry
  cases hdepth
  simp [step, execute, leaveTry, splice, Code.splice]

theorem Awaits.exists_steps {p : Nat} {handler post : Code} {c : Configuration}
    (hc : Awaits p handler post c) (hcode : c.code = .dispatch p handler :: post) :
    ∃ d, c.Steps d :=
  ⟨_, _, hc.step_eq hcode, List.mem_singleton_self _⟩

/-! ### Exceptions that nothing catches -/

/-- A pending exception was raised outside of every try block. -/
structure Uncaught (c : Configuration) : Prop where
  nested : c.Nested
  exceptional : c.exceptional = true
  depth : c.exceptionDepth = 0

theorem Uncaught.move {c d : Configuration} (hc : c.Uncaught) (h : Move c d) : d.Uncaught := by
  rcases h.of_exceptional hc.exceptional with ⟨i, rest, a, -, -, hx, he, -⟩ |
    ⟨p, handler, rest, hcode, heq, -, -⟩
  · exact ⟨h.nested hc.nested, hx, he.trans hc.depth⟩
  · exact absurd (heq.symm.trans hc.depth) (hc.nested.tryDepth_ne_zero hcode)

end Configuration

namespace Code

open SignAnalysis.Configuration

/-- **An exception is caught by the innermost dispatch.**  Let a step of code that holds no
dispatch at the start raise an exception.

* If the code that remains then has a dispatch, the first one stays where it is, in front of
  the same code, as long as the exception is pending.  The machine can execute it, and the
  step that does goes on with its handler and has no exception pending; no other step ends
  the exception.
* If it has no dispatch, the exception stays pending for ever, and so in the end as well. -/
theorem caught_by_innermost_dispatch {code : Code} (hfree : Code.dispatchFree code = true)
    {c c' : Configuration} (hc : (Configuration.initial code).Reachable c) (hstep : c.Steps c')
    (hx : c.exceptional = false) (hx' : c'.exceptional = true) :
    (∀ (pre : Code) p handler post, c'.code = pre ++ .dispatch p handler :: post →
      pre.dispatches = 0 → ∀ d, c'.Pends d →
        (∃ pre', d.code = pre' ++ .dispatch p handler :: post) ∧
        (d.code = .dispatch p handler :: post → ∃ e, d.Steps e) ∧
        ∀ e, d.Steps e →
          (e.exceptional = false ↔ d.code = .dispatch p handler :: post) ∧
          (e.exceptional = false → e.code = handler ++ post)) ∧
    (c'.code.dispatches = 0 → ∀ d, c'.Reachable d → d.exceptional = true) := by
  have hnested : c'.Nested := hstep.move.nested ((nested_initial hfree).of_reachable hc)
  have hdepth : c'.exceptionDepth = c'.code.dispatches :=
    (hstep.move.exceptionDepth_of_raise hx hx').trans hnested.tryDepth
  constructor
  · intro pre p handler post hcode hpre d hd
    have hawaits : Awaits p handler post c' := by
      refine ⟨hnested, hx', ?_, pre, hcode⟩
      rw [hdepth, hcode, dispatches_append_dispatch, hpre, Nat.zero_add]
    have hd' := hawaits.of_pends hd
    refine ⟨hd'.code, hd'.exists_steps, ?_⟩
    intro e he
    rcases hd'.move he.move with ⟨hawaits', hne⟩ | ⟨heq, hnormal, hcode'⟩
    · have hpending : e.exceptional ≠ false := by
        rw [hawaits'.exceptional]
        exact Bool.noConfusion
      exact ⟨⟨fun hnormal => absurd hnormal hpending, fun heq => absurd heq hne⟩,
        fun hnormal => absurd hnormal hpending⟩
    · exact ⟨⟨fun _ => heq, fun _ => hnormal⟩, fun _ => hcode'⟩
  · intro hnone d hd
    have huncaught : c'.Uncaught := ⟨hnested, hx', hdepth.trans hnone⟩
    exact (hd.invariant huncaught fun hm h => h.move hm).exceptional

/-- `try (x := 1 / 0; try skip catch skip) catch skip` -/
def divisionBeforeTry : Code :=
  [.attempt 1 [.basic 2 (.push 0), .basic 2 (.push 1), .basic 2 (.arith .div),
      .basic 2 (.store "x"), .attempt 3 [.basic 3 .noop] [.basic 4 .noop]] [.basic 5 .noop]]

/-- The dispatch of the block that is entered after the division does not catch its
exception, and the one around the division does. -/
theorem caught_at_divisionBeforeTry :
    ∃ c c' d d', (Configuration.initial divisionBeforeTry).Reachable c ∧ c.Steps c' ∧
      c'.Pends d ∧ d.code.dispatches = 2 ∧ (∀ e, d.Steps e → e.exceptional ≠ false) ∧
      c'.Pends d' ∧ d'.code.dispatches = 1 ∧ (∃ e, d'.Steps e) ∧
      ∀ e, d'.Steps e → e.exceptional = false ∧ e.code = [.basic 5 .noop] := by
  have hc : (Configuration.initial divisionBeforeTry).Reachable ⟨.empty, [.int .error],
      [.basic 2 (.store "x"), .attempt 3 [.basic 3 .noop] [.basic 4 .noop],
        .dispatch 5 [.basic 5 .noop]], false, 1, 0⟩ :=
    .head .attempt (.head .push (.head .push (.head (.arith (List.mem_cons_self ..)) .refl)))
  have hcaught := (caught_by_innermost_dispatch (by decide) hc Move.failStore.steps rfl rfl).1
    [.attempt 3 [.basic 3 .noop] [.basic 4 .noop]] 5 [.basic 5 .noop] [] rfl rfl
  -- in the inner block two dispatches remain, and after it one
  have hinner : Pends ⟨Store.empty.declare "x", [], [.attempt 3 [.basic 3 .noop] [.basic 4 .noop],
      .dispatch 5 [.basic 5 .noop]], true, 1, 1⟩ ⟨Store.empty.declare "x", [],
        [.dispatch 4 [.basic 4 .noop], .dispatch 5 [.basic 5 .noop]], true, 2, 1⟩ :=
    (Pends.refl.tail Move.attempt.steps rfl).tail Move.noop.steps rfl
  have houter := hinner.tail (Move.leave fun _ => by decide).steps rfl
  obtain ⟨-, hsteps, hends⟩ := hcaught _ houter
  refine ⟨_, _, _, _, hc, Move.failStore.steps, hinner, rfl, ?_, houter, rfl, hsteps rfl, ?_⟩
  · intro e he hnormal
    exact absurd (((hcaught _ hinner).2.2 e he).1.mp hnormal) (by decide)
  · intro e he
    obtain ⟨hiff, hcode⟩ := hends e he
    exact ⟨hiff.mpr rfl, hcode (hiff.mpr rfl)⟩

end Code

end SignAnalysis
