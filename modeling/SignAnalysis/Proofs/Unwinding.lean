/-
Exceptions get past code without loops.

With an exception pending the machine carries out what the exception abandons.  It forks
at divisions and guards, fails again, and enters try blocks, each of which leaves a
dispatch behind.  Without loops all this takes a bounded number of steps, whatever the
machine finds on its way:

* `Code.span` — how many steps a piece of code without loops takes at most while an
  exception is pending, which each step makes less (`Move.exists_span_lt`);
* `Configuration.Inevitable` — every run comes to a given kind of configuration within a
  number of steps;
* `Configuration.abandoned` — the code in front of the dispatch that catches, or all the
  code if none does;
* `Stmt.delivered_past_loopFree` — hence every run gets past abandoned code without loops.
-/
import SignAnalysis.Proofs.Progress
import SignAnalysis.Proofs.StoreEffects

namespace SignAnalysis

/-! ### Code without loops -/

def Instruction.isLoop : Instruction → Bool
  | loop .. => true
  | _ => false

mutual

/-- The most steps that an instruction takes while an exception is pending that it does not
catch.  A loop has no bound and counts as one step. -/
def Instruction.span : Instruction → Nat
  | .basic _ _ | .loop _ _ _ | .dispatch _ _ => 1
  | .branch _ a b => max (Code.span a) (Code.span b) + 1
  | .attempt _ a _ => Code.span a + 2

/-- The most steps that a piece of code takes while an exception is pending that is caught
behind it. -/
def Code.span : List Instruction → Nat
  | [] => 0
  | i :: c => i.span + Code.span c

end

namespace Code

/-- There is no loop in the code, at any depth. -/
def LoopFree (c : Code) : Prop := ∀ i ∈ instructions c, i.isLoop = false

instance (c : Code) : Decidable c.LoopFree :=
  inferInstanceAs (Decidable (∀ i ∈ instructions c, i.isLoop = false))

theorem loopFree_nil : LoopFree [] := by
  intro i hi
  rw [instructions_nil] at hi
  cases hi

theorem loopFree_append {a b : Code} : LoopFree (a ++ b) ↔ a.LoopFree ∧ b.LoopFree := by
  rw [LoopFree, instructions_append, List.forall_mem_append]
  rfl

theorem loopFree_cons {i : Instruction} {c : Code} :
    LoopFree (i :: c) ↔ (∀ j ∈ i.instructions, j.isLoop = false) ∧ c.LoopFree := by
  rw [LoopFree, instructions_cons, List.forall_mem_append]
  rfl

@[simp] theorem span_nil : span [] = 0 := by
  rw [span]

@[simp] theorem span_cons (i : Instruction) (c : Code) : span (i :: c) = i.span + span c := by
  rw [span]

@[simp] theorem span_append (a b : Code) : span (a ++ b) = span a + span b := by
  induction a with
  | nil => simp
  | cons i a ih => simp [ih, Nat.add_assoc]

/-- The code in front of the dispatch at the top level that has `n` others before it, or all
the code if there is none. -/
def upToDispatch : Nat → Code → Code
  | _, [] => []
  | 0, .dispatch _ _ :: _ => []
  | n + 1, .dispatch p handler :: c => .dispatch p handler :: upToDispatch n c
  | n, i :: c => i :: upToDispatch n c

theorem exists_upToDispatch {n : Nat} {c : Code} (h : n < c.dispatches) :
    ∃ p handler post, c = c.upToDispatch n ++ .dispatch p handler :: post ∧
      (c.upToDispatch n).dispatches = n := by
  fun_induction upToDispatch n c with
  | case1 => cases h
  | case2 p handler c => exact ⟨p, handler, c, rfl, rfl⟩
  | case3 n p handler c ih =>
    rw [dispatches_dispatch] at h
    obtain ⟨q, handler', post, hcode, hcount⟩ := ih (Nat.lt_of_succ_lt_succ h)
    refine ⟨q, handler', post, congrArg (.dispatch p handler :: ·) hcode, ?_⟩
    rw [dispatches_dispatch, hcount]
  | case4 n i c hzero hsucc ih =>
    have hi : ¬ i.isDispatch = true := by
      cases i with
      | dispatch p handler =>
        cases n with
        | zero => exact (hzero p handler rfl rfl).elim
        | succ n => exact (hsucc n p handler rfl rfl).elim
      | basic | branch | loop | attempt => exact Bool.false_ne_true
    rw [dispatches, List.countP_cons_of_neg hi] at h
    obtain ⟨q, handler, post, hcode, hcount⟩ := ih h
    refine ⟨q, handler, post, congrArg (i :: ·) hcode, ?_⟩
    rw [dispatches, List.countP_cons_of_neg hi]
    exact hcount

end Code

namespace Configuration

/-- As long as an exception stays pending, a step replaces an instruction that is no loop by
code that has no loops either and takes fewer steps. -/
theorem Move.exists_span_lt {c d : Configuration} (h : Move c d) (hx : c.exceptional = true)
    (hx' : d.exceptional = true) {i : Instruction} {rest : Code} (hcode : c.code = i :: rest)
    (hi : ∀ j ∈ i.instructions, j.isLoop = false) :
    ∃ a : Code, d.code = a ++ rest ∧ a.LoopFree ∧ Code.span a < i.span := by
  cases h with
  | assign | failStore | failGuard => cases hx
  | handle => cases hx'
  | push | truth | fetch | noop | negate | conj | arith | compare | ignoreStore | ignoreGuard
  | leave =>
    cases hcode
    exact ⟨[], rfl, Code.loopFree_nil, by simp [Instruction.span]⟩
  | @hold σ g st p a b rest x t e hg =>
    cases hcode
    simp only [Instruction.instructions, List.forall_mem_cons, List.forall_mem_append] at hi
    refine ⟨a, rfl, hi.2.1, ?_⟩
    rw [Instruction.span]
    exact Nat.lt_succ_of_le (Nat.le_max_left ..)
  | @refuse σ g st p a b rest x t e hg =>
    cases hcode
    simp only [Instruction.instructions, List.forall_mem_cons, List.forall_mem_append] at hi
    refine ⟨b, rfl, hi.2.2, ?_⟩
    rw [Instruction.span]
    exact Nat.lt_succ_of_le (Nat.le_max_right ..)
  | unroll =>
    cases hcode
    simp only [Instruction.instructions, List.forall_mem_cons] at hi
    cases hi.1
  | @attempt σ st p a handler rest x t e =>
    cases hcode
    simp only [Instruction.instructions, List.forall_mem_cons, List.forall_mem_append] at hi
    -- the dispatch takes the place of the block, with the same handler
    refine ⟨a ++ [.dispatch (Code.handlerPoint p handler) handler], ?_, ?_, ?_⟩
    · exact List.append_cons ..
    · refine Code.loopFree_append.mpr ⟨hi.2.1, Code.loopFree_cons.mpr ⟨?_, Code.loopFree_nil⟩⟩
      rw [Instruction.instructions, List.forall_mem_cons]
      exact ⟨rfl, hi.2.2⟩
    · simp [Instruction.span]

/-! ### What every run comes to -/

/-- Every run from a configuration comes to one with the property `P` within `n` steps, and
meets no fault before. -/
def Inevitable (P : Configuration → Prop) : Nat → Configuration → Prop
  | 0, c => P c
  | n + 1, c => P c ∨ (∃ d, c.Steps d) ∧ ∀ d, c.Steps d → Inevitable P n d

theorem Inevitable.imp {P Q : Configuration → Prop} (hPQ : ∀ c, P c → Q c) {n : Nat}
    {c : Configuration} (h : Inevitable P n c) : Inevitable Q n c := by
  induction n generalizing c with
  | zero => exact hPQ c h
  | succ n ih =>
    rcases h with h | ⟨hex, hall⟩
    · exact .inl (hPQ c h)
    · exact .inr ⟨hex, fun d hd => ih (hall d hd)⟩

/-- A bound that each step lowers, as long as `P` does not hold. -/
theorem inevitable_of_bound {P : Configuration → Prop} {I : Nat → Configuration → Prop}
    (hI : ∀ {n c}, I n c → ¬ P c → (∃ d, c.Steps d) ∧ ∀ d, c.Steps d → ∃ m < n, I m d)
    {k n : Nat} (hk : k ≤ n) {c : Configuration} (h : I k c) : Inevitable P n c := by
  induction n generalizing k c with
  | zero =>
    by_contra hP
    obtain ⟨⟨d, hd⟩, hall⟩ := hI h hP
    obtain ⟨m, hm, -⟩ := hall d hd
    omega
  | succ n ih =>
    by_cases hP : P c
    · exact .inl hP
    · obtain ⟨hex, hall⟩ := hI h hP
      refine .inr ⟨hex, fun d hd => ?_⟩
      obtain ⟨m, hm, hd'⟩ := hall d hd
      exact ih (by omega) hd'

/-! ### Abandoned code -/

/-- The code that a pending exception abandons: what stands in front of the dispatch that is
to catch it, or all the code if none is. -/
def abandoned (c : Configuration) : Code :=
  if c.exceptionDepth = 0 then c.code else c.code.upToDispatch (c.tryDepth - c.exceptionDepth)

/-- An exception that was raised in a try block awaits the dispatch behind the code that it
abandons. -/
theorem Nested.exists_awaits {c : Configuration} (hc : c.Nested) (hx : c.exceptional = true)
    (hdepth : c.exceptionDepth ≠ 0) :
    ∃ p handler post, c.code = c.abandoned ++ .dispatch p handler :: post ∧
      c.abandoned.dispatches = c.tryDepth - c.exceptionDepth ∧ Awaits p handler post c := by
  have hle := hc.exceptionDepth_le
  have htry := hc.tryDepth
  have hlt : c.tryDepth - c.exceptionDepth < c.code.dispatches := by omega
  obtain ⟨p, handler, post, hcode, hcount⟩ := Code.exists_upToDispatch hlt
  rw [abandoned, if_neg hdepth]
  refine ⟨p, handler, post, hcode, hcount, hc, hx, ?_, _, hcode⟩
  have hsplit := congrArg Code.dispatches hcode
  rw [Code.dispatches_append_dispatch, hcount] at hsplit
  omega

/-- With an exception pending, a configuration of the program `s` has code without loops left
in front of `post`, which takes `n` steps at most, and knows what the store `σ` says. -/
structure Unwinds (s : Stmt) (σ : Store) (post : Code) (n : Nat) (c : Configuration) : Prop where
  reachable : (Configuration.initial s.compile.code).Reachable c
  exceptional : c.exceptional = true
  declares : σ.Declares c.store
  code : ∃ pre : Code, c.code = pre ++ post ∧ pre.LoopFree ∧ Code.span pre = n

variable {s : Stmt} {σ : Store} {post : Code} {n : Nat} {c d : Configuration}

theorem Unwinds.exists_steps (hc : Unwinds s σ post n c) (hne : c.code ≠ post) :
    ∃ d, c.Steps d := by
  obtain ⟨pre, hcode, -, -⟩ := hc.code
  have hterm : c.isTerminal = false := by
    cases pre with
    | nil => exact absurd hcode hne
    | cons i pre =>
      rw [isTerminal, hcode]
      rfl
  obtain ⟨ds, hstep⟩ := Stmt.exists_step_of_reachable hc.reachable hterm
  have hnonempty : ds ≠ [] := (Stmt.decided_of_reachable hc.reachable).step_ne_nil hstep
  obtain ⟨d, hd⟩ := List.exists_mem_of_ne_nil ds hnonempty
  exact ⟨d, ds, hstep, hd⟩

theorem Unwinds.move (hc : Unwinds s σ post n c) (hne : c.code ≠ post) (h : Move c d)
    (hx : d.exceptional = true) : ∃ m < n, Unwinds s σ post m d := by
  obtain ⟨pre, hcode, hfree, rfl⟩ := hc.code
  cases pre with
  | nil => exact absurd hcode hne
  | cons i pre =>
    rw [Code.loopFree_cons] at hfree
    obtain ⟨a, ha, hafree, hspan⟩ := h.exists_span_lt hc.exceptional hx hcode hfree.1
    refine ⟨Code.span (a ++ pre), ?_, hc.reachable.tail h.steps, hx,
      hc.declares.trans (h.declares (.inr hx)), a ++ pre, ?_, ?_, rfl⟩
    · rw [Code.span_append, Code.span_cons]
      exact Nat.add_lt_add_right hspan _
    · rw [List.append_assoc]
      exact ha
    · exact Code.loopFree_append.mpr ⟨hafree, hfree.2⟩

/-- Every run gets to `post`, if steps before that leave the exception pending. -/
theorem Unwinds.inevitable {P : Configuration → Prop} (hx : ∀ {d}, P d → d.exceptional = true)
    (hmove : ∀ {d e}, P d → d.code ≠ post → Move d e → P e) (hc : Unwinds s σ post n c)
    (h : P c) : Inevitable (fun d => d.code = post ∧ σ.Declares d.store ∧ P d) n c := by
  refine inevitable_of_bound (I := fun n d => Unwinds s σ post n d ∧ P d) ?_ (Nat.le_refl n) ⟨hc, h⟩
  rintro m d ⟨hd, hP⟩ hnot
  have hne : d.code ≠ post := fun heq => hnot ⟨heq, hd.declares, hP⟩
  refine ⟨hd.exists_steps hne, fun e he => ?_⟩
  have hP' := hmove hP hne he.move
  obtain ⟨k, hk, he'⟩ := hd.move hne he.move (hx hP')
  exact ⟨k, hk, he', hP'⟩

end Configuration

namespace Stmt

open SignAnalysis.Configuration

/-- **Exceptions get past code without loops.**  Let an exception be pending in a
configuration of a program, and let the code that it abandons have no loops.

* If it was raised in a try block, a dispatch stands behind the abandoned code, at the depth
  where it was raised.  Every run comes to that dispatch within `Code.span` steps, and the
  step there, which is the only one, catches the exception and goes on with the handler.
* If it was raised outside of every try block, every run comes to its end within
  `Code.span` steps, with the exception still pending.

In both cases the variables that were known have the same signs as before. -/
theorem delivered_past_loopFree {s : Stmt} {c : Configuration}
    (hc : (Configuration.initial s.compile.code).Reachable c) (hx : c.exceptional = true)
    (hfree : c.abandoned.LoopFree) :
    (c.exceptionDepth ≠ 0 → ∃ p handler post,
      c.code = c.abandoned ++ .dispatch p handler :: post ∧
      c.abandoned.dispatches = c.tryDepth - c.exceptionDepth ∧
      Inevitable (fun d => d.code = .dispatch p handler :: post ∧ ∃ e, d.step = .ok [e] ∧
        e.exceptional = false ∧ e.tryDepth = c.exceptionDepth - 1 ∧ e.code = handler ++ post ∧
        ∀ y m, c.store.get? y = some m → e.store.get? y = some m) (Code.span c.abandoned) c) ∧
    (c.exceptionDepth = 0 →
      Inevitable (fun d => d.isTerminal = true ∧ d.exceptional = true ∧
        ∀ y m, c.store.get? y = some m → d.store.get? y = some m) (Code.span c.abandoned) c) := by
  have hnested : c.Nested := (nested_initial (s.dispatchFree_code 0)).of_reachable hc
  constructor
  · intro hdepth
    obtain ⟨p, handler, post, hcode, hcount, hawaits⟩ := hnested.exists_awaits hx hdepth
    have hunwinds : Unwinds s c.store (.dispatch p handler :: post) (Code.span c.abandoned) c :=
      ⟨hc, hx, .refl _, _, hcode, hfree, rfl⟩
    refine ⟨p, handler, post, hcode, hcount, ?_⟩
    refine (hunwinds.inevitable (P := Awaits p handler post) Awaits.exceptional ?_ hawaits).imp ?_
    · intro d e hd hne hmove
      exact ((hd.move hmove).resolve_right fun hcaught => hne hcaught.1).1
    · rintro d ⟨hcode', hstore, hd⟩
      refine ⟨hcode', _, hd.step_eq hcode', rfl, ?_, rfl, fun y m hm => hstore.get?_eq hm⟩
      rw [hawaits.depth]
      rfl
  · intro hdepth
    have hall : c.abandoned = c.code := if_pos hdepth
    rw [hall] at hfree ⊢
    have hunwinds : Unwinds s c.store [] (Code.span c.code) c :=
      ⟨hc, hx, .refl _, _, (List.append_nil _).symm, hfree, rfl⟩
    refine (hunwinds.inevitable (P := Uncaught) Uncaught.exceptional ?_
      ⟨hnested, hx, hdepth⟩).imp ?_
    · intro d e hd _ hmove
      exact hd.move hmove
    · rintro d ⟨hcode', hstore, hd⟩
      exact ⟨List.isEmpty_iff.mpr hcode', hd.exceptional, fun y m hm => hstore.get?_eq hm⟩

/-- `try (x := 1 / 0; if x <= 0 then try y := 2 catch skip else skip) catch x := 1;`
`z := 1 / 0; y := 3` -/
def raisedTwice : Stmt :=
  .seq
    (.attempt
      (.seq (.assign "x" (.binary .div (.num 1) (.num 0)))
        (.cond (.compare .le (.var "x") (.num 0)) (.attempt (.assign "y" (.num 2)) .skip) .skip))
      (.assign "x" (.num 1)))
    (.seq (.assign "z" (.binary .div (.num 1) (.num 0))) (.assign "y" (.num 3)))

/-- The first exception gets past the conditional, whichever way it goes, to its handler in
eight steps at most, and the second one past an assignment to the end in two, where `x` still
has the sign that the handler gave it. -/
theorem delivered_at_raisedTwice :
    ∃ c c', (Configuration.initial raisedTwice.compile.code).Reachable c ∧
      c.exceptional = true ∧ c.exceptionDepth = 1 ∧ c.abandoned.LoopFree ∧
      Inevitable (fun d => ∃ p handler post, d.code = .dispatch p handler :: post ∧
        ∃ e, d.step = .ok [e] ∧ e.exceptional = false ∧ e.tryDepth = 0 ∧
          e.code = handler ++ post) 8 c ∧
      (Configuration.initial raisedTwice.compile.code).Reachable c' ∧
      c'.exceptional = true ∧ c'.exceptionDepth = 0 ∧ c'.abandoned.LoopFree ∧
      Inevitable (fun d => d.isTerminal = true ∧ d.exceptional = true ∧
        d.store.get? "x" = some .positive) 2 c' := by
  have hc : (Configuration.initial raisedTwice.compile.code).Reachable
      ⟨Store.empty.declare "x", [],
        [.basic 3 (.push 0), .basic 3 (.fetch "x"), .basic 3 (.compare .le),
          .branch 3 [.attempt 4 [.basic 5 (.push 2), .basic 5 (.store "y")] [.basic 5 .noop]]
            [.basic 5 .noop],
          .dispatch 6 [.basic 6 (.push 1), .basic 6 (.store "x")],
          .basic 7 (.push 0), .basic 7 (.push 1), .basic 7 (.arith .div), .basic 7 (.store "z"),
          .basic 8 (.push 3), .basic 8 (.store "y")], true, 1, 1⟩ :=
    .head .attempt (.head .push (.head .push (.head (.arith (List.mem_cons_self ..))
      (.head .failStore .refl))))
  have hc' : (Configuration.initial raisedTwice.compile.code).Reachable
      ⟨((Store.empty.declare "x").insert "x" .positive).declare "z", [],
        [.basic 8 (.push 3), .basic 8 (.store "y")], true, 0, 0⟩ :=
    hc.trans (.head .push (.head .fetch (.head (.compare (List.mem_cons_self ..))
      (.head (.refuse rfl) (.head .noop (.head .handle (.head .push (.head (.assign (by decide))
        (.head .push (.head .push (.head (.arith (List.mem_cons_self ..))
          (.head .failStore .refl))))))))))))
  obtain ⟨p, handler, post, -, -, hcaught⟩ :=
    (delivered_past_loopFree hc rfl (by decide)).1 (by decide)
  have hend := (delivered_past_loopFree hc' rfl (by decide)).2 rfl
  refine ⟨_, _, hc, rfl, rfl, by decide, hcaught.imp ?_, hc', rfl, rfl, by decide, hend.imp ?_⟩
  · rintro d ⟨hcode, e, hstep, hnormal, hdepth, hcode', -⟩
    exact ⟨p, handler, post, hcode, e, hstep, hnormal, hdepth, hcode'⟩
  · rintro d ⟨hterm, hx, hknown⟩
    exact ⟨hterm, hx, hknown "x" .positive (by decide)⟩

end Stmt

end SignAnalysis
