/-
Delivery of exceptions.

The abstract machine does not unwind: with an exception pending it carries out what
the exception abandons, on a store that no longer changes.  A loop whose guard can
then only hold is never left, and the exception is lost in it, so that neither a
handler nor the end of the program is reached:

* `Stmt.letsThrough` — a pending exception can get past a statement;
* `Moment.exists_exit_iff` — an exception gets to its handler, or to the end of the
  program, exactly if every abandoned statement lets it through;
* `Stmt.sound_across_delivered_exceptions` — the findings account for executions
  whose exceptions get through, and the program may end with an exception exactly if
  one gets through to its end;
* `Stmt.exception_lost_in_loop` — an execution that ends with an exception of which
  the findings do not know.
-/
import SignAnalysis.Proofs.Soundness

namespace SignAnalysis

/-! ### Abandoned statements -/

/-- With an exception pending and these signs of the variables, the machine can get to
the end of the statement. -/
def Stmt.letsThrough (f : Var → Sign) : Stmt → Bool
  | assign _ _ | skip => true
  | seq s t => s.letsThrough f && t.letsThrough f
  | cond g s t =>
    (g.outcomes f).any fun m =>
      m = .error || (m.mayHold && s.letsThrough f) || (m.mayFail && t.letsThrough f)
  | loop g _ => (g.outcomes f).any fun m => m = .error || m.mayFail
  | attempt s _ => s.letsThrough f

namespace Stmt

theorem letsThrough_cond {f : Var → Sign} {g : Guard} {s t : Stmt} :
    (cond g s t).letsThrough f = true ↔ ∃ m ∈ g.outcomes f, m = .error ∨
      (m.mayHold = true ∧ s.letsThrough f = true) ∨
      (m.mayFail = true ∧ t.letsThrough f = true) := by
  simp [letsThrough, List.any_eq_true, or_assoc]

theorem letsThrough_loop {f : Var → Sign} {g : Guard} {s : Stmt} :
    (loop g s).letsThrough f = true ↔ ∃ m ∈ g.outcomes f, m = .error ∨ m.mayFail = true := by
  simp [letsThrough, List.any_eq_true]

end Stmt

/-- The statement can raise an exception itself, given the signs of the variables. -/
def Stmt.mayRaise (f : Var → Sign) : Stmt → Bool
  | assign _ e => (e.outcomes f).contains .error
  | cond g _ _ | loop g _ => (g.outcomes f).contains .error
  | skip | seq _ _ | attempt _ _ => false

namespace Task

/-- The statements that an exception abandons, up to the end of the innermost try block. -/
def abandoned : List Task → List Stmt
  | [] => []
  | run _ s :: ts => s :: abandoned ts
  | leave _ _ :: _ => []

/-- With an exception pending that was raised at depth `d`, the machine can get to the
end of the block in which it was raised. -/
def letThrough (f : Var → Sign) (d : Nat) : List Task → Bool
  | [] => true
  | run _ s :: ts => s.letsThrough f && letThrough f d ts
  | leave _ _ :: ts => d == openBlocks ts + 1 || letThrough f d ts

/-- Right after an exception was raised, what it abandons decides. -/
theorem letThrough_openBlocks (f : Var → Sign) (ts : List Task) :
    letThrough f (openBlocks ts) ts = true ↔ ∀ s ∈ abandoned ts, s.letsThrough f = true := by
  induction ts with
  | nil => simp [letThrough, abandoned]
  | cons task ts ih =>
    cases task with
    | run k s => simp [letThrough, abandoned, openBlocks, ih]
    | leave k h => simp [letThrough, abandoned, openBlocks]

end Task

theorem Store.get_declare_eq (σ : Store) (y : Var) : (σ.declare y).get = σ.get :=
  funext fun z => σ.get_declare y z

namespace Moment

/-! ### Exceptions that get through -/

/-- An exception gets past a statement that lets it through. -/
theorem exists_reaches_of_letsThrough {s : Stmt} {σ : Store} {ts : List Task} {k d : Nat}
    (hs : s.letsThrough σ.get = true) (hd : d ≤ Task.openBlocks ts) :
    ∃ τ : Store, τ.get = σ.get ∧ Reaches ⟨σ, .run k s :: ts, true, d⟩ ⟨τ, ts, true, d⟩ := by
  induction s generalizing σ k ts with
  | assign y e =>
    obtain ⟨m, hm⟩ := e.exists_mem_outcomes σ.get
    exact ⟨_, σ.get_declare_eq y, .single (.ignoreAssign hm)⟩
  | skip => exact ⟨σ, rfl, .single .skip⟩
  | seq s t ihs iht =>
    obtain ⟨hs, ht⟩ := Bool.and_eq_true_iff.mp hs
    have hd' : d ≤ Task.openBlocks (.run (k + s.pointCount) t :: ts) := hd
    obtain ⟨τ, hτ, hreach⟩ := ihs hs hd'
    obtain ⟨τ', hτ', hreach'⟩ := iht (hτ ▸ ht) hd
    exact ⟨τ', hτ'.trans hτ, .head .seq (hreach.trans hreach')⟩
  | cond g s t ihs iht =>
    obtain ⟨m, hm, rfl | ⟨hhold, hs⟩ | ⟨hfail, ht⟩⟩ := Stmt.letsThrough_cond.mp hs
    · exact ⟨σ, rfl, .single (.failCond hm)⟩
    · obtain ⟨τ, hτ, hreach⟩ := ihs hs hd
      exact ⟨τ, hτ, .head (.condTrue hm hhold) hreach⟩
    · obtain ⟨τ, hτ, hreach⟩ := iht ht hd
      exact ⟨τ, hτ, .head (.condFalse hm hfail) hreach⟩
  | loop g s _ =>
    obtain ⟨m, hm, rfl | hfail⟩ := Stmt.letsThrough_loop.mp hs
    · exact ⟨σ, rfl, .single (.failLoop hm)⟩
    · exact ⟨σ, rfl, .single (.loopFalse hm hfail)⟩
  | attempt s h ihs _ =>
    have hd' : d ≤ Task.openBlocks (.leave (k + 1 + s.pointCount) h :: ts) := Nat.le_succ_of_le hd
    obtain ⟨τ, hτ, hreach⟩ := ihs hs hd'
    -- the exception was raised further out, so that the block is left without its handler
    refine ⟨τ, hτ, .head .attempt (hreach.tail (.leave fun _ => ?_))⟩
    exact Nat.ne_of_lt (Nat.lt_succ_of_le hd)

/-- An exception that is let through gets to its handler, or to the end of the program. -/
theorem exists_reaches_of_abandoned {σ : Store} {ts : List Task}
    (h : ∀ s ∈ Task.abandoned ts, s.letsThrough σ.get = true) :
    ∃ τ : Store, τ.get = σ.get ∧
      (∀ ts', State.handling? ts = some ts' →
        Reaches (raise ⟨σ, ts, false, 0⟩) ⟨τ, ts', false, 0⟩) ∧
      (State.handling? ts = none →
        Reaches (raise ⟨σ, ts, false, 0⟩) (raise ⟨τ, [], false, 0⟩)) := by
  induction ts generalizing σ with
  | nil => exact ⟨σ, rfl, fun _ hts => (Option.some_ne_none _ hts.symm).elim, fun _ => .refl⟩
  | cons task ts ih =>
    cases task with
    | run k s =>
      obtain ⟨hs, hts⟩ := List.forall_mem_cons.mp h
      obtain ⟨σ', hσ', hpast⟩ := exists_reaches_of_letsThrough hs (Nat.le_refl (Task.openBlocks ts))
      obtain ⟨τ, hτ, hcaught, huncaught⟩ := ih fun t ht => hσ' ▸ hts t ht
      exact ⟨τ, hτ.trans hσ', fun ts' hts' => hpast.trans (hcaught ts' hts'),
        fun hnone => hpast.trans (huncaught hnone)⟩
    | leave k s =>
      refine ⟨σ, rfl, ?_, fun hnone => (Option.some_ne_none _ hnone).elim⟩
      intro ts' hts'
      cases hts'
      exact .single (.handle rfl)

/-! ### Exceptions that get lost -/

/-- An exception is pending that was raised at a depth which is still open. -/
structure Pending (m : Moment) : Prop where
  exceptional : m.exceptional = true
  exceptionDepth_le : m.exceptionDepth ≤ Task.openBlocks m.tasks

/-- The pending exception can get to the end of the block in which it was raised. -/
def Delivers (m : Moment) : Prop :=
  Task.letThrough m.store.get m.exceptionDepth m.tasks = true

section

variable {σ : Store} {ts : List Task} {x : Bool} {k d : Nat} {s : Stmt}

theorem delivers_raise :
    (raise ⟨σ, ts, false, 0⟩).Delivers ↔ ∀ s ∈ Task.abandoned ts, s.letsThrough σ.get = true :=
  Task.letThrough_openBlocks σ.get ts

theorem delivers_run :
    Delivers ⟨σ, .run k s :: ts, x, d⟩ ↔ s.letsThrough σ.get = true ∧ Delivers ⟨σ, ts, x, d⟩ :=
  Bool.and_eq_true_iff

theorem delivers_leave :
    Delivers ⟨σ, .leave k s :: ts, x, d⟩ ↔ d = Task.openBlocks ts + 1 ∨ Delivers ⟨σ, ts, x, d⟩ := by
  unfold Delivers
  rw [Task.letThrough, Bool.or_eq_true_iff, beq_iff_eq]

theorem delivers_declare {y : Var} :
    Delivers ⟨σ.declare y, ts, x, d⟩ ↔ Delivers ⟨σ, ts, x, d⟩ := by
  unfold Delivers
  rw [Store.get_declare_eq]

end

/-- While an exception is pending, a step either runs its handler, or leads on to a
moment that delivers it only if this one does. -/
theorem Goes.pending {m m' : Moment} (h : m.Goes m') (hm : m.Pending) :
    (m.Delivers ∧ m'.exceptional = false ∧ m'.exceptionDepth = 0) ∨
      m'.Pending ∧ m'.exceptionDepth = m.exceptionDepth ∧ (m'.Delivers → m.Delivers) := by
  obtain ⟨hx, hd⟩ := hm
  cases h with
  | assign => cases hx
  | failAssign =>
    cases hx
    exact .inr ⟨⟨rfl, hd⟩, rfl, fun hdel => delivers_run.mpr ⟨rfl, delivers_declare.mp hdel⟩⟩
  | ignoreAssign =>
    exact .inr ⟨⟨rfl, hd⟩, rfl, fun hdel => delivers_run.mpr ⟨rfl, delivers_declare.mp hdel⟩⟩
  | skip => exact .inr ⟨⟨hx, hd⟩, rfl, fun hdel => delivers_run.mpr ⟨rfl, hdel⟩⟩
  | seq =>
    refine .inr ⟨⟨hx, hd⟩, rfl, ?_⟩
    intro hdel
    obtain ⟨hs, hdel⟩ := delivers_run.mp hdel
    obtain ⟨ht, hdel⟩ := delivers_run.mp hdel
    exact delivers_run.mpr ⟨Bool.and_eq_true_iff.mpr ⟨hs, ht⟩, hdel⟩
  | condTrue hm hv =>
    refine .inr ⟨⟨hx, hd⟩, rfl, ?_⟩
    intro hdel
    obtain ⟨hs, hdel⟩ := delivers_run.mp hdel
    exact delivers_run.mpr ⟨Stmt.letsThrough_cond.mpr ⟨_, hm, .inr (.inl ⟨hv, hs⟩)⟩, hdel⟩
  | condFalse hm hv =>
    refine .inr ⟨⟨hx, hd⟩, rfl, ?_⟩
    intro hdel
    obtain ⟨ht, hdel⟩ := delivers_run.mp hdel
    exact delivers_run.mpr ⟨Stmt.letsThrough_cond.mpr ⟨_, hm, .inr (.inr ⟨hv, ht⟩)⟩, hdel⟩
  | failCond hm =>
    cases hx
    refine .inr ⟨⟨rfl, hd⟩, rfl, ?_⟩
    intro hdel
    exact delivers_run.mpr ⟨Stmt.letsThrough_cond.mpr ⟨_, hm, .inl rfl⟩, hdel⟩
  | loopTrue =>
    -- the loop is still there, so that the exception has to get past it later
    exact .inr ⟨⟨hx, hd⟩, rfl, fun hdel => (delivers_run.mp hdel).2⟩
  | loopFalse hm hv =>
    refine .inr ⟨⟨hx, hd⟩, rfl, ?_⟩
    intro hdel
    exact delivers_run.mpr ⟨Stmt.letsThrough_loop.mpr ⟨_, hm, .inr hv⟩, hdel⟩
  | failLoop hm =>
    cases hx
    refine .inr ⟨⟨rfl, hd⟩, rfl, ?_⟩
    intro hdel
    exact delivers_run.mpr ⟨Stmt.letsThrough_loop.mpr ⟨_, hm, .inl rfl⟩, hdel⟩
  | attempt =>
    refine .inr ⟨⟨hx, Nat.le_succ_of_le hd⟩, rfl, ?_⟩
    intro hdel
    obtain ⟨hs, hdel⟩ := delivers_run.mp hdel
    -- the block that is entered now is not the one in which the exception was raised
    rcases delivers_leave.mp hdel with heq | hdel
    · exact absurd hd (Nat.not_le_of_gt (heq ▸ Nat.lt_succ_self _))
    · exact delivers_run.mpr ⟨hs, hdel⟩
  | handle heq => exact .inl ⟨delivers_leave.mpr (.inl heq), rfl, rfl⟩
  | leave hne =>
    have hle := Nat.le_of_lt_succ (Nat.lt_of_le_of_ne hd (hne hx))
    exact .inr ⟨⟨hx, hle⟩, rfl, fun hdel => delivers_leave.mpr (.inr hdel)⟩

/-- A pending exception that gets out of reach, or to the end, is let through. -/
theorem Reaches.delivers {m m' : Moment} (h : m.Reaches m') (hm : m.Pending)
    (hout : m'.tasks = [] ∨ m'.exceptional = false) : m.Delivers := by
  induction h using Relation.ReflTransGen.head_induction_on with
  | refl =>
    rcases hout with hnil | hx
    · rw [Delivers, hnil]
      rfl
    · exact absurd (hm.exceptional.symm.trans hx) (Bool.noConfusion ·)
  | head hgoes _ ih =>
    rcases hgoes.pending hm with ⟨hdel, -⟩ | ⟨hm', -, hback⟩
    · exact hdel
    · exact hback (ih hm')

/-- **An exception gets through exactly if everything that it abandons lets it through.**
Otherwise the machine comes neither to a handler nor to the end of the program. -/
theorem exists_exit_iff (σ : Store) (ts : List Task) :
    (∃ c, (raise ⟨σ, ts, false, 0⟩).configuration.Reachable c ∧
      (c.isTerminal = true ∨ c.exceptional = false)) ↔
    ∀ s ∈ Task.abandoned ts, s.letsThrough σ.get = true := by
  constructor
  · rintro ⟨c, hc, hout⟩
    obtain ⟨m', hreach, hm'⟩ := exists_reaches hc
    refine delivers_raise.mp (hreach.delivers ⟨rfl, Nat.le_refl _⟩ ?_)
    rcases hm' with hin | ⟨hnil, -⟩
    · have hnormal := hout.resolve_left (by rw [hin.isTerminal]; exact Bool.false_ne_true)
      exact .inr (hin.exceptional.symm.trans hnormal)
    · exact .inl hnil
  · intro hts
    obtain ⟨τ, -, hcaught, huncaught⟩ := exists_reaches_of_abandoned hts
    cases hhandling : State.handling? ts with
    | none => exact ⟨_, (huncaught hhandling).reachable, .inl rfl⟩
    | some ts' => exact ⟨_, (hcaught ts' hhandling).reachable, .inr rfl⟩

/-! ### Where pending exceptions come from -/

theorem exists_goes_raise {σ : Store} {ts : List Task} {k : Nat} {s : Stmt}
    (h : s.mayRaise σ.get = true) :
    ∃ τ : Store, τ.get = σ.get ∧
      Goes ⟨σ, .run k s :: ts, false, 0⟩ (raise ⟨τ, ts, false, 0⟩) := by
  cases s with
  | assign y e =>
    exact ⟨_, σ.get_declare_eq y, .failAssign (List.contains_iff_mem.mp h)⟩
  | cond g s t => exact ⟨σ, rfl, .failCond (List.contains_iff_mem.mp h)⟩
  | loop g s => exact ⟨σ, rfl, .failLoop (List.contains_iff_mem.mp h)⟩
  | skip | seq | attempt => cases h

/-- Without a pending exception a step either raises one or does not. -/
theorem Goes.normal {m m' : Moment} (h : m.Goes m') (hx : m.exceptional = false)
    (hd : m.exceptionDepth = 0) :
    (m'.exceptional = false ∧ m'.exceptionDepth = 0) ∨
      ∃ σ k s ts τ, m = ⟨σ, .run k s :: ts, false, 0⟩ ∧ s.mayRaise σ.get = true ∧
        Store.get τ = Store.get σ ∧ m' = raise ⟨τ, ts, false, 0⟩ := by
  cases h with
  | failAssign hm =>
    cases hx
    cases hd
    exact .inr ⟨_, _, _, _, _, rfl, List.contains_iff_mem.mpr hm, Store.get_declare_eq _ _, rfl⟩
  | failCond hm =>
    cases hx
    cases hd
    exact .inr ⟨_, _, _, _, _, rfl, List.contains_iff_mem.mpr hm, rfl, rfl⟩
  | failLoop hm =>
    cases hx
    cases hd
    exact .inr ⟨_, _, _, _, _, rfl, List.contains_iff_mem.mpr hm, rfl, rfl⟩
  | ignoreAssign | handle => cases hx
  | assign | skip | seq | condTrue | condFalse | loopTrue | loopFalse | attempt | leave =>
    exact .inl ⟨hx, hd⟩

/-- The exception that is pending in `m` was raised at the moment with store `σ` by the
statement before `ts`, and `m` delivers it only if what it abandoned lets it through. -/
def RaisedAt (m : Moment) (σ : Store) (ts : List Task) : Prop :=
  m.Pending ∧ m.exceptionDepth = Task.openBlocks ts ∧
    (m.Delivers → ∀ s ∈ Task.abandoned ts, s.letsThrough σ.get = true)

/-- A pending exception was raised somewhere. -/
theorem Reaches.exists_raisedAt {m m' : Moment} (h : m.Reaches m') (hx : m.exceptional = false)
    (hd : m.exceptionDepth = 0) :
    (m'.exceptional = false ∧ m'.exceptionDepth = 0) ∨
      ∃ σ k s ts, m.Reaches ⟨σ, .run k s :: ts, false, 0⟩ ∧ s.mayRaise σ.get = true ∧
        m'.RaisedAt σ ts := by
  induction h with
  | refl => exact .inl ⟨hx, hd⟩
  | @tail m₁ m₂ hreach hgoes ih =>
    rcases ih with ⟨hx₁, hd₁⟩ | ⟨σ, k, s, ts, horigin, hmay, hpending, hdepth, hback⟩
    · rcases hgoes.normal hx₁ hd₁ with hnormal | ⟨σ, k, s, ts, τ, rfl, hmay, hτ, rfl⟩
      · exact .inl hnormal
      · refine .inr ⟨σ, k, s, ts, hreach, hmay, ⟨rfl, Nat.le_refl _⟩, rfl, ?_⟩
        intro hdel
        rw [← hτ]
        exact delivers_raise.mp hdel
    · rcases hgoes.pending hpending with ⟨-, hnormal⟩ | ⟨hpending', hdepth', hback'⟩
      · exact .inl hnormal
      · exact .inr ⟨σ, k, s, ts, horigin, hmay, hpending', hdepth'.trans hdepth, hback ∘ hback'⟩

end Moment

/-! ### Soundness across exceptions -/

theorem State.Raises.mayRaise {u : State} (h : u.Raises) {σ : Store} (hσ : σ.Describes u.memory) :
    ∃ k s ts, u.tasks = .run k s :: ts ∧ s.mayRaise σ.get = true := by
  rcases h with ⟨p, e, hassign, he⟩ | ⟨p, g, htest, hg⟩
  · obtain ⟨m, hm, rfl⟩ := Expr.exists_outcome hσ he
    obtain ⟨k, y, ts, htasks, -⟩ := assigning?_eq_some hassign
    exact ⟨k, _, ts, htasks, List.contains_iff_mem.mpr hm⟩
  · obtain ⟨m, hm, rfl⟩ := Guard.exists_outcome hσ hg
    obtain ⟨k, ts, -, ⟨s, t, htasks⟩ | ⟨s, htasks⟩⟩ := testing?_eq_some htest
    · exact ⟨k, _, ts, htasks, List.contains_iff_mem.mpr hm⟩
    · exact ⟨k, _, ts, htasks, List.contains_iff_mem.mpr hm⟩

/-- If nothing is assigned any more, the statement can still come to its end. -/
def Stmt.Passes (μ : Memory) : Stmt → Prop
  | assign _ _ | skip => True
  | seq s t => s.Passes μ ∧ t.Passes μ
  | cond g s t => g.Evaluates μ .raised ∨ (g.Evaluates μ (.value true) ∧ s.Passes μ) ∨
      (g.Evaluates μ (.value false) ∧ t.Passes μ)
  | loop g _ => g.Evaluates μ .raised ∨ g.Evaluates μ (.value false)
  | attempt s _ => s.Passes μ

theorem Stmt.Passes.letsThrough {s : Stmt} {μ : Memory} (h : s.Passes μ) {σ : Store}
    (hσ : σ.Describes μ) : s.letsThrough σ.get = true := by
  induction s with
  | assign | skip => rfl
  | seq s t ihs iht => exact Bool.and_eq_true_iff.mpr ⟨ihs h.1, iht h.2⟩
  | cond g s t ihs iht =>
    rcases h with hg | ⟨hg, hs⟩ | ⟨hg, ht⟩
    · obtain ⟨m, hm, rfl⟩ := Guard.exists_outcome hσ hg
      exact letsThrough_cond.mpr ⟨_, hm, .inl rfl⟩
    · obtain ⟨m, hm, hcovers⟩ := Guard.exists_outcome hσ hg
      exact letsThrough_cond.mpr ⟨m, hm, .inr (.inl ⟨Truth.mayHold_of_covers hcovers, ihs hs⟩)⟩
    · obtain ⟨m, hm, hcovers⟩ := Guard.exists_outcome hσ hg
      exact letsThrough_cond.mpr ⟨m, hm, .inr (.inr ⟨Truth.mayFail_of_covers hcovers, iht ht⟩)⟩
  | loop g s =>
    rcases h with hg | hg
    · obtain ⟨m, hm, rfl⟩ := Guard.exists_outcome hσ hg
      exact letsThrough_loop.mpr ⟨_, hm, .inl rfl⟩
    · obtain ⟨m, hm, hcovers⟩ := Guard.exists_outcome hσ hg
      exact letsThrough_loop.mpr ⟨m, hm, .inr (Truth.mayFail_of_covers hcovers)⟩
  | attempt s t ihs _ => exact ihs h

namespace Stmt

/-- The machine delivers an exception that an execution of `s` raises in the state `u`:
it comes to a moment that describes `u`, and what the exception abandons lets it through
there. -/
def Delivers (s : Stmt) (u : State) : Prop :=
  ∃ σ : Store, σ.Describes u.memory ∧
    (Configuration.initial s.compile.code).Reachable (Moment.configuration ⟨σ, u.tasks, false, 0⟩) ∧
    ∀ t ∈ Task.abandoned u.tasks.tail, t.letsThrough σ.get = true

/-- A delivered exception gets to its handler, or else to the end of the program. -/
theorem Delivers.exists_reachable {s : Stmt} {u : State} (h : s.Delivers u) (hu : u.Raises) :
    (∀ v, u.handled? = some v → ∃ τ : Store, τ.Describes v.memory ∧
      (Configuration.initial s.compile.code).Reachable
        (Moment.configuration ⟨τ, v.tasks, false, 0⟩)) ∧
    (u.handled? = none → ∃ τ : Store, (Configuration.initial s.compile.code).Reachable
      (Moment.raise ⟨τ, [], false, 0⟩).configuration) := by
  obtain ⟨σ, hσ, hreach, hthrough⟩ := h
  obtain ⟨k, t, ts, htasks, hmay⟩ := hu.mayRaise hσ
  obtain ⟨μ, tasks⟩ := u
  cases htasks
  obtain ⟨τ, hτ, hraise⟩ := Moment.exists_goes_raise hmay
  obtain ⟨τ', hτ', hcaught, huncaught⟩ :=
    Moment.exists_reaches_of_abandoned fun a ha => hτ ▸ hthrough a ha
  have hraised := hreach.trans hraise.reachable
  constructor
  · intro v hv
    obtain ⟨ts', hts', rfl⟩ := Option.map_eq_some_iff.mp hv
    refine ⟨τ', fun y => ?_, hraised.trans (hcaught ts' hts').reachable⟩
    rw [hτ', hτ]
    exact hσ y
  · intro hnone
    exact ⟨τ', hraised.trans (huncaught (Option.map_eq_none_iff.mp hnone)).reachable⟩

/-- The machine comes to a moment that describes the state of an execution, if it has
delivered the exceptions before. -/
theorem exists_reachable_of_delivers {s : Stmt} {u : State} {raised : List State}
    (h : s.Executes u raised) (hraised : ∀ r ∈ raised, s.Delivers r) :
    ∃ σ : Store, σ.Describes u.memory ∧
      (Configuration.initial s.compile.code).Reachable
        (Moment.configuration ⟨σ, u.tasks, false, 0⟩) :=
  exists_reachable_of_executes h fun r hr hraises =>
    ((hraised r hr).exists_reachable hraises).1

/-- The program may end with an exception exactly if one that no handler catches can be
raised where everything that it abandons lets it through. -/
theorem exceptional_iff {s : Stmt} {f : Findings} (hf : s.compile.code.Yields f) :
    f.exceptional = true ↔ ∃ σ k t ts,
      (Configuration.initial s.compile.code).Reachable
        (Moment.configuration ⟨σ, .run k t :: ts, false, 0⟩) ∧
      t.mayRaise σ.get = true ∧ Task.openBlocks ts = 0 ∧
      ∀ a ∈ Task.abandoned ts, a.letsThrough σ.get = true := by
  rw [hf.exceptional_iff, ← Moment.configuration_initial]
  constructor
  · rintro ⟨c, hc, hterm, hx⟩
    -- the end is a moment, and what was raised at its origin got there
    obtain ⟨m, hreach, hin | ⟨hnil, rfl⟩⟩ := Moment.exists_reaches hc
    · exact absurd (hterm.symm.trans hin.isTerminal) (Bool.noConfusion ·)
    rcases hreach.exists_raisedAt rfl rfl with ⟨hnormal, -⟩ |
      ⟨σ, k, t, ts, horigin, hmay, hpending, hdepth, hback⟩
    · exact absurd (hnormal.symm.trans hx) (Bool.noConfusion ·)
    · refine ⟨σ, k, t, ts, horigin.reachable, hmay, ?_, hback (by rw [Moment.Delivers, hnil]; rfl)⟩
      have hle := hpending.exceptionDepth_le
      rw [hnil] at hle
      exact hdepth.symm.trans (Nat.le_zero.mp hle)
  · rintro ⟨σ, k, t, ts, hreach, hmay, hopen, hthrough⟩
    obtain ⟨τ, hτ, hraise⟩ := Moment.exists_goes_raise hmay
    obtain ⟨τ', -, -, huncaught⟩ :=
      Moment.exists_reaches_of_abandoned fun a ha => hτ ▸ hthrough a ha
    have hnone := State.handling?_eq_none hopen
    exact ⟨_, (hreach.trans hraise.reachable).trans (huncaught hnone).reachable, rfl, rfl⟩

/-- **Soundness across exceptions that are delivered.**  The findings account for every
state of an execution whose exceptions have been delivered so far, and know of its end if
it raises one more, which is delivered but not caught.  What decides is in the statements
that an exception abandons:

* an exception is delivered exactly if it is raised at a moment of the machine from which
  a handler or the end of the program can be reached;
* it is if what it abandons could, without assigning anything, come to an end;
* the findings have an end with an exception exactly if one is raised outside of all try
  blocks where everything that it abandons lets it through. -/
theorem sound_across_delivered_exceptions (s : Stmt) :
    (∃ f, s.compile.code.Yields f) ∧ ∀ f, s.compile.code.Yields f →
      (∀ u raised, s.Executes u raised → (∀ r ∈ raised, s.Delivers r) →
        f.AccountsFor u ∧
        (u.Raises → s.Delivers u → u.handled? = none → f.exceptional = true) ∧
        ((∀ t ∈ Task.abandoned u.tasks.tail, t.Passes u.memory) → s.Delivers u)) ∧
      (∀ u, s.Delivers u ↔ ∃ σ : Store, σ.Describes u.memory ∧
        (Configuration.initial s.compile.code).Reachable
          (Moment.configuration ⟨σ, u.tasks, false, 0⟩) ∧
        ∃ c, (Moment.raise ⟨σ, u.tasks.tail, false, 0⟩).configuration.Reachable c ∧
          (c.isTerminal = true ∨ c.exceptional = false)) ∧
      (f.exceptional = true ↔ ∃ σ k t ts,
        (Configuration.initial s.compile.code).Reachable
          (Moment.configuration ⟨σ, .run k t :: ts, false, 0⟩) ∧
        t.mayRaise σ.get = true ∧ Task.openBlocks ts = 0 ∧
        ∀ a ∈ Task.abandoned ts, a.letsThrough σ.get = true) := by
  refine ⟨s.exists_yields, fun f hf => ⟨?_, ?_, exceptional_iff hf⟩⟩
  · intro u raised hu hraised
    obtain ⟨σ, hσ, hreach⟩ := exists_reachable_of_delivers hu hraised
    refine ⟨Findings.accountsFor_of_reachable hf s.hasEnd hσ hreach, ?_, ?_⟩
    · intro hraises hdel hnone
      obtain ⟨τ, hend⟩ := (hdel.exists_reachable hraises).2 hnone
      exact (hf.includes s.hasEnd hend).exceptional rfl rfl
    · intro hpasses
      exact ⟨σ, hσ, hreach, fun t ht => (hpasses t ht).letsThrough hσ⟩
  · intro u
    refine exists_congr fun σ => and_congr_right fun _ => and_congr_right fun _ => ?_
    exact (Moment.exists_exit_iff σ u.tasks.tail).symm

/-- `try (x := 1 / 0; while x = 0 do skip) catch y := 1` -/
def loopAfterDivision : Stmt :=
  .attempt (.seq (.assign "x" (.binary .div (.num 1) (.num 0)))
    (.loop (.compare .eq (.var "x") (.num 0)) .skip)) (.assign "y" (.num 1))

/-- The exception gets past the loop, whose guard may fail because `x` is undefined, and
the end after the handler is accounted for. -/
theorem sound_at_loopAfterDivision :
    ∃ f u r, loopAfterDivision.compile.code.Yields f ∧ loopAfterDivision.Executes u [r] ∧
      r.Raises ∧ u.tasks = [] ∧ f.AccountsFor u := by
  obtain ⟨⟨f, hf⟩, hsound⟩ := sound_across_delivered_exceptions loopAfterDivision
  -- the state in which the division raises, with the loop still to be done
  obtain ⟨r, hr, hraises, hhandled, hpasses⟩ : ∃ r, loopAfterDivision.Executes r [] ∧ r.Raises ∧
      r.handled? = some ⟨fun _ => none, [.run 3 (.assign "y" (.num 1))]⟩ ∧
      ∀ t ∈ Task.abandoned r.tasks.tail, t.Passes r.memory := by
    refine ⟨_, .go (.go .start .attempt) .seq, ?_, rfl, ?_⟩
    · exact .inl ⟨2, _, rfl, .binary .num .num (.values ⟨1, 0, rfl, rfl, .divZero⟩)⟩
    · intro t ht
      cases List.mem_singleton.mp ht
      exact .inr (.compare .var .num (.values ⟨1, 0, trivial, rfl, rfl⟩))
  have hu := Executes.go (.recover hr hraises hhandled) (.assign .num)
  refine ⟨f, _, r, hf, hu, hraises, rfl, ((hsound f hf).1 _ _ hu ?_).1⟩
  intro r' hr'
  cases List.mem_singleton.mp hr'
  exact ((hsound f hf).1 r [] hr fun r hr => absurd hr List.not_mem_nil).2.2 hpasses

/-- `x := 1 / 0; while true do skip` -/
def endlessAfterDivision : Stmt :=
  .seq (.assign "x" (.binary .div (.num 1) (.num 0))) (.loop (.const true) .skip)

/-- **An exception can get lost.**  The program raises an exception that nothing catches,
but the machine carries it into the endless loop, and the findings have no end at all. -/
theorem exception_lost_in_loop :
    ∃ f u, endlessAfterDivision.compile.code.Yields f ∧ endlessAfterDivision.Executes u [] ∧
      u.Raises ∧ u.handled? = none ∧ f.exceptional = false ∧ f.normal = false := by
  have hlost : (endlessAfterDivision.compile.code.analyse 12 none).any
      (fun r => r.toOption.any fun f => !f.exceptional && !f.normal) = true := by
    decide +kernel
  obtain ⟨r, hr, hends⟩ := (Option.any_eq_true _ _).mp hlost
  cases r with
  | error o => cases hends
  | ok f =>
    obtain ⟨hx, hn⟩ :=
      Bool.and_eq_true_iff.mp (show (!f.exceptional && !f.normal) = true from hends)
    refine ⟨f, _, ⟨12, hr⟩, .go .start .seq, ?_, rfl, by simpa using hx, by simpa using hn⟩
    exact .inl ⟨1, _, rfl, .binary .num .num (.values ⟨1, 0, rfl, rfl, .divZero⟩)⟩

end Stmt

end SignAnalysis
