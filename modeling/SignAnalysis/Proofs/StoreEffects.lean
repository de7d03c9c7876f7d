/-
What a run does to the store.

A store instruction sets its variable only if it finds a value and no exception is
pending; otherwise it makes the variable known at most.  So what a handler finds in the
store is what was there when the exception was raised:

* `Store.ErrorFree` — no variable is an error, which each step keeps (`Move.errorFree`);
* `Store.Declares` — one store comes of another by making variables known, which is all
  that a step does with an exception pending before or after it (`Move.declares`);
* `Code.store_effects` — hence what a run may do to the store, over all its length, as
  long as an exception is pending, and where one is raised or caught.
-/
import SignAnalysis.Proofs.Catching
import SignAnalysis.Proofs.Continuations

namespace SignAnalysis

namespace Store

/-- No variable is an error. -/
def ErrorFree (σ : Store) : Prop := ∀ x, σ.get x ≠ .error

/-- The store `τ` says of the variables that `σ` knows what `σ` says of them, and has no sign
for the others that it knows. -/
def Declares (σ τ : Store) : Prop :=
  ∀ y, τ.get? y = σ.get? y ∨ (σ.get? y = none ∧ τ.get? y = some .uninitialized)

theorem Declares.refl (σ : Store) : σ.Declares σ := fun _ => .inl rfl

theorem declares_declare (σ : Store) (x : Var) : σ.Declares (σ.declare x) := by
  intro y
  rw [get?_declare]
  by_cases hy : y = x
  · rw [if_pos hy, hy]
    cases hx : σ.get? x with
    | none => exact .inr ⟨rfl, rfl⟩
    | some m => exact .inl rfl
  · rw [if_neg hy]
    exact .inl rfl

theorem Declares.trans {σ τ υ : Store} (h : σ.Declares τ) (h' : τ.Declares υ) :
    σ.Declares υ := by
  intro y
  rcases h' y with heq | ⟨hnone, hnew⟩
  · rw [heq]
    exact h y
  · rcases h y with heq | ⟨-, hsome⟩
    · exact .inr ⟨heq ▸ hnone, hnew⟩
    · exact absurd (hnone.symm.trans hsome) (Option.some_ne_none _).symm

/-- A variable that is known keeps its sign. -/
theorem Declares.get?_eq {σ τ : Store} (h : σ.Declares τ) {y : Var} {m : Sign}
    (hm : σ.get? y = some m) : τ.get? y = some m := by
  rcases h y with heq | ⟨hnone, -⟩
  · exact heq.trans hm
  · exact absurd (hnone.symm.trans hm) (Option.some_ne_none m).symm

end Store

namespace Configuration

variable {c d : Configuration}

/-! ### Steps -/

theorem Move.errorFree (h : Move c d) (hc : c.store.ErrorFree) : d.store.ErrorFree := by
  intro y
  rcases h.store_cases with hsame | ⟨p, z, rest, -, ⟨hdeclare, -⟩ | ⟨-, -, m, hm, hinsert⟩⟩
  · rw [hsame]
    exact hc y
  · rw [hdeclare, Store.get_declare]
    exact hc y
  · rw [hinsert, Store.get_insert]
    split
    · exact hm
    · exact hc y

/-- A variable that is known stays known. -/
theorem Move.isSome_get? (h : Move c d) {y : Var} (hy : (c.store.get? y).isSome = true) :
    (d.store.get? y).isSome = true := by
  rcases h.store_cases with hsame | ⟨p, z, rest, -, ⟨hdeclare, -⟩ | ⟨-, -, m, -, hinsert⟩⟩
  · rwa [hsame]
  · rw [hdeclare, Store.get?_declare]
    split
    · rfl
    · exact hy
  · rw [hinsert, Store.get?_insert]
    split
    · rfl
    · exact hy

/-- With an exception pending before or after it, a step makes variables known at most. -/
theorem Move.declares (h : Move c d) (hx : c.exceptional = true ∨ d.exceptional = true) :
    c.store.Declares d.store := by
  rcases h.store_cases with hsame | ⟨p, z, rest, -, ⟨hdeclare, -⟩ | ⟨hc, hd, -⟩⟩
  · rw [hsame]
    exact .refl _
  · rw [hdeclare]
    exact Store.declares_declare _ z
  · -- a value is stored only if no exception is pending
    rw [hc, hd] at hx
    exact absurd hx (by decide)

/-! ### Runs -/

theorem Reachable.errorFree {code : Code} (h : (Configuration.initial code).Reachable c) :
    c.store.ErrorFree :=
  h.invariant (P := fun c => c.store.ErrorFree) (fun _ => Sign.noConfusion)
    fun hmove hc => hmove.errorFree hc

theorem Reachable.isSome_get? (h : c.Reachable d) {y : Var}
    (hy : (c.store.get? y).isSome = true) : (d.store.get? y).isSome = true :=
  h.invariant (P := fun c => (c.store.get? y).isSome = true) hy
    fun hmove hc => hmove.isSome_get? hc

/-- Every variable that is known is assigned somewhere in the code. -/
theorem Reachable.mem_targets {code : Code} (h : (Configuration.initial code).Reachable c)
    {y : Var} (hy : (c.store.get? y).isSome = true) : y ∈ Code.targets code := by
  -- neither the store nor the code that remains gets to other variables
  have hinv : (∀ z, (c.store.get? z).isSome = true → z ∈ Code.targets code) ∧
      ∀ z ∈ Code.targets c.code, z ∈ Code.targets code := by
    refine h.invariant (P := fun c =>
      (∀ z, (c.store.get? z).isSome = true → z ∈ Code.targets code) ∧
        ∀ z ∈ Code.targets c.code, z ∈ Code.targets code) ?_ ?_
    · exact ⟨fun z hz => absurd hz Bool.false_ne_true, fun z hz => hz⟩
    · rintro c d hmove ⟨hknown, hcode⟩
      refine ⟨fun z hz => ?_, fun z hz => ?_⟩
      · exact (hmove.known hz).elim (hknown z) (hcode z)
      · exact hcode z (Code.targets_of_mem_nexts hmove.code_mem_nexts hz)
  exact hinv.1 y hy

/-- While an exception is pending, variables are made known at most. -/
theorem Pends.declares (h : c.Pends d) : c.store.Declares d.store := by
  induction h with
  | refl => exact .refl _
  | tail _ hstep hx ih => exact ih.trans (hstep.move.declares (.inr hx))

end Configuration

namespace Code

open SignAnalysis.Configuration

/-- **What a run may do to the store.**  Let a run come to `c`.

* No variable is an error.
* Every variable that is known is that of a store in the code, at some depth.
* Later in the run, it is still known.
* As long as an exception is pending, the variables that are known keep their signs, and
  those that appear have none.
* A step that raises or catches an exception keeps the signs of the variables that are
  known. -/
theorem store_effects {code : Code} {c : Configuration}
    (hc : (Configuration.initial code).Reachable c) :
    c.store.ErrorFree ∧
      (∀ y, (c.store.get? y).isSome = true → ∃ p, .basic p (.store y) ∈ Code.instructions code) ∧
      (∀ d, c.Reachable d → ∀ y, (c.store.get? y).isSome = true → (d.store.get? y).isSome = true) ∧
      (∀ d, c.Pends d → c.store.Declares d.store) ∧
      ∀ d, c.Steps d → c.exceptional ≠ d.exceptional →
        ∀ y m, c.store.get? y = some m → d.store.get? y = some m := by
  refine ⟨hc.errorFree, ?_, fun d hd y hy => hd.isSome_get? hy, fun d hd => hd.declares, ?_⟩
  · intro y hy
    exact (Code.mem_targets_iff code).mp (hc.mem_targets hy)
  · intro d hd hne y m hm
    have hx : c.exceptional = true ∨ d.exceptional = true := by
      by_contra hnone
      rw [not_or, Bool.not_eq_true, Bool.not_eq_true] at hnone
      exact hne (hnone.1.trans hnone.2.symm)
    exact (hd.move.declares hx).get?_eq hm

/-- `x := 1; try (x := 1 / 0; z := 2) catch y := 3` -/
def failedUpdate : Code :=
  [.basic 1 (.push 1), .basic 1 (.store "x"),
    .attempt 2 [.basic 3 (.push 0), .basic 3 (.push 1), .basic 3 (.arith .div),
      .basic 3 (.store "x"), .basic 4 (.push 2), .basic 4 (.store "z")]
      [.basic 5 (.push 3), .basic 5 (.store "y")]]

/-- The sign of `x` gets from the failing assignment to the handler, past the assignment to
`z`, which only makes `z` known. -/
theorem store_effects_at_failedUpdate :
    ∃ c c' d e, (Configuration.initial failedUpdate).Reachable c ∧
      c.Steps c' ∧ c.exceptional = false ∧ c'.exceptional = true ∧
      c'.Pends d ∧ d.Steps e ∧ e.exceptional = false ∧
      c.store.get? "x" = some .positive ∧ e.store.get? "x" = some .positive ∧
      c'.store.get? "z" = none ∧ c'.store.Declares d.store ∧
      d.store.get? "z" = some .uninitialized := by
  have hc : (Configuration.initial failedUpdate).Reachable ⟨Store.empty.insert "x" .positive,
      [.int .error], [.basic 3 (.store "x"), .basic 4 (.push 2), .basic 4 (.store "z"),
        .dispatch 5 [.basic 5 (.push 3), .basic 5 (.store "y")]], false, 1, 0⟩ :=
    .head .push (.head (.assign (by decide)) (.head .attempt (.head .push (.head .push
      (.head (.arith (List.mem_cons_self ..)) .refl)))))
  have hd : Pends ⟨(Store.empty.insert "x" .positive).declare "x", [], [.basic 4 (.push 2),
      .basic 4 (.store "z"), .dispatch 5 [.basic 5 (.push 3), .basic 5 (.store "y")]], true, 1, 1⟩
      ⟨((Store.empty.insert "x" .positive).declare "x").declare "z", [],
        [.dispatch 5 [.basic 5 (.push 3), .basic 5 (.store "y")]], true, 1, 1⟩ :=
    (Pends.refl.tail Move.push.steps rfl).tail Move.ignoreStore.steps rfl
  have hdeclares := (store_effects (hc.trans Move.failStore.reachable)).2.2.2.1 _ hd
  have hraised := (store_effects hc).2.2.2.2 _ Move.failStore.steps Bool.false_ne_true "x"
    .positive (by decide)
  exact ⟨_, _, _, _, hc, Move.failStore.steps, rfl, rfl, hd, Move.handle.steps, rfl, by decide,
    hdeclares.get?_eq hraised, by decide, hdeclares, by decide⟩

end Code

end SignAnalysis
