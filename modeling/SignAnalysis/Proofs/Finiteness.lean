/-
Exploration of a program ends.

Loops are unrolled and try blocks leave dispatches behind while the machine runs,
but all that a configuration holds is bounded by the code that remains: the stack
has the shape that the code needs, and the depths are counted by its dispatches.
Only finitely many pieces of code remain of a program, and they assign only
finitely many variables:

* `Configuration.Bounded` — these bounds, which every step keeps (`Move.bounded`);
* `Configuration.finite_bounded` — finitely many configurations satisfy them;
* `Stmt.exploration_ends` — hence finitely many can be reached, and the search
  comes to its end.
-/
import Mathlib.Data.Fintype.OfMap
import Mathlib.Data.Set.Finite.Lattice
import Mathlib.Data.Set.Finite.List
import SignAnalysis.Proofs.Continuations
import SignAnalysis.Proofs.Exploration
import SignAnalysis.Proofs.StackShape
import SignAnalysis.Proofs.TryDepth

namespace SignAnalysis

instance : Fintype Sign := Fintype.ofList Sign.all fun m => by cases m <;> decide

instance : Fintype Truth := Fintype.ofList Truth.all fun g => by cases g <;> decide

instance : Fintype Operand :=
  Fintype.ofList (Sign.all.map .int ++ Truth.all.map .bool) fun o => by
    cases o with
    | int m => cases m <;> decide
    | bool g => cases g <;> decide

/-- Finitely many stores know no other variables than those of a list. -/
theorem Store.finite_known (names : List Var) :
    {σ : Store | ∀ y, (σ.get? y).isSome = true → y ∈ names}.Finite := by
  -- such a store is determined by what it says of the variables of the list
  have hfinite : Finite {y // y ∈ names} := (List.finite_toSet names).to_subtype
  refine Set.Finite.of_finite_image
    (f := fun (σ : Store) (y : {y // y ∈ names}) => σ.get? y) (Set.toFinite _) ?_
  intro σ hσ τ hτ heq
  refine Store.ext_get? ?_
  intro y
  by_cases hy : y ∈ names
  · exact congrFun heq ⟨y, hy⟩
  · have hnone : ∀ ρ : Store, (∀ y, (ρ.get? y).isSome = true → y ∈ names) → ρ.get? y = none := by
      intro ρ hρ
      exact Option.not_isSome_iff_eq_none.mp fun hsome => hy (hρ y hsome)
    rw [hnone σ hσ, hnone τ hτ]

namespace Configuration

/-- The bounds on the configurations of a program: what remains of the code is in
`codes`, only the variables in `names` are known or assigned, and the stack and the
depths are those that the code calls for. -/
structure Bounded (codes : List Code) (names : List Var) (c : Configuration) : Prop where
  code : c.code ∈ codes
  targets : ∀ y ∈ Code.targets c.code, y ∈ names
  known : ∀ y, (c.store.get? y).isSome = true → y ∈ names
  fits : c.Fits
  nested : c.Nested

/-- A step keeps the bounds, if it cannot lead out of `codes`. -/
theorem Move.bounded {codes : List Code} {names : List Var}
    (hcodes : ∀ a ∈ codes, ∀ b ∈ a.nexts, b ∈ codes) {c d : Configuration} (h : Move c d)
    (hc : Bounded codes names c) : Bounded codes names d := by
  have hnext := h.code_mem_nexts
  refine ⟨hcodes _ hc.code _ hnext, ?_, ?_, h.fits hc.fits, h.nested hc.nested⟩
  · intro y hy
    exact hc.targets y (Code.targets_of_mem_nexts hnext hy)
  · intro y hy
    exact (h.known hy).elim (hc.known y) (hc.targets y)

/-- Finitely many configurations have the same code left, if the rest is bounded. -/
theorem finite_with_code (names : List Var) (a : Code) (n m : Nat) :
    {c : Configuration | c.code = a ∧ (∀ y, (c.store.get? y).isSome = true → y ∈ names) ∧
      c.stack.length = n ∧ c.tryDepth ≤ m ∧ c.exceptionDepth ≤ m}.Finite := by
  have hdepths := (Set.finite_le_nat m).prod (Set.finite_le_nat m)
  have hparts := (Store.finite_known names).prod
    ((List.finite_length_eq Operand n).prod ((Set.finite_univ (α := Bool)).prod hdepths))
  refine (hparts.image fun q => ⟨q.1, q.2.1, a, q.2.2.1, q.2.2.2.1, q.2.2.2.2⟩).subset ?_
  rintro c ⟨rfl, hknown, hstack, htry, hexception⟩
  exact ⟨⟨c.store, c.stack, c.exceptional, c.tryDepth, c.exceptionDepth⟩,
    ⟨hknown, hstack, Set.mem_univ _, htry, hexception⟩, rfl⟩

/-- Finitely many configurations are bounded. -/
theorem finite_bounded (codes : List Code) (names : List Var) :
    {c | Bounded codes names c}.Finite := by
  -- the code that is left determines how high the stack is and how many blocks are open
  have hcode : ∀ a, {c : Configuration | c.code = a ∧
      (∀ y, (c.store.get? y).isSome = true → y ∈ names) ∧
      c.stack.length = ((Code.before a []).getD []).length ∧
      c.tryDepth ≤ a.dispatches ∧ c.exceptionDepth ≤ a.dispatches}.Finite :=
    fun a => finite_with_code names a _ _
  refine ((List.finite_toSet codes).biUnion fun a _ => hcode a).subset ?_
  intro c hc
  have hstack : c.stack.length = ((Code.before c.code []).getD []).length := by
    have hfits : Code.before c.code [] = some (c.stack.map Operand.sort) := hc.fits
    rw [hfits, Option.getD_some, List.length_map]
  have htry : c.tryDepth ≤ c.code.dispatches := Nat.le_of_eq hc.nested.tryDepth
  have hexception := Nat.le_trans hc.nested.exceptionDepth_le htry
  exact Set.mem_biUnion hc.code ⟨rfl, hc.known, hstack, htry, hexception⟩

end Configuration

namespace Stmt

open SignAnalysis.Configuration

/-- The configurations that can be reached from the start of a program are bounded. -/
theorem bounded_of_reachable {s : Stmt} {c : Configuration}
    (h : (Configuration.initial s.compile.code).Reachable c) :
    Bounded (s.continuations 0 []) (Code.targets s.compile.code) c := by
  have hcodes : ∀ a ∈ s.continuations 0 [], ∀ b ∈ a.nexts, b ∈ s.continuations 0 [] := by
    intro a ha b hb
    rcases nexts_mem_continuations ha hb with rfl | hb'
    · cases hb
    · exact hb'
  have hstart : Bounded (s.continuations 0 []) (Code.targets s.compile.code)
      (.initial s.compile.code) := by
    refine ⟨?_, fun y hy => hy, fun y hy => absurd hy Bool.false_ne_true, Fits.initial s 0,
      nested_initial (s.dispatchFree_code 0)⟩
    have hcode := start_mem_continuations 0 s []
    rwa [List.append_nil] at hcode
  exact h.invariant hstart fun hm hc => hm.bounded hcodes hc

theorem finite_reachable (s : Stmt) :
    {c | (Configuration.initial s.compile.code).Reachable c}.Finite :=
  (finite_bounded _ _).subset fun _ hc => bounded_of_reachable hc

/-- No configuration of a program meets a fault. -/
theorem exists_step_of_reachable {s : Stmt} {c : Configuration}
    (h : (Configuration.initial s.compile.code).Reachable c) (hterm : c.isTerminal = false) :
    ∃ ds, c.step = .ok ds := by
  have hc := bounded_of_reachable h
  cases hcode : c.code with
  | nil =>
    rw [isTerminal, hcode] at hterm
    cases hterm
  | cons i rest =>
    refine hc.fits.exists_step hcode ?_
    intro p a hi
    subst hi
    exact hc.nested.tryDepth_ne_zero hcode

/-- The search of a program comes to its end, and stays there with more fuel. -/
theorem exists_run_finished (s : Stmt) :
    ∃ n, ∀ fuel, n ≤ fuel → ∃ t, (Search.start s.compile.code none).run fuel = (t, .finished) := by
  refine ⟨s.finite_reachable.toFinset.card, ?_⟩
  intro fuel hfuel
  refine Search.exists_run_finished (Search.worklist_start _ _)
    (fun c hc => absurd hc List.not_mem_nil) rfl
    (fun c hc hterm => exists_step_of_reachable hc hterm) ?_ hfuel
  intro l hl hreach
  rw [← List.toFinset_card_of_nodup hl]
  refine Finset.card_le_card ?_
  intro c hc
  exact s.finite_reachable.mem_toFinset.mpr (hreach c (List.mem_toFinset.mp hc))

/-- **Exploration ends.**  Of the configurations of a program only finitely many can
be reached, and the search without a limit makes finitely many advances, none of which
meets an obstacle, until its frontier is empty.  There a run ends. -/
theorem exploration_ends (s : Stmt) :
    {c | (Configuration.initial s.compile.code).Reachable c}.Finite ∧
      ∃ k, (Search.start s.compile.code none).Undisturbed k ∧
        ((Search.start s.compile.code none).after k).frontier = [] ∧
        ∀ fuel, k ≤ fuel → (Search.start s.compile.code none).run fuel =
          ((Search.start s.compile.code none).after k, .finished) := by
  obtain ⟨n, hn⟩ := s.exists_run_finished
  obtain ⟨t, hrun⟩ := hn n (Nat.le_refl n)
  obtain ⟨k, rfl, hquiet, hf⟩ := Search.exists_after_of_run_finished hrun
  exact ⟨s.finite_reachable, k, hquiet, hf, fun fuel => Search.run_of_undisturbed hquiet hf⟩

end Stmt

end SignAnalysis
