/-
The code that can remain.

A step executes the first instruction of the code that remains, and what remains
afterwards depends on that instruction alone (`Code.nexts`).  A loop is put back
behind its own body and a try block leaves its dispatch behind, but neither piles
up, so that only finitely many pieces of code ever remain of a program:

* `Stmt.continuations` — what can remain from the start of a statement to its end;
* `Stmt.nexts_mem_continuations` — no step leads out of these;
* `Code.instructions_of_mem_nexts` — to the instructions of a piece of code at every depth, a
  step adds only what loops and try blocks make;
* `Code.targets` — the variables that a piece of code can assign, of which a step
  adds none.
-/
import SignAnalysis.Proofs.Evaluation

namespace SignAnalysis

/-- What can remain after the first instruction of a piece of code. -/
def Code.nexts : Code → List Code
  | [] => []
  | .basic _ _ :: rest => [rest]
  | .branch _ a b :: rest => [rest, a ++ rest, b ++ rest]
  | .loop p a b :: rest => [a ++ .branch p (b ++ [.loop p a b]) [.basic p .noop] :: rest]
  | .attempt p a h :: rest => [a ++ .dispatch (Code.handlerPoint p h) h :: rest]
  | .dispatch _ h :: rest => [rest, h ++ rest]

theorem Configuration.Move.code_mem_nexts {c d : Configuration} (h : Move c d) :
    d.code ∈ c.code.nexts := by
  cases h <;> simp [Code.nexts]

/-! ### Continuations -/

/-- What remains while `a` is executed in front of `rest`, instruction by instruction. -/
def Code.stops : Code → Code → List Code
  | [], rest => [rest]
  | i :: a, rest => (i :: a ++ rest) :: Code.stops a rest

namespace Code

theorem start_mem_stops (a rest : Code) : a ++ rest ∈ stops a rest := by
  cases a <;> exact List.mem_cons_self ..

theorem rest_mem_stops (a rest : Code) : rest ∈ stops a rest := by
  induction a with
  | nil => exact List.mem_singleton_self rest
  | cons i a ih => exact List.mem_cons_of_mem _ ih

/-- In code that ends in the instruction `j` and has no other parts, a step stays in the
code until it executes `j`; `ds` holds what either may lead to. -/
theorem nexts_of_mem_stops {a rest c d : Code} {j : Instruction} {ds : List Code}
    (ha : ∀ i ∈ a, i.isPure = true) (hstops : ∀ b ∈ stops (a ++ [j]) rest, b ∈ ds)
    (hlast : ∀ b ∈ nexts (j :: rest), b ∈ ds) (hc : c ∈ stops (a ++ [j]) rest)
    (hd : d ∈ c.nexts) : c = rest ∨ d ∈ ds := by
  induction a with
  | nil =>
    rcases List.mem_cons.mp hc with rfl | hc
    · exact .inr (hlast d hd)
    · exact .inl (List.mem_singleton.mp hc)
  | cons i a ih =>
    have htail : ∀ b ∈ stops (a ++ [j]) rest, b ∈ ds := fun b hb =>
      hstops b (List.mem_cons_of_mem _ hb)
    rcases List.mem_cons.mp hc with rfl | hc
    · have hpure := ha i (List.mem_cons_self ..)
      cases i with
      | basic p op =>
        cases List.mem_singleton.mp hd
        exact .inr (htail _ (start_mem_stops (a ++ [j]) rest))
      | branch | loop | attempt | dispatch => cases hpure
    · exact ih (fun i hi => ha i (List.mem_cons_of_mem _ hi)) htail hc

/-- The same for a single instruction. -/
theorem nexts_of_mem_stops_singleton {rest c d : Code} {j : Instruction} {ds : List Code}
    (hstops : ∀ b ∈ stops [j] rest, b ∈ ds) (hlast : ∀ b ∈ nexts (j :: rest), b ∈ ds)
    (hc : c ∈ stops [j] rest) (hd : d ∈ c.nexts) : c = rest ∨ d ∈ ds :=
  nexts_of_mem_stops (fun _ hi => absurd hi List.not_mem_nil) hstops hlast hc hd

end Code

namespace Stmt

/-- What can remain from the start of a statement to its end, in front of `rest`. -/
def continuations (k : Nat) : Stmt → Code → List Code
  | assign x e, rest => Code.stops ((assign x e).code k) rest
  | skip, rest => Code.stops (skip.code k) rest
  | seq s t, rest =>
    s.continuations k (t.code (k + s.pointCount) ++ rest) ++
      t.continuations (k + s.pointCount) rest
  | cond g s t, rest =>
    Code.stops ((cond g s t).code k) rest ++ s.continuations (k + 1) rest ++
      t.continuations (k + 1 + s.pointCount) rest
  | loop g s, rest =>
    let back := (loop g s).code k
    let test := .branch (k + 1) (s.code (k + 1) ++ back) [.basic (k + 1) .noop]
    Code.stops back rest ++ Code.stops (g.code (k + 1) ++ [test]) rest ++
      Code.stops [.basic (k + 1) .noop] rest ++ s.continuations (k + 1) (back ++ rest)
  | attempt s t, rest =>
    let handler := t.code (k + 1 + s.pointCount)
    let dispatch := .dispatch (Code.handlerPoint (k + 1) handler) handler
    Code.stops ((attempt s t).code k) rest ++ s.continuations (k + 1) (dispatch :: rest) ++
      t.continuations (k + 1 + s.pointCount) rest

theorem start_mem_continuations (k : Nat) (s : Stmt) (rest : Code) :
    s.code k ++ rest ∈ s.continuations k rest := by
  induction s generalizing k rest with
  | assign x e => exact Code.start_mem_stops _ _
  | skip => exact Code.start_mem_stops _ _
  | seq s t ihs iht =>
    rw [code, List.append_assoc]
    exact List.mem_append_left _ (ihs k _)
  | cond g s t ihs iht =>
    exact List.mem_append_left _ (List.mem_append_left _ (Code.start_mem_stops _ _))
  | loop g s ih =>
    exact List.mem_append_left _ (List.mem_append_left _
      (List.mem_append_left _ (Code.start_mem_stops _ _)))
  | attempt s t ihs iht =>
    exact List.mem_append_left _ (List.mem_append_left _ (Code.start_mem_stops _ _))

/-- A step leads from a continuation to a continuation, until the statement is left. -/
theorem nexts_mem_continuations {k : Nat} {s : Stmt} {rest c d : Code}
    (hc : c ∈ s.continuations k rest) (hd : d ∈ c.nexts) :
    c = rest ∨ d ∈ s.continuations k rest := by
  induction s generalizing k rest with
  | assign x e =>
    refine Code.nexts_of_mem_stops (fun i hi => Expr.isPure_of_mem_code hi) (fun b hb => hb) ?_
      hc hd
    intro b hb
    cases List.mem_singleton.mp hb
    exact Code.rest_mem_stops _ _
  | skip =>
    refine Code.nexts_of_mem_stops_singleton (fun b hb => hb) ?_ hc hd
    intro b hb
    cases List.mem_singleton.mp hb
    exact Code.rest_mem_stops _ _
  | seq s t ihs iht =>
    simp only [continuations, List.mem_append] at hc ⊢
    have ht : c ∈ t.continuations (k + s.pointCount) rest → c = rest ∨
        d ∈ t.continuations (k + s.pointCount) rest := fun hc => iht hc
    rcases hc with hc | hc
    · -- the first part is left where the second one starts
      rcases ihs hc with rfl | h
      · exact (ht (start_mem_continuations _ t rest)).imp_right .inr
      · exact .inr (.inl h)
    · exact (ht hc).imp_right .inr
  | cond g s t ihs iht =>
    rcases List.mem_append.mp hc with hc | hc
    · rcases List.mem_append.mp hc with hc | hc
      · refine Code.nexts_of_mem_stops (fun i hi => Guard.isPure_of_mem_code hi)
          (fun b hb => List.mem_append_left _ (List.mem_append_left _ hb)) ?_ hc hd
        intro b hb
        simp only [Code.nexts, List.mem_cons, List.not_mem_nil, or_false] at hb
        simp only [continuations, List.mem_append]
        rcases hb with rfl | rfl | rfl
        · exact .inl (.inl (Code.rest_mem_stops _ _))
        · exact .inl (.inr (start_mem_continuations _ s rest))
        · exact .inr (start_mem_continuations _ t rest)
      · exact (ihs hc).imp_right fun h => List.mem_append_left _ (List.mem_append_right _ h)
    · exact (iht hc).imp_right fun h => List.mem_append_right _ h
  | loop g s ih =>
    -- unrolling the loop leads to its guard, from its start and from the end of its body
    have hunroll : ∀ b ∈ Code.nexts ((loop g s).code k ++ rest),
        b ∈ continuations k (loop g s) rest := by
      intro b hb
      cases List.mem_singleton.mp hb
      have hstart := Code.start_mem_stops (g.code (k + 1) ++ [.branch (k + 1)
        (s.code (k + 1) ++ (loop g s).code k) [.basic (k + 1) .noop]]) rest
      rw [List.append_assoc] at hstart
      exact List.mem_append_left _ (List.mem_append_left _ (List.mem_append_right _ hstart))
    simp only [continuations, List.mem_append] at hc
    rcases hc with ((hc | hc) | hc) | hc
    · refine Code.nexts_of_mem_stops_singleton (fun b hb => ?_) hunroll hc hd
      exact List.mem_append_left _ (List.mem_append_left _ (List.mem_append_left _ hb))
    · refine Code.nexts_of_mem_stops (fun i hi => Guard.isPure_of_mem_code hi) (fun b hb =>
        List.mem_append_left _ (List.mem_append_left _ (List.mem_append_right _ hb))) ?_ hc hd
      intro b hb
      simp only [Code.nexts, List.mem_cons, List.not_mem_nil, or_false] at hb
      simp only [continuations, List.mem_append]
      rcases hb with rfl | rfl | rfl
      · exact .inl (.inl (.inl (Code.rest_mem_stops _ _)))
      · rw [List.append_assoc]
        exact .inr (start_mem_continuations _ s _)
      · exact .inl (.inr (Code.start_mem_stops _ _))
    · refine Code.nexts_of_mem_stops_singleton (fun b hb => ?_) (fun b hb => ?_) hc hd
      · exact List.mem_append_left _ (List.mem_append_right _ hb)
      · cases List.mem_singleton.mp hb
        exact List.mem_append_left _ (List.mem_append_right _ (Code.rest_mem_stops _ _))
    · rcases ih hc with rfl | h
      · exact .inr (hunroll d hd)
      · exact .inr (List.mem_append_right _ h)
  | attempt s t ihs iht =>
    rcases List.mem_append.mp hc with hc | hc
    · rcases List.mem_append.mp hc with hc | hc
      · refine Code.nexts_of_mem_stops_singleton (fun b hb => ?_) (fun b hb => ?_) hc hd
        · exact List.mem_append_left _ (List.mem_append_left _ hb)
        · cases List.mem_singleton.mp hb
          exact List.mem_append_left _ (List.mem_append_right _ (start_mem_continuations _ s _))
      · rcases ihs hc with rfl | h
        · -- the dispatch behind the body leads to the handler or past it
          simp only [Code.nexts, List.mem_cons, List.not_mem_nil, or_false] at hd
          simp only [continuations, List.mem_append]
          rcases hd with rfl | rfl
          · exact .inr (.inl (.inl (Code.rest_mem_stops _ _)))
          · exact .inr (.inr (start_mem_continuations _ t rest))
        · exact .inr (List.mem_append_left _ (List.mem_append_right _ h))
    · exact (iht hc).imp_right fun h => List.mem_append_right _ h

end Stmt

/-! ### Instructions at every depth -/

/-- What a loop or a try block makes when it is executed. -/
def Instruction.made : Instruction → List Instruction
  | loop p a b => [branch p (b ++ [loop p a b]) [basic p .noop], basic p .noop]
  | attempt p _ h => [dispatch (Code.handlerPoint p h) h]
  | _ => []

namespace Code

@[simp] theorem instructions_nil : instructions [] = [] := by
  rw [instructions]

@[simp] theorem instructions_cons (i : Instruction) (c : Code) :
    instructions (i :: c) = i.instructions ++ instructions c := by
  rw [instructions]

@[simp] theorem instructions_append (a b : Code) :
    instructions (a ++ b) = instructions a ++ instructions b := by
  induction a with
  | nil => simp
  | cons i a ih => simp [ih]

theorem instructions_of_isPure {a : Code} (ha : ∀ i ∈ a, i.isPure = true) :
    instructions a = a := by
  induction a with
  | nil => exact instructions_nil
  | cons i a ih =>
    rw [instructions_cons, ih fun j hj => ha j (List.mem_cons_of_mem _ hj)]
    have hpure := ha i (List.mem_cons_self ..)
    cases i with
    | basic p op =>
      rw [Instruction.instructions]
      rfl
    | branch | loop | attempt | dispatch => cases hpure

/-- A step adds no instructions but those that the first instruction makes. -/
theorem instructions_of_mem_nexts {c d : Code} (h : d ∈ c.nexts) {i : Instruction}
    (hi : i ∈ instructions d) :
    i ∈ instructions c ∨ ∃ j rest, c = j :: rest ∧ i ∈ j.made := by
  cases c with
  | nil => cases h
  | cons j rest =>
    simp only [List.cons.injEq]
    cases j with
    | basic p op =>
      cases List.mem_singleton.mp h
      exact .inl (instructions_cons _ _ ▸ List.mem_append_right _ hi)
    | branch p a b =>
      simp only [nexts, List.mem_cons, List.not_mem_nil, or_false] at h
      rcases h with rfl | rfl | rfl <;>
        simp only [instructions_append, instructions_cons, Instruction.instructions,
          List.mem_append, List.mem_cons] at hi ⊢ <;>
        grind
    | loop p a b =>
      cases List.mem_singleton.mp h
      simp only [instructions_append, instructions_cons, instructions_nil,
        Instruction.instructions, Instruction.made, List.mem_append, List.mem_cons] at hi ⊢
      grind
    | attempt p a b =>
      cases List.mem_singleton.mp h
      simp only [instructions_append, instructions_cons, Instruction.instructions,
        Instruction.made, List.mem_append, List.mem_cons] at hi ⊢
      grind
    | dispatch p a =>
      simp only [nexts, List.mem_cons, List.not_mem_nil, or_false] at h
      rcases h with rfl | rfl <;>
        simp only [instructions_append, instructions_cons, Instruction.instructions,
          List.mem_append, List.mem_cons] at hi ⊢ <;>
        grind

end Code

/-! ### Assigned variables -/

mutual

/-- The variables that an instruction can assign, with all the code inside it. -/
def Instruction.targets : Instruction → List Var
  | .basic _ (.store y) => [y]
  | .basic _ _ => []
  | .branch _ a b | .loop _ a b | .attempt _ a b => Code.targets a ++ Code.targets b
  | .dispatch _ h => Code.targets h

/-- The variables that a piece of code can assign. -/
def Code.targets : List Instruction → List Var
  | [] => []
  | i :: c => i.targets ++ Code.targets c

end

mutual

theorem Instruction.mem_targets_iff {y : Var} :
    ∀ i : Instruction, y ∈ i.targets ↔ ∃ p, .basic p (.store y) ∈ i.instructions
  | .basic p op => by cases op <;> simp [Instruction.targets, Instruction.instructions]
  | .branch p a b | .loop p a b | .attempt p a b => by
    simp [Instruction.targets, Instruction.instructions, Code.mem_targets_iff a,
      Code.mem_targets_iff b, exists_or]
  | .dispatch p a => by
    simp [Instruction.targets, Instruction.instructions, Code.mem_targets_iff a]

/-- The variables that a piece of code can assign are those of its stores, at every depth. -/
theorem Code.mem_targets_iff {y : Var} :
    ∀ c : List Instruction, y ∈ Code.targets c ↔ ∃ p, .basic p (.store y) ∈ Code.instructions c
  | [] => by simp [Code.targets]
  | i :: c => by
    simp [Code.targets, Instruction.mem_targets_iff i, Code.mem_targets_iff c, exists_or]

end

theorem Code.targets_of_mem_nexts {c d : Code} (h : d ∈ c.nexts) {y : Var}
    (hy : y ∈ Code.targets d) : y ∈ Code.targets c := by
  rw [mem_targets_iff] at hy ⊢
  obtain ⟨p, hp⟩ := hy
  rcases instructions_of_mem_nexts h hp with hp | ⟨j, rest, -, hmade⟩
  · exact ⟨p, hp⟩
  · -- no store is ever made
    cases j <;> simp [Instruction.made] at hmade

/-- A step makes no variable known but those that the code assigns. -/
theorem Configuration.Move.known {c d : Configuration} (h : Move c d) {y : Var}
    (hy : (d.store.get? y).isSome = true) :
    (c.store.get? y).isSome = true ∨ y ∈ Code.targets c.code := by
  rcases h.store_cases with hsame | ⟨p, z, rest, hcode, hstore⟩
  · rw [hsame] at hy
    exact .inl hy
  · by_cases hz : y = z
    · rw [hcode, hz, Code.targets, Instruction.targets]
      exact .inr (List.mem_append_left _ (List.mem_singleton_self z))
    · rcases hstore with ⟨hdeclare, -⟩ | ⟨-, -, m, -, hinsert⟩
      · rw [hdeclare, Store.get?_declare, if_neg hz] at hy
        exact .inl hy
      · rw [hinsert, Store.get?_insert, if_neg hz] at hy
        exact .inl hy

end SignAnalysis
