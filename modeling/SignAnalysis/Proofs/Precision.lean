/-
Less precise configurations simulate more precise ones.

A marker is below another if that one is the same or stands for every value of the
sort; an error is not a value and is below itself alone.  This is not the order of
the join, in which `uninitialized` lies below everything.  The operators are monotone
all the same, because they read an uninitialised operand as any value:

* `Sign.outcomesBelow_arith`, `Sign.outcomesBelow_compare`, `Truth.below_and`,
  `Truth.below_not` — the operators keep the order;
* `Configuration.Below` — two configurations that differ in precision only, which steps
  keep (`Below.move`) and which fail alike (`Below.fault?_eq`);
* `Configuration.coarser_simulates` — so a run from the less precise configuration does
  all that a run from the other one can do.
-/
import Mathlib.Data.List.Forall2
import SignAnalysis.Proofs.StackShape

namespace SignAnalysis

namespace Marker

variable {α : Type} [Marker α]

/-- `b` is the same marker as `a`, or stands for every value and `a` for some. -/
def Below (a b : α) : Prop := a = b ∨ a ≠ error ∧ b = any

instance [DecidableEq α] (a b : α) : Decidable (Below a b) :=
  inferInstanceAs (Decidable (_ ∨ _))

theorem below_refl (a : α) : Below a a := .inl rfl

/-- Every outcome of one evaluation is below an outcome of the other. -/
def OutcomesBelow (ms ms' : List α) : Prop := ∀ m ∈ ms, ∃ m' ∈ ms', Below m m'

theorem outcomesBelow_refl (ms : List α) : OutcomesBelow ms ms :=
  fun m hm => ⟨m, hm, below_refl m⟩

theorem outcomesBelow_singleton {m m' : α} (h : Below m m') : OutcomesBelow [m] [m'] := by
  intro a ha
  rw [List.mem_singleton.mp ha]
  exact ⟨m', List.mem_singleton_self m', h⟩

end Marker

open Marker (Below OutcomesBelow)

/-! ### Operators -/

namespace Sign

variable {l l' r r' : Sign}

theorem eq_error_iff_of_below {m m' : Sign} (h : Below m m') : m = error ↔ m' = error := by
  rcases h with rfl | ⟨hne, rfl⟩
  · rfl
  · exact iff_of_false hne Sign.noConfusion

theorem exists_error_iff_of_below (hl : Below l l') (hr : Below r r') :
    (l = error ∨ r = error) ↔ (l' = error ∨ r' = error) :=
  or_congr (eq_error_iff_of_below hl) (eq_error_iff_of_below hr)

theorem below_asOperand {m m' : Sign} (h : Below m m') :
    Below (Marker.asOperand m) (Marker.asOperand m') := by
  rcases h with rfl | ⟨hne, rfl⟩
  · exact Marker.below_refl _
  · cases m with
    | error => exact absurd rfl hne
    | negative | zero | positive | any | uninitialized => decide

/-- The table of an operator keeps the order on operands without an error. -/
def KeepsBelow {β : Type} [Marker β] (table : Sign → Sign → List β) : Prop :=
  ∀ l l' r r', Below l l' → Below r r' → l ≠ error → r ≠ error →
    OutcomesBelow (table l r) (table l' r')

theorem KeepsBelow.strict {β : Type} [Marker β] {table : Sign → Sign → List β}
    (h : KeepsBelow table) (hl : Below l l') (hr : Below r r') :
    OutcomesBelow (strict table l r) (strict table l' r') := by
  have herror := exists_error_iff_of_below hl hr
  have hoperand : ∀ m : Sign, m ≠ error → Marker.asOperand m ≠ error := by
    intro m hm
    cases m with
    | error => exact absurd rfl hm
    | negative | zero | positive | any | uninitialized => decide
  unfold Sign.strict
  by_cases hlr : l = error ∨ r = error
  · rw [if_pos hlr, if_pos (herror.mp hlr)]
    exact Marker.outcomesBelow_refl _
  · rw [if_neg hlr, if_neg (mt herror.mpr hlr)]
    obtain ⟨hle, hre⟩ := not_or.mp hlr
    exact h _ _ _ _ (below_asOperand hl) (below_asOperand hr) (hoperand l hle) (hoperand r hre)

theorem below_sum (hl : Below l l') (hr : Below r r') (hle : l ≠ error) (hre : r ≠ error) :
    Below (sum l r) (sum l' r') := by
  rcases hl with rfl | ⟨-, rfl⟩ <;> rcases hr with rfl | ⟨-, rfl⟩
  · exact Marker.below_refl _
  all_goals
    cases l <;> cases r <;> first
      | exact absurd rfl hle
      | exact absurd rfl hre
      | decide

theorem below_negate (h : Below r r') : Below r.negate r'.negate := by
  rcases h with rfl | ⟨hne, rfl⟩
  · exact Marker.below_refl _
  · cases r with
    | error => exact absurd rfl hne
    | negative | zero | positive | any | uninitialized => decide

theorem negate_ne_error (h : r ≠ error) : r.negate ≠ error := by
  cases r with
  | error => exact absurd rfl h
  | negative | zero | positive | any | uninitialized => decide

theorem below_product (hl : Below l l') (hr : Below r r') :
    Below (product l r) (product l' r') := by
  rcases hl with rfl | ⟨-, rfl⟩ <;> rcases hr with rfl | ⟨-, rfl⟩
  · exact Marker.below_refl _
  all_goals cases l <;> cases r <;> decide

theorem outcomesBelow_quotients (hr : Below r r') (hre : r ≠ error) :
    OutcomesBelow (quotients r) (quotients r') := by
  rcases hr with rfl | ⟨-, rfl⟩
  · exact Marker.outcomesBelow_refl _
  · -- a divisor of which nothing is known may be zero and may be another number
    intro m hm
    refine ⟨m, ?_, Marker.below_refl m⟩
    cases r with
    | error => exact absurd rfl hre
    | zero => exact List.mem_cons_of_mem _ hm
    | negative | positive => exact List.mem_cons.mpr (.inl (List.mem_singleton.mp hm))
    | any | uninitialized => exact hm

theorem outcomesBelow_arith (op : ArithOp) (hl : Below l l') (hr : Below r r') :
    OutcomesBelow (arith op l r) (arith op l' r') := by
  cases op with
  | add =>
    have hsum : KeepsBelow fun a b => [sum a b] := by
      intro l l' r r' hl hr hle hre
      exact Marker.outcomesBelow_singleton (below_sum hl hr hle hre)
    exact hsum.strict hl hr
  | sub =>
    have hdifference : KeepsBelow fun a b => [sum a b.negate] := by
      intro l l' r r' hl hr hle hre
      exact Marker.outcomesBelow_singleton
        (below_sum hl (below_negate hr) hle (negate_ne_error hre))
    exact hdifference.strict hl hr
  | mul =>
    have hproduct : KeepsBelow fun a b => [product a b] := by
      intro l l' r r' hl hr _ _
      exact Marker.outcomesBelow_singleton (below_product hl hr)
    exact hproduct.strict hl hr
  | div =>
    have hquotients : KeepsBelow fun _ b => quotients b := by
      intro l l' r r' _ hr _ hre
      exact outcomesBelow_quotients hr hre
    exact hquotients.strict hl hr

theorem compareRanks_ne_error (op : CompareOp) (i j : Int) : compareRanks op i j ≠ .error := by
  cases op with
  | eq | le =>
    simp only [compareRanks]
    split
    · exact Truth.noConfusion
    · split <;> exact Truth.noConfusion

/-- Without an error among the operands a comparison has one outcome, which is no error,
and is any if one of the operands is. -/
theorem exists_compare_of_ne_error (op : CompareOp) (hl : l ≠ error) (hr : r ≠ error) :
    ∃ g, compare op l r = [g] ∧ g ≠ .error ∧ (l = any ∨ r = any → g = .any) := by
  have hrank : rank (Marker.asOperand any) = none := by decide
  simp only [compare, strict, hl, hr, or_self, if_false]
  split
  · rename_i i j hi hj
    refine ⟨_, rfl, compareRanks_ne_error op i j, ?_⟩
    rintro (rfl | rfl)
    · exact absurd (hrank.symm.trans hi) (Option.some_ne_none i).symm
    · exact absurd (hrank.symm.trans hj) (Option.some_ne_none j).symm
  · exact ⟨.any, rfl, Truth.noConfusion, fun _ => rfl⟩

theorem outcomesBelow_compare (op : CompareOp) (hl : Below l l') (hr : Below r r') :
    OutcomesBelow (compare op l r) (compare op l' r') := by
  have herror := exists_error_iff_of_below hl hr
  by_cases h : l = error ∨ r = error
  · rw [compare, strict, strict, if_pos h, if_pos (herror.mp h)]
    exact Marker.outcomesBelow_refl _
  · obtain ⟨hle, hre⟩ := not_or.mp h
    obtain ⟨hle', hre'⟩ := not_or.mp (mt herror.mpr h)
    obtain ⟨g, hg, hne, -⟩ := exists_compare_of_ne_error op hle hre
    obtain ⟨g', hg', -, hany⟩ := exists_compare_of_ne_error op hle' hre'
    -- unless both operands are the same, one of the less precise ones is any
    have hbelow : Below g g' := by
      rcases hl with rfl | ⟨-, rfl⟩
      · rcases hr with rfl | ⟨-, rfl⟩
        · rw [hg, List.cons.injEq] at hg'
          exact .inl hg'.1
        · exact .inr ⟨hne, hany (.inr rfl)⟩
      · exact .inr ⟨hne, hany (.inl rfl)⟩
    rw [hg, hg']
    exact Marker.outcomesBelow_singleton hbelow

end Sign

namespace Truth

variable {u u' v v' : Truth}

theorem below_not (h : Below u u') : Below u.not u'.not := by
  rcases h with rfl | ⟨hne, rfl⟩
  · exact Marker.below_refl _
  · cases u with
    | error => exact absurd rfl hne
    | yes | no | any | uninitialized => decide

theorem below_and (hu : Below u u') (hv : Below v v') : Below (u.and v) (u'.and v') := by
  rcases hu with rfl | ⟨hne, rfl⟩ <;> rcases hv with rfl | ⟨hne', rfl⟩
  · exact Marker.below_refl _
  all_goals
    cases u <;> cases v <;> first
      | decide
      | exact absurd rfl hne
      | exact absurd rfl hne'

theorem eq_error_iff_of_below (h : Below u u') : u = error ↔ u' = error := by
  rcases h with rfl | ⟨hne, rfl⟩
  · rfl
  · exact iff_of_false hne Truth.noConfusion

theorem mayHold_of_below (h : Below u u') (hu : u.mayHold = true) : u'.mayHold = true := by
  rcases h with rfl | ⟨-, rfl⟩
  · exact hu
  · rfl

theorem mayFail_of_below (h : Below u u') (hu : u.mayFail = true) : u'.mayFail = true := by
  rcases h with rfl | ⟨-, rfl⟩
  · exact hu
  · rfl

end Truth

/-! ### Configurations -/

/-- Operands of one sort whose markers are in order. -/
inductive Operand.Below : Operand → Operand → Prop
  | int {m m' : Sign} : Marker.Below m m' → Below (.int m) (.int m')
  | bool {u u' : Truth} : Marker.Below u u' → Below (.bool u) (.bool u')

theorem Operand.Below.sort_eq {o o' : Operand} (h : o.Below o') : o.sort = o'.sort := by
  cases h <;> rfl

namespace Configuration

/-- `c'` is less precise than `c`, and differs from it in nothing else.  A variable that a
store does not know counts as uninitialised. -/
structure Below (c c' : Configuration) : Prop where
  code : c.code = c'.code
  exceptional : c.exceptional = c'.exceptional
  tryDepth : c.tryDepth = c'.tryDepth
  exceptionDepth : c.exceptionDepth = c'.exceptionDepth
  stack : List.Forall₂ Operand.Below c.stack c'.stack
  store : ∀ y, Marker.Below (c.valueOf y) (c'.valueOf y)

variable {c c' d : Configuration}

theorem below_refl (c : Configuration) : c.Below c := by
  refine ⟨rfl, rfl, rfl, rfl, ?_, fun y => Marker.below_refl _⟩
  refine List.forall₂_same.mpr ?_
  intro o _
  cases o with
  | int m => exact .int (Marker.below_refl m)
  | bool u => exact .bool (Marker.below_refl u)

theorem Below.sorts_eq (h : c.Below c') : c.stack.map Operand.sort = c'.stack.map Operand.sort := by
  have hstack := h.stack
  generalize c.stack = st at hstack ⊢
  generalize c'.stack = st' at hstack ⊢
  induction hstack with
  | nil => rfl
  | cons ho _ ih => rw [List.map_cons, List.map_cons, ho.sort_eq, ih]

/-- Precision does not matter for the faults of a step. -/
theorem Below.fault?_eq (h : c.Below c') : c.fault? = c'.fault? := by
  rw [fault?, fault?, h.code, h.tryDepth, h.sorts_eq]

theorem Below.isTerminal_eq (h : c.Below c') : c.isTerminal = c'.isTerminal := by
  rw [isTerminal, isTerminal, h.code]

section

variable {σ σ' : Store} {st st' : List Operand} {a : Code} {x : Bool} {t e : Nat}

theorem below_mk (hst : List.Forall₂ Operand.Below st st')
    (hσ : ∀ y, Marker.Below (σ.get y) (σ'.get y)) :
    Below ⟨σ, st, a, x, t, e⟩ ⟨σ', st', a, x, t, e⟩ :=
  ⟨rfl, rfl, rfl, rfl, hst, hσ⟩

theorem Below.exists_eq (h : Below ⟨σ, st, a, x, t, e⟩ c') :
    ∃ σ' st', c' = ⟨σ', st', a, x, t, e⟩ ∧ List.Forall₂ Operand.Below st st' ∧
      ∀ y, Marker.Below (σ.get y) (σ'.get y) := by
  obtain ⟨hcode, hx, ht, he, hstack, hstore⟩ := h
  obtain ⟨σ', st', a', x', t', e'⟩ := c'
  cases hcode
  cases hx
  cases ht
  cases he
  exact ⟨σ', st', rfl, hstack, hstore⟩

theorem exists_of_int_cons {m : Sign} (h : List.Forall₂ Operand.Below (.int m :: st) st') :
    ∃ m' st'', st' = .int m' :: st'' ∧ Marker.Below m m' ∧
      List.Forall₂ Operand.Below st st'' := by
  obtain ⟨o, st'', ho, hst, rfl⟩ := List.forall₂_cons_left_iff.mp h
  cases ho with
  | int hm => exact ⟨_, st'', rfl, hm, hst⟩

theorem exists_of_bool_cons {u : Truth} (h : List.Forall₂ Operand.Below (.bool u :: st) st') :
    ∃ u' st'', st' = .bool u' :: st'' ∧ Marker.Below u u' ∧
      List.Forall₂ Operand.Below st st'' := by
  obtain ⟨o, st'', ho, hst, rfl⟩ := List.forall₂_cons_left_iff.mp h
  cases ho with
  | bool hu => exact ⟨_, st'', rfl, hu, hst⟩

/-- Stores in order stay so when a variable is set to markers in order. -/
theorem below_insert (h : ∀ y, Marker.Below (σ.get y) (σ'.get y)) {y : Var} {m m' : Sign}
    (hm : Marker.Below m m') (z : Var) :
    Marker.Below ((σ.insert y m).get z) ((σ'.insert y m').get z) := by
  rw [Store.get_insert, Store.get_insert]
  by_cases hz : z = y
  · rw [if_pos hz, if_pos hz]
    exact hm
  · rw [if_neg hz, if_neg hz]
    exact h z

theorem below_declare (h : ∀ y, Marker.Below (σ.get y) (σ'.get y)) (y z : Var) :
    Marker.Below ((σ.declare y).get z) ((σ'.declare y).get z) := by
  rw [Store.get_declare, Store.get_declare]
  exact h z

end

/-- A step of the more precise configuration is followed by one of the less precise. -/
theorem Below.move (h : c.Below c') (hm : Move c d) : ∃ d', Move c' d' ∧ d.Below d' := by
  obtain ⟨σ, st, code, x, t, e⟩ := c
  obtain ⟨σ', st', rfl, hst, hσ⟩ := h.exists_eq
  -- the stack of the less precise configuration has operands of the same sorts
  cases hm with
  | push => exact ⟨_, .push, below_mk (.cons (.int (Marker.below_refl _)) hst) hσ⟩
  | truth => exact ⟨_, .truth, below_mk (.cons (.bool (Marker.below_refl _)) hst) hσ⟩
  | fetch => exact ⟨_, .fetch, below_mk (.cons (.int (hσ _)) hst) hσ⟩
  | noop => exact ⟨_, .noop, below_mk hst hσ⟩
  | negate =>
    obtain ⟨u', st', rfl, hu, hrest⟩ := exists_of_bool_cons hst
    exact ⟨_, .negate, below_mk (.cons (.bool (Truth.below_not hu)) hrest) hσ⟩
  | conj =>
    obtain ⟨u', st', rfl, hu, hst'⟩ := exists_of_bool_cons hst
    obtain ⟨v', st', rfl, hv, hrest⟩ := exists_of_bool_cons hst'
    exact ⟨_, .conj, below_mk (.cons (.bool (Truth.below_and hu hv)) hrest) hσ⟩
  | arith hmem =>
    obtain ⟨l', st', rfl, hl, hst'⟩ := exists_of_int_cons hst
    obtain ⟨r', st', rfl, hr, hrest⟩ := exists_of_int_cons hst'
    obtain ⟨m', hmem', hm⟩ := Sign.outcomesBelow_arith _ hl hr _ hmem
    exact ⟨_, .arith hmem', below_mk (.cons (.int hm) hrest) hσ⟩
  | compare hmem =>
    obtain ⟨l', st', rfl, hl, hst'⟩ := exists_of_int_cons hst
    obtain ⟨r', st', rfl, hr, hrest⟩ := exists_of_int_cons hst'
    obtain ⟨g', hmem', hg⟩ := Sign.outcomesBelow_compare _ hl hr _ hmem
    exact ⟨_, .compare hmem', below_mk (.cons (.bool hg) hrest) hσ⟩
  | assign hne =>
    obtain ⟨m', st', rfl, hm, hrest⟩ := exists_of_int_cons hst
    have hne' : m' ≠ .error := mt (Sign.eq_error_iff_of_below hm).mpr hne
    exact ⟨_, .assign hne', below_mk hrest (below_insert hσ hm)⟩
  | failStore =>
    obtain ⟨m', st', rfl, hm, hrest⟩ := exists_of_int_cons hst
    cases (Sign.eq_error_iff_of_below hm).mp rfl
    exact ⟨_, .failStore, below_mk hrest (below_declare hσ _)⟩
  | ignoreStore =>
    obtain ⟨m', st', rfl, hm, hrest⟩ := exists_of_int_cons hst
    exact ⟨_, .ignoreStore, below_mk hrest (below_declare hσ _)⟩
  | hold hg =>
    obtain ⟨u', st', rfl, hu, hrest⟩ := exists_of_bool_cons hst
    exact ⟨_, .hold (Truth.mayHold_of_below hu hg), below_mk hrest hσ⟩
  | refuse hg =>
    obtain ⟨u', st', rfl, hu, hrest⟩ := exists_of_bool_cons hst
    exact ⟨_, .refuse (Truth.mayFail_of_below hu hg), below_mk hrest hσ⟩
  | failGuard =>
    obtain ⟨u', st', rfl, hu, hrest⟩ := exists_of_bool_cons hst
    cases (Truth.eq_error_iff_of_below hu).mp rfl
    exact ⟨_, .failGuard, below_mk hrest hσ⟩
  | ignoreGuard =>
    obtain ⟨u', st', rfl, hu, hrest⟩ := exists_of_bool_cons hst
    cases (Truth.eq_error_iff_of_below hu).mp rfl
    exact ⟨_, .ignoreGuard, below_mk hrest hσ⟩
  | unroll => exact ⟨_, .unroll, below_mk hst hσ⟩
  | attempt => exact ⟨_, .attempt, below_mk hst hσ⟩
  | handle => exact ⟨_, .handle, below_mk hst hσ⟩
  | leave hx => exact ⟨_, .leave hx, below_mk hst hσ⟩

/-- A run of the more precise configuration is followed by one of the same length. -/
theorem Below.reachesIn (h : c.Below c') {n : Nat} (hd : ReachesIn n c d) :
    ∃ d', ReachesIn n c' d' ∧ d.Below d' := by
  induction n generalizing c c' with
  | zero =>
    cases hd
    exact ⟨c', rfl, h⟩
  | succ n ih =>
    obtain ⟨b, hm, hd⟩ := hd
    obtain ⟨b', hm', hb⟩ := h.move hm
    obtain ⟨d', hd', hle⟩ := ih hb hd
    exact ⟨d', ⟨b', hm', hd'⟩, hle⟩

/-! ### Forgetting the signs of variables -/

/-- Sets some variables to any value, one after the other. -/
def weaken (c : Configuration) (names : List Var) : Configuration :=
  names.foldl (fun c y => c.assign y .any) c

theorem weaken_eq (c : Configuration) (names : List Var) :
    c.weaken names = { c with store := names.foldl (fun σ y => σ.insert y .any) c.store } := by
  induction names generalizing c with
  | nil => rfl
  | cons y names ih => exact ih (c.assign y .any)

theorem valueOf_weaken (c : Configuration) (names : List Var) (y : Var) :
    (c.weaken names).valueOf y = if y ∈ names then .any else c.valueOf y := by
  induction names generalizing c with
  | nil => rfl
  | cons z names ih =>
    have hassign : (c.assign z .any).valueOf y = if y = z then .any else c.valueOf y :=
      Store.get_insert c.store z y .any
    show ((c.assign z .any).weaken names).valueOf y = _
    rw [ih, hassign]
    by_cases hy : y ∈ names
    · rw [if_pos hy, if_pos (List.mem_cons_of_mem z hy)]
    · rw [if_neg hy]
      simp only [List.mem_cons, hy, or_false]

/-- Forgetting the signs of variables is a loss of precision, unless one is an error. -/
theorem below_weaken (c : Configuration) {names : List Var}
    (h : ∀ y ∈ names, c.valueOf y ≠ .error) : c.Below (c.weaken names) := by
  have hvalue : ∀ y, Marker.Below (c.valueOf y) ((c.weaken names).valueOf y) := by
    intro y
    rw [valueOf_weaken]
    by_cases hy : y ∈ names
    · rw [if_pos hy]
      exact .inr ⟨h y hy, rfl⟩
    · rw [if_neg hy]
      exact Marker.below_refl _
  rw [weaken_eq] at hvalue ⊢
  exact ⟨rfl, rfl, rfl, rfl, (below_refl c).stack, hvalue⟩

/-- **A less precise configuration simulates a more precise one.**  If `c'` differs from `c`
only in being less precise, both fail to step with the same fault or not at all, every
successor of `c` is more precise than some successor of `c'` in the same sense, and so is
the end of every run from `c` than the end of some run from `c'` of the same length.

In particular, when variables that hold no error are set to any value before a run, all
that the run could come to can still be come to, and so can each way to end. -/
theorem coarser_simulates :
    (∀ c c' : Configuration, c.Below c' →
      (∀ f, c.step = .error f ↔ c'.step = .error f) ∧
      (∀ d, c.Steps d → ∃ d', c'.Steps d' ∧ d.Below d') ∧
      ∀ n d, ReachesIn n c d → ∃ d', ReachesIn n c' d' ∧ d.Below d') ∧
    ∀ (c : Configuration) (names : List Var), (∀ y ∈ names, c.valueOf y ≠ .error) →
      (∀ n d, ReachesIn n c d → ∃ d', ReachesIn n (c.weaken names) d' ∧ d.Below d') ∧
      ∀ x, (∃ d, c.Reachable d ∧ d.isTerminal = true ∧ d.exceptional = x) →
        ∃ d', (c.weaken names).Reachable d' ∧ d'.isTerminal = true ∧ d'.exceptional = x := by
  constructor
  · intro c c' h
    refine ⟨?_, ?_, fun n d hd => h.reachesIn hd⟩
    · intro f
      rw [step_eq_error_iff, step_eq_error_iff, h.fault?_eq]
    · intro d hd
      obtain ⟨d', hd', hle⟩ := h.move hd.move
      exact ⟨d', hd'.steps, hle⟩
  · intro c names hnames
    have h : c.Below (c.weaken names) := c.below_weaken hnames
    refine ⟨fun n d hd => h.reachesIn hd, ?_⟩
    rintro x ⟨d, hd, hterm, hx⟩
    obtain ⟨n, hn⟩ := reachable_iff_reachesIn.mp hd
    obtain ⟨d', hd', hle⟩ := h.reachesIn hn
    exact ⟨d', hd'.reachable, hle.isTerminal_eq.symm.trans hterm, hle.exceptional.symm.trans hx⟩

/-- `x := 1 / y`, for a `y` that is positive -/
def positiveDivision : Configuration :=
  (Configuration.initial [.basic 1 (.fetch "y"), .basic 1 (.push 1), .basic 1 (.arith .div),
    .basic 1 (.store "x")]).assign "y" .positive

/-- When the sign of `y` is forgotten, the division can still end without an exception, and
it can raise one as well. -/
theorem simulates_positiveDivision :
    (∀ y ∈ ["y"], positiveDivision.valueOf y ≠ .error) ∧
      positiveDivision.Below (positiveDivision.weaken ["y"]) ∧
      (∀ f, positiveDivision.step = .error f ↔ (positiveDivision.weaken ["y"]).step = .error f) ∧
      (∃ d, (positiveDivision.weaken ["y"]).Reachable d ∧ d.isTerminal = true ∧
        d.exceptional = false) ∧
      ∃ d, (positiveDivision.weaken ["y"]).Reachable d ∧ d.isTerminal = true ∧
        d.exceptional = true := by
  have hnames : ∀ y ∈ ["y"], positiveDivision.valueOf y ≠ .error := by decide
  have hbelow := positiveDivision.below_weaken hnames
  refine ⟨hnames, hbelow, (coarser_simulates.1 _ _ hbelow).1,
    (coarser_simulates.2 positiveDivision ["y"] hnames).2 false ?_, ?_⟩
  · exact ⟨_, .head .fetch (.head .push (.head (.arith (List.mem_singleton_self _))
      (.head (.assign (by decide)) .refl))), rfl, rfl⟩
  · exact ⟨_, .head .fetch (.head .push (.head (.arith (List.mem_cons_of_mem _
      (List.mem_singleton_self _))) (.head .failStore .refl))), rfl, rfl⟩

end Configuration

end SignAnalysis
