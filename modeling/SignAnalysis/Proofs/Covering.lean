/-
What markers say about values.

A sign covers the integers that it stands for, and a marker describes the result
of an evaluation: an error describes an exception, `uninitialized` a copied
undefined value, and all else the values it covers.  Evaluation of markers keeps
pace with evaluation of values:

* `Sign.exists_arith`, `Sign.exists_compare` — the operators;
* `Expr.exists_outcome`, `Guard.exists_outcome` — whatever an expression comes
  to, one of its outcomes describes it.
-/
import SignAnalysis.Proofs.Evaluation
import SignAnalysis.Proofs.Execution

namespace SignAnalysis

/-- The integers that a sign stands for. -/
def Sign.Covers : Sign → Int → Prop
  | negative, n => n < 0
  | zero, n => n = 0
  | positive, n => 0 < n
  | any, _ => True
  | uninitialized, _ | error, _ => False

/-- The truth values that a marker stands for. -/
def Truth.Covers : Truth → Bool → Prop
  | yes, b => b = true
  | no, b => b = false
  | any, _ => True
  | uninitialized, _ | error, _ => False

/-- The marker of an expression that comes to this result. -/
def Sign.Describes (m : Sign) : Result (Option Int) → Prop
  | .value (some n) => m.Covers n
  | .value none => m = uninitialized
  | .raised => m = error

/-- The marker of a guard that comes to this result. -/
def Truth.Describes (m : Truth) : Result Bool → Prop
  | .value b => m.Covers b
  | .raised => m = error

/-! ### Operators -/

namespace Sign

theorem covers_ofInt (n : Int) : (ofInt n).Covers n := by
  unfold ofInt
  split
  · assumption
  · split
    · assumption
    · show 0 < n
      omega

theorem covers_join_left {m : Sign} {n : Int} (h : m.Covers n) (m' : Sign) :
    (Marker.join m m').Covers n := by
  cases m <;> cases m' <;> first | exact h | trivial

theorem covers_negate {m : Sign} {n : Int} (h : m.Covers n) : m.negate.Covers (-n) := by
  cases m <;> simp only [negate, Covers] at h ⊢ <;> omega

theorem covers_sum {a b : Sign} {i j : Int} (ha : a.Covers i) (hb : b.Covers j) :
    (sum a b).Covers (i + j) := by
  cases a <;> cases b <;> simp only [sum, Covers] at ha hb ⊢ <;> omega

theorem covers_product {a b : Sign} {i j : Int} (ha : a.Covers i) (hb : b.Covers j) :
    (product a b).Covers (i * j) := by
  cases a <;> cases b <;> first
    | exact ha.elim
    | exact hb.elim
    | exact trivial
    | exact Int.mul_pos_of_neg_of_neg ha hb
    | exact Int.mul_neg_of_neg_of_pos ha hb
    | exact Int.mul_neg_of_pos_of_neg ha hb
    | exact Int.mul_pos ha hb
    | exact (show i = 0 from ha) ▸ Int.zero_mul j
    | exact (show j = 0 from hb) ▸ Int.mul_zero i

/-- What an operator sees of an operand covers the integer that it stands for. -/
theorem covers_asOperand {m : Sign} {a : Option Int} {i : Int} (hm : m.Describes (.value a))
    (hi : StandsFor a i) : (Marker.asOperand m).Covers i := by
  cases a with
  | none =>
    cases (hm : m = .uninitialized)
    trivial
  | some n =>
    cases (hi : i = n)
    have hu : m ≠ .uninitialized := by
      rintro rfl
      exact hm
    have hop : Marker.asOperand m = m := if_neg hu
    rw [hop]
    exact hm

theorem ne_error_of_describes {m : Sign} {a : Option Int} (hm : m.Describes (.value a)) :
    m ≠ .error := by
  rintro rfl
  cases a <;> cases hm

/-- A strict operator describes what comes of its operands, if its table does. -/
theorem exists_strict {β γ : Type} [Marker β] (describes : β → Result γ → Prop)
    (hraised : describes Marker.error .raised) {table : Sign → Sign → List β}
    {combines : Option Int → Option Int → Result γ → Prop}
    (htable : ∀ {l r : Sign} {a b : Option Int} {o : Result γ}, l.Describes (.value a) →
      r.Describes (.value b) → combines a b o →
      ∃ m ∈ table (Marker.asOperand l) (Marker.asOperand r), describes m o)
    {l r : Sign} {a b : Result (Option Int)} {o : Result γ} (hl : l.Describes a)
    (hr : r.Describes b) (ho : Strict combines a b o) :
    ∃ m ∈ strict table l r, describes m o := by
  cases ho with
  | values h =>
    -- operands that have values are no errors, so that the table decides
    have hne : ¬(l = .error ∨ r = .error) := by
      rintro (hl' | hr')
      · exact ne_error_of_describes hl hl'
      · exact ne_error_of_describes hr hr'
    rw [strict, if_neg hne]
    exact htable hl hr h
  | left =>
    rw [strict, if_pos (.inl hl)]
    exact ⟨_, List.mem_singleton_self _, hraised⟩
  | right =>
    rw [strict, if_pos (.inr hr)]
    exact ⟨_, List.mem_singleton_self _, hraised⟩

theorem exists_quotient {m : Sign} {i j : Int} {o : Result (Option Int)} (hm : m.Covers j)
    (ho : ArithOp.div.Gives i j o) : ∃ q ∈ quotients m, q.Describes o := by
  cases ho with
  | div hj hq =>
    -- a quotient may have any sign, and only a divisor known to be zero has none
    have hany : Sign.any ∈ quotients m := by
      cases m with
      | zero => exact absurd hm hj
      | uninitialized | error => exact hm.elim
      | negative | positive | any => exact List.mem_cons_self ..
    exact ⟨_, hany, trivial⟩
  | divZero =>
    have herror : Sign.error ∈ quotients m := by
      cases m with
      | negative | positive => exact absurd hm (Int.lt_irrefl 0)
      | uninitialized | error => exact hm.elim
      | zero => exact List.mem_cons_self ..
      | any => exact List.mem_cons_of_mem _ (List.mem_cons_self ..)
    exact ⟨_, herror, rfl⟩

/-- An operator without exceptions is described by a table with one outcome that covers
its values. -/
theorem exists_total (table : Sign → Sign → Sign) {op : ArithOp} {value : Int → Int → Int}
    (hgives : ∀ {i j o}, op.Gives i j o → o = .value (some (value i j)))
    (hcovers : ∀ {a b i j}, Covers a i → Covers b j → (table a b).Covers (value i j))
    {l r : Sign} {a b o : Result (Option Int)} (hl : l.Describes a) (hr : r.Describes b)
    (ho : Strict op.Combines a b o) :
    ∃ m ∈ strict (fun a b => [table a b]) l r, m.Describes o := by
  refine exists_strict Describes rfl ?_ hl hr ho
  rintro l r a b o hl hr ⟨i, j, hi, hj, hg⟩
  rw [hgives hg]
  exact ⟨_, List.mem_singleton_self _, hcovers (covers_asOperand hl hi) (covers_asOperand hr hj)⟩

/-- One outcome of an arithmetic operator describes what comes of its operands. -/
theorem exists_arith {op : ArithOp} {l r : Sign} {a b o : Result (Option Int)}
    (hl : l.Describes a) (hr : r.Describes b) (ho : Strict op.Combines a b o) :
    ∃ m ∈ arith op l r, m.Describes o := by
  cases op with
  | add => exact exists_total sum (by rintro i j o ⟨⟩; rfl) covers_sum hl hr ho
  | sub =>
    refine exists_total (fun a b => sum a (negate b)) (by rintro i j o ⟨⟩; rfl) ?_ hl hr ho
    intro a b i j ha hb
    rw [Int.sub_eq_add_neg]
    exact covers_sum ha (covers_negate hb)
  | mul => exact exists_total product (by rintro i j o ⟨⟩; rfl) covers_product hl hr ho
  | div =>
    show ∃ m ∈ strict (fun _ b => quotients b) l r, m.Describes o
    refine exists_strict Describes rfl ?_ hl hr ho
    rintro l r a b o hl hr ⟨i, j, hi, hj, hg⟩
    exact exists_quotient (covers_asOperand hr hj) hg

theorem int_sign_cases (n : Int) :
    (n < 0 ∧ n.sign = -1) ∨ (n = 0 ∧ n.sign = 0) ∨ (0 < n ∧ n.sign = 1) := by
  rcases Int.lt_trichotomy n 0 with h | h | h
  · exact .inl ⟨h, Int.sign_eq_neg_one_of_neg h⟩
  · exact .inr (.inl ⟨h, Int.sign_eq_zero_iff_zero.mpr h⟩)
  · exact .inr (.inr ⟨h, Int.sign_eq_one_of_pos h⟩)

/-- The rank of a sign is the sign of the integers that it covers. -/
theorem eq_sign_of_rank {m : Sign} {n l : Int} (hm : m.Covers n) (hl : m.rank = some l) :
    l = n.sign := by
  cases m with
  | negative =>
    cases hl
    exact (Int.sign_eq_neg_one_of_neg hm).symm
  | zero =>
    cases hl
    cases (hm : n = 0)
    rfl
  | positive =>
    cases hl
    exact (Int.sign_eq_one_of_pos hm).symm
  | any | uninitialized | error => cases hl

theorem covers_compareRanks (op : CompareOp) (i j : Int) :
    (compareRanks op i.sign j.sign).Covers (op.holds i j) := by
  -- ranks that differ settle a comparison, and equal ones only if both are zero
  have hi := int_sign_cases i
  have hj := int_sign_cases j
  cases op with
  | eq =>
    simp only [compareRanks]
    split
    · rename_i hne
      exact decide_eq_false (by omega)
    · split
      · rename_i heq hzero
        exact decide_eq_true (by omega)
      · trivial
  | le =>
    simp only [compareRanks]
    split
    · rename_i hlt
      exact decide_eq_true (by omega)
    · split
      · rename_i hgt
        exact decide_eq_false (by omega)
      · trivial

/-- The outcome of a comparison describes what comes of its operands. -/
theorem exists_compare {op : CompareOp} {l r : Sign} {a b : Result (Option Int)} {o : Result Bool}
    (hl : l.Describes a) (hr : r.Describes b) (ho : Strict op.Combines a b o) :
    ∃ g ∈ compare op l r, g.Describes o := by
  refine exists_strict Truth.Describes rfl ?_ hl hr ho
  rintro l r a b o hl hr ⟨i, j, hi, hj, rfl⟩
  split
  · rename_i l' r' hl' hr'
    refine ⟨_, List.mem_singleton_self _, ?_⟩
    rw [eq_sign_of_rank (covers_asOperand hl hi) hl', eq_sign_of_rank (covers_asOperand hr hj) hr']
    exact covers_compareRanks op i j
  · exact ⟨_, List.mem_singleton_self _, trivial⟩

end Sign

namespace Truth

theorem covers_ofBool (b : Bool) : (ofBool b).Covers b := by
  cases b <;> rfl

theorem covers_join_left {m : Truth} {b : Bool} (h : m.Covers b) (m' : Truth) :
    (Marker.join m m').Covers b := by
  cases m <;> cases m' <;> first | exact h | trivial

theorem describes_not {m : Truth} {b : Bool} (h : m.Covers b) : m.not.Covers !b := by
  cases m with
  | yes | no =>
    cases (h : b = _)
    rfl
  | any => trivial
  | uninitialized | error => exact h.elim

/-- The conjunction describes what comes of its operands. -/
theorem describes_and {l r : Truth} {a b o : Result Bool} (hl : l.Describes a)
    (hr : r.Describes b) (ho : Strict (fun a b o => o = .value (a && b)) a b o) :
    (l.and r).Describes o := by
  cases ho with
  | values h =>
    subst h
    rename_i a b
    cases l <;> cases r <;> cases a <;> cases b <;> first | rfl | trivial
  | left =>
    cases (hl : l = .error)
    cases r <;> rfl
  | right =>
    cases (hr : r = .error)
    cases l <;> rfl

end Truth

/-! ### Expressions -/

/-- One outcome of an expression describes what the expression comes to. -/
theorem Expr.exists_outcome {f : Var → Sign} {μ : Memory}
    (hf : ∀ y, (f y).Describes (.value (μ y))) {e : Expr} {o : Result (Option Int)}
    (he : e.Evaluates μ o) : ∃ m ∈ e.outcomes f, m.Describes o := by
  induction he with
  | num => exact ⟨_, List.mem_singleton_self _, Sign.covers_ofInt _⟩
  | @var y => exact ⟨_, List.mem_singleton_self _, hf y⟩
  | binary _ _ ho ihl ihr =>
    obtain ⟨a, ha, hda⟩ := ihl
    obtain ⟨b, hb, hdb⟩ := ihr
    obtain ⟨m, hm, hdm⟩ := Sign.exists_arith hda hdb ho
    exact ⟨m, List.mem_flatMap.mpr ⟨a, ha, List.mem_flatMap.mpr ⟨b, hb, hm⟩⟩, hdm⟩

/-- One outcome of a guard describes what the guard comes to. -/
theorem Guard.exists_outcome {f : Var → Sign} {μ : Memory}
    (hf : ∀ y, (f y).Describes (.value (μ y))) {g : Guard} {o : Result Bool}
    (hg : g.Evaluates μ o) : ∃ m ∈ g.outcomes f, m.Describes o := by
  induction hg with
  | const => exact ⟨_, List.mem_singleton_self _, Truth.covers_ofBool _⟩
  | compare hl hr ho =>
    obtain ⟨a, ha, hda⟩ := Expr.exists_outcome hf hl
    obtain ⟨b, hb, hdb⟩ := Expr.exists_outcome hf hr
    obtain ⟨m, hm, hdm⟩ := Sign.exists_compare hda hdb ho
    exact ⟨m, List.mem_flatMap.mpr ⟨a, ha, List.mem_flatMap.mpr ⟨b, hb, hm⟩⟩, hdm⟩
  | not _ ih =>
    obtain ⟨m, hm, hdm⟩ := ih
    exact ⟨_, List.mem_map_of_mem hm, Truth.describes_not hdm⟩
  | notRaised _ ih =>
    obtain ⟨m, hm, rfl⟩ := ih
    exact ⟨_, List.mem_map_of_mem hm, rfl⟩
  | and _ _ ho ihl ihr =>
    obtain ⟨a, ha, hda⟩ := ihl
    obtain ⟨b, hb, hdb⟩ := ihr
    exact ⟨_, List.mem_flatMap.mpr ⟨a, ha, List.mem_map_of_mem hb⟩,
      Truth.describes_and hda hdb ho⟩

end SignAnalysis
