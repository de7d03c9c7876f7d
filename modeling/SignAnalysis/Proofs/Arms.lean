/-
Which arms of a program are entered.

The summary of a guard joins the guards that were tested, and still tells exactly which
arms were entered: one of the values that it joins allows an arm if and only if the join
does.  An arm that is not allowed stays closed, wherever the conditional stands, because
a statement is only come to through the statements around it:

* `Stmt.Enters.chooses` — a statement inside an arm is entered only if the guard allowed
  the arm;
* `Truth.mayBe_iff_of_joins` — the join of some guards allows an arm exactly if one does;
* `Stmt.arms_exact` — an arm is entered exactly if the summary of the guard allows it, and
  otherwise nothing inside it is ever executed, stored or tested.
-/
import SignAnalysis.Proofs.Annotations
import SignAnalysis.Proofs.Flags

namespace SignAnalysis

/-! ### Arms -/

/-- An arm of a conditional, or the body of a loop. -/
structure Arm where
  body : Stmt
  /-- The number of control points in front of those of the body. -/
  before : Nat
  /-- The value of the guard with which the arm is entered. -/
  side : Bool
  /-- What is executed when the body has ended: the loop once more. -/
  again : Code

namespace Arm

/-- The points of the statements in the arm. -/
def points (a : Arm) : List Nat := a.body.points a.before

/-- The code that is executed when the arm is entered. -/
def code (a : Arm) : Code := a.body.code a.before ++ a.again

theorem mem_points {a : Arm} {q : Nat} :
    q ∈ a.points ↔ a.before < q ∧ q ≤ a.before + a.body.pointCount := by
  rw [points, Stmt.points_eq_range', List.mem_range'_1]
  omega

end Arm

namespace Stmt

/-- The arms of the statement with the control point `p`. -/
def arms (p : Nat) : Stmt → List Arm
  | cond _ s t => [⟨s, p, true, []⟩, ⟨t, p + s.pointCount, false, []⟩]
  | loop g s => [⟨s, p, true, [mark p (loop g s)]⟩]
  | assign _ _ | skip | seq _ _ | attempt _ _ => []

/-- The points of an arm lie behind that of its statement and among its points. -/
theorem bounds_of_mem_arms {p : Nat} {u : Stmt} {a : Arm} (ha : a ∈ u.arms p) :
    p ≤ a.before ∧ a.before + a.body.pointCount < p + u.pointCount := by
  cases u with
  | cond g s t =>
    simp only [arms, List.mem_cons, List.not_mem_nil, or_false] at ha
    rcases ha with rfl | rfl
    · simp only [pointCount]
      omega
    · simp only [pointCount]
      omega
  | loop g s =>
    cases List.mem_singleton.mp ha
    simp only [pointCount]
    omega
  | assign | skip | seq | attempt => cases ha

/-- The points of a statement lie among those of the statement around it. -/
theorem bounds_of_mem_numbered {k p : Nat} {s u : Stmt} (h : (u, p) ∈ s.numbered k) :
    k < p ∧ p + u.pointCount ≤ k + s.pointCount + 1 := by
  induction s generalizing k with
  | assign x e =>
    cases List.mem_singleton.mp h
    simp only [pointCount]
    omega
  | skip => cases h
  | seq s t ihs iht =>
    rw [numbered_seq, List.mem_append] at h
    simp only [pointCount]
    rcases h with h | h
    · have := ihs h
      omega
    · have := iht h
      omega
  | cond g s t ihs iht =>
    rw [numbered_cond, List.mem_cons, List.mem_append] at h
    rcases h with h | h | h
    · cases h
      omega
    · have := ihs h
      simp only [pointCount]
      omega
    · have := iht h
      simp only [pointCount]
      omega
  | loop g s ih =>
    rw [numbered_loop, List.mem_cons] at h
    rcases h with h | h
    · cases h
      omega
    · have := ih h
      simp only [pointCount]
      omega
  | attempt s t ihs iht =>
    rw [numbered_attempt, List.mem_cons, List.mem_append] at h
    rcases h with h | h | h
    · cases h
      omega
    · have := ihs h
      simp only [pointCount]
      omega
    · have := iht h
      simp only [pointCount]
      omega

theorem pointCount_pos {t : Stmt} (ht : t.hasPoint = true) : 0 < t.pointCount := by
  cases t with
  | skip | seq => cases ht
  | assign | cond | loop | attempt => exact Nat.succ_pos _

/-! ### Arms that are entered -/

section

variable {s u : Stmt} {p q k : Nat} {a : Arm} (hu : s.statementAt? p = some u) (ha : a ∈ u.arms p)
  (hq : q ∈ a.points)
include hu ha hq

/-- The points of an arm do not go beyond a part of the program that has the point of its
statement. -/
theorem le_of_mem_arm {t : Stmt} (ht : t.numbered k ⊆ s.numbered 0) (hk : k < p)
    (hp : p ≤ k + t.pointCount) : q ≤ k + t.pointCount := by
  have hpoint : p ∈ (t.numbered k).map Prod.snd := by
    rw [map_snd_numbered, points_eq_range', List.mem_range'_1]
    omega
  obtain ⟨⟨u', p'⟩, hmem, hp'⟩ := List.mem_map.mp hpoint
  cases hp'
  -- the statement with the point is the same in the part and in the program
  cases hu.symm.trans (mem_numbered_iff.mp (ht hmem))
  have hbounds := bounds_of_mem_numbered hmem
  have harm := bounds_of_mem_arms ha
  have hq := Arm.mem_points.mp hq
  omega

/-- A statement inside an arm is entered only if the guard has allowed the arm. -/
theorem Enters.chooses {t : Stmt} (h : s.Enters k t) (hp : p ≤ k) (hk : k < q)
    (hqt : q ≤ k + t.pointCount) : s.Chooses p a.side := by
  -- from the statement outwards to the one that the arm belongs to; in the parts that come
  -- before a statement there is nothing with an arm around it
  induction h with
  | program =>
    have hpos := bounds_of_mem_numbered (mem_numbered_iff.mpr hu)
    omega
  | first _ ih =>
    simp only [pointCount] at ih
    exact ih hp hk (by omega)
  | @second k b c h ih =>
    simp only [pointCount] at ih
    by_cases hpk : p ≤ k
    · exact ih hpk (by omega) (by omega)
    · have hle := le_of_mem_arm hu ha hq h.first.numbered_subset (by omega) hp
      omega
  | @yes k g b c h hg ih =>
    simp only [pointCount] at ih
    by_cases hpk : p ≤ k
    · exact ih hpk (by omega) (by omega)
    · obtain rfl : p = k + 1 := by omega
      cases hu.symm.trans (h.statementAt?_eq rfl)
      simp only [arms, List.mem_cons, List.not_mem_nil, or_false] at ha
      rcases ha with rfl | rfl
      · exact hg
      · -- the point is in front of the other arm
        have hq := Arm.mem_points.mp hq
        simp only at hq
        omega
  | @no k g b c h hg ih =>
    simp only [pointCount] at ih
    have hsubset := h.numbered_subset
    rw [numbered_cond] at hsubset
    by_cases hpk : p ≤ k
    · exact ih hpk (by omega) (by omega)
    · by_cases hpk' : p = k + 1
      · subst hpk'
        cases hu.symm.trans (h.statementAt?_eq rfl)
        simp only [arms, List.mem_cons, List.not_mem_nil, or_false] at ha
        rcases ha with rfl | rfl
        · have hq := Arm.mem_points.mp hq
          simp only at hq
          omega
        · exact hg
      · have hle := le_of_mem_arm hu ha hq
          (List.append_subset.mp (List.cons_subset.mp hsubset).2).1 (by omega) hp
        omega
  | @body k g b h hg ih =>
    simp only [pointCount] at ih
    by_cases hpk : p ≤ k
    · exact ih hpk (by omega) (by omega)
    · obtain rfl : p = k + 1 := by omega
      cases hu.symm.trans (h.statementAt?_eq rfl)
      cases List.mem_singleton.mp ha
      exact hg
  | @block k b c h ih =>
    simp only [pointCount] at ih
    by_cases hpk : p ≤ k
    · exact ih hpk (by omega) (by omega)
    · obtain rfl : p = k + 1 := by omega
      cases hu.symm.trans (h.statementAt?_eq rfl)
      cases ha
  | @handler k b c h ih =>
    simp only [pointCount] at ih
    by_cases hpk : p ≤ k
    · exact ih hpk (by omega) (by omega)
    · by_cases hpk' : p = k + 1
      · subst hpk'
        cases hu.symm.trans (h.statementAt?_eq rfl)
        cases ha
      · have hle := le_of_mem_arm hu ha hq h.block.numbered_subset (by omega) hp
        omega

/-- Unless the guard allows the arm, no instruction that stands for a statement inside it is
ever executed. -/
theorem point_ne_of_not_chooses (hnot : ¬s.Chooses p a.side) {c : Configuration}
    (hc : (Configuration.initial s.compile.code).Reachable c) {i : Instruction} {rest : Code}
    (hcode : c.code = i :: rest) (hi : i.isMark = true) : i.point ≠ q := by
  rintro rfl
  obtain ⟨m, k, t, ts, -, -, hentered, ht, hpoint⟩ := exists_enters hc hcode hi
  have hpos := pointCount_pos ht
  have harm := bounds_of_mem_arms ha
  have hbounds := Arm.mem_points.mp hq
  exact hnot (hentered.chooses hu ha hq (by omega) (by omega) (by omega))

/-- Nothing is stored or tested there either. -/
theorem none_of_not_chooses (hnot : ¬s.Chooses p a.side) {f : Findings}
    (hf : s.compile.code.Yields f) : f.rightHandSide? q = none ∧ f.guard? q = none := by
  rw [← Option.not_isSome_iff_eq_none, ← Option.not_isSome_iff_eq_none]
  constructor
  · intro hsome
    obtain ⟨m, c, hc, x, rest, st, hcode, -⟩ :=
      (hf.joinsTo_rightHandSide s.hasEnd q).isSome_iff.mp hsome
    exact point_ne_of_not_chooses hu ha hq hnot hc hcode rfl rfl
  · intro hsome
    obtain ⟨g, c, hc, yes, no, rest, st, hcode, -⟩ :=
      (hf.joinsTo_guard s.hasEnd q).isSome_iff.mp hsome
    exact point_ne_of_not_chooses hu ha hq hnot hc hcode rfl rfl

omit hq in
/-- If some guard allows the arm, a run takes it. -/
theorem exists_entering (h : s.Chooses p a.side) :
    ∃ c d g yes no rest, (Configuration.initial s.compile.code).Reachable c ∧ c.Steps d ∧
      c.code = .branch p yes no :: rest ∧ c.stack = .bool g :: d.stack ∧ g.MayBe a.side ∧
      d.code = a.code ++ rest := by
  obtain ⟨⟨σ, st, code, x, b, e⟩, g, hc, ⟨yes, no, rest, st', hcode, hstack⟩, hg⟩ := h
  cases hcode
  cases hstack
  have hhold : a.side = true → g.mayHold = true := by
    intro hside
    rw [hside] at hg
    exact Truth.mayHold_iff.mpr hg
  have hfail : a.side = false → g.mayFail = true := by
    intro hside
    rw [hside] at hg
    exact Truth.mayFail_iff.mpr hg
  obtain ⟨-, ⟨g', t, t', hat, rfl, rfl⟩ | ⟨g', t, hat, rfl, rfl⟩⟩ := exists_of_branch hc rfl
  · cases hu.symm.trans hat
    simp only [arms, List.mem_cons, List.not_mem_nil, or_false] at ha
    rcases ha with rfl | rfl
    · refine ⟨_, _, g, _, _, rest, hc, (Configuration.Move.hold (hhold rfl)).steps,
        rfl, rfl, hg, ?_⟩
      rw [Arm.code, List.append_nil]
    · refine ⟨_, _, g, _, _, rest, hc, (Configuration.Move.refuse (hfail rfl)).steps,
        rfl, rfl, hg, ?_⟩
      rw [Arm.code, List.append_nil]
  · cases hu.symm.trans hat
    cases List.mem_singleton.mp ha
    exact ⟨_, _, g, _, _, rest, hc, (Configuration.Move.hold (hhold rfl)).steps, rfl, rfl, hg, rfl⟩

end

end Stmt

/-! ### What the summary of a guard allows -/

namespace Truth

theorem mayBe_iff_not_le {m : Truth} {b : Bool} : m.MayBe b ↔ ¬m ≤ ofBool (!b) := by
  cases m <;> cases b <;> decide

/-- The join of some guards allows an arm exactly if one of them does. -/
theorem mayBe_iff_of_joins {S : Set Truth} {m : Truth} (h : Marker.Joins S m) {b : Bool} :
    m.MayBe b ↔ ∃ g ∈ S, g.MayBe b := by
  have hne : ofBool (!b) ≠ .error := by
    cases b <;> decide
  simp only [mayBe_iff_not_le]
  rw [h.le_iff hne]
  push Not
  rfl

theorem MayBe.ne_error {m : Truth} {b : Bool} (h : m.MayBe b) : m ≠ .error := by
  rintro rfl
  cases b <;> rcases h with h | h <;> cases h

end Truth

/-- The guard at the point `p` was tested, and may be `b` according to its summary. -/
def Findings.Allows (f : Findings) (p : Nat) (b : Bool) : Prop :=
  ∃ g, f.guard? p = some g ∧ g.value.MayBe b

instance (f : Findings) (p : Nat) (b : Bool) : Decidable (f.Allows p b) :=
  decidable_of_iff ((f.guard? p).any fun g => decide (g.value.MayBe b)) (by
    simp [Findings.Allows, Option.any_eq_true])

/-- A guard that is flagged for unreachable code is always false, or always true and not that
of a loop. -/
theorem Flag.value_of_unreachable {o : Option (Summary Truth)} {isLoop : Bool}
    (h : ofGuard? o isLoop = some unreachable) :
    ∃ g, o = some g ∧ (g.value = .no ∨ g.value = .yes ∧ isLoop = false) := by
  cases o with
  | none => cases h
  | some g =>
    refine ⟨g, rfl, ?_⟩
    simp only [ofGuard?, Option.bind_some, Option.or_eq_some_iff] at h
    rcases h with h | ⟨-, h⟩
    · rw [ofSummary?_eq] at h
      split_ifs at h <;> cases h
    · split_ifs at h with hvalue
      exact hvalue

namespace Stmt

variable {s : Stmt} {f : Findings}

/-- The summary of a guard allows an arm exactly if some guard that was tested does. -/
theorem allows_iff (hf : s.compile.code.Yields f) {p : Nat} {b : Bool} :
    f.Allows p b ↔ s.Chooses p b := by
  have hjoins := hf.joinsTo_guard s.hasEnd p
  constructor
  · rintro ⟨g, hg, hb⟩
    obtain ⟨v, ⟨⟨c, hc, htests⟩, -⟩, hv⟩ :=
      (Truth.mayBe_iff_of_joins (hjoins.joins g hg).value).mp hb
    exact ⟨c, v, hc, htests, hv⟩
  · rintro ⟨c, v, hc, htests, hv⟩
    obtain ⟨g, hg⟩ := Option.isSome_iff_exists.mp (hjoins.isSome_iff.mpr ⟨v, c, hc, htests⟩)
    refine ⟨g, hg, (Truth.mayBe_iff_of_joins (hjoins.joins g hg).value).mpr ?_⟩
    exact ⟨v, ⟨⟨c, hc, htests⟩, hv.ne_error⟩, hv⟩

/-- The statement is a loop. -/
def isLoop : Stmt → Bool
  | loop _ _ => true
  | assign _ _ | skip | seq _ _ | cond _ _ _ | attempt _ _ => false

/-- If a guard is flagged for unreachable code, its summary does not allow one of the arms. -/
theorem exists_arm_of_unreachable (hf : s.compile.code.Yields f) {p : Nat} {u : Stmt}
    (hu : s.statementAt? p = some u)
    (hflag : Flag.ofGuard? (f.guard? p) u.isLoop = some .unreachable) :
    ∃ a ∈ u.arms p, ¬f.Allows p a.side := by
  obtain ⟨g, hg, hvalue⟩ := Flag.value_of_unreachable hflag
  have hclosed : ∀ b, ¬g.value.MayBe b → ¬f.Allows p b := by
    rintro b hb ⟨g', hg', hb'⟩
    cases hg.symm.trans hg'
    exact hb hb'
  have htested : (f.guard? p).isSome = true := by rw [hg]; rfl
  rcases Findings.testsAt_of_isSome hf htested with ⟨g', t, t', hat⟩ | ⟨g', t, hat⟩
  · cases hu.symm.trans hat
    rcases hvalue with hno | ⟨hyes, -⟩
    · refine ⟨_, List.mem_cons_self .., hclosed true ?_⟩
      rw [hno]
      decide
    · refine ⟨_, List.mem_cons_of_mem _ (List.mem_cons_self ..), hclosed false ?_⟩
      rw [hyes]
      decide
  · cases hu.symm.trans hat
    rcases hvalue with hno | ⟨-, hloop⟩
    · refine ⟨_, List.mem_cons_self .., hclosed true ?_⟩
      rw [hno]
      decide
    · cases hloop

/-- **An arm is entered exactly if the summary of its guard allows it.**  The search of a
program comes to its end.  If the guard of a conditional or of a loop was never tested, or its
summary does not allow an arm, then no instruction was met that stands for a statement inside
the arm, and nothing was stored or tested there.  Otherwise the arm was entered from the
conditional.  A flag about unreachable code means that some arm is not allowed. -/
theorem arms_exact (s : Stmt) :
    (∃ fuel t, (Search.start s.compile.code none).run fuel = (t, .finished)) ∧
      ∀ fuel t, (Search.start s.compile.code none).run fuel = (t, .finished) →
        ∀ p u, s.statementAt? p = some u →
          (∀ a ∈ u.arms p,
            (¬t.findings.Allows p a.side →
              (∀ c ∈ t.visited, ∀ i rest, c.code = i :: rest → i.isMark = true →
                i.point ∉ a.points) ∧
              ∀ q ∈ a.points, t.findings.rightHandSide? q = none ∧ t.findings.guard? q = none) ∧
            (t.findings.Allows p a.side →
              ∃ c ∈ t.visited, ∃ d ∈ t.visited, ∃ g yes no rest, c.Steps d ∧
                c.code = .branch p yes no :: rest ∧ c.stack = .bool g :: d.stack ∧
                g.MayBe a.side ∧ d.code = a.code ++ rest)) ∧
          (t.findings.guardFlag? p u.isLoop = some "Unreachable code!" →
            ∃ a ∈ u.arms p, ¬t.findings.Allows p a.side) := by
  constructor
  · obtain ⟨n, hn⟩ := s.exists_run_finished
    exact ⟨n, hn n (Nat.le_refl n)⟩
  · intro fuel t h p u hu
    have hf := Code.yields_of_run_eq h
    have hvisited := Search.mem_visited_iff_of_run h
    refine ⟨?_, ?_⟩
    · intro a ha
      rw [allows_iff hf]
      refine ⟨?_, ?_⟩
      · intro hnot
        refine ⟨?_, ?_⟩
        · intro c hc i rest hcode hi hq
          exact point_ne_of_not_chooses hu ha hq hnot ((hvisited c).mp hc) hcode hi rfl
        · intro q hq
          exact none_of_not_chooses hu ha hq hnot hf
      · intro hchooses
        obtain ⟨c, d, g, yes, no, rest, hc, hstep, hd⟩ := exists_entering hu ha hchooses
        exact ⟨c, (hvisited c).mpr hc, d, (hvisited d).mpr (hc.tail hstep), g, yes, no, rest,
          hstep, hd⟩
    · intro hflag
      exact exists_arm_of_unreachable hf hu (Flag.map_text_eq_some_iff.mp hflag)

/-- `while x = 0 do if 0 = 1 then y := 1 else skip` -/
def closedArm : Stmt :=
  .loop (.compare .eq (.var "x") (.num 0))
    (.cond (.compare .eq (.num 0) (.num 1)) (.assign "y" (.num 1)) .skip)

/-- The body of the loop is entered, and the assignment in it never executed. -/
theorem arms_at_closedArm :
    ∃ t, (Search.start closedArm.compile.code none).run 100 = (t, .finished) ∧
      (t.findings.Allows 1 true ∧ ∃ c ∈ t.visited, ∃ d ∈ t.visited, ∃ g yes no rest, c.Steps d ∧
        c.code = .branch 1 yes no :: rest ∧ c.stack = .bool g :: d.stack ∧ g.MayBe true ∧
        d.code =
          (.cond (.compare .eq (.num 0) (.num 1)) (.assign "y" (.num 1)) .skip : Stmt).code 1 ++
            [closedArm.mark 1] ++ rest) ∧
      ¬t.findings.Allows 2 true ∧
      (∀ c ∈ t.visited, ∀ i rest, c.code = i :: rest → i.isMark = true → i.point ∉ [3]) ∧
      t.findings.rightHandSide? 3 = none := by
  have hend : ((Search.start closedArm.compile.code none).run 100).2 = .finished := by
    decide +kernel
  have hrun : (Search.start closedArm.compile.code none).run 100 =
      (((Search.start closedArm.compile.code none).run 100).1, .finished) := by
    rw [← hend]
  have hloop := ((arms_exact closedArm).2 100 _ hrun 1 _ rfl).1 _ (List.mem_singleton_self _)
  have hcond := ((arms_exact closedArm).2 100 _ hrun 2 _ rfl).1 _ (List.mem_cons_self ..)
  have hopen : ((Search.start closedArm.compile.code none).run 100).1.findings.Allows 1 true := by
    decide +kernel
  have hclosed :
      ¬((Search.start closedArm.compile.code none).run 100).1.findings.Allows 2 true := by
    decide +kernel
  obtain ⟨hmarks, hnone⟩ := hcond.1 hclosed
  exact ⟨_, hrun, ⟨hopen, hloop.2 hopen⟩, hclosed, hmarks, (hnone 3 (List.mem_singleton_self 3)).1⟩

end Stmt

end SignAnalysis
