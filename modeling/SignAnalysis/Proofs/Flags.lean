/-
What the flags of a report mean.

A flag is read off a summary, and a summary does not tell whether all evaluations raised
or whether some found a variable without a value as well.  In a program this does not
happen at one point: no store holds an error (`Reachable.errorFree`), so only an operator
gives one, and what an operator gives is never a value that was not given.

* `Expr.uninitialized_not_mem_outcomes` — an expression that can raise always has a value
  or raises;
* `Flag.ofSummary?_iff` — the flags of a summary, in terms of the evaluations that it is
  made of;
* `Stmt.flags_exact` — so the flags of a report say what was met on top of the stack.
-/
import SignAnalysis.Proofs.Entry
import SignAnalysis.Proofs.Progress
import SignAnalysis.Proofs.StoreEffects
import SignAnalysis.Report.Flag

namespace SignAnalysis

/-! ### Flags of summaries -/

namespace Flag

theorem text_injective : Function.Injective text := by
  intro f g h
  cases f <;> cases g <;> simp [text] at h ⊢

theorem map_text_eq_some_iff {o : Option Flag} {f : Flag} :
    o.map text = some f.text ↔ o = some f :=
  (Option.map_injective text_injective).eq_iff (b := some f)

section

variable {α : Type} [DecidableEq α] [Marker α]

theorem ofSummary?_eq (s : Summary α) :
    ofSummary? s =
      if s.value = Marker.uninitialized then some (if s.raises then raises else uninitialized)
      else if s.raises then some mayRaise else none := by
  by_cases hv : s.value = Marker.uninitialized <;> cases hr : s.raises <;>
    simp [ofSummary?, Summary.definitelyRaises, Summary.possiblyRaises, Summary.isUninitialized,
      hv, hr]

variable [Marker.Distinct α] {S : Set α} {s : Summary α}

/-- The flags of a summary, in terms of the evaluations that it is made of, if these do not
both raise and lack a value. -/
theorem ofSummary?_iff (h : Summary.Joins S s) (hne : S.Nonempty)
    (hS : Marker.error ∈ S → Marker.uninitialized ∉ S) :
    (ofSummary? s = some raises ↔ ∀ m ∈ S, m = Marker.error) ∧
      (ofSummary? s = some mayRaise ↔ Marker.error ∈ S ∧ ∃ m ∈ S, m ≠ Marker.error) ∧
      (ofSummary? s = some uninitialized ↔ ∀ m ∈ S, m = Marker.uninitialized) := by
  have hvalue : s.value = Marker.uninitialized ↔
      ∀ m ∈ S, m ≠ Marker.error → m = Marker.uninitialized := by
    rw [h.value.eq_uninitialized_iff fun hmem => hmem.2 rfl]
    simp
  obtain ⟨a, ha⟩ := hne
  rw [ofSummary?_eq]
  by_cases herror : Marker.error ∈ S
  · -- one evaluation raises, so that all others have a value
    have hall : s.value = Marker.uninitialized ↔ ∀ m ∈ S, m = Marker.error := by
      rw [hvalue]
      refine forall₂_congr fun m hm => ?_
      have hm' : m ≠ Marker.uninitialized := fun heq => hS herror (heq ▸ hm)
      tauto
    rw [h.raises_iff.mpr herror, ← hall]
    have hother : (∃ m ∈ S, m ≠ Marker.error) ↔ s.value ≠ Marker.uninitialized := by
      rw [ne_eq, hall]
      push Not
      rfl
    have hfirst : ¬∀ m ∈ S, m = Marker.uninitialized := fun hm =>
      Marker.Distinct.uninitialized_ne_error (hm _ herror).symm
    rw [hother]
    by_cases hv : s.value = Marker.uninitialized <;> simp [hv, herror, hfirst]
  · -- none raises
    have hall : s.value = Marker.uninitialized ↔ ∀ m ∈ S, m = Marker.uninitialized := by
      rw [hvalue]
      refine forall₂_congr fun m hm => ?_
      have hm' : m ≠ Marker.error := fun heq => herror (heq ▸ hm)
      tauto
    have hraises : s.raises = false := by
      rw [← Bool.not_eq_true, h.raises_iff]
      exact herror
    have hfirst : ¬∀ m ∈ S, m = Marker.error := fun hm => herror (hm a ha ▸ ha)
    rw [hraises, ← hall]
    by_cases hv : s.value = Marker.uninitialized <;> simp [hv, herror, hfirst]

end

/-- A guard has the flags of its summary, and else the one about unreachable code. -/
theorem ofGuard?_eq_some_iff {o : Option (Summary Truth)} {isLoop : Bool} {f : Flag}
    (hf : f ≠ unreachable) : ofGuard? o isLoop = some f ↔ o.bind ofSummary? = some f := by
  cases o with
  | none => rfl
  | some g =>
    show (ofSummary? g).or _ = some f ↔ ofSummary? g = some f
    cases ofSummary? g with
    | some f' => rfl
    | none =>
      rw [Option.none_or]
      split_ifs <;> simp [Ne.symm hf]

end Flag

/-! ### Evaluations that raise -/

theorem Sign.ofInt_ne_uninitialized (n : Int) : ofInt n ≠ uninitialized := by
  unfold ofInt
  split_ifs <;> exact noConfusion

theorem Sign.uninitialized_not_mem_arith (op : ArithOp) (a b : Sign) :
    uninitialized ∉ arith op a b := by
  cases op <;> cases a <;> cases b <;> decide

/-- An expression that raises somewhere has a value or raises wherever it is evaluated. -/
theorem Expr.uninitialized_not_mem_outcomes {e : Expr} {σ : Store} (hσ : σ.ErrorFree)
    (he : .error ∈ e.outcomes σ.get) (f : Var → Sign) : .uninitialized ∉ e.outcomes f := by
  cases e with
  | num n =>
    intro hmem
    exact Sign.ofInt_ne_uninitialized n (List.mem_singleton.mp hmem).symm
  | var x => exact absurd (List.mem_singleton.mp he).symm (hσ x)
  | binary op l r =>
    intro hmem
    obtain ⟨a, -, hmem⟩ := List.mem_flatMap.mp hmem
    obtain ⟨b, -, hmem⟩ := List.mem_flatMap.mp hmem
    exact Sign.uninitialized_not_mem_arith op a b hmem

/-! ### What lies on top of the stack -/

namespace Configuration

/-- The next instruction is the store of the point `p`. -/
def AtStore (c : Configuration) (p : Nat) : Prop :=
  ∃ y rest, c.code = .basic p (.store y) :: rest

/-- The next instruction is the conditional of the point `p`. -/
def AtBranch (c : Configuration) (p : Nat) : Prop :=
  ∃ yes no rest, c.code = .branch p yes no :: rest

theorem stores_iff_top {c : Configuration} {p : Nat} {m : Sign} :
    c.Stores p m ↔ c.AtStore p ∧ c.stack.head? = some (.int m) := by
  simp only [Stores, AtStore, List.head?_eq_some_iff]
  tauto

theorem tests_iff_top {c : Configuration} {p : Nat} {g : Truth} :
    c.Tests p g ↔ c.AtBranch p ∧ c.stack.head? = some (.bool g) := by
  simp only [Tests, AtBranch, List.head?_eq_some_iff]
  tauto

end Configuration

namespace Search

/-- There are configurations of a kind among those that were met, and all have `o` on top of
the stack. -/
def AllTop (t : Search) (kind : Configuration → Prop) (o : Operand) : Prop :=
  (∃ c ∈ t.visited, kind c) ∧ ∀ c ∈ t.visited, kind c → c.stack.head? = some o

/-- Some configurations of a kind that were met have `o` on top of the stack, and some do
not. -/
def SomeTop (t : Search) (kind : Configuration → Prop) (o : Operand) : Prop :=
  (∃ c ∈ t.visited, kind c ∧ c.stack.head? = some o) ∧
    ∃ c ∈ t.visited, kind c ∧ c.stack.head? ≠ some o

section

variable {α : Type} {t : Search} {kind : Configuration → Prop} {inj : α → Operand}

/-- What the configurations of a kind that were met have on top of the stack. -/
def tops (t : Search) (kind : Configuration → Prop) (inj : α → Operand) : Set α :=
  {a | ∃ c ∈ t.visited, kind c ∧ c.stack.head? = some (inj a)}

variable (htop : ∀ c ∈ t.visited, kind c → ∃ a, c.stack.head? = some (inj a))
include htop

theorem tops_nonempty_iff : (t.tops kind inj).Nonempty ↔ ∃ c ∈ t.visited, kind c := by
  constructor
  · rintro ⟨a, c, hc, hkind, -⟩
    exact ⟨c, hc, hkind⟩
  · rintro ⟨c, hc, hkind⟩
    obtain ⟨a, ha⟩ := htop c hc hkind
    exact ⟨a, c, hc, hkind, ha⟩

theorem allTop_iff (hinj : Function.Injective inj) {a : α} :
    t.AllTop kind (inj a) ↔ (t.tops kind inj).Nonempty ∧ ∀ b ∈ t.tops kind inj, b = a := by
  rw [AllTop, tops_nonempty_iff htop]
  refine and_congr_right fun _ => ⟨?_, ?_⟩
  · rintro hall b ⟨c, hc, hkind, hb⟩
    exact hinj (Option.some.inj (hb.symm.trans (hall c hc hkind)))
  · intro hall c hc hkind
    obtain ⟨b, hb⟩ := htop c hc hkind
    rw [hb, hall b ⟨c, hc, hkind, hb⟩]

theorem someTop_iff (hinj : Function.Injective inj) {a : α} :
    t.SomeTop kind (inj a) ↔ a ∈ t.tops kind inj ∧ ∃ b ∈ t.tops kind inj, b ≠ a := by
  rw [SomeTop]
  refine and_congr_right fun _ => ⟨?_, ?_⟩
  · rintro ⟨c, hc, hkind, hne⟩
    obtain ⟨b, hb⟩ := htop c hc hkind
    exact ⟨b, ⟨c, hc, hkind, hb⟩, fun heq => hne (heq ▸ hb)⟩
  · rintro ⟨b, ⟨c, hc, hkind, hb⟩, hne⟩
    refine ⟨c, hc, hkind, fun ha => hne ?_⟩
    exact hinj (Option.some.inj (hb.symm.trans ha))

variable [DecidableEq α] [Marker α] [Marker.Distinct α] {o : Option (Summary α)}

/-- The flags of the summary of what lies on top of the stack. -/
theorem flags_of_tops (hinj : Function.Injective inj)
    (ho : Summary.JoinsTo (t.tops kind inj) o)
    (hexclusive : Marker.error ∈ t.tops kind inj → Marker.uninitialized ∉ t.tops kind inj) :
    (o.bind Flag.ofSummary? = some .raises ↔ t.AllTop kind (inj Marker.error)) ∧
      (o.bind Flag.ofSummary? = some .mayRaise ↔ t.SomeTop kind (inj Marker.error)) ∧
      (o.bind Flag.ofSummary? = some .uninitialized ↔
        t.AllTop kind (inj Marker.uninitialized)) := by
  rw [allTop_iff htop hinj, allTop_iff htop hinj, someTop_iff htop hinj]
  cases o with
  | none =>
    -- nothing was met, and there is no flag
    have hempty : ¬(t.tops kind inj).Nonempty := by
      intro hne
      exact Bool.false_ne_true (ho.isSome_iff.mpr hne)
    have hsome : ¬(Marker.error ∈ t.tops kind inj ∧ ∃ b ∈ t.tops kind inj, b ≠ Marker.error) :=
      fun h => hempty ⟨_, h.1⟩
    simp [hempty, hsome]
  | some s =>
    have hne : (t.tops kind inj).Nonempty := ho.isSome_iff.mp rfl
    obtain ⟨hraises, hmay, huninitialized⟩ :=
      Flag.ofSummary?_iff (ho.joins s rfl) hne hexclusive
    refine ⟨?_, hmay, ?_⟩
    · exact hraises.trans (and_iff_right hne).symm
    · exact huninitialized.trans (and_iff_right hne).symm

end

end Search

/-! ### The flags of a report -/

/-- The flag on the right-hand side at a point, in words. -/
def Findings.assignFlag? (f : Findings) (p : Nat) : Option String :=
  (Flag.ofRightHandSide? (f.rightHandSide? p)).map Flag.text

/-- The flag on the guard at a point, in words. -/
def Findings.guardFlag? (f : Findings) (p : Nat) (isLoop : Bool) : Option String :=
  (Flag.ofGuard? (f.guard? p) isLoop).map Flag.text

namespace Stmt

section

variable {s : Stmt} {t : Search} {fuel : Nat}
  (h : (Search.start s.compile.code none).run fuel = (t, .finished)) (p : Nat)
include h

theorem rightHandSide_flags :
    (Flag.ofRightHandSide? (t.findings.rightHandSide? p) = some .raises ↔
        t.AllTop (·.AtStore p) (.int .error)) ∧
      (Flag.ofRightHandSide? (t.findings.rightHandSide? p) = some .mayRaise ↔
        t.SomeTop (·.AtStore p) (.int .error)) ∧
      (Flag.ofRightHandSide? (t.findings.rightHandSide? p) = some .uninitialized ↔
        t.AllTop (·.AtStore p) (.int .uninitialized)) := by
  have hyields := Code.yields_of_run_eq h
  have hvisited := Search.mem_visited_iff_of_run h
  have hset : t.tops (·.AtStore p) Operand.int =
      {m | ∃ c, (Configuration.initial s.compile.code).Reachable c ∧ c.Stores p m} := by
    ext m
    simp only [Search.tops, hvisited, Configuration.stores_iff_top]
  refine Search.flags_of_tops ?_ (fun _ _ => Operand.int.inj) ?_ ?_
  · rintro c hc ⟨y, rest, hcode⟩
    obtain ⟨e, v, -, -, hstack⟩ := exists_of_store ((hvisited c).mp hc) hcode
    exact ⟨v, hstack ▸ rfl⟩
  · rw [hset]
    exact hyields.joinsTo_rightHandSide s.hasEnd p
  · -- the point has one right-hand side
    rw [hset]
    rintro ⟨c, hc, y, rest, st, hcode, hstack⟩ ⟨c', hc', y', rest', st', hcode', hstack'⟩
    obtain ⟨e, v, hat, hv, hv'⟩ := exists_of_store hc hcode
    obtain ⟨e', w, hat', hw, hw'⟩ := exists_of_store hc' hcode'
    cases hat.symm.trans hat'
    cases hstack.symm.trans hv'
    cases hstack'.symm.trans hw'
    exact Expr.uninitialized_not_mem_outcomes hc.errorFree hv _ hw

theorem guard_flags (isLoop : Bool) :
    (Flag.ofGuard? (t.findings.guard? p) isLoop = some .raises ↔
        t.AllTop (·.AtBranch p) (.bool .error)) ∧
      (Flag.ofGuard? (t.findings.guard? p) isLoop = some .mayRaise ↔
        t.SomeTop (·.AtBranch p) (.bool .error)) ∧
      Flag.ofGuard? (t.findings.guard? p) isLoop ≠ some .uninitialized := by
  have hyields := Code.yields_of_run_eq h
  have hvisited := Search.mem_visited_iff_of_run h
  have hset : t.tops (·.AtBranch p) Operand.bool =
      {g | ∃ c, (Configuration.initial s.compile.code).Reachable c ∧ c.Tests p g} := by
    ext m
    simp only [Search.tops, hvisited, Configuration.tests_iff_top]
  -- a truth value on the stack is one that was given
  have hgiven : Truth.uninitialized ∉ t.tops (·.AtBranch p) Operand.bool := by
    rintro ⟨c, hc, -, htop⟩
    exact decided_of_reachable ((hvisited c).mp hc) (List.mem_of_head? htop)
  have htop : ∀ c ∈ t.visited, c.AtBranch p → ∃ g, c.stack.head? = some (.bool g) := by
    rintro c hc ⟨yes, no, rest, hcode⟩
    obtain ⟨⟨v, hstack⟩, -⟩ := exists_of_branch ((hvisited c).mp hc) hcode
    exact ⟨v, hstack ▸ rfl⟩
  have hjoins : Summary.JoinsTo (t.tops (·.AtBranch p) Operand.bool) (t.findings.guard? p) := by
    rw [hset]
    exact hyields.joinsTo_guard s.hasEnd p
  obtain ⟨hraises, hmay, huninitialized⟩ :=
    Search.flags_of_tops htop (fun _ _ => Operand.bool.inj) hjoins fun _ => hgiven
  refine ⟨?_, ?_, ?_⟩
  · exact (Flag.ofGuard?_eq_some_iff Flag.noConfusion).trans hraises
  · exact (Flag.ofGuard?_eq_some_iff Flag.noConfusion).trans hmay
  · rw [ne_eq, Flag.ofGuard?_eq_some_iff Flag.noConfusion, huninitialized,
      Search.allTop_iff htop fun _ _ => Operand.bool.inj]
    rintro ⟨⟨g, hg⟩, hall⟩
    have hg' : g = .uninitialized := hall g hg
    exact hgiven (hg' ▸ hg)

end

/-- **The flags of a report say what was met.**  The search of a program comes to its end, and
then the flag of a right-hand side tells whether the stores of its point that were met all had
an error on top of the stack, or only some of them, or all a value that was never given.  The
flag of a guard tells the same of its conditional, and no guard lacks a value. -/
theorem flags_exact (s : Stmt) :
    (∃ fuel t, (Search.start s.compile.code none).run fuel = (t, .finished)) ∧
      ∀ fuel t, (Search.start s.compile.code none).run fuel = (t, .finished) →
        (∀ p,
          (t.findings.assignFlag? p = some "Exception raiser!" ↔
            t.AllTop (·.AtStore p) (.int .error)) ∧
          (t.findings.assignFlag? p = some "Possible exception raiser!" ↔
            t.SomeTop (·.AtStore p) (.int .error)) ∧
          (t.findings.assignFlag? p = some "Use of uninitialised variable!" ↔
            t.AllTop (·.AtStore p) (.int .uninitialized))) ∧
        ∀ q isLoop,
          (t.findings.guardFlag? q isLoop = some "Exception raiser!" ↔
            t.AllTop (·.AtBranch q) (.bool .error)) ∧
          (t.findings.guardFlag? q isLoop = some "Possible exception raiser!" ↔
            t.SomeTop (·.AtBranch q) (.bool .error)) ∧
          t.findings.guardFlag? q isLoop ≠ some "Use of uninitialised variable!" := by
  have htext {o : Option Flag} {f : Flag} := Flag.map_text_eq_some_iff (o := o) (f := f)
  constructor
  · obtain ⟨n, hn⟩ := s.exists_run_finished
    exact ⟨n, hn n (Nat.le_refl n)⟩
  · intro fuel t h
    constructor
    · intro p
      obtain ⟨hraises, hmay, huninitialized⟩ := rightHandSide_flags h p
      exact ⟨htext.trans hraises, htext.trans hmay, htext.trans huninitialized⟩
    · intro q isLoop
      obtain ⟨hraises, hmay, huninitialized⟩ := guard_flags h q isLoop
      exact ⟨htext.trans hraises, htext.trans hmay, fun hflag => huninitialized (htext.mp hflag)⟩

/-- `x := y; z := 1 / x; if 1 / 0 = 1 then skip else skip` -/
def flagged : Stmt :=
  .seq (.assign "x" (.var "y")) (.seq (.assign "z" (.binary .div (.num 1) (.var "x")))
    (.cond (.compare .eq (.binary .div (.num 1) (.num 0)) (.num 1)) .skip .skip))

/-- A variable without a value, a division that may fail and one that must. -/
theorem flags_at_flagged :
    ∃ t, (Search.start flagged.compile.code none).run 100 = (t, .finished) ∧
      t.AllTop (·.AtStore 1) (.int .uninitialized) ∧ t.SomeTop (·.AtStore 2) (.int .error) ∧
      t.AllTop (·.AtBranch 3) (.bool .error) := by
  have hend : ((Search.start flagged.compile.code none).run 100).2 = .finished := by decide +kernel
  have hrun : (Search.start flagged.compile.code none).run 100 =
      (((Search.start flagged.compile.code none).run 100).1, .finished) := by
    rw [← hend]
  obtain ⟨hstores, hbranches⟩ := (flags_exact flagged).2 100 _ hrun
  refine ⟨_, hrun, ?_, ?_, ?_⟩
  · exact (hstores 1).2.2.mp (by decide +kernel)
  · exact (hstores 2).2.1.mp (by decide +kernel)
  · exact (hbranches 3 false).1.mp (by decide +kernel)

end Stmt

end SignAnalysis
