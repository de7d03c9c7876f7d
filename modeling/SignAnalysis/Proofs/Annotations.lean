/-
Reports annotate statements with what was found at their points.

A report goes through a program once more and takes the control points from a list.  Its
lines are described by entries, each of which writes one statement below the note on its
point or one line that belongs to no point.  What a note says is spelled out from the store,
the right-hand side and the guard that were found at the point.  The entries of a program
hold its numbered statements, so that all parts of the analysis speak of the same statement
at a point:

* `Findings.assignsAt_of_isSome`, `Findings.testsAt_of_isSome` — something is stored at the
  points of assignments only, and tested at those of conditionals and loops only;
* `Note.storeNote_eq`, `Note.assignNote_eq`, `Note.guardNote_eq` — what a report writes above
  a statement is the note on the data of its point;
* `Report.lines_points` — the lines of a program are those of its entries, and every point
  is used;
* `Stmt.points_agree` — code, findings and report agree on the points of a program.
-/
import SignAnalysis.Proofs.Entry
import SignAnalysis.Proofs.Soundness
import SignAnalysis.Report.Basic

namespace SignAnalysis

/-! ### What was stored and tested at a point -/

namespace Findings

variable {p : Nat} {s : Stmt} {f : Findings}

/-- Something is stored at the points of assignments only. -/
theorem assignsAt_of_isSome (hf : s.compile.code.Yields f)
    (h : (f.rightHandSide? p).isSome = true) : s.AssignsAt p := by
  obtain ⟨m, c, hc, x, rest, st, hcode, -⟩ :=
    (hf.joinsTo_rightHandSide s.hasEnd p).isSome_iff.mp h
  obtain ⟨e, v, hat, -, -⟩ := Stmt.exists_of_store hc hcode
  exact ⟨x, e, hat⟩

/-- Something is tested at the points of conditionals and loops only. -/
theorem testsAt_of_isSome (hf : s.compile.code.Yields f)
    (h : (f.guard? p).isSome = true) : s.TestsAt p := by
  obtain ⟨g, c, hc, yes, no, rest, st, hcode, -⟩ :=
    (hf.joinsTo_guard s.hasEnd p).isSome_iff.mp h
  rcases (Stmt.exists_of_branch hc hcode).2 with ⟨g', t, u, hat, -, -⟩ | ⟨g', t, hat, -, -⟩
  · exact .inl ⟨g', t, u, hat⟩
  · exact .inr ⟨g', t, hat⟩

theorem lastPoint_eq (hf : s.compile.code.Yields f) : f.lastPoint = s.pointCount + 1 := by
  obtain ⟨n, rfl, -⟩ := hf.exists_after
  have hlast := (Search.lastPoint_after_eq_iff s.compile.code none n).mpr s.hasEnd
  rwa [Stmt.compile, Stmt.highest_code, Nat.zero_add] at hlast

/-- There are variables for every point up to the last one. -/
theorem isSome_store?_iff (hf : s.compile.code.Yields f) :
    (f.store? p).isSome = true ↔ p ≤ f.lastPoint := by
  obtain ⟨n, rfl, -⟩ := hf.exists_after
  rw [Option.isSome_iff_exists]
  exact (describes_ofConfigurations _ _).exists_store_iff

end Findings

/-! ### Notes

What stands above a statement, as a function of what was found at its point. -/

namespace Note

/-- The variables that are known, each with its sign. -/
def listing : Option Store → String
  | none => "\x7b\x7d"
  | some σ =>
    "\x7b" ++ ", ".intercalate (σ.names.map fun x => x ++ "=" ++ (σ.get x).text) ++ "\x7d"

/-- What a right-hand side may be, and what there is to say against it. -/
def rightHandSide : Option (Summary Sign) → String
  | none => "never evaluated"
  | some ⟨.uninitialized, true⟩ => "ERROR (Exception raiser!)"
  | some ⟨.uninitialized, false⟩ => "UNINITIALIZED (Use of uninitialised variable!)"
  | some ⟨m, true⟩ => m.text ++ "|ERROR (Possible exception raiser!)"
  | some ⟨m, false⟩ => m.text

/-- What a guard may be, and what there is to say against it.  A guard that is always true
leaves no code of a loop unreachable. -/
def guard (isLoop : Bool) : Option (Summary Truth) → String
  | none => "never evaluated"
  | some ⟨.uninitialized, true⟩ => "ERROR (Exception raiser!)"
  | some ⟨.uninitialized, false⟩ => "UNINITIALIZED (Use of uninitialised variable!)"
  | some ⟨m, true⟩ => m.text ++ "|ERROR (Possible exception raiser!)"
  | some ⟨.no, false⟩ => "FALSE (Unreachable code!)"
  | some ⟨.yes, false⟩ => if isLoop then "TRUE" else "TRUE (Unreachable code!)"
  | some ⟨m, false⟩ => m.text

/-- The note above a statement, on what was found at the point `p`. -/
def above (f : Findings) (p : Nat) : Stmt → String
  | .assign _ _ =>
    listing (f.store? p) ++ " Right-hand side: " ++ rightHandSide (f.rightHandSide? p)
  | .cond _ _ _ => listing (f.store? p) ++ " Boolean guard: " ++ guard false (f.guard? p)
  | .loop _ _ => listing (f.store? p) ++ " Boolean guard: " ++ guard true (f.guard? p)
  | .attempt _ _ => listing (f.store? p)
  | .skip | .seq _ _ => ""

/-- The note below a program, on what was found at the last point and on how it may end. -/
def below (f : Findings) : String :=
  listing (f.store? f.lastPoint) ++
    if f.normal then
      if f.exceptional then " (possibly exceptional termination)" else " (normal termination)"
    else
      if f.exceptional then " (exceptional termination)" else " (no termination)"

variable (f : Findings) (p : Nat)

theorem listing_some (σ : Store) : listing (some σ) = σ.text := by
  have hentries : (σ.names.map fun x => x ++ "=" ++ (σ.get x).text) =
      σ.entries.map fun e => e.1 ++ "=" ++ e.2.text := by
    rw [Store.names, List.map_map]
    refine List.map_congr_left fun e he => ?_
    show e.1 ++ "=" ++ (σ.get e.1).text = _
    rw [Store.get, Store.get?_of_mem he, Option.getD_some]
  rw [listing, hentries, Store.text]

theorem storeNote_eq : Report.storeNote f p = listing (f.store? p) := by
  rw [Report.storeNote]
  cases f.store? p with
  | none => rfl
  | some σ => exact (listing_some σ).symm

theorem rightHandSide_eq (o : Option (Summary Sign)) :
    rightHandSide o = Report.summaryNote o ++ Report.flagNote (Flag.ofRightHandSide? o) := by
  rcases o with _ | ⟨m, raises⟩
  · rfl
  · cases m <;> cases raises <;> rfl

theorem guard_eq (isLoop : Bool) (o : Option (Summary Truth)) :
    guard isLoop o = Report.summaryNote o ++ Report.flagNote (Flag.ofGuard? o isLoop) := by
  rcases o with _ | ⟨g, raises⟩
  · rfl
  · cases g <;> cases raises <;> cases isLoop <;> rfl

theorem assignNote_eq : Report.assignNote f p =
    listing (f.store? p) ++ " Right-hand side: " ++ rightHandSide (f.rightHandSide? p) := by
  rw [Report.assignNote, storeNote_eq, rightHandSide_eq, ← String.append_assoc]

theorem guardNote_eq (isLoop : Bool) : Report.guardNote f p isLoop =
    listing (f.store? p) ++ " Boolean guard: " ++ guard isLoop (f.guard? p) := by
  rw [Report.guardNote, storeNote_eq, guard_eq, ← String.append_assoc]

theorem endNote_eq : Report.endNote f = below f := by
  rw [Report.endNote, storeNote_eq, below, Findings.termination, String.append_assoc,
    String.append_assoc]
  cases f.normal <;> cases f.exceptional <;> rfl

end Note

/-! ### The entries of a report -/

namespace Report

/-- Four spaces for each statement that a line is inside of. -/
def margin (depth : Nat) : String := String.ofList (List.replicate (4 * depth) ' ')

theorem indent_eq (depth : Nat) : indent depth = margin depth := by
  induction depth with
  | zero => rfl
  | succ depth ih =>
    rw [indent, ih, margin, margin, Nat.mul_succ, Nat.add_comm, List.replicate_add,
      String.ofList_append]
    rfl

/-- The line with which a statement begins. -/
def heading (close : String) : Stmt → String
  | .assign x e => x ++ " := " ++ e.text ++ close
  | .cond g _ _ => "if " ++ g.text ++ " then"
  | .loop g _ => "while " ++ g.text ++ " do"
  | .attempt _ _ => "try"
  | .skip => "skip" ++ close
  | .seq _ _ => ""

/-- A piece of a report: a statement with its control point, or a line without a point. -/
inductive Entry where
  | numbered (depth : Nat) (close : String) (statement : Stmt) (point : Nat)
  | plain (depth : Nat) (line : String)

/-- The lines of an entry; a statement stands below the note on its point. -/
def Entry.lines (f : Findings) : Entry → List String
  | numbered depth close s p => [margin depth ++ Note.above f p s, margin depth ++ heading close s]
  | plain depth line => [margin depth ++ line]

/-- The statement of an entry and its point. -/
def Entry.statement? : Entry → Option (Stmt × Nat)
  | numbered _ _ s p => some (s, p)
  | plain _ _ => none

@[simp] theorem Entry.statement?_numbered (depth : Nat) (close : String) (s : Stmt) (p : Nat) :
    (numbered depth close s p).statement? = some (s, p) := rfl

@[simp] theorem Entry.statement?_plain (depth : Nat) (line : String) :
    (plain depth line).statement? = none := rfl

/-- The entries of a statement in front of which `k` points are taken. -/
def entries (k depth : Nat) (close : String) : Stmt → List Entry
  | .assign x e => [.numbered depth close (.assign x e) (k + 1)]
  | .skip => [.plain depth ("skip" ++ close)]
  | .seq s t => entries k depth ";" s ++ entries (k + s.pointCount) depth close t
  | .cond g s t =>
    .numbered depth close (.cond g s t) (k + 1) :: (entries (k + 1) (depth + 1) "" s ++
      .plain depth "else" :: entries (k + 1 + s.pointCount) (depth + 1) close t)
  | .loop g s =>
    .numbered depth close (.loop g s) (k + 1) :: entries (k + 1) (depth + 1) close s
  | .attempt s t =>
    .numbered depth close (.attempt s t) (k + 1) :: (entries (k + 1) (depth + 1) "" s ++
      .plain depth "catch" :: entries (k + 1 + s.pointCount) (depth + 1) close t)

/-- The entries hold the numbered statements, in order and each with its own point. -/
theorem statements_entries (k depth : Nat) (close : String) (s : Stmt) :
    (entries k depth close s).filterMap (·.statement?) = s.numbered k := by
  induction s generalizing k depth close with
  | assign x e => rfl
  | skip => rfl
  | seq s t ihs iht => rw [entries, List.filterMap_append, ihs, iht, Stmt.numbered_seq]
  | cond g s t ihs iht => simp [entries, List.filterMap_cons, ihs, iht, Stmt.numbered_cond]
  | loop g s ih => simp [entries, ih, Stmt.numbered_loop]
  | attempt s t ihs iht => simp [entries, List.filterMap_cons, ihs, iht, Stmt.numbered_attempt]

/-- The lines of a statement are those of its entries, and it uses its own points. -/
theorem lines_points (f : Findings) (k depth : Nat) (close : String) (s : Stmt) (rest : List Nat) :
    lines f depth close s (s.points k ++ rest) =
      some ((entries k depth close s).flatMap (·.lines f), rest) := by
  induction s generalizing k depth close rest with
  | assign x e =>
    simp [lines, Stmt.points, entries, Entry.lines, Note.above, heading, indent_eq,
      Note.assignNote_eq, String.append_assoc]
  | skip =>
    cases rest <;> simp [lines, Stmt.points, entries, Entry.lines, indent_eq, String.append_assoc]
  | seq s t ihs iht => simp [lines, Stmt.points, entries, ihs, iht]
  | cond g s t ihs iht =>
    simp [lines, Stmt.points, entries, ihs, iht, Entry.lines, Note.above, heading, indent_eq,
      Note.guardNote_eq, String.append_assoc]
  | loop g s ih =>
    simp [lines, Stmt.points, entries, ih, Entry.lines, Note.above, heading, indent_eq,
      Note.guardNote_eq, String.append_assoc]
  | attempt s t ihs iht =>
    simp [lines, Stmt.points, entries, ihs, iht, Entry.lines, Note.above, heading, indent_eq,
      Note.storeNote_eq]

theorem text_of_body? {r : Report} {ls : List String} (h : r.body? = some ls) :
    r.text = "\n".intercalate (ls ++ [Note.below r.findings]) := by
  rw [text, Option.get_of_eq_some _ h, Note.endNote_eq]

end Report

namespace Stmt

/-- **Agreement on control points.**  The points of a program are the numbers from 1 to the
number of its assignments, conditionals, loops and try blocks.  In its code, one instruction
stands for the statement with a given point, amid the code of that statement.  The analysis
without a limit has findings; their last point comes next, they have variables at every point
up to it, and they have right-hand sides at assignments and guards at conditionals and loops
only.  The report is made, uses every point, and has above the statement with a point the
note on the variables, the right-hand side and the guard that were found at that point. -/
theorem points_agree (s : Stmt) :
    s.compile.points = List.range' 1 s.pointCount ∧ s.pointed.length = s.pointCount ∧
    (∀ p, (s.statementAt? p).isSome = true ↔ 1 ≤ p ∧ p ≤ s.pointCount) ∧
    (∀ p t, s.statementAt? p = some t →
      (Code.marks s.compile.code).filter (·.point == p) = [t.mark p] ∧
      Code.Occurs (t.code (p - 1)) s.compile.code) ∧
    (∃ f, s.compile.code.Yields f) ∧
    ∀ f, s.compile.code.Yields f →
      f.lastPoint = s.pointCount + 1 ∧
      (∀ p, (f.store? p).isSome = true ↔ p ≤ f.lastPoint) ∧
      (∀ p, (f.rightHandSide? p).isSome = true → s.AssignsAt p) ∧
      (∀ p, (f.guard? p).isSome = true → s.TestsAt p) ∧
      Report.lines f 0 "" s s.compile.points =
        some ((Report.entries 0 0 "" s).flatMap (·.lines f), []) ∧
      (Report.entries 0 0 "" s).filterMap (·.statement?) = s.numbered 0 ∧
      ∃ r, Report.make s s.compile f = .ok r ∧
        r.text = "\n".intercalate
          ((Report.entries 0 0 "" s).flatMap (·.lines f) ++ [Note.below f]) := by
  refine ⟨points_eq_range' 0 s, length_pointed s, isSome_statementAt?_iff s, ?_, s.exists_yields,
    ?_⟩
  · intro p t h
    exact ⟨marks_filter_point h, occurs_of_mem_numbered (mem_numbered_iff.mpr h)⟩
  · intro f hf
    have hlines : Report.lines f 0 "" s s.compile.points =
        some ((Report.entries 0 0 "" s).flatMap (·.lines f), []) := by
      rw [← Report.lines_points f 0 0 "" s [], List.append_nil]
      rfl
    refine ⟨Findings.lastPoint_eq hf, fun p => Findings.isSome_store?_iff hf,
      fun p => Findings.assignsAt_of_isSome hf, fun p => Findings.testsAt_of_isSome hf, hlines,
      Report.statements_entries 0 0 "" s, ?_⟩
    refine ⟨⟨s, s.compile.points, f, length_points 0 s⟩, dif_pos (length_points 0 s), ?_⟩
    refine Report.text_of_body? ?_
    rw [Report.body?, hlines]
    rfl

/-- `while x <= y do try x := y / x catch skip`; the handler has the point of the assignment. -/
def attemptInLoop : Stmt :=
  .loop (.compare .le (.var "x") (.var "y"))
    (.attempt (.assign "x" (.binary .div (.var "y") (.var "x"))) .skip)

/-- Neither the conditional that the loop becomes nor the handler disturbs another point. -/
theorem points_agree_at_attemptInLoop :
    ∃ f, attemptInLoop.compile.code.Yields f ∧ f.lastPoint = 4 ∧
      f.rightHandSide? 1 = none ∧ f.rightHandSide? 2 = none ∧ f.guard? 2 = none ∧
      f.guard? 3 = none ∧
      (Code.marks attemptInLoop.compile.code).filter (·.point == 3) =
        [.basic 3 (.store "x")] ∧
      ∃ r, Report.make attemptInLoop attemptInLoop.compile f = .ok r ∧
        r.text = "\n".intercalate
          [Note.listing (f.store? 1) ++ " Boolean guard: " ++ Note.guard true (f.guard? 1),
            "while x <= y do", "    " ++ Note.listing (f.store? 2), "    try",
            "        " ++ (Note.listing (f.store? 3) ++ " Right-hand side: " ++
              Note.rightHandSide (f.rightHandSide? 3)),
            "        x := (y / x)", "    catch", "        skip", Note.below f] := by
  obtain ⟨-, -, -, hmarks, ⟨f, hf⟩, hall⟩ := points_agree attemptInLoop
  obtain ⟨hlast, -, hrhs, hguard, -, -, r, hr, htext⟩ := hall f hf
  have hstored : ∀ p, ¬attemptInLoop.AssignsAt p → f.rightHandSide? p = none := fun p h =>
    Option.not_isSome_iff_eq_none.mp fun hp => h (hrhs p hp)
  have htested : ∀ p, ¬attemptInLoop.TestsAt p → f.guard? p = none := fun p h =>
    Option.not_isSome_iff_eq_none.mp fun hp => h (hguard p hp)
  refine ⟨f, hf, hlast, hstored 1 ?_, hstored 2 ?_, htested 2 ?_, htested 3 ?_,
    (hmarks 3 _ rfl).1, r, hr, ?_⟩
  · rintro ⟨x, e, h⟩
    cases h
  · rintro ⟨x, e, h⟩
    cases h
  · rintro (⟨g, t, u, h⟩ | ⟨g, t, h⟩) <;> cases h
  · rintro (⟨g, t, u, h⟩ | ⟨g, t, h⟩) <;> cases h
  · have hmargins : Report.margin 0 = "" ∧ Report.margin 1 = "    " ∧
        Report.margin 2 = "        " := ⟨rfl, rfl, rfl⟩
    have hguardText : (Guard.compare .le (.var "x") (.var "y")).text = "x <= y" := by decide
    have hvalueText : (Expr.binary .div (.var "y") (.var "x")).text = "(y / x)" := by decide
    rw [htext]
    simp [attemptInLoop, Report.entries, Report.Entry.lines, Report.heading, hmargins, hguardText,
      hvalueText, Note.above]

end Stmt

end SignAnalysis
