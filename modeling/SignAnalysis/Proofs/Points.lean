/-
Control points of programs and of their code.

Assignments, conditionals, loops and try blocks are numbered in source order, and each of
them is compiled to one instruction that stands for it: a store, a conditional, a loop or
a try block:

* `Stmt.statementAt?` — the statement with a given control point;
* `Stmt.marks_code` — the instructions of compiled code that stand for statements are
  those of its statements, in order and each with its own point;
* `Stmt.occurs_of_mem_numbered` — the code of a statement stands in that of the program.
-/
import SignAnalysis.Proofs.Accounts
import SignAnalysis.Proofs.Continuations

namespace SignAnalysis

/-! ### Statements with control points -/

namespace Stmt

/-- A statement and all statements in it, in source order. -/
def preorder : Stmt → List Stmt
  | assign x e => [assign x e]
  | skip => [skip]
  | seq s t => seq s t :: (s.preorder ++ t.preorder)
  | cond g s t => cond g s t :: (s.preorder ++ t.preorder)
  | loop g s => loop g s :: s.preorder
  | attempt s t => attempt s t :: (s.preorder ++ t.preorder)

/-- The statement has a control point of its own. -/
def hasPoint : Stmt → Bool
  | skip | seq _ _ => false
  | assign _ _ | cond _ _ _ | loop _ _ | attempt _ _ => true

/-- The assignments, conditionals, loops and try blocks of a program, in source order. -/
def pointed (s : Stmt) : List Stmt := s.preorder.filter hasPoint

/-- The statement with the control point `p`. -/
def statementAt? (s : Stmt) : Nat → Option Stmt
  | 0 => none
  | p + 1 => s.pointed[p]?

section

variable (g : Guard) (s t : Stmt)

theorem pointed_seq : pointed (seq s t) = s.pointed ++ t.pointed := by
  rw [pointed, preorder, List.filter_cons_of_neg Bool.false_ne_true, List.filter_append]
  rfl

theorem pointed_cond : pointed (cond g s t) = cond g s t :: (s.pointed ++ t.pointed) := by
  rw [pointed, preorder, List.filter_cons_of_pos rfl, List.filter_append]
  rfl

theorem pointed_loop : pointed (loop g s) = loop g s :: s.pointed := by
  rw [pointed, preorder, List.filter_cons_of_pos rfl]
  rfl

theorem pointed_attempt : pointed (attempt s t) = attempt s t :: (s.pointed ++ t.pointed) := by
  rw [pointed, preorder, List.filter_cons_of_pos rfl, List.filter_append]
  rfl

end

theorem length_pointed (s : Stmt) : s.pointed.length = s.pointCount := by
  induction s with
  | assign x e => rfl
  | skip => rfl
  | seq s t ihs iht => rw [pointed_seq, List.length_append, ihs, iht, pointCount]
  | cond g s t ihs iht =>
    rw [pointed_cond, List.length_cons, List.length_append, ihs, iht, pointCount]
  | loop g s ih => rw [pointed_loop, List.length_cons, ih, pointCount]
  | attempt s t ihs iht =>
    rw [pointed_attempt, List.length_cons, List.length_append, ihs, iht, pointCount]

theorem isSome_statementAt?_iff (s : Stmt) (p : Nat) :
    (s.statementAt? p).isSome = true ↔ 1 ≤ p ∧ p ≤ s.pointCount := by
  cases p with
  | zero => simp [statementAt?]
  | succ p =>
    rw [statementAt?, Option.isSome_iff_ne_none, ne_eq, List.getElem?_eq_none_iff, length_pointed]
    omega

/-- The statements with control points of a program in front of which `k` points are taken,
each with its point. -/
def numbered (k : Nat) (s : Stmt) : List (Stmt × Nat) := s.pointed.zipIdx (k + 1)

theorem mem_numbered_iff {s t : Stmt} {p : Nat} :
    (t, p) ∈ s.numbered 0 ↔ s.statementAt? p = some t := by
  rw [numbered, List.mk_mem_zipIdx_iff_le_and_getElem?_sub]
  cases p with
  | zero => simp [statementAt?]
  | succ p => simp [statementAt?]

section

variable (k : Nat) (s t : Stmt)

theorem numbered_seq : numbered k (seq s t) = s.numbered k ++ t.numbered (k + s.pointCount) := by
  rw [numbered, pointed_seq, List.zipIdx_append, length_pointed, Nat.add_right_comm]
  rfl

theorem numbered_cond (g : Guard) : numbered k (cond g s t) =
    (cond g s t, k + 1) :: (s.numbered (k + 1) ++ t.numbered (k + 1 + s.pointCount)) := by
  rw [numbered, pointed_cond, List.zipIdx_cons, List.zipIdx_append, length_pointed,
    Nat.add_right_comm (k + 1)]
  rfl

theorem numbered_loop (g : Guard) :
    numbered k (loop g s) = (loop g s, k + 1) :: s.numbered (k + 1) := by
  rw [numbered, pointed_loop, List.zipIdx_cons]
  rfl

theorem numbered_attempt : numbered k (attempt s t) =
    (attempt s t, k + 1) :: (s.numbered (k + 1) ++ t.numbered (k + 1 + s.pointCount)) := by
  rw [numbered, pointed_attempt, List.zipIdx_cons, List.zipIdx_append, length_pointed,
    Nat.add_right_comm (k + 1)]
  rfl

end

theorem map_snd_numbered (k : Nat) (s : Stmt) : (s.numbered k).map Prod.snd = s.points k := by
  rw [numbered, List.zipIdx_map_snd, length_pointed, points_eq_range']

end Stmt

/-! ### The instruction of a statement -/

/-- The instruction stands for a statement. -/
def Instruction.isMark : Instruction → Bool
  | basic _ (.store _) | branch .. | loop .. | attempt .. => true
  | basic _ _ | dispatch .. => false

theorem Instruction.isMark_of_isPure {i : Instruction} (h : i.isPure = true) :
    i.isMark = false := by
  cases i with
  | basic p op => cases op <;> first | rfl | cases h
  | branch | loop | attempt | dispatch => cases h

namespace Code

/-- The instructions of a piece of code, at every depth, that stand for statements. -/
def marks (c : Code) : List Instruction := (instructions c).filter (·.isMark)

theorem marks_append (a b : Code) : marks (a ++ b) = marks a ++ marks b := by
  rw [marks, instructions_append, List.filter_append]
  rfl

theorem marks_of_isPure {a : Code} (ha : ∀ i ∈ a, i.isPure = true) : marks a = [] := by
  rw [marks, instructions_of_isPure ha, List.filter_eq_nil_iff]
  intro i hi
  rw [Instruction.isMark_of_isPure (ha i hi)]
  exact Bool.false_ne_true

theorem marks_singleton {i : Instruction} {a b : Code} (hi : i.isMark = true)
    (hparts : i.instructions = i :: (instructions a ++ instructions b)) :
    marks [i] = i :: (marks a ++ marks b) := by
  rw [marks, instructions_cons, instructions_nil, List.append_nil, hparts,
    List.filter_cons_of_pos hi, List.filter_append]
  rfl

end Code

/-- Of elements with different values, one has the value of `a`. -/
theorem filter_eq_singleton_of_nodup_map {α : Type} {f : α → Nat} {l : List α} {a : α}
    (h : (l.map f).Nodup) (ha : a ∈ l) : l.filter (f · == f a) = [a] := by
  induction l with
  | nil => cases ha
  | cons b l ih =>
    rw [List.map_cons, List.nodup_cons] at h
    rcases List.mem_cons.mp ha with rfl | ha
    · have hrest : l.filter (f · == f a) = [] := by
        rw [List.filter_eq_nil_iff]
        intro c hc heq
        exact h.1 (eq_of_beq heq ▸ List.mem_map_of_mem hc)
      rw [List.filter_cons, if_pos (beq_self_eq_true _), hrest]
    · have hne : ¬(f b == f a) = true := fun heq =>
        h.1 (eq_of_beq heq ▸ List.mem_map_of_mem ha)
      rw [List.filter_cons, if_neg hne, ih h.2 ha]

namespace Stmt

/-- The instruction that stands for a statement with the control point `p`. -/
def mark (p : Nat) : Stmt → Instruction
  | assign x _ => .basic p (.store x)
  | skip | seq _ _ => .basic p .noop
  | cond _ s t => .branch p (s.code p) (t.code (p + s.pointCount))
  | loop g s => .loop p (g.code p) (s.code p)
  | attempt s t => .attempt p (s.code p) (t.code (p + s.pointCount))

theorem point_mark (p : Nat) (s : Stmt) : (s.mark p).point = p := by
  cases s <;> rfl

/-- The instructions of compiled code that stand for statements are, in order, those of its
statements, each with the point of its own. -/
theorem marks_code (k : Nat) (s : Stmt) :
    Code.marks (s.code k) = (s.numbered k).map fun n => n.1.mark n.2 := by
  induction s generalizing k with
  | assign x e =>
    rw [code, Code.marks_append, Code.marks_of_isPure fun i hi => Expr.isPure_of_mem_code hi]
    exact Code.marks_singleton (a := []) (b := []) rfl (by simp [Instruction.instructions])
  | skip => exact Code.marks_of_isPure fun i hi => (List.mem_singleton.mp hi) ▸ rfl
  | seq s t ihs iht => rw [code, Code.marks_append, ihs, iht, numbered_seq, List.map_append]
  | cond g s t ihs iht =>
    rw [code, Code.marks_append, Code.marks_of_isPure fun i hi => Guard.isPure_of_mem_code hi,
      Code.marks_singleton rfl (by rw [Instruction.instructions]), ihs, iht, numbered_cond,
      List.map_cons, List.map_append]
    rfl
  | loop g s ih =>
    rw [code, Code.marks_singleton rfl (by rw [Instruction.instructions]),
      Code.marks_of_isPure fun i hi => Guard.isPure_of_mem_code hi, ih, numbered_loop,
      List.map_cons]
    rfl
  | attempt s t ihs iht =>
    rw [code, Code.marks_singleton rfl (by rw [Instruction.instructions]), ihs, iht,
      numbered_attempt, List.map_cons, List.map_append]
    rfl

theorem map_point_marks (k : Nat) (s : Stmt) :
    (Code.marks (s.code k)).map (·.point) = s.points k := by
  rw [marks_code, List.map_map, ← map_snd_numbered]
  exact List.map_congr_left fun n _ => point_mark n.2 n.1

/-- Exactly one instruction stands for the statement with the point `p`. -/
theorem marks_filter_point {s t : Stmt} {p : Nat} (h : s.statementAt? p = some t) :
    (Code.marks s.compile.code).filter (·.point == p) = [t.mark p] := by
  have hnodup : ((Code.marks s.compile.code).map (·.point)).Nodup := by
    rw [compile, map_point_marks, points_eq_range']
    exact List.nodup_range'
  have hmem : t.mark p ∈ Code.marks s.compile.code := by
    rw [compile, marks_code]
    exact List.mem_map_of_mem (mem_numbered_iff.mpr h)
  have hfilter := filter_eq_singleton_of_nodup_map hnodup hmem
  rwa [point_mark] at hfilter

end Stmt

/-! ### Where the code of a statement stands -/

/-- The pieces of code inside an instruction. -/
def Instruction.parts : Instruction → List Code
  | basic _ _ => []
  | branch _ a b | loop _ a b | attempt _ a b => [a, b]
  | dispatch _ a => [a]

/-- A piece of code stands in another one, or inside an instruction of it. -/
inductive Code.Occurs (a : Code) : Code → Prop
  | here {c : Code} : a <:+: c → Occurs a c
  | inside {i : Instruction} {b c : Code} : Occurs a b → b ∈ i.parts → i ∈ c → Occurs a c

theorem Code.Occurs.append_left {a c : Code} (h : Occurs a c) (b : Code) : Occurs a (b ++ c) := by
  cases h with
  | here h => exact .here (h.trans (List.suffix_append b c).isInfix)
  | inside h hb hi => exact .inside h hb (List.mem_append_right b hi)

theorem Code.Occurs.append_right {a c : Code} (h : Occurs a c) (b : Code) : Occurs a (c ++ b) := by
  cases h with
  | here h => exact .here (h.trans (List.prefix_append c b).isInfix)
  | inside h hb hi => exact .inside h hb (List.mem_append_left b hi)

namespace Stmt

/-- The code of a statement with a control point stands in the code of the program. -/
theorem occurs_of_mem_numbered {k p : Nat} {s t : Stmt} (h : (t, p) ∈ s.numbered k) :
    Code.Occurs (t.code (p - 1)) (s.code k) := by
  induction s generalizing k with
  | assign x e =>
    cases List.mem_singleton.mp h
    exact .here (List.infix_refl _)
  | skip => cases h
  | seq s u ihs ihu =>
    rw [numbered_seq, List.mem_append] at h
    rcases h with h | h
    · exact (ihs h).append_right _
    · exact (ihu h).append_left _
  | cond g s u ihs ihu =>
    rw [numbered_cond, List.mem_cons, List.mem_append] at h
    rcases h with h | h | h
    · cases h
      exact .here (List.infix_refl _)
    · exact (Code.Occurs.inside (ihs h) (List.mem_cons_self ..)
        (List.mem_singleton_self _)).append_left _
    · exact (Code.Occurs.inside (ihu h) (List.mem_cons_of_mem _ (List.mem_singleton_self _))
        (List.mem_singleton_self _)).append_left _
  | loop g s ih =>
    rw [numbered_loop, List.mem_cons] at h
    rcases h with h | h
    · cases h
      exact .here (List.infix_refl _)
    · exact .inside (ih h) (List.mem_cons_of_mem _ (List.mem_singleton_self _))
        (List.mem_singleton_self _)
  | attempt s u ihs ihu =>
    rw [numbered_attempt, List.mem_cons, List.mem_append] at h
    rcases h with h | h | h
    · cases h
      exact .here (List.infix_refl _)
    · exact .inside (ihs h) (List.mem_cons_self ..) (List.mem_singleton_self _)
    · exact .inside (ihu h) (List.mem_cons_of_mem _ (List.mem_singleton_self _))
        (List.mem_singleton_self _)

/-! ### Points of assignments and guards -/

/-- The statement with the control point `p` is an assignment. -/
def AssignsAt (s : Stmt) (p : Nat) : Prop := ∃ x e, s.statementAt? p = some (assign x e)

/-- The statement with the control point `p` is a loop. -/
def LoopsAt (s : Stmt) (p : Nat) : Prop := ∃ g t, s.statementAt? p = some (loop g t)

/-- The statement with the control point `p` is a conditional or a loop. -/
def TestsAt (s : Stmt) (p : Nat) : Prop :=
  (∃ g t u, s.statementAt? p = some (cond g t u)) ∨ s.LoopsAt p

end Stmt

end SignAnalysis
