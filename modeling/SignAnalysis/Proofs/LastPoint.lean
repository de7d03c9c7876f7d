/-
The highest point of a search, and the last one.

The machine makes instructions of its own, the conditional of a loop and the dispatches of try
blocks, and gives them points that are there already.  So the highest point is fixed from the
start, and the last point is the word after it, if there is one:

* `Search.Capped` — no configuration met lies above the highest point;
* `Search.bounded_after` — the highest point of a search is that of the code from its start to
  its end;
* `Code.HasEnd` — there is a word after all points of the code;
* `Search.lastPoint_after_eq_iff` — exactly then the last point comes after the highest one;
* `Stmt.hasEnd` — the code of a program has an end.
-/
import SignAnalysis.Proofs.Continuations
import SignAnalysis.Proofs.Exploration

namespace SignAnalysis

/-! ### The points of code -/

theorem Instruction.point_le_highest (i : Instruction) : i.point ≤ i.highest := by
  cases i with
  | basic p op =>
    rw [Instruction.highest]
    exact Nat.le_refl p
  | branch p a b | loop p a b | attempt p a b | dispatch p a =>
    rw [Instruction.highest]
    exact Nat.le_max_left ..

theorem Configuration.point_le_highest {c : Configuration} {p : Nat} (h : c.point? = some p) :
    p ≤ Code.highest c.code := by
  rw [point?, head?] at h
  cases hc : c.code with
  | nil =>
    rw [hc] at h
    cases h
  | cons i rest =>
    rw [hc] at h
    cases h
    rw [Code.highest]
    exact Nat.le_trans i.point_le_highest (Nat.le_max_left ..)

mutual

theorem Instruction.highest_le_iff {n : Nat} :
    ∀ i : Instruction, i.highest ≤ n ↔ ∀ j ∈ i.instructions, j.point ≤ n
  | .basic p op => by simp [Instruction.highest, Instruction.instructions, Instruction.point]
  | .branch p a b | .loop p a b | .attempt p a b => by
    simp only [Instruction.highest, Instruction.instructions, Nat.max_le, List.forall_mem_cons,
      List.forall_mem_append, Code.highest_le_iff a, Code.highest_le_iff b, Instruction.point]
  | .dispatch p a => by
    simp only [Instruction.highest, Instruction.instructions, Nat.max_le, List.forall_mem_cons,
      Code.highest_le_iff a, Instruction.point]

/-- The highest point of a piece of code is that of the instructions at every depth. -/
theorem Code.highest_le_iff {n : Nat} :
    ∀ c : List Instruction, Code.highest c ≤ n ↔ ∀ j ∈ Code.instructions c, j.point ≤ n
  | [] => by simp [Code.highest]
  | i :: c => by
    simp only [Code.highest, Code.instructions, Nat.max_le, List.forall_mem_append,
      Instruction.highest_le_iff i, Code.highest_le_iff c]

end

/-- What an instruction makes has a point that is there already. -/
theorem Instruction.point_le_highest_of_mem_made {i j : Instruction} (h : i ∈ j.made) :
    i.point ≤ j.highest := by
  cases j with
  | basic | branch | dispatch => cases h
  | loop p a b =>
    have hp : i.point = p := by
      simp only [made, List.mem_cons, List.not_mem_nil, or_false] at h
      rcases h with rfl | rfl <;> rfl
    exact hp ▸ point_le_highest (loop p a b)
  | attempt p a b =>
    cases List.mem_singleton.mp h
    rw [Instruction.highest]
    cases b with
    | nil => exact Nat.le_max_left ..
    | cons k b =>
      rw [Code.highest]
      show k.point ≤ _
      have := k.point_le_highest
      omega

theorem Code.highest_of_mem_nexts {c d : Code} (h : d ∈ c.nexts) :
    Code.highest d ≤ Code.highest c := by
  rw [highest_le_iff]
  intro i hi
  rcases instructions_of_mem_nexts h hi with hi | ⟨j, rest, rfl, hi⟩
  · exact (highest_le_iff c).mp (Nat.le_refl _) i hi
  · rw [Code.highest]
    exact Nat.le_trans (Instruction.point_le_highest_of_mem_made hi) (Nat.le_max_left ..)

/-! ### The highest point -/

namespace Search

/-- No configuration that was met lies above the highest point. -/
def Capped (s : Search) : Prop := ∀ c ∈ s.visited, ∀ p, c.point? = some p → p ≤ s.highest

theorem capped_start (code : Code) (limit : Option Nat) : (start code limit).Capped := by
  intro c hc p hp
  rw [start, ConfigurationSet.mem_insert] at hc
  rcases hc with rfl | hc
  · exact Configuration.point_le_highest hp
  · cases hc

theorem Capped.meet {s : Search} (h : s.Capped) (c : Configuration) : (s.meet c).Capped := by
  intro d hd p hp
  rw [highest_meet]
  rcases mem_visited_meet.mp hd with rfl | hd
  · rw [hp]
    exact Nat.le_max_right ..
  · exact Nat.le_trans (h d hd p hp) (Nat.le_max_left ..)

theorem capped_after (code : Code) (limit : Option Nat) (n : Nat) :
    ((start code limit).after n).Capped :=
  after_invariant (P := Capped) (Q := fun _ => True) (fun _ _ _ => trivial) (fun h _ => h)
    (fun h _ _ => h.meet _) (capped_start code limit) n

/-- The highest point is `m`, and the code of the frontier has none above it. -/
structure Bounded (m : Nat) (s : Search) : Prop where
  highest_eq : s.highest = m
  frontier_le : ∀ c ∈ s.frontier, Code.highest c.code ≤ m

variable {m : Nat} {s : Search}

theorem Bounded.meet (h : s.Bounded m) {c : Configuration} (hc : Code.highest c.code ≤ m) :
    (s.meet c).Bounded m := by
  constructor
  · rw [highest_meet, h.highest_eq]
    cases hp : c.point? with
    | none => exact Nat.max_eq_left (Nat.zero_le m)
    | some p => exact Nat.max_eq_left (Nat.le_trans (Configuration.point_le_highest hp) hc)
  · intro d hd
    by_cases hmem : c ∈ s.visited
    · rw [meet_of_mem hmem] at hd
      exact h.frontier_le d hd
    · rw [meet_of_not_mem hmem, List.mem_append, mem_pending] at hd
      rcases hd with hd | ⟨rfl, -⟩
      · exact h.frontier_le d hd
      · exact hc

/-- However far a search has come, its highest point is that of the code. -/
theorem bounded_after (code : Code) (limit : Option Nat) (n : Nat) :
    ((start code limit).after n).Bounded (Code.highest code) := by
  refine after_invariant (P := Bounded (Code.highest code))
    (Q := fun c => Code.highest c.code ≤ Code.highest code) Bounded.frontier_le ?_ ?_ ?_ n
  · intro t c rest k ht hf
    exact ⟨ht.highest_eq, fun d hd => ht.frontier_le d (hf ▸ List.mem_cons_of_mem c hd)⟩
  · intro t c d ht hc hmove
    exact ht.meet (Nat.le_trans (Code.highest_of_mem_nexts hmove.code_mem_nexts) hc)
  · refine ⟨rfl, fun c hc => ?_⟩
    obtain ⟨rfl, -⟩ := mem_pending.mp hc
    exact Nat.le_refl _

theorem words_meet (s : Search) (c : Configuration) : (s.meet c).words = s.words := by
  by_cases hc : c ∈ s.visited
  · rw [meet_of_mem hc]
  · rw [meet_of_not_mem hc]

theorem words_after (s : Search) (n : Nat) : (s.after n).words = s.words :=
  after_invariant (P := fun t => t.words = s.words) (Q := fun _ => True) (fun _ _ _ => trivial)
    (fun h _ => h) (fun {t _ d} h _ _ => (t.words_meet d).trans h) rfl n

end Search

/-! ### The last point -/

/-- There is a word after all points of the code. -/
def Code.HasEnd (c : Code) : Prop := Code.highest c + 1 < Code.wordCount c

/-- Code has an end if its points are below the largest word of 64 bits. -/
theorem Code.hasEnd_of_highest_lt {c : Code} (h : Code.highest c < 18446744073709551615) :
    c.HasEnd := by
  have hwords : 18446744073709551616 ≤ Code.wordCount c := Nat.le_max_left ..
  unfold HasEnd
  omega

namespace Search

variable (code : Code) (limit : Option Nat) (n : Nat)

theorem lastPoint_after : ((start code limit).after n).lastPoint =
    (Code.highest code + 1) % Code.wordCount code := by
  rw [lastPoint, (bounded_after code limit n).highest_eq, words_after]
  rfl

/-- The last point comes after the highest one exactly if there is a word for it. -/
theorem lastPoint_after_eq_iff :
    ((start code limit).after n).lastPoint = Code.highest code + 1 ↔ code.HasEnd := by
  have hwords : Code.wordCount code ≠ 0 := by
    unfold Code.wordCount
    omega
  rw [lastPoint_after]
  exact Nat.mod_eq_iff_lt hwords

theorem highest_lt_lastPoint_after {code : Code} (h : code.HasEnd) :
    ((start code limit).after n).highest < ((start code limit).after n).lastPoint := by
  rw [(lastPoint_after_eq_iff code limit n).mpr h, (bounded_after code limit n).highest_eq]
  exact Nat.lt_succ_self _

end Search

/-! ### Compiled code -/

theorem Code.highest_append (a b : Code) :
    Code.highest (a ++ b) = max (Code.highest a) (Code.highest b) := by
  induction a with
  | nil => simp [Code.highest]
  | cons i a ih => rw [List.cons_append, Code.highest, ih, Code.highest, Nat.max_assoc]

theorem Code.highest_le_of_isPure {a : Code} {p : Nat} (ha : ∀ i ∈ a, i.isPure = true)
    (hp : ∀ i ∈ a, i.point = p) : Code.highest a ≤ p := by
  rw [highest_le_iff, instructions_of_isPure ha]
  exact fun i hi => Nat.le_of_eq (hp i hi)

theorem Expr.highest_code_le (p : Nat) (e : Expr) : Code.highest (e.code p) ≤ p :=
  Code.highest_le_of_isPure (fun _ => isPure_of_mem_code) fun _ => point_of_mem_code

theorem Guard.highest_code_le (p : Nat) (g : Guard) : Code.highest (g.code p) ≤ p :=
  Code.highest_le_of_isPure (fun _ => isPure_of_mem_code) fun _ => point_of_mem_code

theorem Stmt.highest_code (k : Nat) (s : Stmt) : Code.highest (s.code k) = k + s.pointCount := by
  induction s generalizing k with
  | assign x e =>
    have he := e.highest_code_le (k + 1)
    simp only [code, Code.highest_append, Code.highest, Instruction.highest, pointCount]
    omega
  | skip => simp [code, Code.highest, Instruction.highest, pointCount]
  | seq s t ihs iht =>
    rw [code, Code.highest_append, ihs, iht, pointCount]
    omega
  | cond g s t ihs iht =>
    have hg := g.highest_code_le (k + 1)
    simp only [code, Code.highest_append, Code.highest, Instruction.highest, ihs, iht, pointCount]
    omega
  | loop g s ih =>
    have hg := g.highest_code_le (k + 1)
    simp only [code, Code.highest, Instruction.highest, ih, pointCount]
    omega
  | attempt s t ihs iht =>
    simp only [code, Code.highest, Instruction.highest, ihs, iht, pointCount]
    omega

/-- Every point has an instruction. -/
theorem Stmt.pointCount_le (k : Nat) (s : Stmt) :
    s.pointCount ≤ (Code.instructions (s.code k)).length := by
  induction s generalizing k with
  | assign x e => simp [code, pointCount, Instruction.instructions]
  | skip => simp [pointCount]
  | seq s t ihs iht =>
    have hs := ihs k
    have ht := iht (k + s.pointCount)
    simp only [code, pointCount, Code.instructions_append, List.length_append]
    omega
  | cond g s t ihs iht =>
    have hs := ihs (k + 1)
    have ht := iht (k + 1 + s.pointCount)
    simp only [code, pointCount, Code.instructions_append, Code.instructions_cons,
      Instruction.instructions, List.length_append, List.length_cons]
    omega
  | loop g s ih =>
    have hs := ih (k + 1)
    simp only [code, pointCount, Code.instructions_cons, Instruction.instructions,
      List.length_append, List.length_cons]
    omega
  | attempt s t ihs iht =>
    have hs := ihs (k + 1)
    have ht := iht (k + 1 + s.pointCount)
    simp only [code, pointCount, Code.instructions_cons, Instruction.instructions,
      List.length_append, List.length_cons]
    omega

/-- The code of a program has an end, as a memory that holds it has more words than points. -/
theorem Stmt.hasEnd (s : Stmt) : s.compile.code.HasEnd := by
  have hcount := s.pointCount_le 0
  have hwords : 18446744073709551616 ≤ Code.wordCount (s.code 0) := Nat.le_max_left ..
  have hmemory : 2 * (Code.instructions (s.code 0)).length ≤ Code.wordCount (s.code 0) :=
    Nat.le_max_right ..
  show Code.highest (s.code 0) + 1 < Code.wordCount (s.code 0)
  rw [highest_code]
  omega

end SignAnalysis
