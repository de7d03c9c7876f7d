/-
What expressions evaluate to.

`Expr.outcomes` and `Guard.outcomes` evaluate an expression in a table of signs,
outcome by outcome, without a machine.  The code of an expression computes
exactly these:

* `Computes` — what code that only works on the stack makes of it, which is composed
  as the code is (`Computes.append`);
* `Expr.computes_code`, `Guard.computes_code` — after as many steps as the code is
  long, one outcome lies on the stack and nothing else has changed, and every outcome
  is met in this way;
* `reachesIn_of_isPure` — on the way there only the stack changes.
-/
import SignAnalysis.Code.OfProgram
import SignAnalysis.Proofs.Runs

namespace SignAnalysis

/-- The outcomes of an expression, given the signs of the variables. -/
def Expr.outcomes (f : Var → Sign) : Expr → List Sign
  | num n => [.ofInt n]
  | var x => [f x]
  | binary op l r =>
    (l.outcomes f).flatMap fun a => (r.outcomes f).flatMap fun b => Sign.arith op a b

/-- The outcomes of a guard, given the signs of the variables. -/
def Guard.outcomes (f : Var → Sign) : Guard → List Truth
  | const b => [.ofBool b]
  | compare op l r =>
    (l.outcomes f).flatMap fun a => (r.outcomes f).flatMap fun b => Sign.compare op a b
  | not g => (g.outcomes f).map Truth.not
  | and l r => (l.outcomes f).flatMap fun a => (r.outcomes f).map fun b => a.and b

theorem Sign.strict_ne_nil {β : Type} [Marker β] {table : Sign → Sign → List β}
    (h : ∀ a b, table a b ≠ []) (a b : Sign) : strict table a b ≠ [] := by
  unfold strict
  split
  · exact List.cons_ne_nil _ _
  · exact h _ _

theorem Sign.arith_ne_nil (op : ArithOp) (a b : Sign) : arith op a b ≠ [] := by
  cases op with
  | add | sub | mul => exact strict_ne_nil (fun _ _ => List.cons_ne_nil _ _) a b
  | div =>
    -- a divisor that is zero leaves the error, and any other one a value
    show strict (fun _ b => quotients b) a b ≠ []
    refine strict_ne_nil (fun _ b => ?_) a b
    cases b <;> exact List.cons_ne_nil _ _

/-- Every expression has an outcome. -/
theorem Expr.exists_mem_outcomes (f : Var → Sign) (e : Expr) : ∃ m, m ∈ e.outcomes f := by
  induction e with
  | num n => exact ⟨_, List.mem_singleton_self _⟩
  | var y => exact ⟨_, List.mem_singleton_self _⟩
  | binary op l r ihl ihr =>
    obtain ⟨a, ha⟩ := ihl
    obtain ⟨b, hb⟩ := ihr
    obtain ⟨m, hm⟩ := List.exists_mem_of_ne_nil _ (Sign.arith_ne_nil op a b)
    exact ⟨m, List.mem_flatMap.mpr ⟨a, ha, List.mem_flatMap.mpr ⟨b, hb, hm⟩⟩⟩

/-! ### Code that changes nothing but the stack -/

/-- The instruction changes nothing but the stack. -/
def Instruction.isPure : Instruction → Bool
  | basic _ (.store _) => false
  | basic _ _ => true
  | _ => false

theorem Expr.isPure_of_mem_code {p : Nat} {e : Expr} {i : Instruction} (hi : i ∈ e.code p) :
    i.isPure = true := by
  induction e with
  | num n =>
    cases List.mem_singleton.mp hi
    rfl
  | var y =>
    cases List.mem_singleton.mp hi
    rfl
  | binary op l r ihl ihr =>
    simp only [code, List.mem_append, List.mem_singleton] at hi
    obtain (hi | hi) | rfl := hi
    · exact ihr hi
    · exact ihl hi
    · rfl

theorem Guard.isPure_of_mem_code {p : Nat} {g : Guard} {i : Instruction} (hi : i ∈ g.code p) :
    i.isPure = true := by
  induction g with
  | const b =>
    cases List.mem_singleton.mp hi
    rfl
  | compare op l r =>
    simp only [code, List.mem_append, List.mem_singleton] at hi
    obtain (hi | hi) | rfl := hi
    · exact Expr.isPure_of_mem_code hi
    · exact Expr.isPure_of_mem_code hi
    · rfl
  | not g ih =>
    simp only [code, List.mem_append, List.mem_singleton] at hi
    obtain hi | rfl := hi
    · exact ih hi
    · rfl
  | and l r ihl ihr =>
    simp only [code, List.mem_append, List.mem_singleton] at hi
    obtain (hi | hi) | rfl := hi
    · exact ihr hi
    · exact ihl hi
    · rfl

theorem Expr.point_of_mem_code {p : Nat} {e : Expr} {i : Instruction} (hi : i ∈ e.code p) :
    i.point = p := by
  induction e with
  | num n => exact (List.mem_singleton.mp hi) ▸ rfl
  | var y => exact (List.mem_singleton.mp hi) ▸ rfl
  | binary op l r ihl ihr =>
    rcases List.mem_append.mp hi with hi | hi
    · exact (List.mem_append.mp hi).elim ihr ihl
    · exact (List.mem_singleton.mp hi) ▸ rfl

theorem Guard.point_of_mem_code {p : Nat} {g : Guard} {i : Instruction} (hi : i ∈ g.code p) :
    i.point = p := by
  induction g with
  | const b => exact (List.mem_singleton.mp hi) ▸ rfl
  | compare op l r =>
    rcases List.mem_append.mp hi with hi | hi
    · exact (List.mem_append.mp hi).elim Expr.point_of_mem_code Expr.point_of_mem_code
    · exact (List.mem_singleton.mp hi) ▸ rfl
  | not g ih =>
    rcases List.mem_append.mp hi with hi | hi
    · exact ih hi
    · exact (List.mem_singleton.mp hi) ▸ rfl
  | and l r ihl ihr =>
    rcases List.mem_append.mp hi with hi | hi
    · exact (List.mem_append.mp hi).elim ihr ihl
    · exact (List.mem_singleton.mp hi) ▸ rfl

namespace Configuration

variable {σ : Store} {st : List Operand} {rest : Code} {x : Bool} {t e p : Nat}
  {c d : Configuration}

theorem Move.of_isPure {i : Instruction} (hi : i.isPure = true)
    (h : Move ⟨σ, st, i :: rest, x, t, e⟩ d) : ∃ st', d = ⟨σ, st', rest, x, t, e⟩ := by
  cases h <;> first | exact ⟨_, rfl⟩ | cases hi

/-- A run that does not get past some code without effect changes only the stack. -/
theorem reachesIn_of_isPure {a : Code} (ha : ∀ i ∈ a, i.isPure = true) {n : Nat}
    (hn : n ≤ a.length) (h : ReachesIn n ⟨σ, st, a ++ rest, x, t, e⟩ d) :
    ∃ st', d = ⟨σ, st', a.drop n ++ rest, x, t, e⟩ := by
  induction n generalizing a st with
  | zero => exact ⟨st, h.symm⟩
  | succ n ih =>
    cases a with
    | nil => simp at hn
    | cons i a =>
      obtain ⟨c', hm, h⟩ := h
      obtain ⟨st', rfl⟩ := hm.of_isPure (ha i (List.mem_cons_self ..))
      exact ih (fun j hj => ha j (List.mem_cons_of_mem _ hj)) (by simpa using hn) h

/-- A run stays in some code without effect, or is at its end, or goes on from there. -/
theorem ReachesIn.split {a : Code} (ha : ∀ i ∈ a, i.isPure = true) {n : Nat}
    (h : ReachesIn n ⟨σ, st, a ++ rest, x, t, e⟩ d) :
    (∃ st' i rest', i.isPure = true ∧ d = ⟨σ, st', i :: rest', x, t, e⟩) ∨
      ReachesIn a.length ⟨σ, st, a ++ rest, x, t, e⟩ d ∨
      ∃ b c j, ReachesIn a.length ⟨σ, st, a ++ rest, x, t, e⟩ b ∧ Move b c ∧ j < n ∧
        ReachesIn j c d := by
  -- the code without effect takes as many steps as it is long
  rcases Nat.lt_trichotomy n a.length with hlt | rfl | hlt
  · obtain ⟨st', rfl⟩ := reachesIn_of_isPure ha (Nat.le_of_lt hlt) h
    refine .inl ⟨st', a[n], a.drop (n + 1) ++ rest, ha _ (List.getElem_mem hlt), ?_⟩
    rw [List.drop_eq_getElem_cons hlt]
    rfl
  · exact .inr (.inl h)
  · obtain ⟨j, rfl⟩ : ∃ j, n = a.length + (j + 1) := ⟨n - a.length - 1, by omega⟩
    obtain ⟨b, hb, c, hmove, hd⟩ := reachesIn_add.mp h
    exact .inr (.inr ⟨b, c, j, hb, hmove, by omega, hd⟩)

/-- A run either does not get past some code without effect, or gets to its end and
goes on from there. -/
theorem ReachesIn.past {a : Code} (ha : ∀ i ∈ a, i.isPure = true) {i : Instruction} {n : Nat}
    (h : ReachesIn n ⟨σ, st, a ++ i :: rest, x, t, e⟩ d) :
    (d.isTerminal = false ∧ d.exceptional = x) ∨
      ∃ b c j, ReachesIn a.length ⟨σ, st, a ++ i :: rest, x, t, e⟩ b ∧ Move b c ∧ j < n ∧
        ReachesIn j c d := by
  rcases h.split ha with ⟨st', k, rest', -, rfl⟩ | hend | hpast
  · exact .inl ⟨rfl, rfl⟩
  · obtain ⟨st', rfl⟩ := reachesIn_of_isPure ha (Nat.le_refl _) hend
    rw [List.drop_length]
    exact .inl ⟨rfl, rfl⟩
  · exact .inr hpast

end Configuration

/-! ### Code that computes with the stack -/

namespace Configuration

variable {σ : Store} {a b : Code} {R S : List Operand → List Operand → Prop}

/-- Executed to its end, the code changes nothing but the stack, and what it makes of the
stack is what `R` says. -/
def Computes (σ : Store) (a : Code) (R : List Operand → List Operand → Prop) : Prop :=
  ∀ (st : List Operand) (rest : Code) (x : Bool) (t d : Nat) (c : Configuration),
    ReachesIn a.length ⟨σ, st, a ++ rest, x, t, d⟩ c ↔
      ∃ st', R st st' ∧ c = ⟨σ, st', rest, x, t, d⟩

theorem Computes.append (ha : Computes σ a R) (hb : Computes σ b S) :
    Computes σ (a ++ b) fun st st' => ∃ st₁, R st st₁ ∧ S st₁ st' := by
  intro st rest x t d c
  rw [List.append_assoc, List.length_append, reachesIn_add]
  constructor
  · rintro ⟨c₁, h₁, h₂⟩
    obtain ⟨st₁, hR, rfl⟩ := (ha ..).mp h₁
    obtain ⟨st', hS, rfl⟩ := (hb ..).mp h₂
    exact ⟨st', ⟨st₁, hR, hS⟩, rfl⟩
  · rintro ⟨st', ⟨st₁, hR, hS⟩, rfl⟩
    exact ⟨_, (ha ..).mpr ⟨st₁, hR, rfl⟩, (hb ..).mpr ⟨st', hS, rfl⟩⟩

theorem Computes.congr (h : Computes σ a R) (hRS : ∀ st st', R st st' ↔ S st st') :
    Computes σ a S := by
  intro st rest x t d c
  rw [h]
  exact exists_congr fun st' => and_congr_left fun _ => hRS st st'

/-- What the operations other than stores make of the stack. -/
inductive Operates (σ : Store) : Operation → List Operand → List Operand → Prop
  | push {n : Int} {st : List Operand} : Operates σ (.push n) st (.int (.ofInt n) :: st)
  | truth {b : Bool} {st : List Operand} : Operates σ (.truth b) st (.bool (.ofBool b) :: st)
  | fetch {y : Var} {st : List Operand} : Operates σ (.fetch y) st (.int (σ.get y) :: st)
  | noop {st : List Operand} : Operates σ .noop st st
  | negate {u : Truth} {st : List Operand} :
      Operates σ .negate (.bool u :: st) (.bool u.not :: st)
  | conj {u v : Truth} {st : List Operand} :
      Operates σ .conj (.bool u :: .bool v :: st) (.bool (u.and v) :: st)
  | arith {op : ArithOp} {l r m : Sign} {st : List Operand} (hm : m ∈ Sign.arith op l r) :
      Operates σ (.arith op) (.int l :: .int r :: st) (.int m :: st)
  | compare {op : CompareOp} {l r : Sign} {g : Truth} {st : List Operand}
      (hg : g ∈ Sign.compare op l r) :
      Operates σ (.compare op) (.int l :: .int r :: st) (.bool g :: st)

theorem computes_basic (p : Nat) (op : Operation) (hop : (Instruction.basic p op).isPure = true) :
    Computes σ [.basic p op] (Operates σ op) := by
  intro st rest x t d c
  rw [List.length_singleton, reachesIn_one]
  constructor
  · intro h
    cases h with
    | push => exact ⟨_, .push, rfl⟩
    | truth => exact ⟨_, .truth, rfl⟩
    | fetch => exact ⟨_, .fetch, rfl⟩
    | noop => exact ⟨_, .noop, rfl⟩
    | negate => exact ⟨_, .negate, rfl⟩
    | conj => exact ⟨_, .conj, rfl⟩
    | arith hm => exact ⟨_, .arith hm, rfl⟩
    | compare hg => exact ⟨_, .compare hg, rfl⟩
    | assign | failStore | ignoreStore => cases hop
  · rintro ⟨st', h, rfl⟩
    cases h with
    | push => exact .push
    | truth => exact .truth
    | fetch => exact .fetch
    | noop => exact .noop
    | negate => exact .negate
    | conj => exact .conj
    | arith hm => exact .arith hm
    | compare hg => exact .compare hg

end Configuration

open SignAnalysis.Configuration

/-! ### The code of expressions -/

section

variable {σ : Store} {p : Nat}

/-- The code of an expression leaves exactly its outcomes on the stack. -/
theorem Expr.computes_code (e : Expr) :
    Computes σ (e.code p) fun st st' => ∃ m ∈ e.outcomes σ.get, st' = .int m :: st := by
  induction e with
  | num n =>
    refine (computes_basic p (.push n) rfl).congr ?_
    intro st st'
    constructor
    · rintro ⟨⟩
      exact ⟨_, List.mem_singleton_self _, rfl⟩
    · rintro ⟨m, hm, rfl⟩
      cases List.mem_singleton.mp hm
      exact .push
  | var y =>
    refine (computes_basic p (.fetch y) rfl).congr ?_
    intro st st'
    constructor
    · rintro ⟨⟩
      exact ⟨_, List.mem_singleton_self _, rfl⟩
    · rintro ⟨m, hm, rfl⟩
      cases List.mem_singleton.mp hm
      exact .fetch
  | binary op l r ihl ihr =>
    -- the right operand is evaluated first, so that the left one ends on top
    refine ((ihr.append ihl).append (computes_basic p (.arith op) rfl)).congr ?_
    intro st st'
    constructor
    · rintro ⟨st₂, ⟨st₁, ⟨b, hb, rfl⟩, a, ha, rfl⟩, ⟨⟩⟩
      rename_i m hm
      exact ⟨m, List.mem_flatMap.mpr ⟨a, ha, List.mem_flatMap.mpr ⟨b, hb, hm⟩⟩, rfl⟩
    · rintro ⟨m, hm, rfl⟩
      obtain ⟨a, ha, hm⟩ := List.mem_flatMap.mp hm
      obtain ⟨b, hb, hm⟩ := List.mem_flatMap.mp hm
      exact ⟨_, ⟨_, ⟨b, hb, rfl⟩, a, ha, rfl⟩, .arith hm⟩

/-- The code of a guard leaves exactly its outcomes on the stack. -/
theorem Guard.computes_code (g : Guard) :
    Computes σ (g.code p) fun st st' => ∃ m ∈ g.outcomes σ.get, st' = .bool m :: st := by
  induction g with
  | const b =>
    refine (computes_basic p (.truth b) rfl).congr ?_
    intro st st'
    constructor
    · rintro ⟨⟩
      exact ⟨_, List.mem_singleton_self _, rfl⟩
    · rintro ⟨m, hm, rfl⟩
      cases List.mem_singleton.mp hm
      exact .truth
  | compare op l r =>
    refine ((r.computes_code.append l.computes_code).append
      (computes_basic p (.compare op) rfl)).congr fun st st' => ?_
    constructor
    · rintro ⟨st₂, ⟨st₁, ⟨b, hb, rfl⟩, a, ha, rfl⟩, ⟨⟩⟩
      rename_i m hm
      exact ⟨m, List.mem_flatMap.mpr ⟨a, ha, List.mem_flatMap.mpr ⟨b, hb, hm⟩⟩, rfl⟩
    · rintro ⟨m, hm, rfl⟩
      obtain ⟨a, ha, hm⟩ := List.mem_flatMap.mp hm
      obtain ⟨b, hb, hm⟩ := List.mem_flatMap.mp hm
      exact ⟨_, ⟨_, ⟨b, hb, rfl⟩, a, ha, rfl⟩, .compare hm⟩
  | not g ih =>
    refine (ih.append (computes_basic p .negate rfl)).congr ?_
    intro st st'
    constructor
    · rintro ⟨st₁, ⟨b, hb, rfl⟩, ⟨⟩⟩
      exact ⟨_, List.mem_map_of_mem hb, rfl⟩
    · rintro ⟨m, hm, rfl⟩
      obtain ⟨b, hb, rfl⟩ := List.mem_map.mp hm
      exact ⟨_, ⟨b, hb, rfl⟩, .negate⟩
  | and l r ihl ihr =>
    refine ((ihr.append ihl).append (computes_basic p .conj rfl)).congr ?_
    intro st st'
    constructor
    · rintro ⟨st₂, ⟨st₁, ⟨b, hb, rfl⟩, a, ha, rfl⟩, ⟨⟩⟩
      exact ⟨_, List.mem_flatMap.mpr ⟨a, ha, List.mem_map_of_mem hb⟩, rfl⟩
    · rintro ⟨m, hm, rfl⟩
      obtain ⟨a, ha, hm⟩ := List.mem_flatMap.mp hm
      obtain ⟨b, hb, rfl⟩ := List.mem_map.mp hm
      exact ⟨_, ⟨_, ⟨b, hb, rfl⟩, a, ha, rfl⟩, .conj⟩

variable {st : List Operand} {rest : Code} {x : Bool} {t d : Nat} {c : Configuration}

theorem Expr.reachesIn_code_iff {e : Expr} :
    ReachesIn (e.code p).length ⟨σ, st, e.code p ++ rest, x, t, d⟩ c ↔
      ∃ m ∈ e.outcomes σ.get, c = ⟨σ, .int m :: st, rest, x, t, d⟩ := by
  rw [e.computes_code ..]
  constructor
  · rintro ⟨st', ⟨m, hm, rfl⟩, rfl⟩
    exact ⟨m, hm, rfl⟩
  · rintro ⟨m, hm, rfl⟩
    exact ⟨_, ⟨m, hm, rfl⟩, rfl⟩

theorem Guard.reachesIn_code_iff {g : Guard} :
    ReachesIn (g.code p).length ⟨σ, st, g.code p ++ rest, x, t, d⟩ c ↔
      ∃ m ∈ g.outcomes σ.get, c = ⟨σ, .bool m :: st, rest, x, t, d⟩ := by
  rw [g.computes_code ..]
  constructor
  · rintro ⟨st', ⟨m, hm, rfl⟩, rfl⟩
    exact ⟨m, hm, rfl⟩
  · rintro ⟨m, hm, rfl⟩
    exact ⟨_, ⟨m, hm, rfl⟩, rfl⟩

end

end SignAnalysis
