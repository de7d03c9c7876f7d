/-
Runs of the abstract machine.

`Configuration.Move` lists what a step can do, one rule for each way in which an
instruction may go, so that a fact about steps is proved by cases on a move:

* `Move.steps`, `Steps.move` — the moves are exactly the steps;
* `Move.store_cases` — what a move does to the store;
* `Reachable.invariant` — what every move keeps holds along every run;
* `ReachesIn` — runs with their number of steps, which can be joined and cut
  (`reachesIn_add`).
-/
import SignAnalysis.Machine.Step
import SignAnalysis.Proofs.Except

namespace SignAnalysis

/-- The control point of the dispatch that a try block at `p` puts behind its body. -/
def Code.handlerPoint (p : Nat) (handler : Code) : Nat := (handler.head?.map (·.point)).getD p

namespace Configuration

/-- What a step can do. -/
inductive Move : Configuration → Configuration → Prop
  | push {σ : Store} {st : List Operand} {p : Nat} {i : Int} {rest : Code} {x : Bool} {t e : Nat} :
      Move ⟨σ, st, .basic p (.push i) :: rest, x, t, e⟩
        ⟨σ, .int (.ofInt i) :: st, rest, x, t, e⟩
  | truth {σ : Store} {st : List Operand} {p : Nat} {i : Bool} {rest : Code} {x : Bool}
      {t e : Nat} :
      Move ⟨σ, st, .basic p (.truth i) :: rest, x, t, e⟩
        ⟨σ, .bool (.ofBool i) :: st, rest, x, t, e⟩
  | fetch {σ : Store} {st : List Operand} {p : Nat} {y : Var} {rest : Code} {x : Bool}
      {t e : Nat} :
      Move ⟨σ, st, .basic p (.fetch y) :: rest, x, t, e⟩ ⟨σ, .int (σ.get y) :: st, rest, x, t, e⟩
  | noop {σ : Store} {st : List Operand} {p : Nat} {rest : Code} {x : Bool} {t e : Nat} :
      Move ⟨σ, st, .basic p .noop :: rest, x, t, e⟩ ⟨σ, st, rest, x, t, e⟩
  | negate {σ : Store} {u : Truth} {st : List Operand} {p : Nat} {rest : Code} {x : Bool}
      {t e : Nat} :
      Move ⟨σ, .bool u :: st, .basic p .negate :: rest, x, t, e⟩
        ⟨σ, .bool u.not :: st, rest, x, t, e⟩
  | conj {σ : Store} {u v : Truth} {st : List Operand} {p : Nat} {rest : Code} {x : Bool}
      {t e : Nat} :
      Move ⟨σ, .bool u :: .bool v :: st, .basic p .conj :: rest, x, t, e⟩
        ⟨σ, .bool (u.and v) :: st, rest, x, t, e⟩
  | arith {σ : Store} {l r m : Sign} {st : List Operand} {p : Nat} {op : ArithOp} {rest : Code}
      {x : Bool} {t e : Nat} (hm : m ∈ Sign.arith op l r) :
      Move ⟨σ, .int l :: .int r :: st, .basic p (.arith op) :: rest, x, t, e⟩
        ⟨σ, .int m :: st, rest, x, t, e⟩
  | compare {σ : Store} {l r : Sign} {g : Truth} {st : List Operand} {p : Nat} {op : CompareOp}
      {rest : Code} {x : Bool} {t e : Nat} (hg : g ∈ Sign.compare op l r) :
      Move ⟨σ, .int l :: .int r :: st, .basic p (.compare op) :: rest, x, t, e⟩
        ⟨σ, .bool g :: st, rest, x, t, e⟩
  /-- A value is stored. -/
  | assign {σ : Store} {m : Sign} {st : List Operand} {p : Nat} {y : Var} {rest : Code}
      {t e : Nat} (hm : m ≠ .error) :
      Move ⟨σ, .int m :: st, .basic p (.store y) :: rest, false, t, e⟩
        ⟨σ.insert y m, st, rest, false, t, e⟩
  /-- An error that should be stored raises. -/
  | failStore {σ : Store} {st : List Operand} {p : Nat} {y : Var} {rest : Code} {t e : Nat} :
      Move ⟨σ, .int .error :: st, .basic p (.store y) :: rest, false, t, e⟩
        ⟨σ.declare y, st, rest, true, t, t⟩
  /-- While an exception is pending, nothing is stored. -/
  | ignoreStore {σ : Store} {m : Sign} {st : List Operand} {p : Nat} {y : Var} {rest : Code}
      {t e : Nat} :
      Move ⟨σ, .int m :: st, .basic p (.store y) :: rest, true, t, e⟩
        ⟨σ.declare y, st, rest, true, t, e⟩
  | hold {σ : Store} {g : Truth} {st : List Operand} {p : Nat} {a b rest : Code} {x : Bool}
      {t e : Nat} (hg : g.mayHold = true) :
      Move ⟨σ, .bool g :: st, .branch p a b :: rest, x, t, e⟩ ⟨σ, st, a ++ rest, x, t, e⟩
  | refuse {σ : Store} {g : Truth} {st : List Operand} {p : Nat} {a b rest : Code} {x : Bool}
      {t e : Nat} (hg : g.mayFail = true) :
      Move ⟨σ, .bool g :: st, .branch p a b :: rest, x, t, e⟩ ⟨σ, st, b ++ rest, x, t, e⟩
  /-- A guard that is an error raises. -/
  | failGuard {σ : Store} {st : List Operand} {p : Nat} {a b rest : Code} {t e : Nat} :
      Move ⟨σ, .bool .error :: st, .branch p a b :: rest, false, t, e⟩ ⟨σ, st, rest, true, t, t⟩
  | ignoreGuard {σ : Store} {st : List Operand} {p : Nat} {a b rest : Code} {t e : Nat} :
      Move ⟨σ, .bool .error :: st, .branch p a b :: rest, true, t, e⟩ ⟨σ, st, rest, true, t, e⟩
  | unroll {σ : Store} {st : List Operand} {p : Nat} {a b rest : Code} {x : Bool} {t e : Nat} :
      Move ⟨σ, st, .loop p a b :: rest, x, t, e⟩
        ⟨σ, st, a ++ .branch p (b ++ [.loop p a b]) [.basic p .noop] :: rest, x, t, e⟩
  | attempt {σ : Store} {st : List Operand} {p : Nat} {a h rest : Code} {x : Bool} {t e : Nat} :
      Move ⟨σ, st, .attempt p a h :: rest, x, t, e⟩
        ⟨σ, st, a ++ .dispatch (Code.handlerPoint p h) h :: rest, x, t + 1, e⟩
  /-- The dispatch of the block that raised runs the handler. -/
  | handle {σ : Store} {st : List Operand} {p : Nat} {h rest : Code} {t : Nat} :
      Move ⟨σ, st, .dispatch p h :: rest, true, t + 1, t + 1⟩ ⟨σ, st, h ++ rest, false, t, 0⟩
  | leave {σ : Store} {st : List Operand} {p : Nat} {h rest : Code} {x : Bool} {t e : Nat}
      (hx : x = true → e ≠ t + 1) :
      Move ⟨σ, st, .dispatch p h :: rest, x, t + 1, e⟩ ⟨σ, st, rest, x, t, e⟩

theorem Move.steps {c d : Configuration} (hm : Move c d) : c.Steps d := by
  cases hm with
  | push => exact ⟨_, rfl, List.mem_singleton_self _⟩
  | truth => exact ⟨_, rfl, List.mem_singleton_self _⟩
  | fetch => exact ⟨_, rfl, List.mem_singleton_self _⟩
  | noop => exact ⟨_, rfl, List.mem_singleton_self _⟩
  | negate => exact ⟨_, rfl, List.mem_singleton_self _⟩
  | conj => exact ⟨_, rfl, List.mem_singleton_self _⟩
  | arith hm => exact ⟨_, rfl, List.mem_map_of_mem (List.mem_map_of_mem hm)⟩
  | compare hg => exact ⟨_, rfl, List.mem_map_of_mem (List.mem_map_of_mem hg)⟩
  | assign hm => exact ⟨_, rfl, by simp [storeValue, hm, Configuration.assign]⟩
  | failStore => exact ⟨_, rfl, by simp [storeValue, declare, raise]⟩
  | ignoreStore =>
    refine ⟨_, rfl, ?_⟩
    simp [storeValue, declare, raise]
  | hold hg => exact ⟨_, rfl, by simp [enterArms, hg, splice, Code.splice]⟩
  | refuse hg => exact ⟨_, rfl, by simp [enterArms, hg, splice, Code.splice]⟩
  | failGuard => exact ⟨_, rfl, by simp [enterArms, raise]⟩
  | ignoreGuard => exact ⟨_, rfl, by simp [enterArms, raise]⟩
  | unroll => exact ⟨_, rfl, by simp [splice, Code.splice]⟩
  | attempt => exact ⟨_, rfl, by simp [splice, Code.splice, Code.handlerPoint]⟩
  | handle => exact ⟨_, rfl, by simp [leaveTry, splice, Code.splice]⟩
  | leave hx =>
    refine ⟨_, rfl, ?_⟩
    have hne : ¬(_ ∧ _) := fun hc => hx hc.1 hc.2
    simp [leaveTry, hne]

theorem popInt_eq_ok {c d : Configuration} {i : Instruction} {m : Sign}
    (h : c.popInt i = .ok (m, d)) :
    ∃ st, c.stack = .int m :: st ∧ d = { c with stack := st } := by
  unfold popInt at h
  split at h
  · cases h
  · cases h
  · rename_i a rest hst
    cases h
    exact ⟨rest, hst, rfl⟩

theorem popBool_eq_ok {c d : Configuration} {i : Instruction} {g : Truth}
    (h : c.popBool i = .ok (g, d)) :
    ∃ st, c.stack = .bool g :: st ∧ d = { c with stack := st } := by
  unfold popBool at h
  split at h
  · cases h
  · cases h
  · rename_i a rest hst
    cases h
    exact ⟨rest, hst, rfl⟩

theorem move_of_perform {σ : Store} {st : List Operand} {rest : Code} {x : Bool} {t e p : Nat}
    {op : Operation} {ds : List Configuration} {d : Configuration}
    (h : perform ⟨σ, st, rest, x, t, e⟩ (.basic p op) op = .ok ds) (hd : d ∈ ds) :
    Move ⟨σ, st, .basic p op :: rest, x, t, e⟩ d := by
  cases op with
  | push i =>
    cases h
    cases List.mem_singleton.mp hd
    exact .push
  | truth i =>
    cases h
    cases List.mem_singleton.mp hd
    exact .truth
  | fetch y =>
    cases h
    cases List.mem_singleton.mp hd
    exact .fetch
  | noop =>
    cases h
    cases List.mem_singleton.mp hd
    exact .noop
  | store y =>
    obtain ⟨⟨m, c⟩, hpop, h⟩ := bind_eq_ok h
    obtain ⟨st', hst, rfl⟩ := popInt_eq_ok hpop
    cases h
    cases List.mem_singleton.mp hd
    cases hst
    -- an error raises, unless an exception is pending, and that also keeps values out
    by_cases hm : m = .error
    · subst hm
      cases x
      · exact .failStore
      · exact .ignoreStore
    · cases x
      · simpa [storeValue, hm, Configuration.assign] using Move.assign hm
      · simpa [storeValue, hm, declare] using Move.ignoreStore
  | negate =>
    obtain ⟨⟨u, c⟩, hpop, h⟩ := bind_eq_ok h
    obtain ⟨st', hst, rfl⟩ := popBool_eq_ok hpop
    cases h
    cases List.mem_singleton.mp hd
    cases hst
    exact .negate
  | conj =>
    obtain ⟨⟨u, c⟩, hpop, h⟩ := bind_eq_ok h
    obtain ⟨st', hst, rfl⟩ := popBool_eq_ok hpop
    obtain ⟨⟨v, c⟩, hpop, h⟩ := bind_eq_ok h
    obtain ⟨st'', hst', rfl⟩ := popBool_eq_ok hpop
    cases h
    cases List.mem_singleton.mp hd
    cases hst
    cases hst'
    exact .conj
  | arith op =>
    obtain ⟨⟨l, c⟩, hpop, h⟩ := bind_eq_ok h
    obtain ⟨st', hst, rfl⟩ := popInt_eq_ok hpop
    obtain ⟨⟨r, c⟩, hpop, h⟩ := bind_eq_ok h
    obtain ⟨st'', hst', rfl⟩ := popInt_eq_ok hpop
    cases h
    cases hst
    cases hst'
    simp only [fork, List.map_map, List.mem_map] at hd
    obtain ⟨m, hm, rfl⟩ := hd
    exact .arith hm
  | compare op =>
    obtain ⟨⟨l, c⟩, hpop, h⟩ := bind_eq_ok h
    obtain ⟨st', hst, rfl⟩ := popInt_eq_ok hpop
    obtain ⟨⟨r, c⟩, hpop, h⟩ := bind_eq_ok h
    obtain ⟨st'', hst', rfl⟩ := popInt_eq_ok hpop
    cases h
    cases hst
    cases hst'
    simp only [fork, List.map_map, List.mem_map] at hd
    obtain ⟨g, hg, rfl⟩ := hd
    exact .compare hg

/-- Outside of every try block a dispatch cannot be executed. -/
theorem execute_dispatch_eq_ok {c : Configuration} {p : Nat} {handler : Code}
    {ds : List Configuration} (h : c.execute (.dispatch p handler) = .ok ds) :
    c.tryDepth ≠ 0 ∧ ds = [c.leaveTry handler] := by
  simp only [execute] at h
  split at h
  · cases h
  · rename_i ht
    cases h
    exact ⟨ht, rfl⟩

theorem Steps.move {c d : Configuration} (h : c.Steps d) : Move c d := by
  obtain ⟨ds, hstep, hd⟩ := h
  obtain ⟨σ, st, code, x, t, e⟩ := c
  cases code with
  | nil => cases hstep
  | cons i rest =>
    cases i with
    | basic p op => exact move_of_perform hstep hd
    | branch p a b =>
      obtain ⟨⟨g, c⟩, hpop, h⟩ := bind_eq_ok hstep
      obtain ⟨st', hst, rfl⟩ := popBool_eq_ok hpop
      cases h
      cases hst
      -- an error enters neither arm, and a guard that may go either way enters both
      simp only [enterArms, List.mem_append] at hd
      obtain (hd | hd) | hd := hd
      · split at hd
        · rename_i hg
          subst hg
          cases List.mem_singleton.mp hd
          cases x
          · exact .failGuard
          · exact .ignoreGuard
        · cases hd
      · split at hd
        · rename_i hg
          cases List.mem_singleton.mp hd
          exact .hold hg
        · cases hd
      · split at hd
        · rename_i hg
          cases List.mem_singleton.mp hd
          exact .refuse hg
        · cases hd
    | loop p a b =>
      cases hstep
      cases List.mem_singleton.mp hd
      simpa [splice, Code.splice] using Move.unroll
    | attempt p a h =>
      cases hstep
      cases List.mem_singleton.mp hd
      simpa [splice, Code.splice, Code.handlerPoint] using Move.attempt
    | dispatch p h =>
      obtain ⟨ht, rfl⟩ := execute_dispatch_eq_ok hstep
      cases List.mem_singleton.mp hd
      obtain ⟨t, rfl⟩ := Nat.exists_eq_succ_of_ne_zero ht
      unfold leaveTry
      split
      · rename_i hc
        have hx : x = true := hc.1
        have he : e = t + 1 := hc.2
        subst hx he
        exact .handle
      · rename_i hc
        exact .leave fun hx he => hc ⟨hx, he⟩

/-- What a step does to the store.  Only a store does anything to it: it sets its variable
or, when an exception is pending afterwards, makes it known at most. -/
theorem Move.store_cases {c d : Configuration} (h : Move c d) :
    d.store = c.store ∨
      ∃ p y rest, c.code = .basic p (.store y) :: rest ∧
        ((d.store = c.store.declare y ∧ d.exceptional = true) ∨
          (c.exceptional = false ∧ d.exceptional = false ∧
            ∃ m, m ≠ .error ∧ d.store = c.store.insert y m)) := by
  cases h with
  | assign hm => exact .inr ⟨_, _, _, rfl, .inr ⟨rfl, rfl, _, hm, rfl⟩⟩
  | failStore | ignoreStore => exact .inr ⟨_, _, _, rfl, .inl ⟨rfl, rfl⟩⟩
  | push | truth | fetch | noop | negate | conj | arith | compare | hold | refuse | failGuard
  | ignoreGuard | unroll | attempt | handle | leave => exact .inl rfl

/-! ### Runs -/

theorem Reachable.trans {c d e : Configuration} (h : c.Reachable d) (h' : d.Reachable e) :
    c.Reachable e := by
  induction h' with
  | refl => exact h
  | tail _ hs ih => exact .tail ih hs

theorem Move.reachable {c d : Configuration} (h : Move c d) : c.Reachable d :=
  .tail .refl h.steps

/-- A run that begins with a move. -/
theorem Reachable.head {c d e : Configuration} (h : Move c d) (h' : d.Reachable e) :
    c.Reachable e :=
  h.reachable.trans h'

/-- What holds at the start and is kept by every move holds along every run. -/
theorem Reachable.invariant {P : Configuration → Prop} {c d : Configuration}
    (h : c.Reachable d) (hc : P c) (hmove : ∀ {c d}, Move c d → P c → P d) : P d := by
  induction h with
  | refl => exact hc
  | tail _ hs ih => exact hmove hs.move ih

/-- `d` may come of exactly `n` steps from `c`. -/
def ReachesIn : Nat → Configuration → Configuration → Prop
  | 0, c, d => c = d
  | n + 1, c, d => ∃ c', Move c c' ∧ ReachesIn n c' d

/-- A run can be cut after any number of its steps. -/
theorem reachesIn_add {m n : Nat} {c d : Configuration} :
    ReachesIn (m + n) c d ↔ ∃ e, ReachesIn m c e ∧ ReachesIn n e d := by
  induction m generalizing c with
  | zero =>
    rw [Nat.zero_add]
    constructor
    · intro h
      exact ⟨c, rfl, h⟩
    · rintro ⟨e, rfl, h⟩
      exact h
  | succ m ih =>
    rw [Nat.add_right_comm]
    constructor
    · rintro ⟨c', hm, h⟩
      obtain ⟨e, h₁, h₂⟩ := ih.mp h
      exact ⟨e, ⟨c', hm, h₁⟩, h₂⟩
    · rintro ⟨e, ⟨c', hm, h₁⟩, h₂⟩
      exact ⟨c', hm, ih.mpr ⟨e, h₁, h₂⟩⟩

theorem reachesIn_one {c d : Configuration} : ReachesIn 1 c d ↔ Move c d := by
  constructor
  · rintro ⟨e, hm, rfl⟩
    exact hm
  · intro hm
    exact ⟨d, hm, rfl⟩

theorem ReachesIn.reachable {n : Nat} {c d : Configuration} (h : ReachesIn n c d) :
    c.Reachable d := by
  induction n generalizing c with
  | zero => exact h ▸ .refl
  | succ n ih =>
    obtain ⟨c', hm, h⟩ := h
    exact .head hm (ih h)

theorem reachable_iff_reachesIn {c d : Configuration} :
    c.Reachable d ↔ ∃ n, ReachesIn n c d := by
  constructor
  · intro h
    induction h with
    | refl => exact ⟨0, rfl⟩
    | tail _ hs ih =>
      obtain ⟨n, hn⟩ := ih
      exact ⟨n + 1, reachesIn_add.mpr ⟨_, hn, reachesIn_one.mpr hs.move⟩⟩
  · rintro ⟨n, hn⟩
    exact hn.reachable

end Configuration

end SignAnalysis
