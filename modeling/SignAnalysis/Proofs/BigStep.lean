/-
The meaning of statements.

`Stmt.Leads` says what a statement makes of a store, without code and without a
machine: it starts with or without an exception pending, and so it ends.  The machine
that executes the code of a statement comes to its end exactly as this relation says,
at every depth of try blocks:

* `Stmt.leads_loop_iff` — a loop is a conditional with the loop at the end of its body;
* `Stmt.Leads.reachable` — the machine gets past the code of a statement wherever the
  relation leads;
* `Stmt.exists_leads` — and if it comes to an end at all, it got past the code of the
  statement as the relation says, with fewer steps to go;
* `Stmt.ends_iff_leads` — both directions for a whole program.

An exception that is pending, or will be raised next, belongs to a depth of try blocks
that does not change while the statement runs (`Mode.Origin`).
-/
import SignAnalysis.Proofs.Evaluation

namespace SignAnalysis

/-- Whether an exception is pending. -/
inductive Mode where
  | normal
  | raising
deriving DecidableEq

/-- What is known of the variables, and whether an exception is pending. -/
structure Phase where
  store : Store
  mode : Mode

/-- The statement may start in the one phase and end in the other. -/
inductive Stmt.Leads : Stmt → Phase → Phase → Prop
  | assign {σ : Store} {y : Var} {e : Expr} {m : Sign} (hm : m ∈ e.outcomes σ.get)
      (hv : m ≠ .error) : Leads (.assign y e) ⟨σ, .normal⟩ ⟨σ.insert y m, .normal⟩
  /-- An error is not stored; it raises an exception. -/
  | assignError {σ : Store} {y : Var} {e : Expr} (hm : .error ∈ e.outcomes σ.get) :
      Leads (.assign y e) ⟨σ, .normal⟩ ⟨σ.declare y, .raising⟩
  | assignRaising {σ : Store} {y : Var} {e : Expr} :
      Leads (.assign y e) ⟨σ, .raising⟩ ⟨σ.declare y, .raising⟩
  | skip {u : Phase} : Leads .skip u u
  | seq {s t : Stmt} {u v w : Phase} (hs : Leads s u v) (ht : Leads t v w) :
      Leads (.seq s t) u w
  | condHolds {g : Guard} {s t : Stmt} {u v : Phase} {m : Truth}
      (hm : m ∈ g.outcomes u.store.get) (hv : m = .yes ∨ m = .any) (hs : Leads s u v) :
      Leads (.cond g s t) u v
  | condFails {g : Guard} {s t : Stmt} {u v : Phase} {m : Truth}
      (hm : m ∈ g.outcomes u.store.get) (hv : m = .no ∨ m = .any) (ht : Leads t u v) :
      Leads (.cond g s t) u v
  | condError {g : Guard} {s t : Stmt} {σ : Store} {x : Mode} (hm : .error ∈ g.outcomes σ.get) :
      Leads (.cond g s t) ⟨σ, x⟩ ⟨σ, .raising⟩
  | loopHolds {g : Guard} {s : Stmt} {u v w : Phase} {m : Truth}
      (hm : m ∈ g.outcomes u.store.get) (hv : m = .yes ∨ m = .any) (hs : Leads s u v)
      (hloop : Leads (.loop g s) v w) : Leads (.loop g s) u w
  | loopFails {g : Guard} {s : Stmt} {u : Phase} {m : Truth} (hm : m ∈ g.outcomes u.store.get)
      (hv : m = .no ∨ m = .any) : Leads (.loop g s) u u
  | loopError {g : Guard} {s : Stmt} {σ : Store} {x : Mode} (hm : .error ∈ g.outcomes σ.get) :
      Leads (.loop g s) ⟨σ, x⟩ ⟨σ, .raising⟩
  | attempt {s h : Stmt} {σ τ : Store} (hs : Leads s ⟨σ, .normal⟩ ⟨τ, .normal⟩) :
      Leads (.attempt s h) ⟨σ, .normal⟩ ⟨τ, .normal⟩
  /-- The handler runs if the block has raised. -/
  | attemptCaught {s h : Stmt} {σ τ : Store} {w : Phase}
      (hs : Leads s ⟨σ, .normal⟩ ⟨τ, .raising⟩) (hh : Leads h ⟨τ, .normal⟩ w) :
      Leads (.attempt s h) ⟨σ, .normal⟩ w
  /-- An exception that was pending before the block is not caught by it. -/
  | attemptRaising {s h : Stmt} {σ : Store} {v : Phase} (hs : Leads s ⟨σ, .raising⟩ v) :
      Leads (.attempt s h) ⟨σ, .raising⟩ v

/-- A loop is a conditional with the loop at the end of its body. -/
theorem Stmt.leads_loop_iff {g : Guard} {s : Stmt} {u w : Phase} :
    (loop g s).Leads u w ↔ (cond g (seq s (loop g s)) skip).Leads u w := by
  constructor
  · intro h
    cases h with
    | loopHolds hm hv hs hloop => exact .condHolds hm hv (.seq hs hloop)
    | loopFails hm hv => exact .condFails hm hv .skip
    | loopError hm => exact .condError hm
  · intro h
    cases h with
    | condHolds hm hv hs =>
      cases hs with
      | seq hs hloop => exact .loopHolds hm hv hs hloop
    | condFails hm hv hskip =>
      cases hskip
      exact .loopFails hm hv
    | condError hm => exact .loopError hm

/-- No statement ends an exception that was pending before it. -/
theorem Stmt.Leads.mode_eq_raising {s : Stmt} {u v : Phase} (h : s.Leads u v)
    (hu : u.mode = .raising) : v.mode = .raising := by
  induction h with
  | assign | attempt | attemptCaught => cases hu
  | assignError | assignRaising | condError | loopError => rfl
  | skip | loopFails => exact hu
  | seq _ _ ihs iht => exact iht (ihs hu)
  | condHolds _ _ _ ih | condFails _ _ _ ih => exact ih hu
  | loopHolds _ _ _ _ ihs ihloop => exact ihloop (ihs hu)
  | attemptRaising _ ih => exact ih rfl

theorem Truth.mayHold_iff {m : Truth} : m.mayHold = true ↔ m = .yes ∨ m = .any := by
  cases m <;> decide

theorem Truth.mayFail_iff {m : Truth} : m.mayFail = true ↔ m = .no ∨ m = .any := by
  cases m <;> decide

/-! ### Phases of the machine -/

namespace Mode

def exceptional : Mode → Bool
  | normal => false
  | raising => true

/-- The depth that a configuration keeps of an exception raised at depth `d`. -/
def depth (d : Nat) : Mode → Nat
  | normal => 0
  | raising => d

/-- With `t` open try blocks, `d` is the depth at which the pending exception was raised, or
at which the next one will be. -/
def Origin (t d : Nat) : Mode → Prop
  | normal => d = t
  | raising => d ≤ t

end Mode

/-- What a conditional can do with its guard. -/
theorem Configuration.Move.of_branch {σ : Store} {st : List Operand} {g : Truth} {p t e : Nat}
    {a b rest : Code} {x : Bool} {c : Configuration}
    (h : Move ⟨σ, .bool g :: st, .branch p a b :: rest, x, t, e⟩ c) :
    (g.mayHold = true ∧ c = ⟨σ, st, a ++ rest, x, t, e⟩) ∨
    (g.mayFail = true ∧ c = ⟨σ, st, b ++ rest, x, t, e⟩) ∨
    (g = .error ∧ c = raise ⟨σ, st, rest, x, t, e⟩) := by
  cases h with
  | hold hg => exact .inl ⟨hg, rfl⟩
  | refuse hg => exact .inr (.inl ⟨hg, rfl⟩)
  | failGuard => exact .inr (.inr ⟨rfl, rfl⟩)
  | ignoreGuard => exact .inr (.inr ⟨rfl, rfl⟩)

namespace Phase

open SignAnalysis.Configuration

/-- The configuration of a phase, with `t` open try blocks and exceptions of depth `d`. -/
def configuration (u : Phase) (st : List Operand) (code : Code) (t d : Nat) : Configuration :=
  ⟨u.store, st, code, u.mode.exceptional, t, u.mode.depth d⟩

variable {u v : Phase} {st : List Operand} {rest : Code} {t d : Nat}

theorem origin_of_leads {s : Stmt} (h : s.Leads u v) (hd : u.mode.Origin t d) :
    v.mode.Origin t d := by
  cases hu : u.mode with
  | raising =>
    rw [h.mode_eq_raising hu]
    rwa [hu] at hd
  | normal =>
    rw [hu] at hd
    cases v.mode with
    | normal => exact hd
    | raising => exact Nat.le_of_eq hd

/-- Raising leads to the raising mode, whatever the mode was. -/
theorem raise_configuration (hd : u.mode.Origin t d) :
    (u.configuration st rest t d).raise = configuration ⟨u.store, .raising⟩ st rest t d := by
  obtain ⟨σ, x⟩ := u
  cases x with
  | raising => rfl
  | normal =>
    cases hd
    rfl

/-- A guard that is evaluated is followed by one of the arms, or raises. -/
theorem reachable_guard {g : Guard} {m : Truth} (hm : m ∈ g.outcomes u.store.get) (p : Nat)
    (a b : Code) :
    (u.configuration st (g.code p ++ .branch p a b :: rest) t d).Reachable
      (u.configuration (.bool m :: st) (.branch p a b :: rest) t d) :=
  (Guard.reachesIn_code_iff.mpr ⟨m, hm, rfl⟩).reachable

theorem reachable_holds {g : Guard} {m : Truth} (hm : m ∈ g.outcomes u.store.get)
    (hv : m = .yes ∨ m = .any) (p : Nat) (a b : Code) :
    (u.configuration st (g.code p ++ .branch p a b :: rest) t d).Reachable
      (u.configuration st (a ++ rest) t d) :=
  (reachable_guard hm p a b).trans (Move.hold (Truth.mayHold_iff.mpr hv)).reachable

theorem reachable_fails {g : Guard} {m : Truth} (hm : m ∈ g.outcomes u.store.get)
    (hv : m = .no ∨ m = .any) (p : Nat) (a b : Code) :
    (u.configuration st (g.code p ++ .branch p a b :: rest) t d).Reachable
      (u.configuration st (b ++ rest) t d) :=
  (reachable_guard hm p a b).trans (Move.refuse (Truth.mayFail_iff.mpr hv)).reachable

theorem reachable_error {g : Guard} {σ : Store} {x : Mode} (hm : .error ∈ g.outcomes σ.get)
    (hd : x.Origin t d) (p : Nat) (a b : Code) :
    (configuration ⟨σ, x⟩ st (g.code p ++ .branch p a b :: rest) t d).Reachable
      (configuration ⟨σ, .raising⟩ st rest t d) := by
  refine (reachable_guard hm p a b).trans (Move.reachable ?_)
  cases x with
  | raising => exact .ignoreGuard
  | normal =>
    cases hd
    exact .failGuard

/-- A dispatch is passed by what was raised before its block, and by what was not raised. -/
theorem reachable_leave {p : Nat} {a : Code} (hu : u.mode = .raising → d ≤ t) :
    (u.configuration st (.dispatch p a :: rest) (t + 1) d).Reachable
      (u.configuration st rest t d) := by
  refine Move.reachable (.leave ?_)
  intro hx
  obtain ⟨σ, x⟩ := u
  cases x with
  | normal => cases hx
  | raising => exact Nat.ne_of_lt (Nat.lt_succ_of_le (hu rfl))

end Phase

/-! ### From statements to runs -/

namespace Stmt

open SignAnalysis.Configuration

/-- The machine gets past the code of a statement wherever the statement leads. -/
theorem Leads.reachable {s : Stmt} {u v : Phase} (h : s.Leads u v) {k t d : Nat}
    {st : List Operand} {rest : Code} (hd : u.mode.Origin t d) :
    (u.configuration st (s.code k ++ rest) t d).Reachable (v.configuration st rest t d) := by
  induction h generalizing k t d rest with
  | @assign σ y e m hm hv =>
    rw [code, List.append_assoc]
    exact (Expr.reachesIn_code_iff.mpr ⟨m, hm, rfl⟩).reachable.trans (Move.assign hv).reachable
  | @assignError σ y e hm =>
    cases hd
    rw [code, List.append_assoc]
    exact (Expr.reachesIn_code_iff.mpr ⟨_, hm, rfl⟩).reachable.trans Move.failStore.reachable
  | @assignRaising σ y e =>
    obtain ⟨m, hm⟩ := e.exists_mem_outcomes σ.get
    rw [code, List.append_assoc]
    exact (Expr.reachesIn_code_iff.mpr ⟨m, hm, rfl⟩).reachable.trans Move.ignoreStore.reachable
  | skip => exact Move.noop.reachable
  | seq hs ht ihs iht =>
    rw [code, List.append_assoc]
    exact (ihs hd).trans (iht (Phase.origin_of_leads hs hd))
  | condHolds hm hv _ ihs =>
    rw [code, List.append_assoc]
    exact (Phase.reachable_holds hm hv _ _ _).trans (ihs hd)
  | condFails hm hv _ iht =>
    rw [code, List.append_assoc]
    exact (Phase.reachable_fails hm hv _ _ _).trans (iht hd)
  | condError hm =>
    rw [code, List.append_assoc]
    exact Phase.reachable_error hm hd _ _ _
  | @loopHolds g s u v w m hm hv hs hloop ihs ihloop =>
    refine .head .unroll ((Phase.reachable_holds hm hv _ _ _).trans ?_)
    -- behind the body stands the loop itself
    rw [List.append_assoc]
    exact (ihs hd).trans (ihloop (k := k) (Phase.origin_of_leads hs hd))
  | loopFails hm hv =>
    exact .head .unroll ((Phase.reachable_fails hm hv _ _ _).trans Move.noop.reachable)
  | loopError hm => exact .head .unroll (Phase.reachable_error hm hd _ _ _)
  | @attempt s h σ τ hs ihs =>
    refine .head .attempt (.trans (ihs (d := t + 1) rfl) ?_)
    exact Phase.reachable_leave fun hx => nomatch hx
  | @attemptCaught s h σ τ w hs hh ihs ihh =>
    refine .head .attempt (.trans (ihs (d := t + 1) rfl) ?_)
    exact .head .handle (ihh hd)
  | @attemptRaising s h σ v hs ihs =>
    refine .head .attempt (.trans (ihs (d := d) (Nat.le_succ_of_le hd)) ?_)
    exact Phase.reachable_leave fun _ => hd

end Stmt

/-! ### From runs to statements -/

namespace Configuration

variable {b c : Configuration} {n : Nat}

/-- A run to the end begins with a step, if something is left to execute. -/
theorem ReachesIn.exists_move (h : ReachesIn n b c) (hb : b.isTerminal = false)
    (hc : c.isTerminal = true) : ∃ j b', n = j + 1 ∧ Move b b' ∧ ReachesIn j b' c := by
  cases n with
  | zero =>
    cases h
    exact absurd (hb.symm.trans hc) Bool.false_ne_true
  | succ j =>
    obtain ⟨b', hmove, h⟩ := h
    exact ⟨j, b', rfl, hmove, h⟩

end Configuration

namespace Phase

open SignAnalysis.Configuration

variable {u : Phase} {st : List Operand} {a b rest : Code} {t d n p q : Nat} {c : Configuration}

/-- A run to the end that begins with an expression comes to one of its outcomes. -/
theorem exists_of_expr {e : Expr} {i : Instruction} {x : Bool}
    (h : ReachesIn n ⟨u.store, st, e.code p ++ i :: rest, x, t, d⟩ c) (hc : c.isTerminal = true) :
    ∃ m ∈ e.outcomes u.store.get, ∃ b j,
      Move ⟨u.store, .int m :: st, i :: rest, x, t, d⟩ b ∧ j < n ∧ ReachesIn j b c := by
  rcases h.past fun i hi => Expr.isPure_of_mem_code hi with
    ⟨hterm, -⟩ | ⟨b, b', j, hb, hmove, hj, h⟩
  · exact absurd (hterm.symm.trans hc) Bool.false_ne_true
  · obtain ⟨m, hm, rfl⟩ := Expr.reachesIn_code_iff.mp hb
    exact ⟨m, hm, b', j, hmove, hj, h⟩

/-- A run to the end that begins with a conditional takes one of its arms, or raises. -/
theorem exists_of_guard {g : Guard}
    (h : ReachesIn n (u.configuration st (g.code p ++ .branch q a b :: rest) t d) c)
    (hc : c.isTerminal = true) (hd : u.mode.Origin t d) :
    ∃ m ∈ g.outcomes u.store.get, ∃ j < n,
      ((m = .yes ∨ m = .any) ∧ ReachesIn j (u.configuration st (a ++ rest) t d) c) ∨
      ((m = .no ∨ m = .any) ∧ ReachesIn j (u.configuration st (b ++ rest) t d) c) ∨
      (m = .error ∧ ReachesIn j (configuration ⟨u.store, .raising⟩ st rest t d) c) := by
  rcases h.past fun i hi => Guard.isPure_of_mem_code hi with
    ⟨hterm, -⟩ | ⟨b, b', j, hb, hmove, hj, h⟩
  · exact absurd (hterm.symm.trans hc) Bool.false_ne_true
  · obtain ⟨m, hm, rfl⟩ := Guard.reachesIn_code_iff.mp hb
    refine ⟨m, hm, j, hj, ?_⟩
    rcases hmove.of_branch with ⟨hv, rfl⟩ | ⟨hv, rfl⟩ | ⟨rfl, rfl⟩
    · exact .inl ⟨Truth.mayHold_iff.mp hv, h⟩
    · exact .inr (.inl ⟨Truth.mayFail_iff.mp hv, h⟩)
    · refine .inr (.inr ⟨rfl, ?_⟩)
      rw [← raise_configuration hd]
      exact h

end Phase

namespace Stmt

open SignAnalysis.Configuration

/-- A run to the end gets past the code of a statement as the statement leads. -/
theorem exists_leads {s : Stmt} {u : Phase} {k t d n : Nat} {st : List Operand} {rest : Code}
    {c : Configuration} (h : ReachesIn n (u.configuration st (s.code k ++ rest) t d) c)
    (hc : c.isTerminal = true) (hd : u.mode.Origin t d) :
    ∃ v j, s.Leads u v ∧ j ≤ n ∧ ReachesIn j (v.configuration st rest t d) c := by
  induction s generalizing u k t d n rest with
  | assign y e =>
    rw [code, List.append_assoc] at h
    obtain ⟨m, hm, b, j, hmove, hj, h⟩ := Phase.exists_of_expr h hc
    obtain ⟨σ, x⟩ := u
    cases x with
    | normal =>
      cases hd
      cases hmove with
      | assign hv => exact ⟨⟨_, .normal⟩, j, .assign hm hv, by omega, h⟩
      | failStore => exact ⟨⟨_, .raising⟩, j, .assignError hm, by omega, h⟩
    | raising =>
      cases hmove with
      | ignoreStore => exact ⟨⟨_, .raising⟩, j, .assignRaising, by omega, h⟩
  | skip =>
    obtain ⟨j, b, rfl, hmove, h⟩ := h.exists_move rfl hc
    cases hmove
    exact ⟨u, j, .skip, by omega, h⟩
  | seq s t ihs iht =>
    rw [code, List.append_assoc] at h
    obtain ⟨v, j, hs, hj, h⟩ := ihs h hd
    obtain ⟨w, i, ht, hi, h⟩ := iht h (Phase.origin_of_leads hs hd)
    exact ⟨w, i, .seq hs ht, by omega, h⟩
  | cond g s t ihs iht =>
    rw [code, List.append_assoc] at h
    obtain ⟨m, hm, j, hj, ⟨hv, h⟩ | ⟨hv, h⟩ | ⟨rfl, h⟩⟩ := Phase.exists_of_guard h hc hd
    · obtain ⟨v, i, hs, hi, h⟩ := ihs h hd
      exact ⟨v, i, .condHolds hm hv hs, by omega, h⟩
    · obtain ⟨v, i, ht, hi, h⟩ := iht h hd
      exact ⟨v, i, .condFails hm hv ht, by omega, h⟩
    · exact ⟨_, j, .condError hm, by omega, h⟩
  | loop g s ihs =>
    -- by induction on the length of the run, which is shorter each time around
    induction n using Nat.strongRecOn generalizing u with
    | ind n ih =>
      obtain ⟨n, b, rfl, hmove, h⟩ := h.exists_move rfl hc
      cases hmove
      obtain ⟨m, hm, j, hj, ⟨hv, h⟩ | ⟨hv, h⟩ | ⟨rfl, h⟩⟩ := Phase.exists_of_guard h hc hd
      · rw [List.append_assoc] at h
        obtain ⟨v, i, hs, hi, h⟩ := ihs h hd
        have hlt : i < n + 1 := by omega
        obtain ⟨w, i', hloop, hi', h⟩ := ih i hlt h (Phase.origin_of_leads hs hd)
        exact ⟨w, i', .loopHolds hm hv hs hloop, by omega, h⟩
      · obtain ⟨i, b, rfl, hmove, h⟩ := h.exists_move rfl hc
        cases hmove
        exact ⟨u, i, .loopFails hm hv, by omega, h⟩
      · exact ⟨_, j, .loopError hm, by omega, h⟩
  | attempt s h' ihs ihh =>
    obtain ⟨n, b, rfl, hmove, h⟩ := h.exists_move rfl hc
    cases hmove
    obtain ⟨σ, x⟩ := u
    cases x with
    | normal =>
      obtain ⟨⟨τ, y⟩, j, hs, hj, h⟩ := ihs (u := ⟨σ, .normal⟩) (t := t + 1) (d := t + 1) h rfl
      obtain ⟨j, b, rfl, hmove, h⟩ := h.exists_move rfl hc
      cases y with
      | normal =>
        cases hmove
        exact ⟨⟨τ, .normal⟩, j, .attempt hs, by omega, h⟩
      | raising =>
        cases hmove with
        | handle =>
          obtain ⟨w, i, hh, hi, h⟩ := ihh (u := ⟨τ, .normal⟩) h hd
          exact ⟨w, i, .attemptCaught hs hh, by omega, h⟩
        | leave hne => exact absurd rfl (hne rfl)
    | raising =>
      obtain ⟨⟨τ, y⟩, j, hs, hj, h⟩ := ihs (u := ⟨σ, .raising⟩) h (Nat.le_succ_of_le hd)
      obtain ⟨j, b, rfl, hmove, h⟩ := h.exists_move rfl hc
      cases hs.mode_eq_raising rfl
      cases hmove with
      | handle => exact absurd hd (Nat.not_succ_le_self t)
      | leave => exact ⟨⟨τ, .raising⟩, j, .attemptRaising hs, by omega, h⟩

/-- The machine executes a statement to the end exactly as the statement leads. -/
theorem reachable_end_iff {s : Stmt} {u : Phase} {k t d : Nat} (hd : u.mode.Origin t d)
    (c : Configuration) :
    (u.configuration [] (s.code k) t d).Reachable c ∧ c.isTerminal = true ↔
      ∃ v, s.Leads u v ∧ c = v.configuration [] [] t d := by
  rw [← List.append_nil (s.code k)]
  constructor
  · rintro ⟨h, hc⟩
    obtain ⟨n, hn⟩ := reachable_iff_reachesIn.mp h
    obtain ⟨v, j, hleads, -, hend⟩ := exists_leads hn hc hd
    refine ⟨v, hleads, ?_⟩
    -- from the end of the code no step goes on
    cases j with
    | zero => exact hend.symm
    | succ j =>
      obtain ⟨b, hmove, -⟩ := hend
      cases hmove
  · rintro ⟨v, hleads, rfl⟩
    exact ⟨hleads.reachable hd, rfl⟩

/-- **Compiled code means what the statement means.**  Inside of any number of try blocks, the
machine executes the code of a statement to the end with exactly the stores that the
statement leads to.

* Without an exception pending it ends with one exactly if the statement ends raising, and
  that one belongs to the innermost block around the statement.
* An exception that is pending, raised in one of those blocks or outside of them, stays
  pending, and its depth is kept. -/
theorem ends_iff_leads (s : Stmt) :
    (∀ (σ : Store) (t : Nat) (c : Configuration),
      Reachable ⟨σ, [], s.compile.code, false, t, 0⟩ c ∧ c.isTerminal = true ↔
        ∃ τ x, s.Leads ⟨σ, .normal⟩ ⟨τ, x⟩ ∧
          c = ⟨τ, [], [], x.exceptional, t, x.depth t⟩) ∧
    (∀ (σ : Store) (t d : Nat), d ≤ t → ∀ c : Configuration,
      Reachable ⟨σ, [], s.compile.code, true, t, d⟩ c ∧ c.isTerminal = true ↔
        ∃ τ, s.Leads ⟨σ, .raising⟩ ⟨τ, .raising⟩ ∧ c = ⟨τ, [], [], true, t, d⟩) := by
  constructor
  · intro σ t c
    have hiff := reachable_end_iff (s := s) (u := ⟨σ, .normal⟩) (k := 0) (t := t) rfl c
    refine hiff.trans ⟨?_, ?_⟩
    · rintro ⟨⟨τ, x⟩, hleads, rfl⟩
      exact ⟨τ, x, hleads, rfl⟩
    · rintro ⟨τ, x, hleads, rfl⟩
      exact ⟨⟨τ, x⟩, hleads, rfl⟩
  · intro σ t d hd c
    have hiff := reachable_end_iff (s := s) (u := ⟨σ, .raising⟩) (k := 0) hd c
    refine hiff.trans ⟨?_, ?_⟩
    · rintro ⟨⟨τ, x⟩, hleads, rfl⟩
      cases hleads.mode_eq_raising rfl
      exact ⟨τ, hleads, rfl⟩
    · rintro ⟨τ, hleads, rfl⟩
      exact ⟨⟨τ, .raising⟩, hleads, rfl⟩

/-- `while x <= 0 do try y := 1 / x catch x := 1` -/
def retriedDivision : Stmt :=
  .loop (.compare .le (.var "x") (.num 0))
    (.attempt (.assign "y" (.binary .div (.num 1) (.var "x"))) (.assign "x" (.num 1)))

/-- The division is caught once and the loop is left; with an exception pending in the inner
of two blocks, the loop may be left at once. -/
theorem ends_at_retriedDivision :
    Reachable ⟨.empty, [], retriedDivision.compile.code, false, 0, 0⟩
      ⟨(Store.empty.declare "y").insert "x" .positive, [], [], false, 0, 0⟩ ∧
    1 ≤ 2 ∧ Reachable ⟨.empty, [], retriedDivision.compile.code, true, 2, 1⟩
      ⟨.empty, [], [], true, 2, 1⟩ := by
  have hcaught : retriedDivision.Leads ⟨.empty, .normal⟩
      ⟨(Store.empty.declare "y").insert "x" .positive, .normal⟩ := by
    refine .loopHolds (m := .any) (by decide) (.inr rfl) ?_
      (.loopFails (m := .no) (by decide) (.inl rfl))
    exact .attemptCaught (.assignError (by decide)) (.assign (by decide) (by decide))
  have hpending : retriedDivision.Leads ⟨.empty, .raising⟩ ⟨.empty, .raising⟩ :=
    .loopFails (m := .any) (by decide) (.inr rfl)
  obtain ⟨hnormal, hraising⟩ := ends_iff_leads retriedDivision
  exact ⟨((hnormal .empty 0 _).mpr ⟨_, _, hcaught, rfl⟩).1, by decide,
    ((hraising .empty 2 1 (by decide) _).mpr ⟨_, hpending, rfl⟩).1⟩

end Stmt

end SignAnalysis
