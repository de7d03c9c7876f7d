/-
What the parser accepts is in the grammar.

Every function of the parser takes the tokens of its phrase from the front of a stream
and leaves the rest:

* `TokenStream.Leaves` — after some tokens of a stream, another stream is left;
* `Reading.exprSound`, `Reading.guardSound`, `Reading.stmtSound` — the tokens that were
  taken spell the tree that was returned, however much fuel there was.

The functions call each other with less fuel, so all functions for one sort of tree are
proved at once, by induction on the fuel.  A loop is given the tree of the tokens in
front of it, and what it returns is spelled by those tokens and its own.
-/
import SignAnalysis.Program.Parser
import SignAnalysis.Proofs.Except
import SignAnalysis.Proofs.Grammar

namespace SignAnalysis

open Grammar

/-! ### Tokens of a stream -/

namespace TokenStream

/-- After the tokens `ts` of the stream `s`, the stream `r` is left. -/
inductive Leaves : TokenStream → List Token → TokenStream → Prop
  | nil {s : TokenStream} : Leaves s [] s
  | cons {s r : TokenStream} {t : Token} {ts : List Token} (ht : s.next? = some t)
      (h : Leaves s.rest ts r) : Leaves s (t :: ts) r

variable {s m r : TokenStream} {t : Token} {ts us : List Token}

theorem leaves_cons : s.Leaves (t :: ts) r ↔ s.next? = some t ∧ s.rest.Leaves ts r := by
  constructor
  · rintro (_ | ⟨ht, h⟩)
    exact ⟨ht, h⟩
  · rintro ⟨ht, h⟩
    exact .cons ht h

theorem leaves_singleton : s.Leaves [t] r ↔ s.next? = some t ∧ r = s.rest := by
  rw [leaves_cons]
  constructor
  · rintro ⟨ht, ⟨⟩⟩
    exact ⟨ht, rfl⟩
  · rintro ⟨ht, rfl⟩
    exact ⟨ht, .nil⟩

theorem leaves_append :
    s.Leaves (ts ++ us) r ↔ ∃ m, s.Leaves ts m ∧ m.Leaves us r := by
  induction ts generalizing s with
  | nil =>
    constructor
    · intro h
      exact ⟨s, .nil, h⟩
    · rintro ⟨m, ⟨⟩, h⟩
      exact h
  | cons t ts ih =>
    constructor
    · intro h
      obtain ⟨ht, h⟩ := leaves_cons.mp h
      obtain ⟨m, hm, hr⟩ := ih.mp h
      exact ⟨m, .cons ht hm, hr⟩
    · rintro ⟨m, hm, hr⟩
      obtain ⟨ht, hm⟩ := leaves_cons.mp hm
      exact .cons ht (ih.mpr ⟨m, hm, hr⟩)

theorem Leaves.append (h : s.Leaves ts m) (h' : m.Leaves us r) : s.Leaves (ts ++ us) r :=
  leaves_append.mpr ⟨m, h, h'⟩

theorem Leaves.tokens_eq (h : s.Leaves ts r) : s.tokens = ts ++ r.tokens := by
  induction h with
  | nil => rfl
  | @cons s r t ts ht h ih =>
    have hhead : s.tokens = t :: s.rest.tokens := by
      obtain ⟨_ | ⟨l, lexemes⟩, stop⟩ := s
      · cases ht
      · cases ht
        rfl
    rw [hhead, ih, List.cons_append]

/-- Every way to split the tokens of a stream leaves a stream. -/
theorem exists_leaves (s : TokenStream) (h : s.tokens = ts ++ us) :
    ∃ r, s.Leaves ts r ∧ r.tokens = us := by
  induction ts generalizing s with
  | nil => exact ⟨s, .nil, h⟩
  | cons t ts ih =>
    obtain ⟨_ | ⟨l, lexemes⟩, stop⟩ := s
    · cases h
    · obtain ⟨rfl, hrest⟩ := List.cons.inj h
      obtain ⟨r, hr, hus⟩ := ih ⟨lexemes, stop⟩ hrest
      exact ⟨r, .cons rfl hr, hus⟩

theorem eat?_eq_some_iff : s.eat? t = some r ↔ s.Leaves [t] r := by
  rw [leaves_singleton, eat?]
  by_cases ht : s.next? = some t
  · simp [ht, eq_comm]
  · simp [ht]

theorem expect_eq_ok_iff : s.expect t = .ok r ↔ s.Leaves [t] r := by
  rw [← eat?_eq_some_iff, expect]
  cases s.eat? t with
  | none => simp
  | some m => simp

end TokenStream

namespace Reading

open TokenStream

/-! ### Operators -/

theorem sumOp?_eq_some_iff {s : TokenStream} {op : ArithOp} :
    sumOp? s = some op ↔ ∃ o, SumSign o op ∧ s.next? = some (.symbol o) := by
  unfold sumOp?
  constructor
  · intro h
    split at h
    · cases h
      exact ⟨_, .plus, ‹_›⟩
    · cases h
      exact ⟨_, .minus, ‹_›⟩
    · cases h
  · rintro ⟨o, ⟨⟩ | ⟨⟩, h⟩
    · rw [h]
    · rw [h]

theorem productOp?_eq_some_iff {s : TokenStream} {op : ArithOp} :
    productOp? s = some op ↔ ∃ o, ProductSign o op ∧ s.next? = some (.symbol o) := by
  unfold productOp?
  constructor
  · intro h
    split at h
    · cases h
      exact ⟨_, .star, ‹_›⟩
    · cases h
      exact ⟨_, .slash, ‹_›⟩
    · cases h
  · rintro ⟨o, ⟨⟩ | ⟨⟩, h⟩
    · rw [h]
    · rw [h]

theorem compareOp?_eq_some_iff {s : TokenStream} {op : CompareOp} :
    compareOp? s = some op ↔ ∃ o, CompareSign o op ∧ s.next? = some (.symbol o) := by
  unfold compareOp?
  constructor
  · intro h
    split at h
    · cases h
      exact ⟨_, .eq, ‹_›⟩
    · cases h
      exact ⟨_, .le, ‹_›⟩
    · cases h
  · rintro ⟨o, ⟨⟩ | ⟨⟩, h⟩
    · rw [h]
    · rw [h]

end Reading

/-! ### Expressions -/

/-- A minus sign in front of a factor gives the opposite. -/
theorem Expr.Spelled.opposite {e : Expr} {ts : List Token} (h : e.Spelled .factor ts) :
    e.opposite.Spelled .factor (.symbol .minus :: ts) := by
  cases e with
  | num n => exact .minusNumber h
  | var x => exact .minus h fun n => Expr.noConfusion
  | binary op l r => exact .minus h fun n => Expr.noConfusion

namespace Reading

open TokenStream

variable {fuel : Nat} {s r : TokenStream}

/-- With this fuel, the functions for expressions read what the grammar allows. -/
structure ExprSound (fuel : Nat) : Prop where
  sum {s r : TokenStream} {e : Expr} (h : sum fuel s = .ok (e, r)) :
    ∃ ts, s.Leaves ts r ∧ e.Spelled .sum ts
  sumRest {s r : TokenStream} {l e : Expr} {ts : List Token} (h : sumRest fuel l s = .ok (e, r))
    (hl : l.Spelled .sum ts) : ∃ us, s.Leaves us r ∧ e.Spelled .sum (ts ++ us)
  product {s r : TokenStream} {e : Expr} (h : product fuel s = .ok (e, r)) :
    ∃ ts, s.Leaves ts r ∧ e.Spelled .product ts
  productRest {s r : TokenStream} {l e : Expr} {ts : List Token}
    (h : productRest fuel l s = .ok (e, r)) (hl : l.Spelled .product ts) :
    ∃ us, s.Leaves us r ∧ e.Spelled .product (ts ++ us)
  factor {s r : TokenStream} {e : Expr} (h : factor fuel s = .ok (e, r)) :
    ∃ ts, s.Leaves ts r ∧ e.Spelled .factor ts

namespace ExprSound

variable {e l : Expr} {ts : List Token}

theorem sum_succ (ih : ExprSound fuel) (h : Reading.sum (fuel + 1) s = .ok (e, r)) :
    ∃ ts, s.Leaves ts r ∧ e.Spelled .sum ts := by
  rw [Reading.sum] at h
  obtain ⟨⟨l, m⟩, hl, h⟩ := bind_eq_ok h
  obtain ⟨ts, hts, hl⟩ := ih.product hl
  obtain ⟨us, hus, he⟩ := ih.sumRest h (.ofProduct hl)
  exact ⟨ts ++ us, hts.append hus, he⟩

theorem sumRest_succ (ih : ExprSound fuel) (h : Reading.sumRest (fuel + 1) l s = .ok (e, r))
    (hl : l.Spelled .sum ts) : ∃ us, s.Leaves us r ∧ e.Spelled .sum (ts ++ us) := by
  rw [Reading.sumRest] at h
  split at h
  · cases h
    exact ⟨[], .nil, by rwa [List.append_nil]⟩
  · rename_i op hop
    obtain ⟨o, ho, hnext⟩ := sumOp?_eq_some_iff.mp hop
    obtain ⟨⟨f, m⟩, hf, h⟩ := bind_eq_ok h
    obtain ⟨us, hus, hf⟩ := ih.product hf
    obtain ⟨vs, hvs, he⟩ := ih.sumRest h (.sum hl ho hf)
    refine ⟨.symbol o :: us ++ vs, .cons hnext (hus.append hvs), ?_⟩
    rwa [List.append_assoc] at he

theorem product_succ (ih : ExprSound fuel) (h : Reading.product (fuel + 1) s = .ok (e, r)) :
    ∃ ts, s.Leaves ts r ∧ e.Spelled .product ts := by
  rw [Reading.product] at h
  obtain ⟨⟨l, m⟩, hl, h⟩ := bind_eq_ok h
  obtain ⟨ts, hts, hl⟩ := ih.factor hl
  obtain ⟨us, hus, he⟩ := ih.productRest h (.ofFactor hl)
  exact ⟨ts ++ us, hts.append hus, he⟩

theorem productRest_succ (ih : ExprSound fuel)
    (h : Reading.productRest (fuel + 1) l s = .ok (e, r)) (hl : l.Spelled .product ts) :
    ∃ us, s.Leaves us r ∧ e.Spelled .product (ts ++ us) := by
  rw [Reading.productRest] at h
  split at h
  · cases h
    exact ⟨[], .nil, by rwa [List.append_nil]⟩
  · rename_i op hop
    obtain ⟨o, ho, hnext⟩ := productOp?_eq_some_iff.mp hop
    obtain ⟨⟨f, m⟩, hf, h⟩ := bind_eq_ok h
    obtain ⟨us, hus, hf⟩ := ih.factor hf
    obtain ⟨vs, hvs, he⟩ := ih.productRest h (.product hl ho hf)
    refine ⟨.symbol o :: us ++ vs, .cons hnext (hus.append hvs), ?_⟩
    rwa [List.append_assoc] at he

theorem factor_succ (ih : ExprSound fuel) (h : Reading.factor (fuel + 1) s = .ok (e, r)) :
    ∃ ts, s.Leaves ts r ∧ e.Spelled .factor ts := by
  rw [Reading.factor] at h
  split at h
  · rename_i n hnext
    cases h
    exact ⟨_, .cons hnext .nil, .number⟩
  · rename_i x hnext
    cases h
    exact ⟨_, .cons hnext .nil, .name⟩
  · rename_i hnext
    obtain ⟨⟨f, m⟩, hf, h⟩ := bind_eq_ok h
    cases h
    obtain ⟨ts, hts, hf⟩ := ih.factor hf
    exact ⟨_, .cons hnext hts, hf.opposite⟩
  · rename_i hnext
    obtain ⟨⟨f, m⟩, hf, h⟩ := bind_eq_ok h
    obtain ⟨m', hm', h⟩ := bind_eq_ok h
    cases h
    obtain ⟨ts, hts, hf⟩ := ih.sum hf
    exact ⟨_, .cons hnext (hts.append (expect_eq_ok_iff.mp hm')), .parens hf⟩
  · cases h

end ExprSound

theorem exprSound (fuel : Nat) : ExprSound fuel := by
  induction fuel with
  | zero => constructor <;> intros <;> contradiction
  | succ fuel ih =>
    exact ⟨ih.sum_succ, ih.sumRest_succ, ih.product_succ, ih.productRest_succ, ih.factor_succ⟩

/-! ### Guards -/

theorem comparison_sound {g : Guard} (h : comparison fuel s = .ok (g, r)) :
    ∃ ts, s.Leaves ts r ∧ g.Spelled .literal ts := by
  rw [comparison] at h
  obtain ⟨⟨l, m⟩, hl, h⟩ := bind_eq_ok h
  obtain ⟨ts, hts, hl⟩ := (exprSound fuel).sum hl
  dsimp only at h
  split at h
  · cases h
  · rename_i op hop
    obtain ⟨o, ho, hnext⟩ := compareOp?_eq_some_iff.mp hop
    obtain ⟨⟨f, m'⟩, hf, h⟩ := bind_eq_ok h
    cases h
    obtain ⟨us, hus, hf⟩ := (exprSound fuel).sum hf
    exact ⟨_, hts.append (.cons hnext hus), .compare hl ho hf⟩

/-- With this fuel, the functions for guards read what the grammar allows. -/
structure GuardSound (fuel : Nat) : Prop where
  guard {s r : TokenStream} {g : Guard} (h : guard fuel s = .ok (g, r)) :
    ∃ ts, s.Leaves ts r ∧ g.Spelled .guard ts
  guardRest {s r : TokenStream} {l g : Guard} {ts : List Token}
    (h : guardRest fuel l s = .ok (g, r)) (hl : l.Spelled .guard ts) :
    ∃ us, s.Leaves us r ∧ g.Spelled .guard (ts ++ us)
  literal {s r : TokenStream} {g : Guard} (h : literal fuel s = .ok (g, r)) :
    ∃ ts, s.Leaves ts r ∧ g.Spelled .literal ts
  enclosedGuard {s r : TokenStream} {g : Guard} (h : enclosedGuard fuel s = .ok (g, r)) :
    ∃ ts, s.Leaves (ts ++ [.symbol .rparen]) r ∧ g.Spelled .guard ts

namespace GuardSound

variable {g l : Guard} {ts : List Token}

theorem guard_succ (ih : GuardSound fuel) (h : Reading.guard (fuel + 1) s = .ok (g, r)) :
    ∃ ts, s.Leaves ts r ∧ g.Spelled .guard ts := by
  rw [Reading.guard] at h
  obtain ⟨⟨l, m⟩, hl, h⟩ := bind_eq_ok h
  obtain ⟨ts, hts, hl⟩ := ih.literal hl
  obtain ⟨us, hus, hg⟩ := ih.guardRest h (.ofLiteral hl)
  exact ⟨ts ++ us, hts.append hus, hg⟩

theorem guardRest_succ (ih : GuardSound fuel) (h : Reading.guardRest (fuel + 1) l s = .ok (g, r))
    (hl : l.Spelled .guard ts) : ∃ us, s.Leaves us r ∧ g.Spelled .guard (ts ++ us) := by
  rw [Reading.guardRest] at h
  split at h
  · cases h
    exact ⟨[], .nil, by rwa [List.append_nil]⟩
  · rename_i m hm
    obtain ⟨⟨f, m'⟩, hf, h⟩ := bind_eq_ok h
    obtain ⟨us, hus, hf⟩ := ih.literal hf
    obtain ⟨vs, hvs, hg⟩ := ih.guardRest h (.and hl hf)
    refine ⟨.symbol .and :: us ++ vs, (eat?_eq_some_iff.mp hm).append (hus.append hvs), ?_⟩
    rwa [List.append_assoc] at hg

theorem literal_succ (ih : GuardSound fuel) (h : Reading.literal (fuel + 1) s = .ok (g, r)) :
    ∃ ts, s.Leaves ts r ∧ g.Spelled .literal ts := by
  rw [Reading.literal] at h
  split at h
  · rename_i hnext
    cases h
    exact ⟨_, .cons hnext .nil, .yes⟩
  · rename_i hnext
    cases h
    exact ⟨_, .cons hnext .nil, .no⟩
  · rename_i hnext
    obtain ⟨⟨f, m⟩, hf, h⟩ := bind_eq_ok h
    cases h
    obtain ⟨ts, hts, hf⟩ := ih.literal hf
    exact ⟨_, .cons hnext hts, .not hf⟩
  · rename_i hnext
    -- a guard in parentheses, or else a comparison that begins with the parenthesis
    split at h
    · rename_i hg
      cases h
      obtain ⟨ts, hts, hg⟩ := ih.enclosedGuard hg
      exact ⟨_, .cons hnext hts, .parens hg⟩
    · exact comparison_sound h
  · exact comparison_sound h

theorem enclosedGuard_succ (ih : GuardSound fuel)
    (h : Reading.enclosedGuard (fuel + 1) s = .ok (g, r)) :
    ∃ ts, s.Leaves (ts ++ [.symbol .rparen]) r ∧ g.Spelled .guard ts := by
  rw [Reading.enclosedGuard] at h
  obtain ⟨⟨f, m⟩, hf, h⟩ := bind_eq_ok h
  obtain ⟨m', hm', h⟩ := bind_eq_ok h
  cases h
  obtain ⟨ts, hts, hf⟩ := ih.guard hf
  exact ⟨ts, hts.append (expect_eq_ok_iff.mp hm'), hf⟩

end GuardSound

theorem guardSound (fuel : Nat) : GuardSound fuel := by
  induction fuel with
  | zero => constructor <;> intros <;> contradiction
  | succ fuel ih =>
    exact ⟨ih.guard_succ, ih.guardRest_succ, ih.literal_succ, ih.enclosedGuard_succ⟩

/-! ### Statements -/

/-- With this fuel, the functions for statements read what the grammar allows. -/
structure StmtSound (fuel : Nat) : Prop where
  program {s r : TokenStream} {t : Stmt} (h : program fuel s = .ok (t, r)) :
    ∃ ts, s.Leaves ts r ∧ t.Spelled .program ts
  programRest {s r : TokenStream} {l t : Stmt} {ts : List Token}
    (h : programRest fuel l s = .ok (t, r)) (hl : l.Spelled .program ts) :
    ∃ us, s.Leaves us r ∧ t.Spelled .program (ts ++ us)
  statement {s r : TokenStream} {t : Stmt} (h : statement fuel s = .ok (t, r)) :
    ∃ ts, s.Leaves ts r ∧ t.Spelled .statement ts
  enclosedProgram {s r : TokenStream} {t : Stmt} {close : Symbol}
    (h : enclosedProgram fuel close s = .ok (t, r)) :
    ∃ ts, s.Leaves (ts ++ [.symbol close]) r ∧ t.Spelled .program ts

namespace StmtSound

variable {t l : Stmt} {ts : List Token}

theorem program_succ (ih : StmtSound fuel) (h : Reading.program (fuel + 1) s = .ok (t, r)) :
    ∃ ts, s.Leaves ts r ∧ t.Spelled .program ts := by
  rw [Reading.program] at h
  obtain ⟨⟨l, m⟩, hl, h⟩ := bind_eq_ok h
  obtain ⟨ts, hts, hl⟩ := ih.statement hl
  obtain ⟨us, hus, ht⟩ := ih.programRest h (.ofStatement hl)
  exact ⟨ts ++ us, hts.append hus, ht⟩

theorem programRest_succ (ih : StmtSound fuel)
    (h : Reading.programRest (fuel + 1) l s = .ok (t, r)) (hl : l.Spelled .program ts) :
    ∃ us, s.Leaves us r ∧ t.Spelled .program (ts ++ us) := by
  rw [Reading.programRest] at h
  split at h
  · cases h
    exact ⟨[], .nil, by rwa [List.append_nil]⟩
  · rename_i m hm
    obtain ⟨⟨f, m'⟩, hf, h⟩ := bind_eq_ok h
    obtain ⟨us, hus, hf⟩ := ih.statement hf
    obtain ⟨vs, hvs, ht⟩ := ih.programRest h (.seq hl hf)
    refine ⟨.symbol .semicolon :: us ++ vs, (eat?_eq_some_iff.mp hm).append (hus.append hvs), ?_⟩
    rwa [List.append_assoc] at ht

theorem statement_succ (ih : StmtSound fuel) (h : Reading.statement (fuel + 1) s = .ok (t, r)) :
    ∃ ts, s.Leaves ts r ∧ t.Spelled .statement ts := by
  rw [Reading.statement] at h
  split at h
  · rename_i x hnext
    obtain ⟨m₁, h₁, h⟩ := bind_eq_ok h
    obtain ⟨⟨e, m₂⟩, he, h⟩ := bind_eq_ok h
    cases h
    obtain ⟨ts, hts, he⟩ := (exprSound fuel).sum he
    exact ⟨_, .cons hnext ((expect_eq_ok_iff.mp h₁).append hts), .assign he⟩
  · rename_i hnext
    cases h
    exact ⟨_, .cons hnext .nil, .skip⟩
  · rename_i hnext
    obtain ⟨⟨g, m₁⟩, hg, h⟩ := bind_eq_ok h
    obtain ⟨m₂, h₂, h⟩ := bind_eq_ok h
    obtain ⟨⟨t, m₃⟩, ht, h⟩ := bind_eq_ok h
    obtain ⟨m₄, h₄, h⟩ := bind_eq_ok h
    obtain ⟨⟨u, m₅⟩, hu, h⟩ := bind_eq_ok h
    cases h
    obtain ⟨bs, hbs, hg⟩ := (guardSound fuel).guard hg
    obtain ⟨ts, hts, ht⟩ := ih.statement ht
    obtain ⟨us, hus, hu⟩ := ih.statement hu
    have helse := (expect_eq_ok_iff.mp h₄).append hus
    have hthen := (expect_eq_ok_iff.mp h₂).append (hts.append helse)
    exact ⟨_, .cons hnext (hbs.append hthen), .cond hg ht hu⟩
  · rename_i hnext
    obtain ⟨⟨g, m₁⟩, hg, h⟩ := bind_eq_ok h
    obtain ⟨m₂, h₂, h⟩ := bind_eq_ok h
    obtain ⟨⟨t, m₃⟩, ht, h⟩ := bind_eq_ok h
    cases h
    obtain ⟨bs, hbs, hg⟩ := (guardSound fuel).guard hg
    obtain ⟨ts, hts, ht⟩ := ih.statement ht
    have hdo := (expect_eq_ok_iff.mp h₂).append hts
    exact ⟨_, .cons hnext (hbs.append hdo), .loop hg ht⟩
  · rename_i hnext
    obtain ⟨⟨t, m₁⟩, ht, h⟩ := bind_eq_ok h
    obtain ⟨m₂, h₂, h⟩ := bind_eq_ok h
    obtain ⟨⟨u, m₃⟩, hu, h⟩ := bind_eq_ok h
    cases h
    obtain ⟨ts, hts, ht⟩ := ih.statement ht
    obtain ⟨us, hus, hu⟩ := ih.statement hu
    have hcatch := (expect_eq_ok_iff.mp h₂).append hus
    exact ⟨_, .cons hnext (hts.append hcatch), .attempt ht hu⟩
  · rename_i hnext
    obtain ⟨ts, hts, ht⟩ := ih.enclosedProgram h
    exact ⟨_, .cons hnext hts, .parens ht⟩
  · rename_i hnext
    obtain ⟨ts, hts, ht⟩ := ih.enclosedProgram h
    exact ⟨_, .cons hnext hts, .braces ht⟩
  · cases h

theorem enclosedProgram_succ (ih : StmtSound fuel) {close : Symbol}
    (h : Reading.enclosedProgram (fuel + 1) close s = .ok (t, r)) :
    ∃ ts, s.Leaves (ts ++ [.symbol close]) r ∧ t.Spelled .program ts := by
  rw [Reading.enclosedProgram] at h
  obtain ⟨⟨f, m⟩, hf, h⟩ := bind_eq_ok h
  obtain ⟨m', hm', h⟩ := bind_eq_ok h
  cases h
  obtain ⟨ts, hts, hf⟩ := ih.program hf
  exact ⟨ts, hts.append (expect_eq_ok_iff.mp hm'), hf⟩

end StmtSound

theorem stmtSound (fuel : Nat) : StmtSound fuel := by
  induction fuel with
  | zero => constructor <;> intros <;> contradiction
  | succ fuel ih =>
    exact ⟨ih.program_succ, ih.programRest_succ, ih.statement_succ, ih.enclosedProgram_succ⟩

end Reading

end SignAnalysis
