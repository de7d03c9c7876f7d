/-
The grammar of the While language.

Which tokens spell an expression, a guard or a statement, and which tree they stand
for.  A rule with an operator has the loosest phrase on its left, so that chains of one
operator are grouped to the left:

    program    ::= statement | program ";" statement
    statement  ::= name ":=" sum | "skip"
                 | "if" guard "then" statement "else" statement
                 | "while" guard "do" statement
                 | "try" statement "catch" statement
                 | "(" program ")" | "{" program "}"
    sum        ::= product | sum ("+" | "-") product
    product    ::= factor | product ("*" | "/") factor
    factor     ::= number | name | "-" factor | "(" sum ")"
    guard      ::= literal | guard "&" literal
    literal    ::= "true" | "false" | "!" literal | "(" guard ")"
                 | sum ("=" | "<=") sum

* `Expr.Spelled`, `Guard.Spelled`, `Stmt.Spelled` — the derivations of each phrase;
* `Grammar.opensGuard` — what tells a guard in parentheses from a sum in parentheses:
  inside the one there is a token that no expression has
  (`Guard.Spelled.opensGuard_append`, `Expr.Spelled.opensGuard_append`).
-/
import SignAnalysis.Program.Basic
import SignAnalysis.Program.Token

namespace SignAnalysis

/-! ### Operators -/

namespace Grammar

inductive SumSign : Symbol → ArithOp → Prop
  | plus : SumSign .plus .add
  | minus : SumSign .minus .sub

inductive ProductSign : Symbol → ArithOp → Prop
  | star : ProductSign .star .mul
  | slash : ProductSign .slash .div

inductive CompareSign : Symbol → CompareOp → Prop
  | eq : CompareSign .eq .eq
  | le : CompareSign .le .le

end Grammar

open Grammar

/-! ### Derivations -/

/-- The phrases that stand for expressions, the loosest first. -/
inductive Expr.Phrase where
  | sum
  | product
  | factor

/-- The tokens spell the expression, as a phrase of this kind. -/
inductive Expr.Spelled : Expr → Expr.Phrase → List Token → Prop
  | ofProduct {e : Expr} {ts : List Token} (h : Spelled e .product ts) : Spelled e .sum ts
  | sum {l r : Expr} {o : Symbol} {op : ArithOp} {ts us : List Token} (hl : Spelled l .sum ts)
      (ho : SumSign o op) (hr : Spelled r .product us) :
      Spelled (.binary op l r) .sum (ts ++ .symbol o :: us)
  | ofFactor {e : Expr} {ts : List Token} (h : Spelled e .factor ts) : Spelled e .product ts
  | product {l r : Expr} {o : Symbol} {op : ArithOp} {ts us : List Token}
      (hl : Spelled l .product ts) (ho : ProductSign o op) (hr : Spelled r .factor us) :
      Spelled (.binary op l r) .product (ts ++ .symbol o :: us)
  | number {n : Nat} : Spelled (.num n) .factor [.number n]
  | name {x : Var} : Spelled (.var x) .factor [.name x]
  /-- A minus sign in front of a number is part of the number. -/
  | minusNumber {n : Int} {ts : List Token} (h : Spelled (.num n) .factor ts) :
      Spelled (.num (-n)) .factor (.symbol .minus :: ts)
  | minus {e : Expr} {ts : List Token} (h : Spelled e .factor ts) (he : ∀ n, e ≠ .num n) :
      Spelled (.binary .sub (.num 0) e) .factor (.symbol .minus :: ts)
  | parens {e : Expr} {ts : List Token} (h : Spelled e .sum ts) :
      Spelled e .factor (.symbol .lparen :: (ts ++ [.symbol .rparen]))

/-- The phrases that stand for guards. -/
inductive Guard.Phrase where
  | guard
  | literal

/-- The tokens spell the guard, as a phrase of this kind. -/
inductive Guard.Spelled : Guard → Guard.Phrase → List Token → Prop
  | ofLiteral {g : Guard} {ts : List Token} (h : Spelled g .literal ts) : Spelled g .guard ts
  | and {l r : Guard} {ts us : List Token} (hl : Spelled l .guard ts)
      (hr : Spelled r .literal us) : Spelled (.and l r) .guard (ts ++ .symbol .and :: us)
  | yes : Spelled (.const true) .literal [.keyword .true_]
  | no : Spelled (.const false) .literal [.keyword .false_]
  | not {g : Guard} {ts : List Token} (h : Spelled g .literal ts) :
      Spelled (.not g) .literal (.symbol .bang :: ts)
  | parens {g : Guard} {ts : List Token} (h : Spelled g .guard ts) :
      Spelled g .literal (.symbol .lparen :: (ts ++ [.symbol .rparen]))
  | compare {l r : Expr} {o : Symbol} {op : CompareOp} {ts us : List Token}
      (hl : l.Spelled .sum ts) (ho : CompareSign o op) (hr : r.Spelled .sum us) :
      Spelled (.compare op l r) .literal (ts ++ .symbol o :: us)

/-- The phrases that stand for statements. -/
inductive Stmt.Phrase where
  | program
  | statement

/-- The tokens spell the statement, as a phrase of this kind. -/
inductive Stmt.Spelled : Stmt → Stmt.Phrase → List Token → Prop
  | ofStatement {s : Stmt} {ts : List Token} (h : Spelled s .statement ts) : Spelled s .program ts
  | seq {s t : Stmt} {ts us : List Token} (hs : Spelled s .program ts)
      (ht : Spelled t .statement us) :
      Spelled (.seq s t) .program (ts ++ .symbol .semicolon :: us)
  | assign {x : Var} {e : Expr} {ts : List Token} (he : e.Spelled .sum ts) :
      Spelled (.assign x e) .statement (.name x :: .symbol .assign :: ts)
  | skip : Spelled .skip .statement [.keyword .skip_]
  | cond {g : Guard} {s t : Stmt} {bs ts us : List Token} (hg : g.Spelled .guard bs)
      (hs : Spelled s .statement ts) (ht : Spelled t .statement us) :
      Spelled (.cond g s t) .statement
        (.keyword .if_ :: (bs ++ .keyword .then_ :: (ts ++ .keyword .else_ :: us)))
  | loop {g : Guard} {s : Stmt} {bs ts : List Token} (hg : g.Spelled .guard bs)
      (hs : Spelled s .statement ts) :
      Spelled (.loop g s) .statement (.keyword .while_ :: (bs ++ .keyword .do_ :: ts))
  | attempt {s h : Stmt} {ts us : List Token} (hs : Spelled s .statement ts)
      (hh : Spelled h .statement us) :
      Spelled (.attempt s h) .statement (.keyword .try_ :: (ts ++ .keyword .catch_ :: us))
  | parens {s : Stmt} {ts : List Token} (hs : Spelled s .program ts) :
      Spelled s .statement (.symbol .lparen :: (ts ++ [.symbol .rparen]))
  | braces {s : Stmt} {ts : List Token} (hs : Spelled s .program ts) :
      Spelled s .statement (.symbol .lbrace :: (ts ++ [.symbol .rbrace]))

/-! ### First tokens -/

/-- The tokens that guards have and expressions do not. -/
def Grammar.onlyInGuards : Token → Bool
  | .keyword .true_ | .keyword .false_ => true
  | .symbol .eq | .symbol .le | .symbol .and | .symbol .bang => true
  | _ => false

/-- An expression begins with some token, which is none that only guards have. -/
theorem Expr.Spelled.exists_head {e : Expr} {k : Expr.Phrase} {ts : List Token}
    (h : e.Spelled k ts) : ∃ t us, ts = t :: us ∧ onlyInGuards t = false := by
  induction h with
  | ofProduct _ ih | ofFactor _ ih => exact ih
  | sum _ _ _ ih _ | product _ _ _ ih _ =>
    obtain ⟨t, us, rfl, ht⟩ := ih
    exact ⟨t, _, List.cons_append, ht⟩
  | number | name | minusNumber | minus | parens => exact ⟨_, _, rfl, rfl⟩

theorem Expr.Spelled.length_pos {e : Expr} {k : Expr.Phrase} {ts : List Token}
    (h : e.Spelled k ts) : 0 < ts.length := by
  obtain ⟨t, us, rfl, -⟩ := h.exists_head
  exact Nat.succ_pos _

theorem Guard.Spelled.length_pos {g : Guard} {k : Guard.Phrase} {ts : List Token}
    (h : g.Spelled k ts) : 0 < ts.length := by
  induction h with
  | ofLiteral _ ih => exact ih
  | and | compare =>
    rw [List.length_append, List.length_cons]
    omega
  | yes | no | not | parens => exact Nat.succ_pos _

theorem Stmt.Spelled.length_pos {s : Stmt} {k : Stmt.Phrase} {ts : List Token}
    (h : s.Spelled k ts) : 0 < ts.length := by
  induction h with
  | ofStatement _ ih => exact ih
  | seq =>
    rw [List.length_append, List.length_cons]
    omega
  | assign | skip | cond | loop | attempt | parens | braces => exact Nat.succ_pos _

/-! ### Guards and expressions in parentheses -/

namespace Grammar

/-- With `d` parentheses open, a token that only guards have comes before the parenthesis
that closes the phrase around them. -/
def opensGuard (d : Nat) : List Token → Bool
  | [] => false
  | t :: ts =>
    if t = .symbol .lparen then opensGuard (d + 1) ts
    else if t = .symbol .rparen then d ≠ 0 && opensGuard (d - 1) ts
    else onlyInGuards t || opensGuard d ts

@[simp] theorem opensGuard_lparen (d : Nat) (ts : List Token) :
    opensGuard d (.symbol .lparen :: ts) = opensGuard (d + 1) ts := by
  simp [opensGuard]

@[simp] theorem opensGuard_rparen_succ (d : Nat) (ts : List Token) :
    opensGuard (d + 1) (.symbol .rparen :: ts) = opensGuard d ts := by
  simp [opensGuard]

@[simp] theorem opensGuard_rparen_zero (ts : List Token) :
    opensGuard 0 (.symbol .rparen :: ts) = false := by
  simp [opensGuard]

end Grammar

/-- An expression is passed over. -/
theorem Expr.Spelled.opensGuard_append {e : Expr} {k : Expr.Phrase} {ts : List Token}
    (h : e.Spelled k ts) (d : Nat) (rest : List Token) :
    opensGuard d (ts ++ rest) = opensGuard d rest := by
  induction h generalizing d rest with
  | ofProduct _ ih | ofFactor _ ih => exact ih d rest
  | sum _ ho _ ihl ihr =>
    rw [List.append_assoc, ihl, List.cons_append]
    cases ho <;> simpa [opensGuard, onlyInGuards] using ihr d rest
  | product _ ho _ ihl ihr =>
    rw [List.append_assoc, ihl, List.cons_append]
    cases ho <;> simpa [opensGuard, onlyInGuards] using ihr d rest
  | number => simp [opensGuard, onlyInGuards]
  | name => simp [opensGuard, onlyInGuards]
  | minusNumber _ ih => simpa [opensGuard, onlyInGuards] using ih d rest
  | minus _ _ ih => simpa [opensGuard, onlyInGuards] using ih d rest
  | parens _ ih => simp [ih]

/-- What an opening parenthesis in front of an expression encloses is an expression. -/
theorem Expr.Spelled.exists_enclosed {e : Expr} {k : Expr.Phrase} {ts : List Token}
    (h : e.Spelled k (.symbol .lparen :: ts)) :
    ∃ f us vs, Expr.Spelled f .sum us ∧ ts = us ++ .symbol .rparen :: vs := by
  generalize hts : Token.symbol .lparen :: ts = all at h
  induction h generalizing ts with
  | ofProduct _ ih | ofFactor _ ih => exact ih hts
  | sum hl _ _ ihl _ | product hl _ _ ihl _ =>
    -- the parenthesis belongs to the leftmost operand
    obtain ⟨t, ws, rfl, -⟩ := hl.exists_head
    rw [List.cons_append, List.cons.injEq] at hts
    obtain ⟨rfl, rfl⟩ := hts
    obtain ⟨f, us, vs, hf, rfl⟩ := ihl rfl
    exact ⟨f, us, _, hf, List.append_assoc ..⟩
  | parens h =>
    cases hts
    exact ⟨_, _, [], h, rfl⟩
  | number | name | minusNumber | minus => cases hts

/-- An expression in parentheses, with anything behind it, does not look like a guard. -/
theorem Expr.Spelled.opensGuard_enclosed {e : Expr} {k : Expr.Phrase} {ts : List Token}
    (h : e.Spelled k (.symbol .lparen :: ts)) (rest : List Token) :
    opensGuard 0 (ts ++ rest) = false := by
  obtain ⟨f, us, vs, hf, rfl⟩ := h.exists_enclosed
  rw [List.append_assoc, hf.opensGuard_append, List.cons_append, opensGuard_rparen_zero]

/-- In a guard, a token that only guards have is met before its parentheses are closed. -/
theorem Guard.Spelled.opensGuard_append {g : Guard} {k : Guard.Phrase} {ts : List Token}
    (h : g.Spelled k ts) (d : Nat) (rest : List Token) : opensGuard d (ts ++ rest) = true := by
  induction h generalizing d rest with
  | ofLiteral _ ih => exact ih d rest
  | and _ _ ihl _ =>
    rw [List.append_assoc]
    exact ihl d _
  | yes => simp [opensGuard, onlyInGuards]
  | no => simp [opensGuard, onlyInGuards]
  | not => simp [opensGuard, onlyInGuards]
  | parens _ ih =>
    rw [List.cons_append, List.append_assoc, opensGuard_lparen]
    exact ih (d + 1) _
  | compare hl ho _ =>
    rw [List.append_assoc, hl.opensGuard_append]
    cases ho <;> simp [opensGuard, onlyInGuards]

end SignAnalysis
