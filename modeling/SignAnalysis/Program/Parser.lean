/-
Reading programs.

The grammar, with the operators of each chain grouped to the left:

    program    ::= statement (";" statement)*
    statement  ::= name ":=" sum | "skip"
                 | "if" guard "then" statement "else" statement
                 | "while" guard "do" statement
                 | "try" statement "catch" statement
                 | "(" program ")" | "{" program "}"
    sum        ::= product (("+" | "-") product)*
    product    ::= factor (("*" | "/") factor)*
    factor     ::= number | name | "-" factor | "(" sum ")"
    guard      ::= literal ("&" literal)*
    literal    ::= "true" | "false" | "!" literal | "(" guard ")"
                 | sum ("=" | "<=") sum

* `Stmt.ofTokens` — the program that a stream of tokens spells;
* `Stmt.ofText` — the program that a text spells.

A parenthesis in front of a literal may open a guard or a sum.  It is read as a
guard first, and if that fails the same tokens are read again as a comparison.

Each function takes the tokens from the front of a stream and returns the rest.
A call hands its fuel, less one, to the calls it makes.  Between two calls of
one function a token is taken, and there are fewer than eight functions on the
way from a program to a factor, so eight units for every token are enough.
-/
import SignAnalysis.Program.Basic
import SignAnalysis.Program.Lexeme

namespace SignAnalysis

/-- A minus sign in front of a number is part of the number; in front of
anything else it subtracts from zero. -/
def Expr.opposite : Expr → Expr
  | num n => num (-n)
  | e => binary .sub (num 0) e

namespace Reading

/-! ### Arithmetic -/

/-- The operator of a sum that comes next. -/
def sumOp? (s : TokenStream) : Option ArithOp :=
  match s.next? with
  | some (.symbol .plus) => some .add
  | some (.symbol .minus) => some .sub
  | _ => none

/-- The operator of a product that comes next. -/
def productOp? (s : TokenStream) : Option ArithOp :=
  match s.next? with
  | some (.symbol .star) => some .mul
  | some (.symbol .slash) => some .div
  | _ => none

mutual

def sum : Nat → TokenStream → Except SyntaxError (Expr × TokenStream)
  | 0, s => .error (s.unexpected .expression)
  | fuel + 1, s => do
    let (e, s) ← product fuel s
    sumRest fuel e s

/-- The operands that are still added to, or subtracted from, `e`. -/
def sumRest : Nat → Expr → TokenStream → Except SyntaxError (Expr × TokenStream)
  | 0, _, s => .error (s.unexpected .expression)
  | fuel + 1, e, s =>
    match sumOp? s with
    | none => .ok (e, s)
    | some op => do
      let (f, s) ← product fuel s.rest
      sumRest fuel (.binary op e f) s

def product : Nat → TokenStream → Except SyntaxError (Expr × TokenStream)
  | 0, s => .error (s.unexpected .expression)
  | fuel + 1, s => do
    let (e, s) ← factor fuel s
    productRest fuel e s

/-- The operands by which `e` is still multiplied or divided. -/
def productRest : Nat → Expr → TokenStream → Except SyntaxError (Expr × TokenStream)
  | 0, _, s => .error (s.unexpected .expression)
  | fuel + 1, e, s =>
    match productOp? s with
    | none => .ok (e, s)
    | some op => do
      let (f, s) ← factor fuel s.rest
      productRest fuel (.binary op e f) s

def factor : Nat → TokenStream → Except SyntaxError (Expr × TokenStream)
  | 0, s => .error (s.unexpected .expression)
  | fuel + 1, s =>
    match s.next? with
    | some (.number n) => .ok (.num n, s.rest)
    | some (.name x) => .ok (.var x, s.rest)
    | some (.symbol .minus) => do
      let (e, s) ← factor fuel s.rest
      .ok (e.opposite, s)
    | some (.symbol .lparen) => do
      let (e, s) ← sum fuel s.rest
      let s ← s.expect (.symbol .rparen)
      .ok (e, s)
    | _ => .error (s.unexpected .expression)

end

/-! ### Guards -/

/-- The comparison that comes next. -/
def compareOp? (s : TokenStream) : Option CompareOp :=
  match s.next? with
  | some (.symbol .eq) => some .eq
  | some (.symbol .le) => some .le
  | _ => none

def comparison (fuel : Nat) (s : TokenStream) : Except SyntaxError (Guard × TokenStream) := do
  let (l, s) ← sum fuel s
  match compareOp? s with
  | none => .error (s.unexpected .comparison)
  | some op =>
    let (r, s) ← sum fuel s.rest
    .ok (.compare op l r, s)

mutual

def guard : Nat → TokenStream → Except SyntaxError (Guard × TokenStream)
  | 0, s => .error (s.unexpected .expression)
  | fuel + 1, s => do
    let (g, s) ← literal fuel s
    guardRest fuel g s

/-- The operands with which `g` still forms a conjunction. -/
def guardRest : Nat → Guard → TokenStream → Except SyntaxError (Guard × TokenStream)
  | 0, _, s => .error (s.unexpected .expression)
  | fuel + 1, g, s =>
    match s.eat? (.symbol .and) with
    | none => .ok (g, s)
    | some s => do
      let (h, s) ← literal fuel s
      guardRest fuel (.and g h) s

def literal : Nat → TokenStream → Except SyntaxError (Guard × TokenStream)
  | 0, s => .error (s.unexpected .expression)
  | fuel + 1, s =>
    match s.next? with
    | some (.keyword .true_) => .ok (.const true, s.rest)
    | some (.keyword .false_) => .ok (.const false, s.rest)
    | some (.symbol .bang) => do
      let (g, s) ← literal fuel s.rest
      .ok (.not g, s)
    | some (.symbol .lparen) =>
      match enclosedGuard fuel s.rest with
      | .ok r => .ok r
      | .error _ => comparison fuel s
    | _ => comparison fuel s

/-- A guard and the parenthesis that closes it. -/
def enclosedGuard : Nat → TokenStream → Except SyntaxError (Guard × TokenStream)
  | 0, s => .error (s.unexpected .expression)
  | fuel + 1, s => do
    let (g, s) ← guard fuel s
    let s ← s.expect (.symbol .rparen)
    .ok (g, s)

end

/-! ### Statements -/

mutual

def program : Nat → TokenStream → Except SyntaxError (Stmt × TokenStream)
  | 0, s => .error (s.unexpected .statement)
  | fuel + 1, s => do
    let (t, s) ← statement fuel s
    programRest fuel t s

/-- The statements that still follow `t`. -/
def programRest : Nat → Stmt → TokenStream → Except SyntaxError (Stmt × TokenStream)
  | 0, _, s => .error (s.unexpected .statement)
  | fuel + 1, t, s =>
    match s.eat? (.symbol .semicolon) with
    | none => .ok (t, s)
    | some s => do
      let (u, s) ← statement fuel s
      programRest fuel (.seq t u) s

def statement : Nat → TokenStream → Except SyntaxError (Stmt × TokenStream)
  | 0, s => .error (s.unexpected .statement)
  | fuel + 1, s =>
    match s.next? with
    | some (.name x) => do
      let s ← s.rest.expect (.symbol .assign)
      let (e, s) ← sum fuel s
      .ok (.assign x e, s)
    | some (.keyword .skip_) => .ok (.skip, s.rest)
    | some (.keyword .if_) => do
      let (g, s) ← guard fuel s.rest
      let s ← s.expect (.keyword .then_)
      let (t, s) ← statement fuel s
      let s ← s.expect (.keyword .else_)
      let (u, s) ← statement fuel s
      .ok (.cond g t u, s)
    | some (.keyword .while_) => do
      let (g, s) ← guard fuel s.rest
      let s ← s.expect (.keyword .do_)
      let (t, s) ← statement fuel s
      .ok (.loop g t, s)
    | some (.keyword .try_) => do
      let (t, s) ← statement fuel s.rest
      let s ← s.expect (.keyword .catch_)
      let (u, s) ← statement fuel s
      .ok (.attempt t u, s)
    | some (.symbol .lparen) => enclosedProgram fuel .rparen s.rest
    | some (.symbol .lbrace) => enclosedProgram fuel .rbrace s.rest
    | _ => .error (s.unexpected .statement)

/-- A program and the symbol that closes it. -/
def enclosedProgram : Nat → Symbol → TokenStream → Except SyntaxError (Stmt × TokenStream)
  | 0, _, s => .error (s.unexpected .statement)
  | fuel + 1, close, s => do
    let (t, s) ← program fuel s
    let s ← s.expect (.symbol close)
    .ok (t, s)

end

/-- Enough for every call that reading a stream of this length can make. -/
def fuel (s : TokenStream) : Nat := 8 * (s.lexemes.length + 1)

end Reading

/-- The program that a stream of tokens spells, up to its end. -/
def Stmt.ofTokens (s : TokenStream) : Except SyntaxError Stmt := do
  let (t, s) ← Reading.program (Reading.fuel s) s
  match s.next? with
  | none => .ok t
  | some _ => .error (s.unexpected .endOfProgram)

/-- The program that a text spells. -/
def Stmt.ofText (text : String) : Except SyntaxError Stmt := do
  Stmt.ofTokens (← TokenStream.ofText text)

end SignAnalysis
