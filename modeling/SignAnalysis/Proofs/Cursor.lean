/-
Reading programs with a cursor.

The parser once more, as it moves a position along the lexemes of a text.  The end of the text is
the last lexeme and has no token.  Nothing keeps the position within the lexemes, or numbers within
64 bits, but each step says so if it goes wrong:

* `Cursor.Fault` — what can go wrong;
* `Cursor.Action` — a step, from one position to another.  It ends with a result or with a syntax
  error, and keeps its position in both cases, or with a fault;
* `Cursor.next`, `Cursor.eat`, `Cursor.stepBack`, `Cursor.moveTo` — the ways to move;
* `Cursor.wholeProgram` — reads a program up to the end of the text.
-/
import SignAnalysis.Program.Parser

namespace SignAnalysis

/-- The lexemes of a text and its end, which has no token. -/
def TokenStream.cells (s : TokenStream) : List (Option Token × Position) :=
  s.lexemes.map (fun l => (some l.token, l.position)) ++ [(none, s.stop)]

namespace Cursor

inductive Fault where
  /-- There is no lexeme at a position. -/
  | outOfRange
  /-- The end of the text is passed over. -/
  | pastEnd
  /-- A step is taken back from the first lexeme. -/
  | beforeStart
  /-- A number is not a signed 64-bit integer. -/
  | overflow
  | outOfFuel
deriving DecidableEq, Repr

/-- What is done from a position in the lexemes of a text on, and where it ends. -/
structure Action (α : Type) where
  run : TokenStream → Nat → Except Fault (Except SyntaxError α × Nat)

instance : Monad Action where
  pure a := ⟨fun _ i => .ok (.ok a, i)⟩
  bind c d := ⟨fun s i =>
    match c.run s i with
    | .ok (.ok a, j) => (d a).run s j
    | .ok (.error e, j) => .ok (.error e, j)
    | .error f => .error f⟩

variable {α : Type}

/-! ### Moves -/

def fault (f : Fault) : Action α := ⟨fun _ _ => .error f⟩

def throw (e : SyntaxError) : Action α := ⟨fun _ i => .ok (.error e, i)⟩

def position : Action Nat := ⟨fun _ i => .ok (.ok i, i)⟩

/-- The lexeme at the position. -/
def lexeme : Action (Option Token × Position) := ⟨fun s i =>
  match s.cells[i]? with
  | some l => .ok (.ok l, i)
  | none => .error .outOfRange⟩

def moveTo (j : Nat) : Action Unit := ⟨fun s _ =>
  if j < s.cells.length then .ok (.ok (), j) else .error .outOfRange⟩

/-- The token at the position; the end has none. -/
def peek : Action (Option Token) := do
  let l ← lexeme
  pure l.1

def advance : Action Unit := do
  match ← peek with
  | none => fault .pastEnd
  | some _ =>
    let i ← position
    moveTo (i + 1)

def stepBack : Action Unit := do
  match ← position with
  | 0 => fault .beforeStart
  | j + 1 => moveTo j

/-- Takes the token at the position.  The end stays where it is. -/
def next : Action (Option Token) := do
  match ← peek with
  | none => pure none
  | some t =>
    advance
    pure (some t)

/-- The syntax error at the position, for the token that was found. -/
def fail (x : Expectation) (found : Option Token) : Action α := do
  let l ← lexeme
  throw ⟨l.2, .unexpectedToken x found⟩

/-- The syntax error for a token that was taken by `next`. -/
def refuse (x : Expectation) : Option Token → Action α
  | none => fail x none
  | some t => do
    stepBack
    fail x (some t)

/-- Takes the given token, if it is there. -/
def eat (t : Token) : Action Bool := do
  if (← peek) = some t then
    advance
    pure true
  else
    pure false

def expect (t : Token) : Action Unit := do
  if ← eat t then pure () else fail (.token t) (← peek)

/-- Goes on after a syntax error, from where it was found. -/
def attempt (c : Action α) : Action (Option α) := ⟨fun s i =>
  match c.run s i with
  | .ok (.ok a, j) => .ok (.ok (some a), j)
  | .ok (.error _, j) => .ok (.ok none, j)
  | .error f => .error f⟩

/-- A number that is a signed 64-bit integer. -/
def number (n : Int) : Action Expr :=
  if -9223372036854775808 ≤ n ∧ n ≤ 9223372036854775807 then pure (.num n) else fault .overflow

def opposite : Expr → Action Expr
  | .num n => number (-n)
  | e => pure (.binary .sub (.num 0) e)

/-! ### Expressions -/

mutual

def sum : Nat → Action Expr
  | 0 => fault .outOfFuel
  | fuel + 1 => do
    let e ← product fuel
    sumRest fuel e

def sumRest : Nat → Expr → Action Expr
  | 0, _ => fault .outOfFuel
  | fuel + 1, e => do
    if ← eat (.symbol .plus) then
      let f ← product fuel
      sumRest fuel (.binary .add e f)
    else if ← eat (.symbol .minus) then
      let f ← product fuel
      sumRest fuel (.binary .sub e f)
    else
      pure e

def product : Nat → Action Expr
  | 0 => fault .outOfFuel
  | fuel + 1 => do
    let e ← factor fuel
    productRest fuel e

def productRest : Nat → Expr → Action Expr
  | 0, _ => fault .outOfFuel
  | fuel + 1, e => do
    if ← eat (.symbol .star) then
      let f ← factor fuel
      productRest fuel (.binary .mul e f)
    else if ← eat (.symbol .slash) then
      let f ← factor fuel
      productRest fuel (.binary .div e f)
    else
      pure e

def factor : Nat → Action Expr
  | 0 => fault .outOfFuel
  | fuel + 1 => do
    match ← next with
    | some (.number n) => number n
    | some (.name x) => pure (.var x)
    | some (.symbol .minus) =>
      let e ← factor fuel
      opposite e
    | some (.symbol .lparen) =>
      let e ← sum fuel
      expect (.symbol .rparen)
      pure e
    | t? => refuse .expression t?

end

/-! ### Guards -/

def comparison (fuel : Nat) : Action Guard := do
  let l ← sum fuel
  if ← eat (.symbol .eq) then
    let r ← sum fuel
    pure (.compare .eq l r)
  else if ← eat (.symbol .le) then
    let r ← sum fuel
    pure (.compare .le l r)
  else
    fail .comparison (← peek)

/-- The guard that was read, or else a comparison from the position `start` on. -/
def orComparison (fuel start : Nat) : Option Guard → Action Guard
  | some g => pure g
  | none => do
    moveTo start
    comparison fuel

mutual

def guard : Nat → Action Guard
  | 0 => fault .outOfFuel
  | fuel + 1 => do
    let g ← literal fuel
    guardRest fuel g

def guardRest : Nat → Guard → Action Guard
  | 0, _ => fault .outOfFuel
  | fuel + 1, g => do
    if ← eat (.symbol .and) then
      let h ← literal fuel
      guardRest fuel (.and g h)
    else
      pure g

def literal : Nat → Action Guard
  | 0 => fault .outOfFuel
  | fuel + 1 => do
    if ← eat (.keyword .true_) then
      pure (.const true)
    else if ← eat (.keyword .false_) then
      pure (.const false)
    else if ← eat (.symbol .bang) then
      let g ← literal fuel
      pure (.not g)
    else if (← peek) = some (.symbol .lparen) then
      let start ← position
      advance
      orComparison fuel start (← enclosedGuard fuel)
    else
      comparison fuel

/-- A guard and the parenthesis that closes it, if both are there. -/
def enclosedGuard : Nat → Action (Option Guard)
  | 0 => fault .outOfFuel
  | fuel + 1 => do
    match ← attempt (guard fuel) with
    | none => pure none
    | some g => if ← eat (.symbol .rparen) then pure (some g) else pure none

end

/-! ### Statements -/

mutual

def program : Nat → Action Stmt
  | 0 => fault .outOfFuel
  | fuel + 1 => do
    let t ← statement fuel
    programRest fuel t

def programRest : Nat → Stmt → Action Stmt
  | 0, _ => fault .outOfFuel
  | fuel + 1, t => do
    if ← eat (.symbol .semicolon) then
      let u ← statement fuel
      programRest fuel (.seq t u)
    else
      pure t

def statement : Nat → Action Stmt
  | 0 => fault .outOfFuel
  | fuel + 1 => do
    match ← next with
    | some (.name x) =>
      expect (.symbol .assign)
      let e ← sum fuel
      pure (.assign x e)
    | some (.keyword .skip_) => pure .skip
    | some (.keyword .if_) =>
      let g ← guard fuel
      expect (.keyword .then_)
      let t ← statement fuel
      expect (.keyword .else_)
      let u ← statement fuel
      pure (.cond g t u)
    | some (.keyword .while_) =>
      let g ← guard fuel
      expect (.keyword .do_)
      let t ← statement fuel
      pure (.loop g t)
    | some (.keyword .try_) =>
      let t ← statement fuel
      expect (.keyword .catch_)
      let u ← statement fuel
      pure (.attempt t u)
    | some (.symbol .lparen) => enclosedProgram fuel .rparen
    | some (.symbol .lbrace) => enclosedProgram fuel .rbrace
    | t? => refuse .statement t?

def enclosedProgram : Nat → Symbol → Action Stmt
  | 0, _ => fault .outOfFuel
  | fuel + 1, close => do
    let t ← program fuel
    expect (.symbol close)
    pure t

end

/-- A program up to the end of the text. -/
def wholeProgram (fuel : Nat) : Action Stmt := do
  let t ← program fuel
  match ← peek with
  | none => pure t
  | some u => fail .endOfProgram (some u)

end Cursor

end SignAnalysis
