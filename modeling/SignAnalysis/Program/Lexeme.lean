/-
Lexemes: the tokens of a text with their positions.

A text is read from the left.  What stands at the front of the rest is decided
by `Piece.front`: layout, the longest token, or a fault.  `Lexeme.scan` reads
on, character by character, counting down those that belong to the piece under
way, so it is structural in the text.

* `TokenStream.ofText` — the lexemes of a whole text, or the first fault in it;
* `TokenStream.next?`, `TokenStream.position`, `TokenStream.rest` — the next
  token, where it begins, and what follows it.
-/
import SignAnalysis.Program.SyntaxError

namespace SignAnalysis

/-- A token and where it begins. -/
structure Lexeme where
  token : Token
  position : Position
deriving DecidableEq, Repr

/-- What may stand at the front of a text. -/
inductive Piece where
  | layout
  | token (t : Token)
  | fault (problem : SyntaxProblem)
deriving DecidableEq, Repr

namespace Piece

/-- The piece made of a run of digits. -/
def ofDigits (digits : List Char) : Piece :=
  let value := Nat.ofDigitChars 10 digits 0
  if value ≤ Token.largestNumber then token (.number value)
  else fault (.numberOutOfRange (String.ofList digits))

/-- What stands at the front of the text `c :: rest`, and how many characters of
`rest` belong to it.  A comment goes up to the end of its line. -/
def front (c : Char) (rest : List Char) : Piece × Nat :=
  if isBlank c then (layout, 0)
  else if c = '#' then (layout, (rest.takeWhile (· ≠ '\n')).length)
  else if c.isDigit then
    let more := rest.takeWhile Char.isDigit
    (ofDigits (c :: more), more.length)
  else if isNameStart c then
    let more := rest.takeWhile isNamePart
    (token (.ofWord (String.ofList (c :: more))), more.length)
  else
    match Symbol.atFront? (c :: rest) with
    | some s => (token (.symbol s), s.spelling.length - 1)
    | none => (fault (.unexpectedCharacter c), 0)

end Piece

namespace Lexeme

/-- The lexemes of a text that begins at `p`, the first `skip` characters of
which belong to a piece that has been read already. -/
def scan (skip : Nat) (p : Position) : List Char → Except SyntaxError (List Lexeme)
  | [] => .ok []
  | c :: rest =>
    match skip with
    | k + 1 => scan k (p.next c) rest
    | 0 =>
      match Piece.front c rest with
      | (.layout, k) => scan k (p.next c) rest
      | (.token t, k) => (scan k (p.next c) rest).map (⟨t, p⟩ :: ·)
      | (.fault problem, _) => .error ⟨p, problem⟩

end Lexeme

/-- The lexemes that are left to read, and where the text ends. -/
structure TokenStream where
  lexemes : List Lexeme
  stop : Position
deriving DecidableEq, Repr

namespace TokenStream

def ofText (text : String) : Except SyntaxError TokenStream :=
  (Lexeme.scan 0 .start text.toList).map (⟨·, text.toList.foldl Position.next .start⟩)

/-- The tokens that are left to read. -/
def tokens (s : TokenStream) : List Token := s.lexemes.map (·.token)

/-- The next token, if the text does not end. -/
def next? (s : TokenStream) : Option Token := s.lexemes.head?.map (·.token)

/-- Where the next token begins, or the text ends. -/
def position (s : TokenStream) : Position := (s.lexemes.head?.map (·.position)).getD s.stop

/-- What follows the next token. -/
def rest (s : TokenStream) : TokenStream := ⟨s.lexemes.tail, s.stop⟩

/-- What follows the given token, if it comes next. -/
def eat? (s : TokenStream) (t : Token) : Option TokenStream :=
  if s.next? = some t then some s.rest else none

/-- The error at the next token, where the grammar asks for something else. -/
def unexpected (s : TokenStream) (expected : Expectation) : SyntaxError :=
  ⟨s.position, .unexpectedToken expected s.next?⟩

/-- What follows the given token, which has to come next. -/
def expect (s : TokenStream) (t : Token) : Except SyntaxError TokenStream :=
  match s.eat? t with
  | some s => .ok s
  | none => .error (s.unexpected (.token t))

end TokenStream

end SignAnalysis
