/-
Tokens of the While language.

Keywords and symbols are enumerated with their spellings.  A name is a letter
or underscore followed by letters, digits and underscores, unless it is a
keyword; a number is a run of digits with a value of at most `largestNumber`.
Letters and digits are those of ASCII.
-/

namespace SignAnalysis

/-- The reserved words. -/
inductive Keyword where
  | if_ | then_ | else_ | while_ | do_ | try_ | catch_ | skip_ | true_ | false_
deriving DecidableEq, Repr

namespace Keyword

def spelling : Keyword → String
  | if_ => "if"
  | then_ => "then"
  | else_ => "else"
  | while_ => "while"
  | do_ => "do"
  | try_ => "try"
  | catch_ => "catch"
  | skip_ => "skip"
  | true_ => "true"
  | false_ => "false"

def all : List Keyword :=
  [if_, then_, else_, while_, do_, try_, catch_, skip_, true_, false_]

/-- The keyword that is spelled like this, if there is one. -/
def ofSpelling? (word : String) : Option Keyword :=
  all.find? fun k => k.spelling = word

end Keyword

/-- The punctuation.  No symbol begins with another one. -/
inductive Symbol where
  | assign | le | eq | semicolon | lparen | rparen | lbrace | rbrace
  | plus | minus | star | slash | and | bang
deriving DecidableEq, Repr

namespace Symbol

def spelling : Symbol → String
  | assign => ":="
  | le => "<="
  | eq => "="
  | semicolon => ";"
  | lparen => "("
  | rparen => ")"
  | lbrace => "\x7b"
  | rbrace => "\x7d"
  | plus => "+"
  | minus => "-"
  | star => "*"
  | slash => "/"
  | and => "&"
  | bang => "!"

def all : List Symbol :=
  [assign, le, eq, semicolon, lparen, rparen, lbrace, rbrace, plus, minus, star, slash, and, bang]

/-- The symbol that a text begins with, if there is one. -/
def atFront? (text : List Char) : Option Symbol :=
  all.find? fun s => s.spelling.toList.isPrefixOf text

end Symbol

inductive Token where
  | keyword (word : Keyword)
  | symbol (mark : Symbol)
  | number (value : Nat)
  | name (spelling : String)
deriving DecidableEq, Repr

namespace Token

/-- The largest number that may be written: the largest signed 64-bit integer. -/
def largestNumber : Nat := 9223372036854775807

/-- The token as error messages name it. -/
def text : Token → String
  | keyword k => "`" ++ k.spelling ++ "`"
  | symbol s => "`" ++ s.spelling ++ "`"
  | number n => "number `" ++ toString n ++ "`"
  | name x => "identifier `" ++ x ++ "`"

/-- A word is a keyword or else a name. -/
def ofWord (word : String) : Token :=
  match Keyword.ofSpelling? word with
  | some k => keyword k
  | none => name word

end Token

/-! ### Character classes -/

/-- Space, tab, carriage return and line feed stand between tokens. -/
def isBlank (c : Char) : Bool := c = ' ' || c = '\t' || c = '\r' || c = '\n'

/-- A name starts with a letter or an underscore. -/
def isNameStart (c : Char) : Bool := c.isAlpha || c = '_'

/-- A name goes on with letters, digits and underscores. -/
def isNamePart (c : Char) : Bool := c.isAlphanum || c = '_'

end SignAnalysis
