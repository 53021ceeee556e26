import LiveCompiler.Binary64.Text

/-!
# Tokens

The words of the language: seven keywords, identifiers, numbers, and every other
character on its own.  A run of digits and points that spells no number is a token
too; it is refused only where an expression is expected.
-/

namespace LiveCompiler

/-- The reserved words. -/
inductive Keyword where
  | define
  | external
  | ifWord
  | thenWord
  | elseWord
  | forWord
  | inWord
deriving DecidableEq, Repr

namespace Keyword

/-- How a keyword is spelled. -/
def spelling : Keyword → String
  | define => "def"
  | external => "extern"
  | ifWord => "if"
  | thenWord => "then"
  | elseWord => "else"
  | forWord => "for"
  | inWord => "in"

/-- All keywords. -/
def all : List Keyword :=
  [define, external, ifWord, thenWord, elseWord, forWord, inWord]

/-- The keyword with a given spelling. -/
def ofSpelling? (word : String) : Option Keyword :=
  all.find? fun k => k.spelling == word

theorem mem_all (k : Keyword) : k ∈ all := by
  cases k <;> decide

theorem ofSpelling?_spelling (k : Keyword) : ofSpelling? k.spelling = some k := by
  cases k <;> rfl

end Keyword

/-- One word of the program text. -/
inductive Token where
  | endOfInput
  | keyword (word : Keyword)
  | identifier (name : String)
  | number (value : Float)
  /-- Digits and points that spell no number. -/
  | malformed (text : String)
  | char (c : Char)

/-- Line and column of a token.  Lines count delivered lines, columns count characters
from 1. -/
structure Location where
  line : Nat
  column : Nat
deriving DecidableEq, Repr

/-- A token together with where it starts. -/
structure Lexeme where
  token : Token
  location : Location

namespace Token

/-- How messages name a token. -/
def describe : Token → String
  | endOfInput => "end of input"
  | keyword word => "'" ++ word.spelling ++ "'"
  | identifier name => "identifier '" ++ name ++ "'"
  | number value => "number " ++ Binary64.valueText value
  | malformed text => "malformed number '" ++ text ++ "'"
  | char c => "'" ++ String.singleton c ++ "'"

/-- Whether the input goes on. -/
def isInput : Token → Bool
  | endOfInput => false
  | _ => true

/-- The token that a word stands for. -/
def ofWord (word : List Char) : Token :=
  match Keyword.ofSpelling? (String.ofList word) with
  | some k => keyword k
  | none => identifier (String.ofList word)

end Token

/-- A location as messages show it. -/
def Location.text (location : Location) : String :=
  toString location.line ++ ":" ++ toString location.column

end LiveCompiler
