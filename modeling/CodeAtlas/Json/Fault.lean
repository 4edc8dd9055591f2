/-!
# Faults of a JSON text

What is wrong with a text and where: lines are counted by newline, columns from one.
-/

namespace CodeAtlas.Json

/-- Why a text is not JSON. -/
inductive Problem where
  | byteOrderMark
  | expectedValue
  | expectedName
  | expectedColon
  | expectedComma
  | extraData
  | unterminatedText
  | controlCharacter
  | badEscape
  | badUnicodeEscape
  deriving DecidableEq, Inhabited

def Problem.text : Problem → String
  | .byteOrderMark => "Unexpected UTF-8 BOM (decode using utf-8-sig)"
  | .expectedValue => "Expecting value"
  | .expectedName => "Expecting property name enclosed in double quotes"
  | .expectedColon => "Expecting ':' delimiter"
  | .expectedComma => "Expecting ',' delimiter"
  | .extraData => "Extra data"
  | .unterminatedText => "Unterminated string starting at"
  | .controlCharacter => "Invalid control character at"
  | .badEscape => "Invalid \\escape"
  | .badUnicodeEscape => "Invalid \\uXXXX escape"

/-- A problem and its place in the text. -/
structure Fault where
  problem : Problem
  line : Nat
  column : Nat
  offset : Nat
  deriving DecidableEq, Inhabited

/-- Line and column after reading `before`, counted from the given ones. -/
def placeAfter (line column : Nat) : List Char → Nat × Nat
  | [] => (line, column)
  | c :: rest => if c == '\n' then placeAfter (line + 1) 1 rest else placeAfter line (column + 1) rest

/-- The fault `problem` at character `offset` of `text`. -/
def Fault.locate (problem : Problem) (text : List Char) (offset : Nat) : Fault :=
  let (line, column) := placeAfter 1 1 (text.take offset)
  { problem, line, column, offset }

def Fault.message (f : Fault) : String :=
  f.problem.text ++ ": line " ++ toString f.line ++ " column " ++ toString f.column
    ++ " (char " ++ toString f.offset ++ ")"

end CodeAtlas.Json
