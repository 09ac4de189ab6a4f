/-!
# Operators

The operators of the language: the twelve binary ones, the unary ones, the comparisons and the two
logical connectives. Each has the name by which trees and disassemblies show it and the symbol by
which it is written.
-/

namespace Toolchain

/-- An arithmetic or bitwise operator between two operands. -/
inductive BinaryOp where
  | add | sub | mult | div | floorDiv | mod | pow | lShift | rShift | bitOr | bitXor | bitAnd
  deriving DecidableEq, Repr

namespace BinaryOp

/-- All binary operators, in the order of their codes. -/
def all : List BinaryOp :=
  [add, sub, mult, div, floorDiv, mod, pow, lShift, rShift, bitOr, bitXor, bitAnd]

/-- The name of the operator in a tree. -/
def name : BinaryOp → String
  | add => "Add" | sub => "Sub" | mult => "Mult" | div => "Div" | floorDiv => "FloorDiv"
  | mod => "Mod" | pow => "Pow" | lShift => "LShift" | rShift => "RShift" | bitOr => "BitOr"
  | bitXor => "BitXor" | bitAnd => "BitAnd"

/-- How the operator is written. -/
def symbol : BinaryOp → String
  | add => "+" | sub => "-" | mult => "*" | div => "/" | floorDiv => "//" | mod => "%"
  | pow => "**" | lShift => "<<" | rShift => ">>" | bitOr => "|" | bitXor => "^" | bitAnd => "&"

/-- The code of the operator in an instruction. -/
def code : BinaryOp → Nat
  | add => 0 | sub => 1 | mult => 2 | div => 3 | floorDiv => 4 | mod => 5 | pow => 6 | lShift => 7
  | rShift => 8 | bitOr => 9 | bitXor => 10 | bitAnd => 11

end BinaryOp

/-- A logical connective. -/
inductive BoolOp where
  | and | or
  deriving DecidableEq, Repr

namespace BoolOp

/-- The name of the connective in a tree. -/
def name : BoolOp → String
  | and => "And"
  | or => "Or"

/-- How the connective is written. -/
def symbol : BoolOp → String
  | and => "and"
  | or => "or"

end BoolOp

/-- An operator before its operand. -/
inductive UnaryOp where
  | invert | not | plus | minus
  deriving DecidableEq, Repr

namespace UnaryOp

/-- The name of the operator in a tree. -/
def name : UnaryOp → String
  | invert => "Invert" | not => "Not" | plus => "UAdd" | minus => "USub"

/-- The code of the operator in an instruction. -/
def code : UnaryOp → Nat
  | invert => 0 | not => 1 | plus => 2 | minus => 3

end UnaryOp

/-- A comparison. -/
inductive CompareOp where
  | eq | notEq | lt | ltE | gt | gtE | is | isNot | isIn | notIn
  deriving DecidableEq, Repr

namespace CompareOp

/-- The name of the comparison in a tree. -/
def name : CompareOp → String
  | eq => "Eq" | notEq => "NotEq" | lt => "Lt" | ltE => "LtE" | gt => "Gt" | gtE => "GtE"
  | is => "Is" | isNot => "IsNot" | isIn => "In" | notIn => "NotIn"

/-- How the comparison is written. -/
def symbol : CompareOp → String
  | eq => "==" | notEq => "!=" | lt => "<" | ltE => "<=" | gt => ">" | gtE => ">="
  | is => "is" | isNot => "is not" | isIn => "in" | notIn => "not in"

/-- The code of the comparison in an instruction. -/
def code : CompareOp → Nat
  | eq => 0 | notEq => 1 | lt => 2 | ltE => 3 | gt => 4 | gtE => 5 | is => 6 | isNot => 7
  | isIn => 8 | notIn => 9

end CompareOp

end Toolchain
