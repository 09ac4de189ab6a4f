import Toolchain.Text.Basic

/-!
# Positions

A position in a source text is a line and a column, both counted from one; columns count
characters, and a newline character ends its line.
-/

namespace Toolchain

/-- A line and a column of a source text. -/
structure Position where
  /-- The line, counted from one. -/
  line : Nat := 1
  /-- The column, counted in characters from one. -/
  column : Nat := 1
  deriving DecidableEq, Repr

namespace Position

/-- The position after reading one character. -/
def next (p : Position) (c : Char) : Position :=
  if c = '\n' then ⟨p.line + 1, 1⟩ else ⟨p.line, p.column + 1⟩

/-- The position after reading some characters. -/
def after (p : Position) (cs : List Char) : Position := cs.foldl next p

@[simp] theorem after_nil (p : Position) : p.after [] = p := rfl

@[simp] theorem after_cons (p : Position) (c : Char) (cs : List Char) :
    p.after (c :: cs) = (p.next c).after cs := rfl

theorem after_append (p : Position) (cs ds : List Char) :
    p.after (cs ++ ds) = (p.after cs).after ds := List.foldl_append

/-- A position as `line:column`. -/
def text (p : Position) : Text := (p.line : Text) ++ ":" ++ p.column

end Position

end Toolchain
