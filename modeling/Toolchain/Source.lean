import Toolchain.Text.Basic

/-!
# Character sources

A source hands out the characters of a text one at a time. There are two ways to read one: directly
from the bytes that are left, and through a one-character buffer that is filled on demand.

## Main definitions

* `Source.Call`, `Source.Answer`: what a reader may ask, and what it hears
* `Source.Direct`, `Source.Buffered`: the two sources, each with its `step`
* `Source.answers`: the answers to a list of calls
-/

namespace Toolchain.Source

/-- A question to a source. -/
inductive Call where
  /-- Which character comes next? -/
  | peek
  /-- Take the next character. -/
  | read
  /-- Is nothing left? -/
  | atEnd
  deriving DecidableEq, Repr

/-- An answer of a source. -/
inductive Answer where
  /-- A character, or none at the end. -/
  | char (c : Option Char)
  /-- Whether the end is reached. -/
  | flag (b : Bool)
  deriving DecidableEq, Repr

/-- The first character of a text and the text after it. A stray byte is taken alone and reads as
the replacement character. -/
def next? : Text → Option (Char × Text)
  | [] => none
  | b :: rest =>
    match Text.leading? (b :: rest) with
    | some (c, width) => some (c, rest.drop (width - 1))
    | none => some ('\uFFFD', rest)

/-- A source that reads from the bytes that are left. -/
structure Direct where
  rest : Text
  deriving DecidableEq, Repr

namespace Direct

/-- Answers one call. -/
def step (s : Direct) : Call → Answer × Direct
  | .peek => (.char ((next? s.rest).map Prod.fst), s)
  | .read =>
    match next? s.rest with
    | some (c, rest) => (.char (some c), ⟨rest⟩)
    | none => (.char none, s)
  | .atEnd => (.flag s.rest.isEmpty, s)

end Direct

/-- A source that reads through a buffer of one character. -/
structure Buffered where
  rest : Text
  /-- What was read ahead: nothing yet, or a character, or the end. -/
  slot : Option (Option Char) := none
  deriving DecidableEq, Repr

namespace Buffered

/-- The source with its buffer filled, and what the buffer holds. -/
def fill (s : Buffered) : Option Char × Buffered :=
  match s.slot with
  | some held => (held, s)
  | none =>
    match next? s.rest with
    | some (c, rest) => (some c, ⟨rest, some (some c)⟩)
    | none => (none, ⟨s.rest, some none⟩)

/-- Answers one call. The end, once seen, stays in the buffer. -/
def step (s : Buffered) : Call → Answer × Buffered
  | .peek => (.char s.fill.1, s.fill.2)
  | .read =>
    match s.fill with
    | (some c, filled) => (.char (some c), ⟨filled.rest, none⟩)
    | (none, filled) => (.char none, filled)
  | .atEnd => (.flag s.fill.1.isNone, s.fill.2)

end Buffered

/-- The answers of a source to a list of calls. -/
def answers {σ : Type} (step : σ → Call → Answer × σ) (s : σ) : List Call → List Answer
  | [] => []
  | call :: calls => (step s call).1 :: answers step (step s call).2 calls

end Toolchain.Source
