import WellLog.Code
import WellLog.Cursor

/-!
# Formats of a row

A span is a run of representation codes, written as one letter each. A frame format says what the
row of a record holds: what to pass over, the columns to read, what to pass over behind them. It has
at least one column.

A text is a span exactly if each of its characters is the symbol of a code, and writing a span and
reading it back gives the span again (`Span.parse_text`).
-/

namespace WellLog

inductive FormatFault where
  /-- A character stands for no code; the position counts characters. -/
  | unknownSymbol (symbol : Char) (position : Nat)
  | noColumns
  deriving DecidableEq, Repr

abbrev Span := List Code

namespace Span

def parseFrom : Nat → List Char → Except FormatFault Span
  | _, [] => .ok []
  | position, c :: rest =>
    match Code.ofSymbol? c with
    | some code => (parseFrom (position + 1) rest).map (code :: ·)
    | none => .error (.unknownSymbol c position)

def parse (s : String) : Except FormatFault Span := parseFrom 0 s.toList

def text (span : Span) : String := String.ofList (span.map Code.symbol)

def skip : Span → Cursor → Except OutOfBounds Cursor
  | [], c => .ok c
  | code :: rest, c => do
    let c ← c.skip code
    skip rest c

/-- The bytes that one value of each code takes at the start of the given ones. -/
def sourceWidth (span : Span) (bytes : List UInt8) : Except OutOfBounds Nat := do
  let c ← skip span (.ofBytes bytes)
  pure c.position

theorem parseFrom_symbols (position : Nat) (span : Span) :
    parseFrom position (span.map Code.symbol) = .ok span := by
  induction span generalizing position with
  | nil => rfl
  | cons code rest ih =>
    rw [List.map_cons, parseFrom, Code.ofSymbol?_eq_some_iff.mpr rfl]
    simp only [ih]
    rfl

theorem parse_text (span : Span) : parse span.text = .ok span := by
  rw [parse, text, String.toList_ofList, parseFrom_symbols]

end Span

structure FrameFormat where
  /-- Passed over before the columns. -/
  leading : Span
  fields : Span
  /-- Passed over behind the columns. -/
  trailing : Span
  fields_ne_nil : fields ≠ []

namespace FrameFormat

def ofSpans (leading fields trailing : Span) : Except FormatFault FrameFormat :=
  if h : fields = [] then .error .noColumns else .ok ⟨leading, fields, trailing, h⟩

/-- Reads the three texts in order; that there are no columns counts only if all three are spans. -/
def parse (leading fields trailing : String) : Except FormatFault FrameFormat := do
  let leading ← Span.parse leading
  let fields ← Span.parse fields
  let trailing ← Span.parse trailing
  ofSpans leading fields trailing

end FrameFormat

end WellLog
