import WellLog.Code
import WellLog.Counted

/-!
# Reading a record from front to back

A cursor is what is left of a record and how far in it starts. A read either returns what it took
and the cursor behind it, or says how many bytes it needed where, and how many there were. As a
failed read returns no cursor, the one before it still stands.

A composite read fails as its first failing part does.
-/

namespace WellLog

structure OutOfBounds where
  offset : Nat
  needed : Nat
  available : Nat
  deriving DecidableEq, Repr

def OutOfBounds.message (e : OutOfBounds) : String :=
  "read of " ++ toString e.needed ++ " bytes at offset " ++ toString e.offset ++ " exceeds the " ++
    toString e.available ++ " bytes left in the record"

def checkRoom (offset stop n : Nat) : Except OutOfBounds Unit :=
  if offset + n ≤ stop then .ok () else .error ⟨offset, n, stop - offset⟩

structure Cursor where
  position : Nat
  rest : List UInt8
  deriving DecidableEq, Repr

namespace Cursor

def ofBytes (bytes : List UInt8) : Cursor := ⟨0, bytes⟩

def remaining (c : Cursor) : Nat := c.rest.length

def stop (c : Cursor) : Nat := c.position + c.remaining

def isExhausted (c : Cursor) : Bool := c.rest.isEmpty

def ensure (c : Cursor) (n : Nat) : Except OutOfBounds Unit := checkRoom c.position c.stop n

def moved (c : Cursor) (n : Nat) : Cursor := ⟨c.position + n, c.rest.drop n⟩

def advance (c : Cursor) (n : Nat) : Except OutOfBounds Cursor := do
  c.ensure n
  pure (c.moved n)

def take (c : Cursor) (n : Nat) : Except OutOfBounds (List UInt8 × Cursor) := do
  c.ensure n
  pure (c.rest.take n, c.moved n)

def byte (c : Cursor) : Except OutOfBounds (UInt8 × Cursor) := do
  c.ensure 1
  pure (c.rest.headD 0, c.moved 1)

/-- A number of variable width: first the byte that announces the width, then all bytes. -/
def uvari (c : Cursor) : Except OutOfBounds (Nat × Cursor) := do
  c.ensure 1
  let width := Uvari.Width.ofFirst (c.rest.headD 0)
  let (bytes, c) ← c.take width.bytes
  pure (Uvari.value width bytes, c)

/-- The body of an identifier: first the count, then count and body together. -/
def ident (c : Cursor) : Except OutOfBounds (List UInt8 × Cursor) := do
  c.ensure 1
  let (bytes, c) ← c.take (1 + (c.rest.headD 0).toNat)
  pure (bytes.drop 1, c)

/-- The body of a text: first the count, then the body. -/
def ascii (c : Cursor) : Except OutOfBounds (List UInt8 × Cursor) := do
  let (count, c) ← c.uvari
  c.take count

def skipName (c : Cursor) : Except OutOfBounds Cursor := do
  let (_, c) ← c.uvari
  let c ← c.advance 1
  let (_, c) ← c.ident
  pure c

def skip (c : Cursor) : Code → Except OutOfBounds Cursor
  | .numeric n => c.advance n.width
  | .dtime => c.advance 8
  | .uvari | .origin => return (← c.uvari).2
  | .ident | .units => return (← c.ident).2
  | .ascii => return (← c.ascii).2
  | .obname => c.skipName
  | .objref => do
    let (_, c) ← c.ident
    c.skipName
  | .attref => do
    let (_, c) ← c.ident
    let c ← c.skipName
    return (← c.ident).2

end Cursor

end WellLog
