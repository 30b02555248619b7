/-!
# Representation codes

A representation code says how a value is written in a record. There are 27 of them, numbered from
one. `Code.number` and `Code.ofNumber?`, `Code.symbol` and `Code.ofSymbol?`, `Code.name` and
`Code.ofName?` are inverse to each other (`Code.ofNumber?_eq_some_iff`,
`Code.ofSymbol?_eq_some_iff`, `Code.ofName?_eq_some_iff`); a name is read without regard to the
case of ASCII letters.

The codes of numbers in a fixed number of bytes form a type of their own, `Numeric`, because they
alone have a value that needs no length and no check.
-/

namespace WellLog

/-- The codes of one number, or of a group of numbers, in a fixed number of bytes. -/
inductive Numeric where
  | fshort | fsingl | fsing1 | fsing2 | isingl | vsingl | fdoubl | fdoub1 | fdoub2 | csingl | cdoubl
  | sshort | snorm | slong | ushort | unorm | ulong | status
  deriving DecidableEq, Repr

def Numeric.width : Numeric → Nat
  | .fshort => 2
  | .fsingl => 4
  | .fsing1 => 8
  | .fsing2 => 12
  | .isingl => 4
  | .vsingl => 4
  | .fdoubl => 8
  | .fdoub1 => 16
  | .fdoub2 => 24
  | .csingl => 8
  | .cdoubl => 16
  | .sshort => 1
  | .snorm => 2
  | .slong => 4
  | .ushort => 1
  | .unorm => 2
  | .ulong => 4
  | .status => 1

inductive Code where
  | numeric (n : Numeric)
  | uvari | ident | ascii | dtime | origin | obname | objref | attref | units
  deriving DecidableEq, Repr

namespace Code

/-- All codes, in the order of their numbers. -/
def all : List Code :=
  [.numeric .fshort, .numeric .fsingl, .numeric .fsing1, .numeric .fsing2, .numeric .isingl,
    .numeric .vsingl, .numeric .fdoubl, .numeric .fdoub1, .numeric .fdoub2, .numeric .csingl,
    .numeric .cdoubl, .numeric .sshort, .numeric .snorm, .numeric .slong, .numeric .ushort,
    .numeric .unorm, .numeric .ulong, .uvari, .ident, .ascii, .dtime, .origin, .obname, .objref,
    .attref, .numeric .status, .units]

def number (code : Code) : Nat := all.idxOf code + 1

/-- The letter that stands for a code in a format. -/
def symbol : Code → Char
  | .numeric .fshort => 'r'
  | .numeric .fsingl => 'f'
  | .numeric .fsing1 => 'b'
  | .numeric .fsing2 => 'B'
  | .numeric .isingl => 'x'
  | .numeric .vsingl => 'V'
  | .numeric .fdoubl => 'F'
  | .numeric .fdoub1 => 'z'
  | .numeric .fdoub2 => 'Z'
  | .numeric .csingl => 'c'
  | .numeric .cdoubl => 'C'
  | .numeric .sshort => 'd'
  | .numeric .snorm => 'D'
  | .numeric .slong => 'l'
  | .numeric .ushort => 'u'
  | .numeric .unorm => 'U'
  | .numeric .ulong => 'L'
  | .uvari => 'i'
  | .ident => 's'
  | .ascii => 'S'
  | .dtime => 'j'
  | .origin => 'J'
  | .obname => 'o'
  | .objref => 'O'
  | .attref => 'A'
  | .numeric .status => 'q'
  | .units => 'Q'

def name : Code → String
  | .numeric .fshort => "fshort"
  | .numeric .fsingl => "fsingl"
  | .numeric .fsing1 => "fsing1"
  | .numeric .fsing2 => "fsing2"
  | .numeric .isingl => "isingl"
  | .numeric .vsingl => "vsingl"
  | .numeric .fdoubl => "fdoubl"
  | .numeric .fdoub1 => "fdoub1"
  | .numeric .fdoub2 => "fdoub2"
  | .numeric .csingl => "csingl"
  | .numeric .cdoubl => "cdoubl"
  | .numeric .sshort => "sshort"
  | .numeric .snorm => "snorm"
  | .numeric .slong => "slong"
  | .numeric .ushort => "ushort"
  | .numeric .unorm => "unorm"
  | .numeric .ulong => "ulong"
  | .uvari => "uvari"
  | .ident => "ident"
  | .ascii => "ascii"
  | .dtime => "dtime"
  | .origin => "origin"
  | .obname => "obname"
  | .objref => "objref"
  | .attref => "attref"
  | .numeric .status => "status"
  | .units => "units"

def ofNumber? (n : Nat) : Option Code := all.find? (·.number = n)

def ofSymbol? (c : Char) : Option Code := all.find? (·.symbol = c)

def ofName? (s : String) : Option Code := all.find? (·.name = s.map Char.toLower)

/-- The bytes that every value of a code takes in a record, where they are as many for each. -/
def fixedWidth? : Code → Option Nat
  | .numeric n => some n.width
  | .dtime => some 8
  | _ => none

theorem mem_all (code : Code) : code ∈ all := by
  rcases code with (_ | _ | _) | _ <;> decide

/-- A key that no two codes share finds the code that it belongs to. -/
theorem find?_key_eq_some_iff {α : Type} [DecidableEq α] {key : Code → α}
    (inj : ∀ a b, key a = key b → a = b) {k : α} {code : Code} :
    all.find? (key · = k) = some code ↔ key code = k := by
  constructor
  · intro h
    simpa using List.find?_some h
  · intro h
    have found : (all.find? (key · = k)).isSome := by
      rw [List.find?_isSome]
      exact ⟨code, mem_all code, by simpa using h⟩
    obtain ⟨other, eq⟩ := Option.isSome_iff_exists.mp found
    have same : key other = k := by simpa using List.find?_some eq
    rw [eq, inj other code (same.trans h.symm)]

theorem number_injective (a b : Code) : a.number = b.number → a = b := by
  suffices ∀ a ∈ all, ∀ b ∈ all, a.number = b.number → a = b from this a (mem_all a) b (mem_all b)
  decide +kernel

theorem symbol_injective (a b : Code) : a.symbol = b.symbol → a = b := by
  suffices ∀ a ∈ all, ∀ b ∈ all, a.symbol = b.symbol → a = b from this a (mem_all a) b (mem_all b)
  decide +kernel

theorem name_injective (a b : Code) : a.name = b.name → a = b := by
  suffices ∀ a ∈ all, ∀ b ∈ all, a.name = b.name → a = b from this a (mem_all a) b (mem_all b)
  decide +kernel

theorem ofNumber?_eq_some_iff {n : Nat} {code : Code} :
    ofNumber? n = some code ↔ code.number = n :=
  find?_key_eq_some_iff number_injective

theorem ofSymbol?_eq_some_iff {c : Char} {code : Code} :
    ofSymbol? c = some code ↔ code.symbol = c :=
  find?_key_eq_some_iff symbol_injective

theorem ofName?_eq_some_iff {s : String} {code : Code} :
    ofName? s = some code ↔ code.name = s.map Char.toLower :=
  find?_key_eq_some_iff name_injective

end Code

end WellLog
