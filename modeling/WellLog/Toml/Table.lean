/-!
# Tables of a settings file

A table keeps its entries in the order in which they were made. An entry is made once: a key cannot
be given a second value, a table cannot be opened twice, and a table written as a value is closed.
-/

namespace WellLog.Toml

/-- How a table came to be. -/
inductive Origin where
  /-- Written as a value, and closed. -/
  | closed
  /-- By a key with points. -/
  | dotted
  /-- As the parent of a table with a heading. -/
  | implied
  /-- By a heading of its own. -/
  | headed
  deriving DecidableEq, Repr

/-- Floats, dates and lists of values are left out, as no setting takes one. -/
inductive Value where
  | integer (n : Int)
  | text (s : String)
  | boolean (b : Bool)
  | table (origin : Origin) (entries : List (String × Value))

abbrev Table := List (String × Value)

namespace Table

def find? (t : Table) (key : String) : Option Value := t.lookup key

def insert (t : Table) (key : String) (v : Value) : Table := t ++ [(key, v)]

def replace (t : Table) (key : String) (v : Value) : Table :=
  t.map fun entry => if entry.1 = key then (key, v) else entry

def assign : Table → List String → Value → Option Table
  | _, [], _ => none
  | t, [key], v =>
    match find? t key with
    | none => some (insert t key v)
    | some _ => none
  | t, key :: keys, v =>
    match find? t key with
    | none => (assign [] keys v).map fun sub => insert t key (.table .dotted sub)
    | some (.table origin sub) =>
      if origin = .dotted ∨ origin = .implied then
        (assign sub keys v).map fun sub => replace t key (.table origin sub)
      else none
    | some _ => none

def openHeading : Table → List String → Option Table
  | _, [] => none
  | t, [key] =>
    match find? t key with
    | none => some (insert t key (.table .headed []))
    | some (.table .implied sub) => some (replace t key (.table .headed sub))
    | some _ => none
  | t, key :: keys =>
    match find? t key with
    | none => (openHeading [] keys).map fun sub => insert t key (.table .implied sub)
    | some (.table origin sub) =>
      if origin = .closed then none
      else (openHeading sub keys).map fun sub => replace t key (.table origin sub)
    | some _ => none

def within : Table → List String → (Table → Option Table) → Option Table
  | t, [], change => change t
  | t, key :: keys, change =>
    match find? t key with
    | some (.table origin sub) =>
      (within sub keys change).map fun sub => replace t key (.table origin sub)
    | _ => none

end Table

end WellLog.Toml
