import WellLog.Toml.Lexeme
import WellLog.Toml.Table

/-!
# Documents of settings

A document is read in two steps: the text gives a list of statements, entries and headings, and
carrying these out in order gives a table.
-/

namespace WellLog.Toml

inductive Statement where
  | entry (path : List String) (v : Value)
  | heading (path : List String)

mutual

/-- A value nested at most `fuel` deep. An empty list counts as an empty table. -/
def value? : Nat → Reader Value
  | 0, _ => none
  | fuel + 1, s =>
    match s with
    | 't' :: 'r' :: 'u' :: 'e' :: s => some (.boolean true, s)
    | 'f' :: 'a' :: 'l' :: 's' :: 'e' :: s => some (.boolean false, s)
    | '[' :: s =>
      match skipVoid s.length s with
      | ']' :: s => some (.table .closed [], s)
      | _ => none
    | '\x7b' :: s =>
      match skipBlanks s with
      | '\x7d' :: s => some (.table .closed [], s)
      | s => entries? fuel [] s
    | s =>
      match string? s with
      | some (cs, s) => some (.text (.ofList cs), s)
      | none => (integer? s).map fun (n, s) => (.integer n, s)

/-- The rest of a table that is written as a value. -/
def entries? : Nat → Table → Reader Value
  | 0, _, _ => none
  | fuel + 1, t, s => do
    match ← path? s.length s with
    | (path, '=' :: s) => do
      let (v, s) ← value? fuel (skipBlanks s)
      let t ← t.assign path v
      match skipBlanks s with
      | ',' :: s => entries? fuel t s
      | '\x7d' :: s => some (.table .closed t, s)
      | _ => none
    | _ => none

end

def statement? : Reader Statement
  | '[' :: s => do
    match ← path? s.length s with
    | (path, ']' :: s) => some (.heading path, s)
    | _ => none
  | s => do
    match ← path? s.length s with
    | (path, '=' :: s) => do
      let (v, s) ← value? s.length (skipBlanks s)
      some (.entry path v, s)
    | _ => none

/-- The statements of a text, each on a line of its own, over at most `fuel` lines. -/
def statements? : Nat → List Char → Option (List Statement)
  | _, [] => some []
  | 0, _ => none
  | fuel + 1, s =>
    match lineEnd? s with
    | some s => statements? fuel s
    | none => do
      let (statement, s) ← statement? (skipBlanks s)
      let s ← lineEnd? s
      let rest ← statements? fuel s
      some (statement :: rest)

def Table.build : List String → Table → List Statement → Option Table
  | _, t, [] => some t
  | here, t, .entry path v :: rest => do
    let t ← t.within here (·.assign path v)
    build here t rest
  | _, t, .heading path :: rest => do
    let t ← t.openHeading path
    build path t rest

/-- A byte order mark may stand in front. -/
def dropMark : List Char → List Char
  | '\ufeff' :: s => s
  | s => s

def parse? (s : String) : Option Table := do
  let s := unifyLines (dropMark s.toList)
  let statements ← statements? s.length s
  Table.build [] [] statements

end WellLog.Toml
