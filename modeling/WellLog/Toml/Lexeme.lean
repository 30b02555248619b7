import WellLog.Text.Scalar

/-!
# Words of a settings file

The smallest parts of a TOML text: blanks and comments, keys, strings and integers. A reader takes
its part off the front of the text and returns what is left, or fails. Lines end with a line feed
here; a carriage return before one is taken off beforehand by `unifyLines`.
-/

namespace WellLog.Toml

abbrev Reader (α : Type) := List Char → Option (α × List Char)

def unifyLines : List Char → List Char
  | '\r' :: '\n' :: s => '\n' :: unifyLines s
  | c :: s => c :: unifyLines s
  | [] => []

def isBlank (c : Char) : Bool := c == ' ' || c == '\t'

def skipBlanks (s : List Char) : List Char := s.dropWhile isBlank

/-- A character that may stand within a line: no control but the tab. -/
def isPlain (c : Char) : Bool := c == '\t' || (0x20 ≤ c.toNat && c.toNat != 0x7f)

/-- What follows a line of which only blanks and a comment are left. -/
def lineEnd? (s : List Char) : Option (List Char) :=
  let afterComment :=
    match skipBlanks s with
    | '#' :: s => s.dropWhile isPlain
    | s => s
  match afterComment with
  | [] => some []
  | '\n' :: s => some s
  | _ => none

/-- Drops blanks, comments and line ends, over at most `fuel` lines. -/
def skipVoid : Nat → List Char → List Char
  | 0, s => s
  | fuel + 1, s =>
    match skipBlanks s with
    | [] => []
    | s =>
      match lineEnd? s with
      | some s => skipVoid fuel s
      | none => s

def push (c : Char) (read : Option (List Char × List Char)) : Option (List Char × List Char) :=
  read.map fun (cs, s) => (c :: cs, s)

def digit? (base : Nat) (c : Char) : Option Nat :=
  let n :=
    if '0' ≤ c ∧ c ≤ '9' then c.toNat - '0'.toNat
    else if 'a' ≤ c ∧ c ≤ 'f' then c.toNat - 'a'.toNat + 10
    else if 'A' ≤ c ∧ c ≤ 'F' then c.toNat - 'A'.toNat + 10
    else base
  if n < base then some n else none

/-! ## Strings -/

inductive Escape where
  | started
  /-- A code point of which some digits have been read and `left + 1` are missing. -/
  | digits (left code : Nat)
  deriving DecidableEq, Repr

def Escape.step : Escape → Char → Option (Escape ⊕ Char)
  | started, c =>
    match c with
    | 'b' => some (.inr '\x08')
    | 't' => some (.inr '\t')
    | 'n' => some (.inr '\n')
    | 'f' => some (.inr '\x0c')
    | 'r' => some (.inr '\r')
    | '\x22' => some (.inr '\x22')
    | '\x5c' => some (.inr '\x5c')
    | 'u' => some (.inl (digits 3 0))
    | 'U' => some (.inl (digits 7 0))
    | _ => none
  | digits left code, c => do
    let d ← digit? 16 c
    match left with
    | 0 => (scalar? (16 * code + d)).map .inr
    | left + 1 => some (.inl (digits left (16 * code + d)))

/-- The rest of a string between double quotes on one line. -/
def basicBody : Option Escape → Reader (List Char)
  | _, [] => none
  | some e, c :: s =>
    match e.step c with
    | some (.inl e) => basicBody (some e) s
    | some (.inr c) => push c (basicBody none s)
    | none => none
  | none, c :: s =>
    if c = '\x22' then some ([], s)
    else if c = '\x5c' then basicBody (some .started) s
    else if isPlain c then push c (basicBody none s)
    else none

def literalBody : Reader (List Char)
  | [] => none
  | c :: s =>
    if c = '\x27' then some ([], s)
    else if isPlain c then push c (literalBody s)
    else none

/-- The end of a string of several lines behind three quotes: up to two more belong to the
string. -/
def closing (quote : Char) (s : List Char) : List Char × List Char :=
  let extra := (s.take 2).takeWhile (· == quote)
  (extra, s.drop extra.length)

inductive Place where
  | text
  | escape (e : Escape)
  /-- Behind a backslash and blanks, where only the end of the line may follow. -/
  | lineEnding
  /-- Behind a line end that a backslash has taken away, with all blanks that follow. -/
  | trimming
  deriving DecidableEq, Repr

def basicLines : Place → Reader (List Char)
  | _, [] => none
  | .escape e, c :: s =>
    if e = .started ∧ c = '\n' then basicLines .trimming s
    else if e = .started ∧ isBlank c then basicLines .lineEnding s
    else
      match e.step c with
      | some (.inl e) => basicLines (.escape e) s
      | some (.inr c) => push c (basicLines .text s)
      | none => none
  | .lineEnding, c :: s =>
    if c = '\n' then basicLines .trimming s
    else if isBlank c then basicLines .lineEnding s
    else none
  | place, c :: s =>
    if place = .trimming ∧ (c = '\n' ∨ isBlank c) then basicLines .trimming s
    else if c = '\x22' then
      if s.take 2 = ['\x22', '\x22'] then some (closing c (s.drop 2))
      else push c (basicLines .text s)
    else if c = '\x5c' then basicLines (.escape .started) s
    else if c = '\n' ∨ isPlain c then push c (basicLines .text s)
    else none

def literalLines : Reader (List Char)
  | [] => none
  | c :: s =>
    if c = '\x27' ∧ s.take 2 = ['\x27', '\x27'] then some (closing c (s.drop 2))
    else if c = '\n' ∨ isPlain c then push c (literalLines s)
    else none

/-- A line end right behind the opening quotes is no part of a string. -/
def dropFirstLine : List Char → List Char
  | '\n' :: s => s
  | s => s

def string? : Reader (List Char)
  | '\x22' :: '\x22' :: '\x22' :: s => basicLines .text (dropFirstLine s)
  | '\x22' :: s => basicBody none s
  | '\x27' :: '\x27' :: '\x27' :: s => literalLines (dropFirstLine s)
  | '\x27' :: s => literalBody s
  | _ => none

/-! ## Keys -/

def isBare (c : Char) : Bool := c.isAlphanum || c == '-' || c == '_'

def key? : Reader String
  | '\x22' :: s => (basicBody none s).map fun (cs, s) => (.ofList cs, s)
  | '\x27' :: s => (literalBody s).map fun (cs, s) => (.ofList cs, s)
  | s =>
    let bare := s.takeWhile isBare
    if bare.isEmpty then none else some (.ofList bare, s.dropWhile isBare)

/-- Keys with points between them and blanks around them, at most `fuel` of them. -/
def path? : Nat → Reader (List String)
  | 0, _ => none
  | fuel + 1, s => do
    let (key, s) ← key? (skipBlanks s)
    match skipBlanks s with
    | '.' :: s => do
      let (keys, s) ← path? fuel s
      pure (key :: keys, s)
    | s => pure ([key], s)

/-! ## Integers -/

/-- More digits of a number, each one alone or behind a single underscore. -/
def moreDigits (base : Nat) : Nat → List Char → Nat × List Char
  | n, '_' :: c :: s =>
    match digit? base c with
    | some d => moreDigits base (base * n + d) s
    | none => (n, '_' :: c :: s)
  | n, c :: s =>
    match digit? base c with
    | some d => moreDigits base (base * n + d) s
    | none => (n, c :: s)
  | n, [] => (n, [])

def natural? (base : Nat) : Reader Nat
  | c :: s => (digit? base c).map fun d => moreDigits base d s
  | [] => none

/-- A decimal number, which starts with a zero only if it is zero. -/
def decimal? : Reader Nat
  | '0' :: s => some (0, s)
  | s => natural? 10 s

def signed? : Reader Int
  | '+' :: s => (decimal? s).map fun (n, s) => ((n : Int), s)
  | '-' :: s => (decimal? s).map fun (n, s) => (-(n : Int), s)
  | '0' :: 'x' :: s => (natural? 16 s).map fun (n, s) => ((n : Int), s)
  | '0' :: 'o' :: s => (natural? 8 s).map fun (n, s) => ((n : Int), s)
  | '0' :: 'b' :: s => (natural? 2 s).map fun (n, s) => ((n : Int), s)
  | s => (decimal? s).map fun (n, s) => ((n : Int), s)

def integer? (s : List Char) : Option (Int × List Char) := do
  let (n, s) ← signed? s
  if -0x8000000000000000 ≤ n ∧ n < 0x8000000000000000 then pure (n, s) else none

end WellLog.Toml
