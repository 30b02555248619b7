import WellLog.Text.Graphic

/-!
# Quoted characters

A character in a message stands between single quotes. Tab, line feed, carriage return, the null
character, the quote and the backslash are written with a backslash and a letter; what does not show
by itself is written by its code point in hexadecimal.
-/

namespace WellLog.Text

/-- A code point in braces, without leading zeros. -/
def codePoint (c : Char) : String :=
  "\\u\x7b" ++ String.ofList (Nat.toDigits 16 c.toNat) ++ "\x7d"

def escape (c : Char) : String :=
  match c.toNat with
  | 0x00 => "\\0"
  | 0x09 => "\\t"
  | 0x0a => "\\n"
  | 0x0d => "\\r"
  | 0x27 => "\\'"
  | 0x5c => "\\\\"
  | _ => if isGraphic c then c.toString else codePoint c

def quoted (c : Char) : String := "'" ++ escape c ++ "'"

end WellLog.Text
