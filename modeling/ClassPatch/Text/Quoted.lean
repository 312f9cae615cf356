import ClassPatch.Text.Hidden
import ClassPatch.Text.Units
/-!
# Quoted strings

Messages quote strings: between quotation marks, with the quotation mark, the backslash and some
control characters escaped, and every other character that has no shape of its own shown by its
number.

* `Quoted.string`, `Quoted.text`, `Quoted.char` — the quoted form of a string, a text of a class
  file, a character
* `Quoted.hex` — a number in hexadecimal digits
-/

namespace ClassPatch.Quoted

def hex (n : Nat) : String := String.ofList (Nat.toDigits 16 n)

def byNumber (n : Nat) : String := "\\u\x7b" ++ hex n ++ "\x7d"

/-- A character inside of quotes, of which `quote` is the kind. -/
def escape (quote c : Char) : String :=
  if c = '\x00' then "\\0"
  else if c = '\t' then "\\t"
  else if c = '\r' then "\\r"
  else if c = '\n' then "\\n"
  else if c = '\\' then "\\\\"
  else if c = quote then "\\" ++ String.singleton c
  else if 0x20 ≤ c.toNat && c.toNat < 0x7f then String.singleton c
  else if Text.isHidden c then byNumber c.toNat
  else String.singleton c

def string (s : String) : String :=
  "\"" ++ s.foldl (fun r c => r ++ escape '"' c) "" ++ "\""

def char (c : Char) : String := "'" ++ escape '\'' c ++ "'"

/-- A symbol of a text inside of quotation marks; a surrogate is shown by its number. -/
def symbol : Symbol → String
  | .char c => escape '"' c
  | .surrogate u => byNumber u.toNat

def text (t : Text) : String := "\"" ++ String.join (t.symbols.map symbol) ++ "\""

end ClassPatch.Quoted
