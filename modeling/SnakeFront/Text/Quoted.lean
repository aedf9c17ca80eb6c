import SnakeFront.Text.Printable

/-! Text between double quotes. Printable characters stand for themselves, apart from the double
quote and the backslash; every other character is written as a backslash escape, the shortest of a
one-letter escape, two, four or eight hexadecimal digits that fits it. A text has nothing but
characters in it. A byte outside of well-formed UTF-8, which the format would write as `\x` and two
digits, is never in a text, and there is no rule for it here. -/
namespace SnakeFront.Text

def hexDigit (n : Nat) : Char :=
  "0123456789abcdef".toList.getD n '0'

/-- The last `width` hexadecimal digits of `n`. -/
def hexDigits : Nat → Nat → List Char
  | 0, _ => []
  | width + 1, n => hexDigits width (n / 16) ++ [hexDigit (n % 16)]

def controlLetters : List (Nat × Char) :=
  [(0x07, 'a'), (0x08, 'b'), (0x09, 't'), (0x0A, 'n'), (0x0B, 'v'), (0x0C, 'f'), (0x0D, 'r')]

def escapeCode (code : Nat) : List Char :=
  match controlLetters.lookup code with
  | some letter => ['\\', letter]
  | none =>
    if code < 0x20 ∨ code = 0x7F then '\\' :: 'x' :: hexDigits 2 code
    else if code < 0x10000 then '\\' :: 'u' :: hexDigits 4 code
    else '\\' :: 'U' :: hexDigits 8 code

def escape (c : Char) : List Char :=
  if c = '"' ∨ c = '\\' then ['\\', c]
  else if isPrintable c then [c]
  else escapeCode c.toNat

def quote (text : String) : String :=
  String.ofList ('"' :: text.toList.flatMap escape ++ ['"'])

end SnakeFront.Text
