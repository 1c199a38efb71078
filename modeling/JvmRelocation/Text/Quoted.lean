import JvmRelocation.Text.Printable

/-!
# Quoted text in messages

A text is quoted in double quotes and a single character in single quotes. The quote in use and the
backslash stand behind a backslash, tab, newline, carriage return and NUL have a letter of their
own, and any other character that would not show is written as its code point in braces.
-/

namespace JvmRelocation.Text

/-- The digits of `n` in base sixteen, lower case, without padding. -/
def lowerHex (n : Nat) : String :=
  String.ofList (Nat.toDigits 16 n)

/-- The digits of `n` in base sixteen, upper case, padded with zeros to `width`. -/
def upperHex (width n : Nat) : String :=
  let digits := (Nat.toDigits 16 n).map Char.toUpper
  String.ofList (List.replicate (width - digits.length) '0' ++ digits)

/-- The single quote. -/
def singleQuote : Char := Char.ofNat 39

/-- How a character is written between quotes of the kind `mark`. -/
def escapeChar (mark c : Char) : String :=
  if c = '\t' then "\\t"
  else if c = '\r' then "\\r"
  else if c = '\n' then "\\n"
  else if c.toNat = 0 then "\\0"
  else if c = '\\' then "\\\\"
  else if c = mark then String.ofList ['\\', mark]
  else if isPrintable c then String.singleton c
  else "\\u\x7b" ++ lowerHex c.toNat ++ "\x7d"

/-- A text between double quotes. -/
def quote (s : String) : String :=
  "\"" ++ String.join (s.toList.map (escapeChar '"')) ++ "\""

/-- A character between single quotes. -/
def quoteChar (c : Char) : String :=
  String.singleton singleQuote ++ escapeChar singleQuote c ++ String.singleton singleQuote

end JvmRelocation.Text
