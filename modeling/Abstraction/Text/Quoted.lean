import Abstraction.Text.Printable

/-! Text in quotes: single ones, unless the text holds a single and no double quote. The quote, the
backslash and everything unprintable are escaped. -/
namespace Abstraction.Text

def singleQuote : Char := Char.ofNat 39
def doubleQuote : Char := Char.ofNat 34
def backslash : Char := Char.ofNat 92

def quoteFor (cs : List Char) : Char :=
  if cs.contains singleQuote && !cs.contains doubleQuote then doubleQuote else singleQuote

def hexDigits (width n : Nat) : List Char :=
  let shown := Nat.toDigits 16 n
  List.replicate (width - shown.length) '0' ++ shown

def escapeCode (n : Nat) : List Char :=
  if n < 256 then 'x' :: hexDigits 2 n
  else if n < 65536 then 'u' :: hexDigits 4 n
  else 'U' :: hexDigits 8 n

def escape (quote c : Char) : List Char :=
  if c = quote ∨ c = backslash then [backslash, c]
  else if c = '\n' then [backslash, 'n']
  else if c = '\r' then [backslash, 'r']
  else if c = '\t' then [backslash, 't']
  else if isPrintable c then [c]
  else backslash :: escapeCode c.toNat

def quoted (s : String) : String :=
  let cs := s.toList
  let quote := quoteFor cs
  String.ofList (quote :: cs.flatMap (escape quote) ++ [quote])

end Abstraction.Text
