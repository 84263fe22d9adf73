import WireLambda.Text.Unprintable

/-!
# Quoted characters and texts

Messages quote the characters and texts they are about.  A character stands in single
quotes and a text in double quotes; only the quote in use is escaped.  Of the other
characters the backslash and four controls have a short escape, and one that cannot be
shown is written by its code point in hexadecimal, without padding.
-/

namespace WireLambda
namespace Text

/-- How a character is written between two `quote` marks. -/
def escape (quote c : Char) : List Char :=
  if c = '\x00' then ['\\', '0']
  else if c = '\t' then ['\\', 't']
  else if c = '\r' then ['\\', 'r']
  else if c = '\n' then ['\\', 'n']
  else if c = '\\' || c = quote then ['\\', c]
  else if isUnprintable c then
    ['\\', 'u', '\x7b'] ++ Nat.toDigits 16 c.toNat ++ ['\x7d']
  else [c]

/-- A run of characters between two `quote` marks. -/
def quoteWith (quote : Char) (cs : List Char) : String :=
  String.ofList (quote :: cs.flatMap (escape quote) ++ [quote])

/-- A character in single quotes. -/
def quoteChar (c : Char) : String := quoteWith '\'' [c]

/-- A text in double quotes. -/
def quoteText (s : String) : String := quoteWith '"' s.toList

example : quoteChar '\'' = "'\\''" ∧ quoteChar '"' = "'\"'" := by decide +kernel

example : quoteText "it's \"so\"\n" = "\"it's \\\"so\\\"\\n\"" := by decide +kernel

example : quoteChar (Char.ofNat 0x200b) = "'\\u\x7b200b\x7d'" := by decide +kernel

end Text
end WireLambda
