/-! # Blank characters

The characters of the Unicode property White_Space. They separate tokens and mean
nothing else. -/

namespace Symbolic.Text

/-- The characters with the Unicode property White_Space, in order. -/
def blanks : List Char :=
  ['\t', '\n', '\x0b', '\x0c', '\r', ' ', '\u0085', '\u00a0', '\u1680', '\u2000', '\u2001',
   '\u2002', '\u2003', '\u2004', '\u2005', '\u2006', '\u2007', '\u2008', '\u2009', '\u200a',
   '\u2028', '\u2029', '\u202f', '\u205f', '\u3000']

/-- Whether a character only separates tokens. -/
def isBlank (c : Char) : Bool :=
  blanks.contains c

end Symbolic.Text
