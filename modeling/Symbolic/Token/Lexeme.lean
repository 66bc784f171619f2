import Symbolic.Token.Basic
import Symbolic.Token.Cursor

/-! # Lexemes

A lexeme is what scanning finds at one place: the kind and the text of a token, and the place
after it. -/

namespace Symbolic

/-- The kind and text of a token, and the place after the token. -/
structure Lexeme where
  kind : TokenKind
  text : List Char
  next : Cursor

namespace Lexeme

/-- A lexeme whose text is just what it takes of the source. -/
def verbatim (kind : TokenKind) (c : Cursor) (taken rest : List Char) : Lexeme :=
  ⟨kind, taken, c.after taken rest⟩

/-- The lexeme, found at `c`, as a token. -/
def token (lexeme : Lexeme) (c : Cursor) : Token :=
  ⟨lexeme.kind, .ofList lexeme.text, .ofOffsets c.offset lexeme.next.offset⟩

end Lexeme

end Symbolic
