import Symbolic.Location
import Symbolic.Token.Kind

/-! # Tokens

A token is a positioned piece of source text. The text of an operator or number is its
source text; symbols and blanks have their named characters resolved, and strings are
unescaped and stand without their quotes. -/

namespace Symbolic

/-- A positioned piece of source text of a certain kind. -/
structure Token where
  kind : TokenKind
  text : String
  loc : Location
deriving DecidableEq, Repr, Inhabited

namespace Token

/-- The token that closes a sequence of tokens. -/
def endOfInput (loc : Location) : Token :=
  ⟨.endOfInput, "", loc⟩

theorem kind_of_mem_endOfInput {loc : Location} :
    ∀ t ∈ [endOfInput loc].head?, t.kind = .endOfInput := by
  intro t ht
  cases ht
  rfl

theorem kind_of_mem_nil : ∀ t ∈ ([] : List Token).head?, t.kind = .endOfInput := by
  rintro t ⟨⟩

end Token

end Symbolic
