import Symbolic.Character.Meaning
import Symbolic.Error
import Symbolic.Text.Split
import Symbolic.Token.Lexeme

/-! # Operators and brackets

Operators and brackets of ASCII characters are found by their spelling, the longest first;
all others are single characters. -/

namespace Symbolic.Mark

/-- The operators and brackets of ASCII characters, longer spellings first. -/
def kinds : List TokenKind :=
  [.applyList, .mapAll, .replaceRepeated, .upSetDelayed, .sameQ, .unsameQ, .repeatedNull,
   .putAppend, .messageName, .information, .increment, .decrement, .apply, .map, .factorial2,
   .stringJoin, .nonCommutativeMultiply, .span, .equal, .unequal, .greaterEqual, .lessEqual, .and,
   .or, .repeated, .stringExpression, .condition, .rule, .ruleDelayed, .replaceAll, .addTo,
   .subtractFrom, .timesBy, .divideBy, .postfixMark, .setDelayed, .upSet, .tagSet, .unset, .put,
   .get, .leftAssociation, .rightAssociation, .leftParen, .rightParen, .leftBracket,
   .rightBracket, .leftBrace, .rightBrace, .comma, .patternTest, .prefixMark, .infixMark,
   .factorial, .derivative, .power, .dot, .minus, .plus, .divide, .times, .greater, .less,
   .alternatives, .rawColon, .function, .set, .semicolon]

/-- The operators whose final point is left to a digit after it, so that `/.5` divides. -/
def losesPoint : TokenKind → Bool
  | .replaceAll | .unset | .replaceRepeated => true
  | _ => false

/-- What follows the spelling of a kind at the start of a text. -/
def spelled? (kind : TokenKind) (cs : List Char) : Option (List Char) :=
  (Text.strip? kind.spelling.toList cs).filter fun rest =>
    !(losesPoint kind && rest.head?.any Char.isDigit)

/-- The operator or bracket that a text starts with, and what follows it. -/
def ascii? (cs : List Char) : Option (TokenKind × List Char) :=
  kinds.findSome? fun kind => (spelled? kind cs).map (kind, ·)

/-- Reads the operator or bracket at a place. -/
def read (c : Cursor) : Except ScanError Lexeme :=
  match ascii? c.rest with
  | some (kind, rest) => .ok (.verbatim kind c kind.spelling.toList rest)
  | none =>
    match c.rest.head?.bind Character.operator? with
    | some kind => .ok (.verbatim kind c (c.rest.take 1) (c.rest.drop 1))
    | none => .error (.between c.offset (c.after (c.rest.take 1) []).offset .unrecognizedToken)

theorem spelling_ne_nil (kind : TokenKind) : kind.spelling.toList ≠ [] := by
  cases kind <;> decide

theorem precedes_of_read {c : Cursor} {lexeme : Lexeme} (hc : c.rest ≠ [])
    (h : read c = .ok lexeme) : c.Precedes lexeme.next := by
  unfold read at h
  split at h
  · rename_i kind rest hascii
    cases h
    -- an operator of ASCII is found by its spelling, which is not empty
    obtain ⟨kind', -, hkind⟩ := List.exists_of_findSome?_eq_some hascii
    simp only [Option.map_eq_some_iff, Prod.mk.injEq, spelled?, Option.filter_eq_some_iff] at hkind
    obtain ⟨_, ⟨hstrip, -⟩, rfl, rfl⟩ := hkind
    exact Cursor.precedes_after (Text.strip?_eq_some_iff.mp hstrip) (spelling_ne_nil _)
  · split at h
    · cases h
      -- any other operator is a single character
      exact Cursor.precedes_after (List.take_append_drop 1 c.rest).symm (by simp [hc])
    · cases h

end Symbolic.Mark
