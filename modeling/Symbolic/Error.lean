import Symbolic.Location
import Symbolic.Token.Kind

/-! # What can go wrong

Scanning a text into tokens and reading tokens into an expression fail with errors of their
own. Each error has a location and a message, and tells whether more text could have
completed the input. -/

namespace Symbolic

/-! ## Scan errors -/

/-- What is wrong with a piece of text that is no token. -/
inductive ScanFault where
  | unrecognizedToken
  | unclosedComment
  | unclosedString
  | unknownNamedCharacter
  | invalidEscape
  | incompleteNumber
deriving DecidableEq, Repr, Inhabited

namespace ScanFault

/-- The word by which messages name the fault. -/
def code : ScanFault → String
  | .unrecognizedToken => "unrecognized_token"
  | .unclosedComment => "unclosed_comment"
  | .unclosedString => "unclosed_string"
  | .unknownNamedCharacter => "unknown_named_character"
  | .invalidEscape => "invalid_escape"
  | .incompleteNumber => "incomplete_number"

end ScanFault

/-- A fault in the text, and where it is. -/
structure ScanError where
  loc : Location
  fault : ScanFault
deriving DecidableEq, Repr, Inhabited

namespace ScanError

/-- A fault in the text between two byte offsets. -/
def between (start stop : Nat) (fault : ScanFault) : ScanError :=
  ⟨.ofOffsets start stop, fault⟩

/-- Only an open comment or string can be completed by more text. -/
def isIncomplete (e : ScanError) : Bool :=
  match e.fault with
  | .unclosedComment | .unclosedString => true
  | _ => false

/-- The location and the code of the fault. -/
def message (e : ScanError) : String :=
  e.loc.text ++ ":" ++ e.fault.code

end ScanError

/-! ## Syntax errors -/

/-- Why a sequence of tokens is no expression. -/
inductive SyntaxError where
  /-- The token cannot begin or continue an expression. -/
  | unexpectedToken (loc : Location) (found : TokenKind)
  /-- A delimiter is missing where another token stands. -/
  | unmatchedDelimiter (loc : Location) (expected : TokenKind)
  /-- A non-associative operator is chained without parentheses. -/
  | nonAssociativeChain (loc : Location) (operator : TokenKind)
  /-- The input ends while this bracket is open. -/
  | unclosedBracket (opening : Location)
  /-- Expressions nest deeper than the limit allows. -/
  | recursionLimitExceeded (loc : Location)
  /-- A number literal has a bad base, bad digits, or a bad exponent. -/
  | invalidNumber (loc : Location)
deriving DecidableEq, Repr, Inhabited

namespace SyntaxError

/-- Where the error is. -/
def loc : SyntaxError → Location
  | .unexpectedToken loc _ | .unmatchedDelimiter loc _ | .nonAssociativeChain loc _
  | .unclosedBracket loc | .recursionLimitExceeded loc | .invalidNumber loc => loc

/-- The token kind that the error mentions. -/
def kind? : SyntaxError → Option TokenKind
  | .unexpectedToken _ kind | .unmatchedDelimiter _ kind | .nonAssociativeChain _ kind => some kind
  | _ => none

/-- Whether the input ended too early, so that more text could make it valid. -/
def isIncomplete : SyntaxError → Bool
  | .unclosedBracket _ => true
  | .unexpectedToken _ found => found == .endOfInput
  | _ => false

/-- Whether another reading of the same tokens may be tried after the error. Running out of
    nesting is final. -/
def isRecoverable : SyntaxError → Bool
  | .recursionLimitExceeded _ => false
  | _ => true

/-- The word by which messages name the error. -/
def code : SyntaxError → String
  | .unexpectedToken .. => "unexpected_token"
  | .unmatchedDelimiter .. => "unmatched_delimiter"
  | .nonAssociativeChain .. => "non_associative_chain"
  | .unclosedBracket .. => "unclosed_bracket"
  | .recursionLimitExceeded .. => "recursion_limit_exceeded"
  | .invalidNumber .. => "invalid_number"

/-- What the message adds about the kind that the error mentions. -/
def detail : SyntaxError → String
  | .unexpectedToken _ found => " -- found " ++ found.mention
  | .unmatchedDelimiter _ expected => " -- expected " ++ expected.mention
  | .nonAssociativeChain _ operator => " -- operator " ++ operator.mention
  | _ => ""

/-- The location, the code and the detail. -/
def message (e : SyntaxError) : String :=
  e.loc.text ++ ":" ++ e.code ++ e.detail

end SyntaxError

/-! ## Errors of either stage -/

/-- Why a source text is no expression. -/
inductive ReadError where
  | scanning (error : ScanError)
  | parsing (error : SyntaxError)
deriving DecidableEq, Repr

namespace ReadError

/-- Where the error is. -/
def loc : ReadError → Location
  | .scanning e => e.loc
  | .parsing e => e.loc

/-- Whether more text could make the input valid. -/
def isIncomplete : ReadError → Bool
  | .scanning e => e.isIncomplete
  | .parsing e => e.isIncomplete

/-- The message of the error within its stage. -/
def cause : ReadError → String
  | .scanning e => e.message
  | .parsing e => e.message

/-- The message, headed by the stage that failed. -/
def message : ReadError → String
  | .scanning e => "scan:" ++ e.message
  | .parsing e => "syntax:" ++ e.message

end ReadError

end Symbolic
