/-! # Kinds of tokens

The kind of a token is the class of an atom, a bracket, an operator, or the end of the
input. Kinds are ordered as they are listed. Each has a `name` and a `spelling`; the
spelling of a bracket or operator is its usual source text. -/

namespace Symbolic

/-- The class of an atom, a bracket, an operator, or the end of the input. -/
inductive TokenKind where
  -- atoms
  | symbol | number | string | slot | slotSequence | out | blank | filename
  -- grouping
  | leftParen | rightParen | leftBracket | rightBracket | leftBrace | rightBrace
  | leftAssociation | rightAssociation | comma
  -- operators
  | messageName | patternTest | information | increment | decrement | prefixMark | infixMark
  | map | mapAll | apply | applyList | factorial | factorial2 | conjugate | transpose
  | conjugateTranspose | derivative | stringJoin | power | del | square | smallCircle | circleDot
  | nonCommutativeMultiply | cross | dot | minus | plus | plusMinus | minusPlus | divide
  | diamond | wedge | vee | circleTimes | centerDot | times | star | cap | cup | integral
  | differentialD | span | equal | unequal | greater | less | greaterEqual | lessEqual | sameQ
  | unsameQ | not | and | nand | xor | xnor | or | nor | equivalent | implies | rightTee
  | leftTee | doubleRightTee | doubleLeftTee | repeated | repeatedNull | alternatives | rawColon
  | colon | stringExpression | condition | rule | ruleDelayed | replaceAll | replaceRepeated
  | addTo | subtractFrom | timesBy | divideBy | function | postfixMark | therefore | because
  | set | setDelayed | upSet | upSetDelayed | tagSet | unset | semicolon | put | putAppend | get
  | endOfInput
deriving DecidableEq, Ord, Repr, Inhabited

namespace TokenKind

/-- Every kind, in order. -/
def all : List TokenKind :=
  [.symbol, .number, .string, .slot, .slotSequence, .out, .blank, .filename, .leftParen,
   .rightParen, .leftBracket, .rightBracket, .leftBrace, .rightBrace, .leftAssociation,
   .rightAssociation, .comma, .messageName, .patternTest, .information, .increment, .decrement,
   .prefixMark, .infixMark, .map, .mapAll, .apply, .applyList, .factorial, .factorial2,
   .conjugate, .transpose, .conjugateTranspose, .derivative, .stringJoin, .power, .del, .square,
   .smallCircle, .circleDot, .nonCommutativeMultiply, .cross, .dot, .minus, .plus, .plusMinus,
   .minusPlus, .divide, .diamond, .wedge, .vee, .circleTimes, .centerDot, .times, .star, .cap,
   .cup, .integral, .differentialD, .span, .equal, .unequal, .greater, .less, .greaterEqual,
   .lessEqual, .sameQ, .unsameQ, .not, .and, .nand, .xor, .xnor, .or, .nor, .equivalent,
   .implies, .rightTee, .leftTee, .doubleRightTee, .doubleLeftTee, .repeated, .repeatedNull,
   .alternatives, .rawColon, .colon, .stringExpression, .condition, .rule, .ruleDelayed,
   .replaceAll, .replaceRepeated, .addTo, .subtractFrom, .timesBy, .divideBy, .function,
   .postfixMark, .therefore, .because, .set, .setDelayed, .upSet, .upSetDelayed, .tagSet, .unset,
   .semicolon, .put, .putAppend, .get, .endOfInput]

/-- The name of a kind. -/
def name : TokenKind → String
  | .symbol => "Symbol"
  | .number => "Number"
  | .string => "String"
  | .slot => "Slot"
  | .slotSequence => "SlotSequence"
  | .out => "Out"
  | .blank => "Blank"
  | .filename => "Filename"
  | .leftParen => "LeftParen"
  | .rightParen => "RightParen"
  | .leftBracket => "LeftBracket"
  | .rightBracket => "RightBracket"
  | .leftBrace => "LeftBrace"
  | .rightBrace => "RightBrace"
  | .leftAssociation => "LeftAssociation"
  | .rightAssociation => "RightAssociation"
  | .comma => "Comma"
  | .messageName => "MessageName"
  | .patternTest => "PatternTest"
  | .information => "Information"
  | .increment => "Increment"
  | .decrement => "Decrement"
  | .prefixMark => "Prefix"
  | .infixMark => "Infix"
  | .map => "Map"
  | .mapAll => "MapAll"
  | .apply => "Apply"
  | .applyList => "ApplyList"
  | .factorial => "Factorial"
  | .factorial2 => "Factorial2"
  | .conjugate => "Conjugate"
  | .transpose => "Transpose"
  | .conjugateTranspose => "ConjugateTranspose"
  | .derivative => "Derivative"
  | .stringJoin => "StringJoin"
  | .power => "Power"
  | .del => "Del"
  | .square => "Square"
  | .smallCircle => "SmallCircle"
  | .circleDot => "CircleDot"
  | .nonCommutativeMultiply => "NonCommutativeMultiply"
  | .cross => "Cross"
  | .dot => "Dot"
  | .minus => "Minus"
  | .plus => "Plus"
  | .plusMinus => "PlusMinus"
  | .minusPlus => "MinusPlus"
  | .divide => "Divide"
  | .diamond => "Diamond"
  | .wedge => "Wedge"
  | .vee => "Vee"
  | .circleTimes => "CircleTimes"
  | .centerDot => "CenterDot"
  | .times => "Times"
  | .star => "Star"
  | .cap => "Cap"
  | .cup => "Cup"
  | .integral => "Integral"
  | .differentialD => "DifferentialD"
  | .span => "Span"
  | .equal => "Equal"
  | .unequal => "Unequal"
  | .greater => "Greater"
  | .less => "Less"
  | .greaterEqual => "GreaterEqual"
  | .lessEqual => "LessEqual"
  | .sameQ => "SameQ"
  | .unsameQ => "UnsameQ"
  | .not => "Not"
  | .and => "And"
  | .nand => "Nand"
  | .xor => "Xor"
  | .xnor => "Xnor"
  | .or => "Or"
  | .nor => "Nor"
  | .equivalent => "Equivalent"
  | .implies => "Implies"
  | .rightTee => "RightTee"
  | .leftTee => "LeftTee"
  | .doubleRightTee => "DoubleRightTee"
  | .doubleLeftTee => "DoubleLeftTee"
  | .repeated => "Repeated"
  | .repeatedNull => "RepeatedNull"
  | .alternatives => "Alternatives"
  | .rawColon => "RawColon"
  | .colon => "Colon"
  | .stringExpression => "StringExpression"
  | .condition => "Condition"
  | .rule => "Rule"
  | .ruleDelayed => "RuleDelayed"
  | .replaceAll => "ReplaceAll"
  | .replaceRepeated => "ReplaceRepeated"
  | .addTo => "AddTo"
  | .subtractFrom => "SubtractFrom"
  | .timesBy => "TimesBy"
  | .divideBy => "DivideBy"
  | .function => "Function"
  | .postfixMark => "Postfix"
  | .therefore => "Therefore"
  | .because => "Because"
  | .set => "Set"
  | .setDelayed => "SetDelayed"
  | .upSet => "UpSet"
  | .upSetDelayed => "UpSetDelayed"
  | .tagSet => "TagSet"
  | .unset => "Unset"
  | .semicolon => "Semicolon"
  | .put => "Put"
  | .putAppend => "PutAppend"
  | .get => "Get"
  | .endOfInput => "End"

/-- The kind of a given name. -/
def ofName? (s : String) : Option TokenKind :=
  all.find? (·.name == s)

/-- The usual source text of a bracket or operator; a short description of an atom class
    and of the end of the input. -/
def spelling : TokenKind → String
  | .symbol => "symbol"
  | .number => "number"
  | .string => "string"
  | .slot => "slot"
  | .slotSequence => "slot sequence"
  | .out => "out reference"
  | .blank => "blank"
  | .filename => "file name"
  | .leftParen => "("
  | .rightParen => ")"
  | .leftBracket => "["
  | .rightBracket => "]"
  | .leftBrace => "\x7b"
  | .rightBrace => "\x7d"
  | .leftAssociation => "<|"
  | .rightAssociation => "|>"
  | .comma => ","
  | .messageName => "::"
  | .patternTest => "?"
  | .information => "??"
  | .increment => "++"
  | .decrement => "--"
  | .prefixMark => "@"
  | .infixMark => "~"
  | .map => "/@"
  | .mapAll => "//@"
  | .apply => "@@"
  | .applyList => "@@@"
  | .factorial => "!"
  | .factorial2 => "!!"
  | .conjugate => "\uf3c8"
  | .transpose => "\uf3c7"
  | .conjugateTranspose => "\uf3c9"
  | .derivative => "'"
  | .stringJoin => "<>"
  | .power => "^"
  | .del => "\u2207"
  | .square => "\uf520"
  | .smallCircle => "\u2218"
  | .circleDot => "\u2299"
  | .nonCommutativeMultiply => "**"
  | .cross => "\uf4a0"
  | .dot => "."
  | .minus => "-"
  | .plus => "+"
  | .plusMinus => "\u00b1"
  | .minusPlus => "\u2213"
  | .divide => "/"
  | .diamond => "\u22c4"
  | .wedge => "\u22c0"
  | .vee => "\u22c1"
  | .circleTimes => "\u2297"
  | .centerDot => "\u00b7"
  | .times => "*"
  | .star => "\u22c6"
  | .cap => "\u2322"
  | .cup => "\u2323"
  | .integral => "\u222b"
  | .differentialD => "\uf74c"
  | .span => ";;"
  | .equal => "=="
  | .unequal => "!="
  | .greater => ">"
  | .less => "<"
  | .greaterEqual => ">="
  | .lessEqual => "<="
  | .sameQ => "==="
  | .unsameQ => "=!="
  | .not => "\u00ac"
  | .and => "&&"
  | .nand => "\u22bc"
  | .xor => "\u22bb"
  | .xnor => "\uf4a2"
  | .or => "||"
  | .nor => "\u22bd"
  | .equivalent => "\u29e6"
  | .implies => "\uf523"
  | .rightTee => "\u22a2"
  | .leftTee => "\u22a3"
  | .doubleRightTee => "\u22a8"
  | .doubleLeftTee => "\u2ae4"
  | .repeated => ".."
  | .repeatedNull => "..."
  | .alternatives => "|"
  | .rawColon => ":"
  | .colon => "\u2236"
  | .stringExpression => "~~"
  | .condition => "/;"
  | .rule => "->"
  | .ruleDelayed => ":>"
  | .replaceAll => "/."
  | .replaceRepeated => "//."
  | .addTo => "+="
  | .subtractFrom => "-="
  | .timesBy => "*="
  | .divideBy => "/="
  | .function => "&"
  | .postfixMark => "//"
  | .therefore => "\u2234"
  | .because => "\u2235"
  | .set => "="
  | .setDelayed => ":="
  | .upSet => "^="
  | .upSetDelayed => "^:="
  | .tagSet => "/:"
  | .unset => "=."
  | .semicolon => ";"
  | .put => ">>"
  | .putAppend => ">>>"
  | .get => "<<"
  | .endOfInput => "end of input"

/-- Whether tokens of this kind are atoms: they carry their meaning in their text. -/
def isAtom : TokenKind → Bool
  | .symbol | .number | .string | .slot | .slotSequence | .out | .blank | .filename => true
  | _ => false

/-- How messages mention a kind: brackets and operators are quoted. -/
def mention (kind : TokenKind) : String :=
  if kind.isAtom || kind == .endOfInput then kind.spelling else "`" ++ kind.spelling ++ "`"

/-- The tokens after which an operand is complete without an implied multiplication. -/
def endsOperand : TokenKind → Bool
  | .endOfInput | .rightAssociation | .rightParen | .comma | .rightBrace | .rightBracket
  | .rawColon | .differentialD => true
  | _ => false

/-- The operators whose operand is scanned as the name of a file. -/
def takesFilename : TokenKind → Bool
  | .get | .put | .putAppend => true
  | _ => false

/-! ## Listing -/

theorem mem_all (kind : TokenKind) : kind ∈ all := by
  cases kind <;> decide

end TokenKind

end Symbolic
