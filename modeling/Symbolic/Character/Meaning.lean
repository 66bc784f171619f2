import Symbolic.Token.Kind
import Symbolic.Text.Identifier

/-! # What single characters mean

A character outside ASCII may be an operator by itself. Names are made of identifier
characters, dollar signs and a few letter-like signs, as far as these are no operators. -/

namespace Symbolic.Character

/-- The characters that are operators by themselves, and the operators. -/
def operators : List (Char × TokenKind) :=
  [('\u00d7', .times), ('\u2062', .times), ('\u00f7', .divide), ('\u00b1', .plusMinus),
   ('\u2213', .minusPlus), ('\u222b', .integral), ('\uf74c', .differentialD),
   ('\u2218', .smallCircle), ('\u2299', .circleDot), ('\u2297', .circleTimes),
   ('\u00b7', .centerDot), ('\u22c6', .star), ('\u22c4', .diamond), ('\u22c0', .wedge),
   ('\u22c1', .vee), ('\u2227', .and), ('\u2228', .or), ('\u00ac', .not), ('\u22bc', .nand),
   ('\u22bd', .nor), ('\u22bb', .xor), ('\uf4a2', .xnor), ('\u29e6', .equivalent),
   ('\uf523', .implies), ('\u2322', .cap), ('\u2323', .cup), ('\uf522', .rule), ('\u2192', .rule),
   ('\uf51f', .ruleDelayed), ('\u29f4', .ruleDelayed), ('\u2260', .unequal),
   ('\u2264', .lessEqual), ('\u2265', .greaterEqual), ('\uf431', .equal), ('\uf7d9', .equal),
   ('\u2a75', .equal), ('\u2236', .colon), ('\u22a2', .rightTee), ('\u22a3', .leftTee),
   ('\u22a8', .doubleRightTee), ('\u2ae4', .doubleLeftTee), ('\u2234', .therefore),
   ('\u2235', .because), ('\u2207', .del), ('\uf520', .square), ('\uf4a1', .function),
   ('\uf3c7', .transpose), ('\uf3c8', .conjugate), ('\uf3c9', .conjugateTranspose),
   ('\uf3ce', .conjugateTranspose), ('\uf4a0', .cross)]

/-- The operator that a single character stands for. -/
def operator? (c : Char) : Option TokenKind :=
  operators.lookup c

/-- Whether a sign that is no identifier character may still appear in a name. -/
def isLetterlike (c : Char) : Bool :=
  ['\u00b0', '\u221e', '\uf74d', '\uf74e', '\uf74f'].contains c

/-- Whether a name can start with the character. -/
def startsName (c : Char) : Bool :=
  (Text.isIdentifierStart c || c == '$' || isLetterlike c) && (operator? c).isNone

/-- Whether a name can go on with the character. An underscore ends a name. -/
def continuesName (c : Char) : Bool :=
  ((Text.isIdentifierContinue c && c != '_') || c == '$' || isLetterlike c)
    && (operator? c).isNone

end Symbolic.Character
