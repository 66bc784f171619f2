import Symbolic.Operator.Table

/-! # The standard operators

The operators of the language, the tightest first where nothing else orders them. The
integrand of an integral takes in products but no sum, and its variable binds just below a
power. -/

namespace Symbolic

namespace Operator

/-- The operators of the language. -/
def standard : List Operator :=
  [infixed .messageName "MessageName" 750 .left,
   prefixed .get "Get" 720,
   infixed .patternTest "PatternTest" 680 .nonAssociative,
   prefixed .patternTest "Information" 670,
   prefixed .information "Information" 670,
   postfixed .leftBracket "Part" 670,
   postfixed .derivative "Derivative" 670,
   postfixed .conjugate "Conjugate" 670,
   postfixed .transpose "Transpose" 670,
   postfixed .conjugateTranspose "ConjugateTranspose" 670,
   postfixed .increment "Increment" 660,
   prefixed .increment "PreIncrement" 660,
   postfixed .decrement "Decrement" 660,
   prefixed .decrement "PreDecrement" 660,
   infixed .prefixMark "Prefix" 640 .right,
   ternary .infixMark "Infix" 630,
   infixed .map "Map" 620 .right,
   infixed .mapAll "MapAll" 620 .right,
   infixed .apply "Apply" 620 .right,
   infixed .applyList "Apply" 620 .right,
   postfixed .factorial "Factorial" 610,
   prefixed .factorial "Not" 230,
   postfixed .factorial2 "Factorial2" 610,
   prefixed .factorial2 "Not" 230,
   infixed .stringJoin "StringJoin" 600 .flat,
   infixed .power "Power" 590 .right,
   prefixed .del "Del" 550,
   prefixed .square "Square" 540,
   infixed .smallCircle "Composition" 530 .flat,
   infixed .circleDot "CircleDot" 520 .flat,
   infixed .nonCommutativeMultiply "NonCommutativeMultiply" 510 .flat,
   infixed .cross "Cross" 500 .flat,
   infixed .dot "Dot" 490 .flat,
   prefixed .minus "Times" 480,
   prefixed .plus "Plus" 480,
   prefixed .plusMinus "PlusMinus" 480,
   prefixed .minusPlus "MinusPlus" 480,
   infixed .divide "Times" 470 .left,
   infixed .diamond "Diamond" 450 .flat,
   infixed .wedge "Wedge" 440 .flat,
   infixed .vee "Vee" 430 .flat,
   infixed .circleTimes "CircleTimes" 420 .flat,
   infixed .centerDot "CenterDot" 410 .flat,
   infixed .times "Times" 400 .flat,
   infixed .star "Star" 390 .flat,
   infixed .cap "Cap" 350 .flat,
   infixed .cup "Cup" 340 .flat,
   infixed .plus "Plus" 310 .flat,
   infixed .minus "Plus" 310 .left,
   infixed .plusMinus "PlusMinus" 310 .flat,
   infixed .minusPlus "MinusPlus" 310 .flat,
   { prefixed .integral "Integrate" 589 with inner := some 321 },
   ternary .span "Span" 305,
   prefixed .span "Span" 305,
   infixed .equal "Equal" 290 .flat,
   infixed .unequal "Unequal" 290 .flat,
   infixed .greater "Greater" 290 .flat,
   infixed .less "Less" 290 .flat,
   infixed .greaterEqual "GreaterEqual" 290 .flat,
   infixed .lessEqual "LessEqual" 290 .flat,
   infixed .sameQ "SameQ" 290 .flat,
   infixed .unsameQ "UnsameQ" 290 .flat,
   prefixed .not "Not" 230,
   infixed .and "And" 215 .flat,
   infixed .nand "Nand" 215 .flat,
   infixed .xor "Xor" 214 .flat,
   infixed .xnor "Xnor" 214 .flat,
   infixed .or "Or" 213 .flat,
   infixed .nor "Nor" 213 .flat,
   infixed .equivalent "Equivalent" 205 .flat,
   infixed .implies "Implies" 200 .right,
   infixed .rightTee "RightTee" 190 .right,
   infixed .doubleRightTee "DoubleRightTee" 190 .right,
   infixed .leftTee "LeftTee" 190 .left,
   infixed .doubleLeftTee "DoubleLeftTee" 190 .left,
   postfixed .repeated "Repeated" 170,
   postfixed .repeatedNull "RepeatedNull" 170,
   infixed .alternatives "Alternatives" 160 .flat,
   infixed .rawColon "Pattern" 150 .right,
   infixed .stringExpression "StringExpression" 135 .flat,
   infixed .condition "Condition" 130 .left,
   infixed .rule "Rule" 120 .right,
   infixed .ruleDelayed "RuleDelayed" 120 .right,
   infixed .replaceAll "ReplaceAll" 110 .left,
   infixed .replaceRepeated "ReplaceRepeated" 110 .left,
   infixed .addTo "AddTo" 100 .right,
   infixed .subtractFrom "SubtractFrom" 100 .right,
   infixed .timesBy "TimesBy" 100 .right,
   infixed .divideBy "DivideBy" 100 .right,
   postfixed .function "Function" 90,
   infixed .colon "Colon" 80 .nonAssociative,
   infixed .postfixMark "Postfix" 70 .left,
   infixed .therefore "Therefore" 50 .right,
   infixed .because "Because" 50 .left,
   infixed .set "Set" 40 .right,
   infixed .setDelayed "SetDelayed" 40 .right,
   infixed .upSet "UpSet" 40 .right,
   infixed .upSetDelayed "UpSetDelayed" 40 .right,
   ternary .tagSet "TagSet" 40,
   postfixed .unset "Unset" 40,
   infixed .put "Put" 30 .left,
   infixed .putAppend "PutAppend" 30 .left,
   infixed .semicolon "CompoundExpression" 10 .flat]

end Operator

namespace OperatorTable

/-- The operators of the language, and the precedences of default values and of sums. -/
def standard : OperatorTable where
  operators := Operator.standard
  named := [("Optional", 140), ("Sum", 320)]
  distinct := by decide

end OperatorTable

end Symbolic
