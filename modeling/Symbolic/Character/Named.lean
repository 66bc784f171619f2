/-! # Named characters

A character outside ASCII can be written by its name, as in `\[Pi]`. Some names stand for
operators, the others for letters and letter-like signs. -/

namespace Symbolic.Character

/-- The operators that have a name, and their names. -/
def namedOperators : List (String × Char) :=
  [("And", '\u2227'), ("Because", '\u2235'), ("Cap", '\u2322'), ("CenterDot", '\u00b7'),
   ("CircleDot", '\u2299'), ("CircleTimes", '\u2297'), ("Colon", '\u2236'),
   ("Conjugate", '\uf3c8'), ("ConjugateTranspose", '\uf3c9'), ("Cross", '\uf4a0'),
   ("Cup", '\u2323'), ("Del", '\u2207'), ("Diamond", '\u22c4'), ("DifferentialD", '\uf74c'),
   ("Divide", '\u00f7'), ("DoubleLeftTee", '\u2ae4'), ("DoubleRightTee", '\u22a8'),
   ("Equal", '\uf431'), ("Equivalent", '\u29e6'), ("Function", '\uf4a1'),
   ("GreaterEqual", '\u2265'), ("HermitianConjugate", '\uf3ce'), ("Implies", '\uf523'),
   ("Integral", '\u222b'), ("InvisibleTimes", '\u2062'), ("LeftTee", '\u22a3'),
   ("LessEqual", '\u2264'), ("LongEqual", '\uf7d9'), ("MinusPlus", '\u2213'), ("Nand", '\u22bc'),
   ("Nor", '\u22bd'), ("Not", '\u00ac'), ("NotEqual", '\u2260'), ("Or", '\u2228'),
   ("PlusMinus", '\u00b1'), ("RightTee", '\u22a2'), ("Rule", '\uf522'), ("RuleDelayed", '\uf51f'),
   ("SmallCircle", '\u2218'), ("Square", '\uf520'), ("Star", '\u22c6'), ("Therefore", '\u2234'),
   ("Times", '\u00d7'), ("Transpose", '\uf3c7'), ("Vee", '\u22c1'), ("Wedge", '\u22c0'),
   ("Xnor", '\uf4a2'), ("Xor", '\u22bb')]

/-- The letters and letter-like signs that have a name, and their names. -/
def namedLetters : List (String × Char) :=
  [("Alpha", '\u03b1'), ("Beta", '\u03b2'), ("CapitalDelta", '\u0394'),
   ("CapitalGamma", '\u0393'), ("CapitalOmega", '\u03a9'), ("CapitalPi", '\u03a0'),
   ("CapitalSigma", '\u03a3'), ("Degree", '\u00b0'), ("Delta", '\u03b4'), ("Epsilon", '\u03f5'),
   ("Eta", '\u03b7'), ("ExponentialE", '\uf74d'), ("Gamma", '\u03b3'), ("ImaginaryI", '\uf74e'),
   ("ImaginaryJ", '\uf74f'), ("Infinity", '\u221e'), ("Kappa", '\u03ba'), ("Lambda", '\u03bb'),
   ("Micro", '\u00b5'), ("Mu", '\u03bc'), ("Nu", '\u03bd'), ("Omega", '\u03c9'),
   ("Phi", '\u03d5'), ("Pi", '\u03c0'), ("Psi", '\u03c8'), ("Rho", '\u03c1'), ("Sigma", '\u03c3'),
   ("Tau", '\u03c4'), ("Theta", '\u03b8'), ("Xi", '\u03be'), ("Zeta", '\u03b6')]

/-- The character of a given name. -/
def ofName? (name : String) : Option Char :=
  (namedOperators ++ namedLetters).lookup name

end Symbolic.Character
