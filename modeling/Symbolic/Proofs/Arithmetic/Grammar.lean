import Symbolic.Expr.Atom
import Symbolic.Proofs.Arithmetic.Value

/-!
# The grammar of arithmetic

Sums of products of signed operands, as they are usually read: `+` and `-` between operands are
left associative and loosest; `*`, `/` and standing side by side are left associative, all at one
level; signs before an operand are tightest. An operand that stands right after another one has no
sign, as the sign would stand between the two.

## Key results

- `Term.tokens_eq`, `Term.value_eq`: a product is its first factor and what comes after it, from
  left to right
-/

namespace Symbolic.Arithmetic

/-! ## Literals -/

/-- The integer that a literal stands for. -/
def literalValue? (literal : String) : Option Int :=
  (Number.ofLiteral? literal).bind Number.integer?

/-! ## Syntax -/

mutual

/-- An integer literal, a symbol, or a sum in parentheses. -/
inductive Primary where
  | number (token : Token) (n : Nat) (kind : token.kind = .number)
    (value : literalValue? token.text = some (n : Int))
  | symbol (token : Token) (kind : token.kind = .symbol)
  | group (opening : Token) (sum : Sum) (closing : Token) (openingKind : opening.kind = .leftParen)
    (closingKind : closing.kind = .rightParen)

/-- A primary after any number of signs. -/
inductive Factor where
  | primary (primary : Primary)
  | minus (sign : Token) (factor : Factor) (kind : sign.kind = .minus)
  | plus (sign : Token) (factor : Factor) (kind : sign.kind = .plus)

/-- A product of factors, some of them divided by. -/
inductive Term where
  | factor (factor : Factor)
  | times (term : Term) (sign : Token) (factor : Factor) (kind : sign.kind = .times)
  | divide (term : Term) (sign : Token) (factor : Factor) (kind : sign.kind = .divide)
  | beside (term : Term) (primary : Primary)

/-- A sum of terms, some of them subtracted. -/
inductive Sum where
  | term (term : Term)
  | add (sum : Sum) (sign : Token) (term : Term) (kind : sign.kind = .plus)
  | subtract (sum : Sum) (sign : Token) (term : Term) (kind : sign.kind = .minus)

end

mutual

/-- The tokens of a primary. -/
def Primary.tokens : Primary → List Token
  | .number token _ _ _ => [token]
  | .symbol token _ => [token]
  | .group opening sum closing _ _ => opening :: (sum.tokens ++ [closing])

/-- The tokens of a factor. -/
def Factor.tokens : Factor → List Token
  | .primary primary => primary.tokens
  | .minus sign factor _ => sign :: factor.tokens
  | .plus sign factor _ => sign :: factor.tokens

/-- The tokens of a term. -/
def Term.tokens : Term → List Token
  | .factor factor => factor.tokens
  | .times term sign factor _ => term.tokens ++ sign :: factor.tokens
  | .divide term sign factor _ => term.tokens ++ sign :: factor.tokens
  | .beside term primary => term.tokens ++ primary.tokens

/-- The tokens of a sum. -/
def Sum.tokens : Sum → List Token
  | .term term => term.tokens
  | .add sum sign term _ => sum.tokens ++ sign :: term.tokens
  | .subtract sum sign term _ => sum.tokens ++ sign :: term.tokens

end

mutual

/-- No token of a primary ends the input. -/
theorem Primary.kind_ne_endOfInput : ∀ primary : Primary, ∀ t ∈ primary.tokens,
    t.kind ≠ .endOfInput
  | .number token _ kind _ => by simp [Primary.tokens, kind]
  | .symbol token kind => by simp [Primary.tokens, kind]
  | .group opening sum closing openingKind closingKind => by
    intro t ht
    simp only [Primary.tokens, List.mem_cons, List.mem_append, List.not_mem_nil, or_false] at ht
    rcases ht with rfl | ht | rfl
    · simp [openingKind]
    · exact sum.kind_ne_endOfInput t ht
    · simp [closingKind]

/-- Nor does one of a factor. -/
theorem Factor.kind_ne_endOfInput : ∀ factor : Factor, ∀ t ∈ factor.tokens,
    t.kind ≠ .endOfInput
  | .primary primary => by
    rw [Factor.tokens]
    exact primary.kind_ne_endOfInput
  | .minus sign factor kind => by
    rw [Factor.tokens, List.forall_mem_cons]
    exact ⟨by simp [kind], factor.kind_ne_endOfInput⟩
  | .plus sign factor kind => by
    rw [Factor.tokens, List.forall_mem_cons]
    exact ⟨by simp [kind], factor.kind_ne_endOfInput⟩

/-- Nor does one of a product. -/
theorem Term.kind_ne_endOfInput : ∀ term : Term, ∀ t ∈ term.tokens, t.kind ≠ .endOfInput
  | .factor factor => by
    rw [Term.tokens]
    exact factor.kind_ne_endOfInput
  | .times term sign factor kind => by
    rw [Term.tokens, List.forall_mem_append, List.forall_mem_cons]
    exact ⟨term.kind_ne_endOfInput, by simp [kind], factor.kind_ne_endOfInput⟩
  | .divide term sign factor kind => by
    rw [Term.tokens, List.forall_mem_append, List.forall_mem_cons]
    exact ⟨term.kind_ne_endOfInput, by simp [kind], factor.kind_ne_endOfInput⟩
  | .beside term primary => by
    rw [Term.tokens, List.forall_mem_append]
    exact ⟨term.kind_ne_endOfInput, primary.kind_ne_endOfInput⟩

/-- Nor does one of a sum. -/
theorem Sum.kind_ne_endOfInput : ∀ sum : Sum, ∀ t ∈ sum.tokens, t.kind ≠ .endOfInput
  | .term term => by
    rw [Sum.tokens]
    exact term.kind_ne_endOfInput
  | .add sum sign term kind => by
    rw [Sum.tokens, List.forall_mem_append, List.forall_mem_cons]
    exact ⟨sum.kind_ne_endOfInput, by simp [kind], term.kind_ne_endOfInput⟩
  | .subtract sum sign term kind => by
    rw [Sum.tokens, List.forall_mem_append, List.forall_mem_cons]
    exact ⟨sum.kind_ne_endOfInput, by simp [kind], term.kind_ne_endOfInput⟩

end

/-! ## Meaning -/

section Meaning

variable (σ : String → ℚ)

mutual

/-- The value of a primary, where the symbols have the values `σ`. -/
def Primary.value : Primary → ℚ
  | .number _ n _ _ => n
  | .symbol token _ => σ (Expr.canonicalName token.text)
  | .group _ sum _ _ _ => sum.value

/-- The value of a factor. -/
def Factor.value : Factor → ℚ
  | .primary primary => primary.value
  | .minus _ factor _ => -factor.value
  | .plus _ factor _ => factor.value

/-- The value of a term. Dividing by zero gives zero. -/
def Term.value : Term → ℚ
  | .factor factor => factor.value
  | .times term _ factor _ => term.value * factor.value
  | .divide term _ factor _ => term.value / factor.value
  | .beside term primary => term.value * primary.value

/-- The value of a sum. -/
def Sum.value : Sum → ℚ
  | .term term => term.value
  | .add sum _ term _ => sum.value + term.value
  | .subtract sum _ term _ => sum.value - term.value

end

end Meaning

/-! ## Products from left to right -/

/-- A factor of a product after the first, with the sign before it. -/
inductive Link where
  | times (sign : Token) (factor : Factor) (kind : sign.kind = .times)
  | divide (sign : Token) (factor : Factor) (kind : sign.kind = .divide)
  | beside (primary : Primary)

namespace Link

/-- The tokens of a link. -/
def tokens : Link → List Token
  | .times sign factor _ => sign :: factor.tokens
  | .divide sign factor _ => sign :: factor.tokens
  | .beside primary => primary.tokens

/-- The factor of a link. -/
def factor : Link → Factor
  | .times _ factor _ => factor
  | .divide _ factor _ => factor
  | .beside primary => .primary primary

/-- Whether a link divides. -/
def isDivide : Link → Bool
  | .divide .. => true
  | _ => false

/-- What a link makes of the value so far. -/
def apply (σ : String → ℚ) (v : ℚ) : Link → ℚ
  | .divide _ factor _ => v / factor.value σ
  | link => v * link.factor.value σ

end Link

/-- The tokens of links. -/
def linkTokens (links : List Link) : List Token :=
  links.flatMap Link.tokens

/-- The first factor of a term. -/
def Term.first : Term → Factor
  | .factor first => first
  | .times term _ _ _ => term.first
  | .divide term _ _ _ => term.first
  | .beside term _ => term.first

/-- The links of a term after its first factor. -/
def Term.links : Term → List Link
  | .factor _ => []
  | .times term sign next kind => term.links ++ [.times sign next kind]
  | .divide term sign next kind => term.links ++ [.divide sign next kind]
  | .beside term primary => term.links ++ [.beside primary]

/-- The tokens of a product are those of its first factor and of what comes after it. -/
theorem Term.tokens_eq : ∀ term : Term, term.tokens = term.first.tokens ++ linkTokens term.links
  | .factor _ => by simp [Term.tokens, Term.first, Term.links, linkTokens]
  | .times term _ _ _ => by
    rw [Term.tokens, term.tokens_eq, Term.first, Term.links]
    simp [linkTokens, Link.tokens]
  | .divide term _ _ _ => by
    rw [Term.tokens, term.tokens_eq, Term.first, Term.links]
    simp [linkTokens, Link.tokens]
  | .beside term _ => by
    rw [Term.tokens, term.tokens_eq, Term.first, Term.links]
    simp [linkTokens, Link.tokens]

/-- The value of a product is found from left to right. -/
theorem Term.value_eq (σ : String → ℚ) : ∀ term : Term,
    term.value σ = term.links.foldl (Link.apply σ) (term.first.value σ)
  | .factor _ => by rw [Term.value, Term.first, Term.links, List.foldl_nil]
  | .times term _ _ _ => by
    -- the last link stands at the end of the list, and is applied last
    rw [Term.value, term.value_eq, Term.first, Term.links, List.foldl_append]
    rfl
  | .divide term _ _ _ => by
    rw [Term.value, term.value_eq, Term.first, Term.links, List.foldl_append]
    rfl
  | .beside term primary => by
    rw [Term.value, term.value_eq, Term.first, Term.links, List.foldl_append]
    show _ = _ * (Factor.primary primary).value σ
    rw [Factor.value]

/-- A primary has tokens. -/
theorem Primary.tokens_ne_nil (primary : Primary) : primary.tokens ≠ [] := by
  cases primary <;> simp [Primary.tokens]

/-- So has a factor. -/
theorem Factor.tokens_ne_nil (factor : Factor) : factor.tokens ≠ [] := by
  cases factor <;> simp [Factor.tokens, Primary.tokens_ne_nil]

/-- So has a sum. -/
theorem Sum.tokens_ne_nil (sum : Sum) : sum.tokens ≠ [] := by
  cases sum <;> simp [Sum.tokens, Term.tokens_eq, Factor.tokens_ne_nil]

/-- A factor in front of divisions can be multiplied by afterwards. -/
theorem foldl_apply_mul (σ : String → ℚ) {links : List Link}
    (h : ∀ link ∈ links, link.isDivide = true) (v w : ℚ) :
    links.foldl (Link.apply σ) (v * w) = v * links.foldl (Link.apply σ) w := by
  induction links generalizing w with
  | nil => rfl
  | cons link links ih =>
    -- every link divides, and a product can be divided in its second factor
    have hlink := h link List.mem_cons_self
    cases link with
    | divide sign factor kind =>
      rw [List.foldl_cons, List.foldl_cons, Link.apply, Link.apply, mul_div_assoc]
      exact ih (fun link hmem => h link (List.mem_cons_of_mem _ hmem)) _
    | _ => cases hlink

end Symbolic.Arithmetic
