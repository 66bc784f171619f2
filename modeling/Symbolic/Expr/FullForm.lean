import Symbolic.Expr.Basic

/-! # Full form

The full form writes a tree without any operator: `head[child, child]`, with numbers as
literals and strings in quotes. -/

namespace Symbolic.Expr

/-- A character inside quotes. -/
def quotedCharacter : Char → List Char
  | '"' => ['\\', '"']
  | '\\' => ['\\', '\\']
  | '\n' => ['\\', 'n']
  | '\t' => ['\\', 't']
  | c => [c]

/-- A string in quotes. -/
def quoted (value : String) : List Char :=
  '"' :: (value.toList.flatMap quotedCharacter ++ ['"'])

mutual

/-- The characters of the full form. -/
def fullForm : Expr → List Char
  | .symbol name _ => name.toList
  | .number value _ => value.characters
  | .string value _ => quoted value
  | .node head children _ _ => head.fullForm ++ '[' :: (fullForms children ++ [']'])

/-- The full forms of a list, with a comma and a space between neighbours. -/
def fullForms : List Expr → List Char
  | [] => []
  | e :: es => e.fullForm ++ fullFormsAfter es

/-- The full forms of a list, each after a comma and a space. -/
def fullFormsAfter : List Expr → List Char
  | [] => []
  | e :: es => ',' :: ' ' :: (e.fullForm ++ fullFormsAfter es)

end

/-- The full form as a string. -/
def text (e : Expr) : String :=
  .ofList e.fullForm

end Symbolic.Expr
