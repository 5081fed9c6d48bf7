import SchemaScript.Schema.Kind

/-!
# Type expressions

What stands where TypeScript asks for a type: a scalar, the name of a declaration,
an array, or a map from strings.

## Main definitions

* `TypeExpr` — the expressions.
* `TypeExpr.render` — the text of an expression.
* `TypeExpr.names` — the declarations an expression refers to.
* `Kind.scalar?` — the scalar that a kind always becomes.
-/

namespace SchemaScript

/-- The types that need no declaration. -/
inductive Scalar
  | string
  | number
  | boolean
  | date
  | any
  deriving DecidableEq

/-- The text of a scalar. -/
def Scalar.render : Scalar → String
  | string => "string"
  | number => "number"
  | boolean => "boolean"
  | date => "Date"
  | any => "any"

/-- A type expression. -/
inductive TypeExpr
  | scalar (s : Scalar)
  | named (name : String)
  | array (item : TypeExpr)
  | map (value : TypeExpr)
  deriving DecidableEq

namespace TypeExpr

/-- The expression for what cannot be typed. -/
def any : TypeExpr := scalar .any

/-- The text of an expression. -/
def render : TypeExpr → String
  | scalar s => s.render
  | named name => name
  | array item => item.render ++ "[]"
  | map value => "\x7b [key: string]: " ++ value.render ++ " \x7d"

/-- The declarations that the expression refers to. -/
def names : TypeExpr → List String
  | scalar _ => []
  | named name => [name]
  | array item => item.names
  | map value => value.names

end TypeExpr

/-- The scalar that every schema of a kind becomes, for the kinds that have one. -/
def Kind.scalar? : Kind → Option Scalar
  | date => some .date
  | boolean => some .boolean
  | any => some .any
  | numeric => some .number
  | plainString => some .string
  | fallback => some .any
  | _ => none

end SchemaScript
