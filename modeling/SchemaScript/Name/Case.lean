import SchemaScript.Name.Words

/-!
# Letter cases of names

## Main definitions

* `pascal` — `FirstName`: every word capitalised.
* `camel` — `firstName`: every word but the first capitalised.
* `snake` — `first_name`: small words between underscores.
-/

namespace SchemaScript
namespace Name

/-- The word with a capital first letter and small letters after it. -/
def capitalise : List Char → List Char
  | [] => []
  | c :: cs => c.toUpper :: cs.map Char.toLower

/-- Words joined by underscores. -/
def underscored : List (List Char) → List Char
  | [] => []
  | [w] => w
  | w :: ws => w ++ '_' :: underscored ws

/-! ### Cases, on characters -/

/-- Every word capitalised; each capital starts a word. -/
def pascalChars (cs : List Char) : List Char := (capitalWords cs).flatMap capitalise

/-- The first word small, every other capitalised; acronyms are words. -/
def camelChars (cs : List Char) : List Char :=
  match acronymWords cs with
  | [] => []
  | w :: ws => w.map Char.toLower ++ ws.flatMap capitalise

/-- Small words between underscores; acronyms are words. -/
def snakeChars (cs : List Char) : List Char :=
  underscored ((acronymWords cs).map (·.map Char.toLower))

/-! ### Cases, on texts -/

/-- Pascal case: `first_name` and `firstName` become `FirstName`. -/
def pascal (s : String) : String := String.ofList (pascalChars s.toList)

/-- Camel case: `URLPath` becomes `urlPath`. -/
def camel (s : String) : String := String.ofList (camelChars s.toList)

/-- Snake case: `HTTPServer` becomes `http_server`. -/
def snake (s : String) : String := String.ofList (snakeChars s.toList)

end Name
end SchemaScript
