import TopDown.Tree.Json

namespace TopDown.JsonValue

open Text

/-- An indent for each level of nesting; an indent below zero counts as none. -/
def lineBreak (indent : Option Int) (level : Nat) : String :=
  match indent with
  | none => ""
  | some n => "\n" ++ blanks (level * n.toNat)

def separator (indent : Option Int) : String := if indent.isNone then ", " else ","

mutual

def text (indent : Option Int) (level : Nat) : JsonValue → String
  | number n => toString n
  | string s => jsonString s
  | array [] => "[]"
  | array (item :: rest) =>
    "[" ++ lineBreak indent (level + 1) ++ text indent (level + 1) item ++
      itemsText indent (level + 1) rest ++ lineBreak indent level ++ "]"
  | object [] => "\x7b\x7d"
  | object ((key, value) :: rest) =>
    "\x7b" ++ lineBreak indent (level + 1) ++ jsonString key ++ ": " ++
      text indent (level + 1) value ++ fieldsText indent (level + 1) rest ++
        lineBreak indent level ++ "\x7d"

def itemsText (indent : Option Int) (level : Nat) : List JsonValue → String
  | [] => ""
  | item :: rest =>
    separator indent ++ lineBreak indent level ++ text indent level item ++
      itemsText indent level rest

def fieldsText (indent : Option Int) (level : Nat) : List (String × JsonValue) → String
  | [] => ""
  | (key, value) :: rest =>
    separator indent ++ lineBreak indent level ++ jsonString key ++ ": " ++
      text indent level value ++ fieldsText indent level rest

end

end TopDown.JsonValue
