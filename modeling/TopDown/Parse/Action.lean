import TopDown.Production
import TopDown.Text

namespace TopDown

inductive Action where
  | skip
  | consume
  | expand (production : Production)
  deriving DecidableEq, Repr

def Action.text : Action → String
  | skip => "skip"
  | consume => "match"
  | expand p => "expand " ++ p.text

/-- An action with the stack before it, top first, and the token that was next. -/
structure ActionRecord where
  stack : List Symbol
  token : Symbol
  action : Action
  deriving DecidableEq, Repr

/-- Shows the upper five symbols of the stack, with the top last. -/
def ActionRecord.text (r : ActionRecord) : String :=
  Text.padRight 30 (" ".intercalate (r.stack.take 5).reverse) ++ " " ++
    Text.padRight 15 r.token ++ " " ++ r.action.text

end TopDown
