import Mundart.Page.Basic
import Mundart.Run.Session

/-!
# The playground

A page with a form for a program and, after it was sent, what the program did.
-/

namespace Mundart.Page

/-- What a program did, below the form. -/
def outcomeSection (e : Execution) : Text :=
  let error : Text := match e.error with
    | some r => "<p class=\"diag\">" ++ escape (r.kindName ++ ": " ++ r.message) ++ "</p>"
    | none => []
  "\n" ++ error ++ "\n" ++ outputSection e.output ++ diagnosticsSection e.diagnostics
    ++ "\n<p>" ++ Text.ofNat e.steps ++ " steps</p>\n"

/-- The page with a source in its form. -/
def playground (source : Text) (outcome : Option Execution) : Text :=
  layout (some .playground)
    ("\n<h1>Playground</h1>\n<form method=\"post\" action=\"/ui/playground\">\n"
    ++ "  <textarea name=\"source\" spellcheck=\"false\">" ++ escape source ++ "</textarea>\n"
    ++ "  <p><button type=\"submit\">Ausführen</button></p>\n</form>\n\n"
    ++ (match outcome with
        | some e => outcomeSection e
        | none => [])
    ++ "\n")

end Mundart.Page
