import Mundart.Store.Basic
import Mundart.Text.Rune

/-!
# Parts of the pages

What all pages share: text put into markup, the frame around the content, and the short texts for
runs, descriptions and moments.
-/

namespace Mundart.Page

/-- A byte of a text in markup. -/
def escapeByte (b : UInt8) : Text :=
  match b with
  | 0 => "\ufffd"
  | 34 => "&#34;"
  | 38 => "&amp;"
  | 39 => "&#39;"
  | 43 => "&#43;"
  | 60 => "&lt;"
  | 62 => "&gt;"
  | b => [b]

/-- A text in markup. -/
def escape (t : Text) : Text := t.flatMap escapeByte

/-! ### Short texts

Texts as they stand in tables and headings: cut off, counted, or named by the state of a run. -/

/-- The first block of an id. -/
def shortId (id : Text) : Text :=
  match Text.cut (ascii '-') id with
  | ([], _) => id
  | (block, _) => block

/-- At most so many characters of a text, with three points where something was left out. -/
def truncate (t : Text) (max : Nat) : Text :=
  let chars := Text.chars t
  if chars.length ≤ max then t else Text.ofChars (chars.take max) ++ "..."

/-- The number of lines of a source; a line break at the end starts no new one. -/
def countLines (t : Text) : Nat :=
  if t.isEmpty then 0 else (Text.dropEnding "\n" t).count 10 + 1

def stateClass : Run.State → Text
  | .active => "state-active"
  | .succeeded => "state-succeeded"
  | .failed => "state-failed"
  | .cancelled => "state-cancelled"

/-- The sign of a state; the last one is for a state that is not known. -/
def stateIcon : Option Run.State → Text
  | some .active => "&#9654;"
  | some .succeeded => "&#10003;"
  | some .failed => "&#10007;"
  | some .cancelled => "&#9632;"
  | none => "&#8226;"

/-- A moment that may not have come yet. -/
def momentText : Option Instant → Text
  | some t => Instant.text t
  | none => "-"

/-- How long a run took, or takes until now. -/
def durationText (now : Instant) (started : Instant) : Option Instant → Text
  | some ended => (Span.between started ended).text
  | none => (Span.between started now).text ++ " (running)"

/-! ### The frame

Head, style and navigation, which are the same on all pages but for the title and the tab that is marked. -/

/-- The entries of the navigation. -/
inductive Tab where
  | dashboard | playground
  deriving DecidableEq, Repr

/-- A rule of the style sheet. -/
def rule (selector : String) (properties : String) : Text :=
  utf8 selector ++ " \x7b " ++ utf8 properties ++ " \x7d\n"

def style : Text :=
  rule "body" "font-family: system-ui, sans-serif; margin: 0; background: #f6f6f4; color: #222;"
  ++ rule "header" "background: #8b1e1e; color: #fff; padding: 0.6rem 1.5rem; display: flex; gap: 1.5rem; align-items: center;"
  ++ rule "header a" "color: #fff; text-decoration: none; opacity: 0.8;"
  ++ rule "header a.active" "opacity: 1; font-weight: 600;"
  ++ rule ".brand" "font-weight: 700; font-size: 1.2rem; opacity: 1;"
  ++ rule "main" "padding: 1.5rem; max-width: 1100px; margin: 0 auto;"
  ++ rule "table" "width: 100%; border-collapse: collapse; background: #fff;"
  ++ rule "th, td" "text-align: left; padding: 0.4rem 0.6rem; border-bottom: 1px solid #e2e2e2;"
  ++ rule "pre" "background: #1e1e1e; color: #eee; padding: 0.8rem; overflow-x: auto;"
  ++ rule ".cards" "display: flex; gap: 1rem; margin-bottom: 1.5rem;"
  ++ rule ".card" "background: #fff; padding: 0.8rem 1.2rem; border-radius: 4px; min-width: 120px;"
  ++ rule ".card .num" "font-size: 1.6rem; font-weight: 600;"
  ++ rule ".state-active" "color: #1a5fb4;"
  ++ rule ".state-succeeded" "color: #26a269;"
  ++ rule ".state-failed" "color: #c01c28;"
  ++ rule ".state-cancelled" "color: #77767b;"
  ++ rule ".empty" "color: #77767b; font-style: italic;"
  ++ rule ".diag" "color: #c01c28;"
  ++ rule "textarea" "width: 100%; font-family: monospace; min-height: 12rem;"

/-- A page around its content, with one tab of the navigation marked. -/
def layout (active : Option Tab) (content : Text) : Text :=
  let mark (tab : Tab) : Text := if active = some tab then "class=\"active\"" else []
  "<!DOCTYPE html>\n<html lang=\"de\">\n<head>\n<meta charset=\"utf-8\">\n<title>oida</title>\n"
  ++ "<style>\n" ++ style ++ "</style>\n</head>\n<body>\n<header>\n"
  ++ "  <a class=\"brand\" href=\"/ui\">oida</a>\n"
  ++ "  <a href=\"/ui\" " ++ mark .dashboard ++ ">Dashboard</a>\n"
  ++ "  <a href=\"/ui/playground\" " ++ mark .playground ++ ">Playground</a>\n"
  ++ "</header>\n<main>\n" ++ content ++ "\n</main>\n</body>\n</html>\n\n"

/-! ### Sections

Parts that several pages share. What comes from users is escaped before it is put on a page. -/

/-- A text of its own in markup, or a remark that there is none. -/
def outputSection (output : Text) : Text :=
  "<h2>Output</h2>\n"
  ++ (if output.isEmpty then utf8 "<p class=\"empty\">No output.</p>"
      else "<pre>" ++ escape output ++ "</pre>")
  ++ "\n"

def diagnosticItem (d : Text) : Text := "<li class=\"diag\">Fehler: " ++ escape d ++ "</li>"

/-- The diagnostics of a run, if there are any. -/
def diagnosticsSection (diagnostics : List Text) : Text :=
  if diagnostics.isEmpty then []
  else
    "\n<h2>Diagnostics</h2>\n<ul>\n  "
    ++ diagnostics.flatMap diagnosticItem
    ++ "\n</ul>\n"

/-- The link to the page of a script. -/
def scriptLink (id : Text) : Text :=
  "<a href=\"/ui/scripts/" ++ escape id ++ "\">" ++ escape id ++ "</a>"

/-- The link to the page of a run. -/
def runLink (r : Run) : Text :=
  "<a href=\"/ui/runs/" ++ escape r.script ++ "/" ++ escape r.id ++ "\">"
    ++ escape (shortId r.id) ++ "</a>"

/-- The page for something that is not there. -/
def notFound (message : Text) : Text :=
  layout none ("\n<h1>Not Found</h1>\n<p>" ++ escape message
    ++ "</p>\n<p><a href=\"/ui\">Back to dashboard</a></p>\n")

end Mundart.Page
