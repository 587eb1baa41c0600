import Needlework.Engine.Parse
import Needlework.Forest.Check

/-!
# Bold markup

A small grammar that shows the engine at work.  Text between `[b]` and `[/b]` is
bold.  The output is HTML: a bold node is a `strong` element, and the five
characters that HTML treats specially are escaped in text.

An opening mark that is never closed is text in lenient mode, and a failure in
strict mode.  A second opening mark inside bold text is text as well, since only
the closing mark is looked for there.
-/

namespace Needlework.Bold

/-- The opening mark. -/
def openMark : Text := Text.ofChars ['[', 'b', ']']

/-- The closing mark. -/
def closeMark : Text := Text.ofChars ['[', '/', 'b', ']']

/-- The status outside of bold text. -/
def inText : Int := 0

/-- The status inside bold text. -/
def inBold : Int := 1

/-- A bold node. -/
def boldNode (origin : Option Int) : Blueprint :=
  { typeName := "BoldNode", kind := customKindMin
    form := .custom { label := some (.ofString "bold") }, origin := origin }

/-! ## Rendering -/

/-- A code point of HTML text. -/
def escapePoint (c : CodePoint) : Text :=
  if c == 0x26 then Text.ofChars ['&', 'a', 'm', 'p', ';']
  else if c == 0x3C then Text.ofChars ['&', 'l', 't', ';']
  else if c == 0x3E then Text.ofChars ['&', 'g', 't', ';']
  else if c == 0x22 then Text.ofChars ['&', 'q', 'u', 'o', 't', ';']
  else if c == 0x27 then Text.ofChars ['&', '#', 'x', '2', '7', ';']
  else [c]

/-- A text as HTML text. -/
def escape (t : Text) : Text := t.flatMap escapePoint

/-- The start of bold text in HTML. -/
def strongStart : Text := Text.ofChars ['<', 's', 't', 'r', 'o', 'n', 'g', '>']

/-- The end of bold text in HTML. -/
def strongEnd : Text := Text.ofChars ['<', '/', 's', 't', 'r', 'o', 'n', 'g', '>']

/-- A node as HTML, a bounded number of levels down.  What is not text is bold. -/
def renderNode (f : Forest) : Nat → Handle → Text
  | 0, _ => []
  | n + 1, h =>
      match (f.node h).content? with
      | some c => escape c
      | none => strongStart ++ (f.children h).flatMap (renderNode f n) ++ strongEnd

/-- What is below a root, as HTML. -/
def render (f : Forest) (root : Handle) : Text :=
  (f.children root).flatMap (renderNode f (f.size + 1))

/-! ## The grammar -/

/-- Switch to one of the two statuses. -/
def setStatus {σ : Type} (n : Int) : Hook σ Bool := do
  if n = inText then
    Hook.assign (.needles [openMark])
    Hook.assign (.status n)
    return true
  else if n = inBold then
    Hook.assign (.needles [closeMark])
    Hook.assign (.status n)
    return true
  else return false

/-- Open a bold node at an opening mark and close it at a closing mark. -/
def handleStatus {σ : Type} (needle : Text) : Hook σ Bool := do
  if needle = openMark then
    let h ← Hook.edit (.create (boldNode (some (← Hook.look).cursor)))
    let _ ← Hook.push (.node h)
    Hook.setStatus inBold
    return true
  else
    let _ ← Hook.pop
    Hook.setStatus inText
    return true

/-- Make the HTML of the tree the output. -/
def outputTree {σ : Type} : Hook σ Bool := do
  let view ← Hook.look
  match view.root with
  | none => .raise (.noMember Value.null.typeName "children")
  | some root =>
      let html ← Hook.postfilter (render view.forest root)
      Hook.assign (.output (.text html))
      return true

/-- The grammar that hands out the tree. -/
def treeGrammar (σ : Type) : Grammar σ :=
  { Grammar.plain σ with setStatus := setStatus, handleStatus := fun _ => handleStatus }

/-- The grammar that renders HTML. -/
def grammar (σ : Type) : Grammar σ := { treeGrammar σ with outputTree := outputTree }

/-! ## The demonstration -/

/-- The number of rounds that a scan may take.  A round without recovery uses up a
mark, and a recovery uses up an opening mark for good, so the length of the text
bounds both. -/
def rounds (t : Text) : Nat := 2 * t.length + 2

/-- Parse a text, with a new engine and the forest of a world. -/
def parseIn (g : Grammar Unit) (e : Engine) (t : Text) (f : Forest) :
    Option Report × World Unit :=
  match Engine.parse g (rounds t) (.text t) none { forest := f, engine := e, memory := () } with
  | .ok r w => (some r, w)
  | .error _ w => (none, w)

/-- The line of a diagnostic. -/
def diagnosticLine (d : Diagnostic) : Text :=
  Text.cat ["  ", d.severity.name, ": ", d.message, " (offset ", d.offset.plain, ")\n"]

/-- The lines of one rendered text. -/
def renderLines (t : Text) (r : Report) : Text :=
  Text.cat [t.quoted, " -> ", r.output.quoted, "\n"] ++ r.diagnostics.flatMap diagnosticLine

/-- The filters of the demonstration: line ends become line feeds in the input and
line breaks in the output. -/
def demoFilters : Pipeline :=
  { pre := [⟨"<lambda>", fun t => .ok (.text (t.replaceAll [0x0D, 0x0A] [0x0A]))⟩]
    post := [⟨"<lambda>", fun t => .ok (.text (t.replaceAll [0x0A] (Text.ofString "<br>\n")))⟩] }

/-- Render texts one after the other with one engine. -/
def renderAll : List Text → Engine → Forest → Text × Forest
  | [], _, f => ([], f)
  | t :: rest, e, f =>
      let (r, w) := parseIn (grammar Unit) e t f
      let (more, f) := renderAll rest w.engine w.forest
      (renderLines t (r.getD {}) ++ more, f)

/-- The first part: balanced and unbalanced markup, rendered. -/
def renderExample (f : Forest) : Text × Forest :=
  let engine := { Engine.make .lenient none with filters := demoFilters }
  let (lines, f) := renderAll ["Hello [b]world[/b]!", "Unclosed [b]tag & more"] engine f
  (Text.cat ["=== Example 1: Rendering ===\n", lines, "\n"], f)

/-- The second part: the tree instead of HTML. -/
def treeExample (f : Forest) : Text × Forest :=
  let (r, w) := parseIn (treeGrammar Unit) (.make .lenient none) "a [b]bold[/b] word" f
  let dump := match r.bind Report.tree with
    | some root => w.forest.dump root "  " "\n" 0
    | none => []
  (Text.cat ["=== Example 2: Tree Dump ===\n", dump, "\n"], w.forest)

/-- The third part: strict mode turns recovery into failure. -/
def strictExample (f : Forest) : Text × Forest :=
  let (r, w) := parseIn (grammar Unit) (.make .strictMode none) "Unclosed [b]tag" f
  let report := r.getD {}
  let error : Text := match report.error with
    | some e => Text.cat [e.kind.name, ": ", e.message]
    | none => "NoneType: None"
  (Text.cat ["=== Example 3: Strict Mode ===\n", "success=", (Value.bool report.success).quoted,
    " error=", error, "\n\n"], w.forest)

/-- The text that the demonstration prints. -/
def demonstration : Text :=
  let (first, f) := renderExample {}
  let (second, f) := treeExample f
  let (third, _) := strictExample f
  first ++ second ++ third

end Needlework.Bold
