import Needlework.Filter

/-!
# Ready-made filters

A scripted session builds its filters from these.  All but the last two take a
text to a text.  `const` returns a fixed value, which need not be a text, and
`raise` fails.
-/

namespace Needlework.Script.Filters

/-- A filter that takes texts to texts. -/
def ofFunction (name : Text) (change : Text → Text) : Filter :=
  { name := name, run := fun t => .ok (.text (change t)) }

/-- Append a text. -/
def append (s : Text) : Filter := ofFunction "append" (· ++ s)

/-- Put a text in front. -/
def prepend (s : Text) : Filter := ofFunction "prepend" (s ++ ·)

/-- Replace every occurrence of a text. -/
def replace (old new : Text) : Filter := ofFunction "replace" (Text.replaceAll · old new)

/-- Write the text twice. -/
def double : Filter := ofFunction "double" fun t => t ++ t

/-- Reverse the code points. -/
def reverse : Filter := ofFunction "reverse" List.reverse

/-- Keep the first code points, or all but the last ones for a negative count. -/
def take (n : Int) : Filter :=
  ofFunction "take" fun t => t.take (t.start n)

/-- Return a fixed value. -/
def const (v : Value) : Filter := { name := "const", run := fun _ => .ok v }

/-- Fail. -/
def raise (f : Fault) : Filter := { name := "raise", run := fun _ => .error f }

end Needlework.Script.Filters
