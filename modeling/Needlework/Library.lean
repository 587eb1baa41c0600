import Needlework.Diagnostic
import Needlework.Filter
import Needlework.Forest.Basic

/-!
# About the library

What the library tells about itself: its version, the names under which its parts
are known to users, and the numbers behind its constants.
-/

namespace Needlework.Library

/-- The version. -/
def version : Text := "0.1.0"

/-- The names of the public parts, sorted. -/
def names : List Text :=
  ["CUSTOM_KIND_MIN", "FilterType", "Grammar", "HookFailure", "MalformedTreeOperation", "Node",
   "NodeKind", "ParseEngine", "ParseResult", "ParserConfig", "RecoveryImpossible",
   "ReentrancyError", "RootNode", "StrictModeViolation", "StringParserError", "TextNode",
   "__author__", "__version__"]

/-- The kinds reserved for the core. -/
def kinds : List (Text × Int) :=
  [("UNKNOWN", unknownKind), ("ROOT", rootKind), ("TEXT", textKind)]

/-- The severities and their numbers. -/
def severities : List (Text × Nat) := Severity.all.map fun s => (s.name, s.rank)

/-- The filter kinds and their values. -/
def filterKinds : List (Text × Text) :=
  [("PRE", FilterKind.pre.value), ("POST", FilterKind.post.value)]

end Needlework.Library
