import Needlework.Text.Basic

/-!
# Blanks

The blanks are the code points with the Unicode property White_Space and the
four information separators `1C` to `1F`.  A description of a text node shows
its content on one line, so every run of blanks in it is written as one space
(`Text.collapse`).
-/

namespace Needlework.Text

/-- Whether a code point is a blank. -/
def isBlank (c : CodePoint) : Bool :=
  (0x09 ≤ c && c ≤ 0x0D) || (0x1C ≤ c && c ≤ 0x20) || c == 0x85 || c == 0xA0 || c == 0x1680
    || (0x2000 ≤ c && c ≤ 0x200A) || c == 0x2028 || c == 0x2029 || c == 0x202F || c == 0x205F
    || c == 0x3000

/-- Collapse the runs of blanks.  The flag says that the last code point read was
a blank, so that its run is already written. -/
def collapseFrom : Bool → Text → Text
  | _, [] => []
  | inRun, c :: r =>
      if isBlank c then
        if inRun then collapseFrom true r else 0x20 :: collapseFrom true r
      else c :: collapseFrom false r

/-- Every run of blanks becomes one space. -/
def collapse (t : Text) : Text := collapseFrom false t

example : collapse [0x61, 0x0A, 0x2028, 0x62, 0x20] = [0x61, 0x20, 0x62, 0x20] := by decide

end Needlework.Text
