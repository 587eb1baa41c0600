import Needlework.Engine.Tools

/-!
# The scan

The scan goes in rounds.  A round looks for the earliest needle at or after the
cursor.

* If there is one, the text before it is appended, the cursor moves to it and the
  grammar decides.  When the grammar accepts, the cursor moves behind the needle,
  unless a recovery has moved it.  When the grammar rejects, strict mode fails,
  and lenient mode keeps one code point as text and moves on by one.
* If there is none and the status is zero, the scan is over and the rest of the
  text is appended.
* If there is none and a construct is open, strict mode fails, and lenient mode
  recovers.

A recovery moves the cursor back, and a grammar may do so too, so no quantity that
is at hand bounds the number of rounds for every grammar.  `scan` takes the number
of rounds that it may use.  Running out of rounds is a fault of its own, which no
parse reports as an error of the text.

*Status switches.*  A grammar may switch the status while it switches the status.
`switch` takes the number of such switches that may be nested.
-/

namespace Needlework

namespace Engine

variable {σ α : Type}

open Act

/-! ## Calling hooks -/

/-- How deeply status switches may be nested. -/
def nestingLimit : Nat := 1000

/-- Switch the status through the grammar, which must accept it. -/
def switch (g : Grammar σ) (start : Input → Option Text → Act σ Report) : Nat → Int → Act σ Unit
  | 0, _ => throw .nestedTooDeeply
  | n + 1, status => do
      if !(← (g.setStatus status).run (perform (switch g start n) start)) then
        throw (.statusRejected status)

/-- Refuse a parse while another one runs. -/
def refuseParse : Act σ Report := do
  log .warning "Rejected reentrant parse call" []
  let e ← engine
  let report : Report :=
    { success := false, error := some .reentrant, correlation := e.correlation }
  if e.config.enableDiagnostics.truthy then
    ofExcept (report.add .error Fault.reentrant.message component .null .null)
  else return report

/-- Run a hook inside a parse, where no other parse can start. -/
def callHook (g : Grammar σ) (h : Hook σ α) : Act σ α :=
  h.run (perform (switch g (fun _ _ => refuseParse) nestingLimit) fun _ _ => refuseParse)

/-- Switch the status inside a parse. -/
def switchStatus (g : Grammar σ) (status : Int) : Act σ Unit :=
  switch g (fun _ _ => refuseParse) nestingLimit status

/-! ## Rounds -/

/-- Keep the first code point of a rejected needle as text. -/
def downgrade (needle : Text) : Act σ Unit := do
  let e ← engine
  log .debug "Grammar rejected construct; treating first character as text"
    [("needle", .text needle), ("offset", .int e.cursor)]
  modifyEngine (count fun m => { m with downgrades := m.downgrades + 1 })
  diagnose .warning
    (Text.cat ["Construct ", needle.quoted, " not recognised; kept as literal text"])
    (.int e.cursor) .null
  match e.text.at? e.cursor with
  | none => throw (.outside .text e.cursor)
  | some c => appendText [c] none
  modifyEngine fun e => { e with cursor := e.cursor + 1 }

/-- Append the text before a needle and move to its position.  The result is the
status in which it was found. -/
def approach (position : Nat) : Act σ Int := do
  let e ← engine
  appendText (e.text.between e.cursor position) none
  modifyEngine fun e => count (fun m => { m with needles := m.needles + 1 })
    { e with cursor := position }
  return e.status

/-- Move behind an accepted needle, unless a recovery has moved the cursor. -/
def accept (needle : Text) : Act σ Unit := do
  if !(← engine).rewound then modifyEngine fun e => { e with cursor := e.cursor + needle.length }

/-- Fail because of a rejected needle, or keep it as text. -/
def reject (needle : Text) (position : Nat) : Act σ Unit := do
  let e ← engine
  if e.isStrict then throw (.strict (.rejected needle position e.status))
  downgrade needle

/-- Deal with a needle found at a position. -/
def handleNeedle (g : Grammar σ) (needle : Text) (position : Nat) : Act σ Unit := do
  let status ← approach position
  if ← callHook g (g.handleStatus status needle) then accept needle
  else reject needle position

/-- Begin a round: no recovery has moved the cursor yet. -/
def beginRound : Act σ Engine := do
  modifyEngine fun e => { e with rewound := false }
  engine

/-- One round.  The result says whether there is another. -/
def round (g : Grammar σ) : Act σ Bool := do
  let e ← beginRound
  match Text.findNeedle? e.needles e.text e.cursor with
  | some (needle, position) =>
      handleNeedle g needle position
      return true
  | none =>
      if e.status = 0 then return false
      if e.isStrict then throw (.strict (.unterminated e.status e.openCount))
      recover (switchStatus g)
      return true

/-- Append what is left of the text. -/
def appendRest : Act σ Unit := do
  let e ← engine
  if e.cursor < e.text.length then
    appendText (e.text.dropFrom e.cursor) none
    modifyEngine fun e => { e with cursor := e.text.length }

/-- Scan the text, in at most the given number of rounds. -/
def scan (g : Grammar σ) : Nat → Act σ Unit
  | 0 => throw .outOfRounds
  | n + 1 => do
      if ← round g then scan g n else appendRest

end Engine

end Needlework
