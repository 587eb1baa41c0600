import Needlework.Text.Decoding
import Needlework.Value.Arithmetic

/-!
# Faults

A fault is the cause for which an operation does not do its work.  Each cause is
a constructor with the data that it is about.  What is shown of a fault is read
off the cause: its kind, its wording, its details, the hook it came from and the
kind of the fault that it wraps.

*Kinds.*  The kinds fall into three groups.  Parse faults are what a parse may
report about itself.  The others, which a grammar or a filter raises or which an
operation on a bad argument raises, reach the caller of a parse wrapped in a
parse fault.  An interrupt and a scan that ran out of rounds are never wrapped:
they leave the parse (`Fault.passesThrough`).

*Wrapping.*  `unexpected` wraps what a parse did not foresee, `teardownFailed`
what went wrong while a tree was taken down.
-/

namespace Needlework

/-- The kinds of faults. -/
inductive FaultKind where
  /-- A parse fault of no closer kind. -/
  | parser
  /-- A parse was started inside another on the same engine. -/
  | reentrancy
  /-- Strict mode met what lenient mode would repair. -/
  | strictMode
  /-- An edit would break the forest. -/
  | malformedTree
  /-- An open construct cannot be read again as text. -/
  | recoveryImpossible
  /-- A hook reported failure or raised something else. -/
  | hookFailure
  /-- The input bytes do not decode. -/
  | inputDecode
  /-- A tree breaks its invariants. -/
  | treeInvariant
  /-- An argument of the right type with a wrong value. -/
  | value
  /-- A missing key. -/
  | key
  /-- Something went wrong at run time. -/
  | runtime
  /-- An argument of a wrong type. -/
  | type
  /-- An index outside its range. -/
  | index
  /-- A missing member. -/
  | member
  /-- Bytes that an encoding does not decode. -/
  | unicodeDecode
  /-- A name that is not known. -/
  | lookup
  /-- A number too large for its type. -/
  | overflow
  /-- A division by zero. -/
  | zeroDivision
  /-- A result for which there is no room. -/
  | memory
  /-- Calls nested too deeply. -/
  | recursion
  /-- The user stopped the program. -/
  | interrupt
  /-- A scan ran out of rounds. -/
  | stalled
deriving DecidableEq, Repr

namespace FaultKind

/-- The name under which a kind is reported. -/
def name : FaultKind → Text
  | .parser => "StringParserError"
  | .reentrancy => "ReentrancyError"
  | .strictMode => "StrictModeViolation"
  | .malformedTree => "MalformedTreeOperation"
  | .recoveryImpossible => "RecoveryImpossible"
  | .hookFailure => "HookFailure"
  | .inputDecode => "InputDecodeError"
  | .treeInvariant => "TreeInvariantError"
  | .value => "ValueError"
  | .key => "KeyError"
  | .runtime => "RuntimeError"
  | .type => "TypeError"
  | .index => "IndexError"
  | .member => "AttributeError"
  | .unicodeDecode => "UnicodeDecodeError"
  | .lookup => "LookupError"
  | .overflow => "OverflowError"
  | .zeroDivision => "ZeroDivisionError"
  | .memory => "MemoryError"
  | .recursion => "RecursionError"
  | .interrupt => "KeyboardInterrupt"
  | .stalled => "ScanStalled"

/-- The kinds that a grammar or a filter may raise. -/
def raisable : List FaultKind :=
  [.parser, .reentrancy, .strictMode, .malformedTree, .recoveryImpossible, .hookFailure,
   .inputDecode, .treeInvariant, .value, .key, .runtime, .type, .interrupt]

/-- The kind of a name, among those that can be raised. -/
def ofName? (t : Text) : Option FaultKind := raisable.find? fun k => k.name == t

/-- Whether a fault of this kind is a parse fault. -/
def isParseFault : FaultKind → Bool
  | .parser | .reentrancy | .strictMode | .malformedTree | .recoveryImpossible | .hookFailure
  | .inputDecode | .treeInvariant => true
  | _ => false

/-- Whether a fault of this kind leaves a parse as it is. -/
def passesThrough : FaultKind → Bool
  | .interrupt | .stalled => true
  | _ => false

end FaultKind

/-- The hooks of a grammar. -/
inductive HookName where
  /-- Prepare a parse. -/
  | init
  /-- Switch the status. -/
  | setStatus
  /-- React to a needle. -/
  | handleStatus
  /-- Deal with what is open at the end. -/
  | closeRemainingBlocks
  /-- Change the finished tree. -/
  | modifyTree
  /-- Build the output. -/
  | outputTree
deriving DecidableEq, Repr

/-- The name under which a hook is reported. -/
def HookName.name : HookName → Text
  | .init => "init"
  | .setStatus => "set_status"
  | .handleStatus => "handle_status"
  | .closeRemainingBlocks => "close_remaining_blocks"
  | .modifyTree => "modify_tree"
  | .outputTree => "output_tree"

/-! ## Causes -/

/-- Why an edit of the forest is refused. -/
inductive EditFault where
  /-- The child is not a node. -/
  | childNotANode
  /-- The reference is not a node. -/
  | referenceNotANode
  /-- The child to remove is neither a node nor an index. -/
  | neitherNodeNorIndex
  /-- A root would become a child. -/
  | rootAsChild (node : Int)
  /-- The node has been destroyed. -/
  | destroyed (node : Int)
  /-- The node would become its own descendant. -/
  | belowItself (node parent : Int)
  /-- The node is its own reference. -/
  | besideItself
  /-- The node is not a child of the parent. -/
  | notAChild (child parent : Int)
  /-- The parent has no child at the index. -/
  | noSuchChild (index parent count : Int)
  /-- The child records another parent. -/
  | otherParent (child parent : Int)
  /-- The kind is reserved for the core. -/
  | reservedKind (kind : Int)
deriving DecidableEq, Repr

/-- Why an operation on the open nodes is refused. -/
inductive StackFault where
  /-- There is no open node to attach to. -/
  | nothingToAttachTo
  /-- There is no open node for text. -/
  | nothingForText
  /-- Only the root is open. -/
  | rootStays
deriving DecidableEq, Repr

/-- Why a recovery is impossible. -/
inductive RecoveryFault where
  /-- No construct is open. -/
  | nothingOpen (depth : Nat)
  /-- The limit on recoveries is reached. -/
  | limitReached (limit : Value)
  /-- The open node has no parent. -/
  | notAttached (node : Int)
  /-- The open node has no origin inside the text. -/
  | unknownOrigin (node : Int) (origin : Option Int)

/-- What strict mode does not repair. -/
inductive StrictFault where
  /-- Constructs are open after the scan. -/
  | openAtEnd (count : Int)
  /-- The text ends inside a construct. -/
  | unterminated (status count : Int)
  /-- The grammar rejected a needle. -/
  | rejected (needle : Text) (offset : Nat) (status : Int)
deriving DecidableEq, Repr

/-- Why a diagnostic is refused. -/
inductive DiagnosticFault where
  /-- It has no message. -/
  | noMessage
  /-- It has no component. -/
  | noComponent
  /-- Its offset is negative. -/
  | negativeOffset
deriving DecidableEq, Repr

/-- What an index goes into. -/
inductive Indexed where
  /-- The code points of a text. -/
  | text
  /-- The children of a node, or the nodes put aside. -/
  | nodes
  /-- The trees of a session. -/
  | trees
deriving DecidableEq, Repr

/-- The name of what an index goes into. -/
def Indexed.name : Indexed → Text
  | .text => "string"
  | .nodes => "tuple"
  | .trees => "list"

/-- Why an operation failed. -/
inductive Fault where
  /-- Raised by a grammar or a filter. -/
  | raised (kind : FaultKind) (message : Text) (details : Fields)
  /-- An edit was refused. -/
  | edit (cause : EditFault)
  /-- An operation on the open nodes was refused. -/
  | stack (cause : StackFault)
  /-- A recovery is impossible. -/
  | recovery (cause : RecoveryFault)
  /-- Strict mode does not repair. -/
  | strict (cause : StrictFault)
  /-- A diagnostic was refused. -/
  | diagnostic (cause : DiagnosticFault)
  /-- A hook reported failure. -/
  | hookReported (hook : HookName)
  /-- The grammar rejected a status. -/
  | statusRejected (status : Int)
  /-- The input does not decode. -/
  | undecodable (encoding : Text) (flaw : Flaw)
  /-- The encoding is not known. -/
  | unknownEncoding (encoding : Text)
  /-- The name of the encoding is not a text. -/
  | encodingNotText (typeName : Text)
  /-- The name of the encoding has a null character in it. -/
  | nullInEncoding
  /-- The input is neither text nor bytes. -/
  | notInput (typeName : Text)
  /-- A parse is already running. -/
  | reentrant
  /-- The violations of a tree. -/
  | brokenTree (violations : List Text)
  /-- The teardown of a node failed. -/
  | exploded (name : Value)
  /-- There is nothing at an index. -/
  | outside (sequence : Indexed) (index : Int)
  /-- An index is no integer. -/
  | notAnIndex (sequence : Indexed) (typeName : Text)
  /-- Arithmetic on values fails. -/
  | arithmetic (cause : ArithmeticFault)
  /-- There is no open node to drop. -/
  | emptyStack
  /-- A value does not compare with a number. -/
  | incomparable (typeName : Text)
  /-- A number does not compare with a value. -/
  | incomparableTo (typeName : Text)
  /-- A value does not convert to an integer. -/
  | notConvertible (typeName : Text)
  /-- An infinite number is no integer. -/
  | infiniteInteger
  /-- What is not a number is no integer. -/
  | nanInteger
  /-- A text does not denote an integer. -/
  | notAnInteger (text : Text)
  /-- A numeral has too many digits. -/
  | numeralTooLong (digits : Nat)
  /-- There are no names to choose from. -/
  | noNames
  /-- A filter cannot be called. -/
  | notCallable
  /-- A filter kind is not known. -/
  | unknownFilterKind (kind : Value)
  /-- A key is missing. -/
  | missingKey (key : Value)
  /-- A value cannot be a key. -/
  | unhashable (typeName : Text)
  /-- A value has no such member. -/
  | noMember (typeName member : Text)
  /-- Status switches are nested too deeply. -/
  | nestedTooDeeply
  /-- The scan ran out of rounds. -/
  | outOfRounds
  /-- A fault that a parse did not foresee. -/
  | unexpected (cause : Fault)
  /-- A fault while a tree was taken down. -/
  | teardownFailed (cause : Fault)

/-! ## What is shown -/

/-- The kind of an arithmetic fault. -/
def ArithmeticFault.kind : ArithmeticFault → FaultKind
  | .notACount _ | .noProduct _ _ | .noSum _ _ | .notJoinable _ _ => .type
  | .notAWord | .tooLargeForDouble | .tooLong => .overflow
  | .noRoom => .memory
  | .tooManyDigits => .value

namespace EditFault

/-- The kind of a refused edit. -/
def kind : EditFault → FaultKind
  | .childNotANode | .referenceNotANode | .neitherNodeNorIndex => .type
  | .reservedKind _ => .value
  | _ => .malformedTree

/-- The wording of a refused edit. -/
def message : EditFault → Text
  | .childNotANode => "Child must be a Node instance"
  | .referenceNotANode => "Reference must be a Node instance"
  | .neitherNodeNorIndex => "Child must be a Node instance or an index"
  | .rootAsChild _ => "Root nodes cannot be children of other nodes"
  | .destroyed n => Text.cat ["Node ", Text.ofInt n, " has been destroyed"]
  | .belowItself n _ => Text.cat ["Node ", Text.ofInt n, " cannot become a descendant of itself"]
  | .besideItself => "A node cannot be inserted relative to itself"
  | .notAChild c p =>
      Text.cat ["Node ", Text.ofInt c, " is not a child of node ", Text.ofInt p]
  | .noSuchChild i _ _ => Text.cat ["Child index ", Text.ofInt i, " out of range"]
  | .otherParent c p =>
      Text.cat ["Node ", Text.ofInt c, " does not record ", Text.ofInt p, " as its parent"]
  | .reservedKind k =>
      Text.cat ["Node kind ", Text.ofInt k, " is reserved; custom kinds must be >= 32"]

/-- The details of a refused edit. -/
def details : EditFault → Fields
  | .rootAsChild n => [("node_id", .int n)]
  | .destroyed n => [("node_id", .int n)]
  | .belowItself n p => [("node_id", .int n), ("parent_id", .int p)]
  | .notAChild c p => [("parent_id", .int p), ("child_id", .int c)]
  | .noSuchChild _ p n => [("parent_id", .int p), ("child_count", .int n)]
  | .otherParent c p => [("parent_id", .int p), ("child_id", .int c)]
  | _ => []

end EditFault

/-- The wording of a refused operation on the open nodes. -/
def StackFault.message : StackFault → Text
  | .nothingToAttachTo => "No open node to attach to"
  | .nothingForText => "No open node to receive text"
  | .rootStays => "Cannot pop the root node off the stack"

namespace RecoveryFault

/-- The wording of an impossible recovery. -/
def message : RecoveryFault → Text
  | .nothingOpen _ => "No open construct to reparse"
  | .limitReached limit => Text.cat ["Recovery limit of ", limit.plain, " reached"]
  | .notAttached n => Text.cat ["Open node ", Text.ofInt n, " is not attached to the tree"]
  | .unknownOrigin n _ => Text.cat ["Origin of open node ", Text.ofInt n, " is unknown"]

/-- The details of an impossible recovery. -/
def details : RecoveryFault → Fields
  | .nothingOpen depth => [("stack_depth", .int depth)]
  | .limitReached limit => [("max_recoveries", limit)]
  | .notAttached n => [("node_id", .int n)]
  | .unknownOrigin n at? => [("node_id", .int n), ("occurred_at", Value.ofInt? at?)]

end RecoveryFault

namespace StrictFault

/-- The wording of a violation of strict mode. -/
def message : StrictFault → Text
  | .openAtEnd _ => "Constructs left open at end of input"
  | .unterminated _ _ => "Input ended inside an unterminated construct"
  | .rejected needle offset _ => Text.cat ["Construct ", needle.quoted, " at offset ",
      Text.ofNat offset, " was rejected by the grammar"]

/-- The details of a violation of strict mode. -/
def details : StrictFault → Fields
  | .openAtEnd n => [("open_nodes", .int n)]
  | .unterminated status n => [("status", .int status), ("open_nodes", .int n)]
  | .rejected _ offset status => [("status", .int status), ("offset", .int offset)]

end StrictFault

/-- The wording of a refused diagnostic. -/
def DiagnosticFault.message : DiagnosticFault → Text
  | .noMessage => "Diagnostic message cannot be empty"
  | .noComponent => "Diagnostic component cannot be empty"
  | .negativeOffset => "Diagnostic offset must be >= 0"

namespace Fault

/-- The kind of a fault. -/
def kind : Fault → FaultKind
  | .raised k _ _ => k
  | .edit c => c.kind
  | .stack _ => .malformedTree
  | .recovery _ => .recoveryImpossible
  | .strict _ => .strictMode
  | .diagnostic _ => .value
  | .hookReported _ => .hookFailure
  | .statusRejected _ => .hookFailure
  | .undecodable _ _ => .inputDecode
  | .unknownEncoding _ => .inputDecode
  | .encodingNotText _ => .type
  | .nullInEncoding => .value
  | .notInput _ => .type
  | .reentrant => .reentrancy
  | .brokenTree _ => .treeInvariant
  | .exploded _ => .runtime
  | .outside _ _ => .index
  | .notAnIndex _ _ => .type
  | .arithmetic c => c.kind
  | .emptyStack => .index
  | .incomparable _ => .type
  | .incomparableTo _ => .type
  | .notConvertible _ => .type
  | .infiniteInteger => .overflow
  | .nanInteger => .value
  | .notAnInteger _ => .value
  | .numeralTooLong _ => .value
  | .noNames => .zeroDivision
  | .notCallable => .type
  | .unknownFilterKind _ => .value
  | .missingKey _ => .key
  | .unhashable _ => .type
  | .noMember _ _ => .member
  | .nestedTooDeeply => .recursion
  | .outOfRounds => .stalled
  | .unexpected _ => .hookFailure
  | .teardownFailed _ => .hookFailure

/-- The length to which the wording cuts a quotation that may be long. -/
def quotationLength : Nat := 200

/-- The wording of a fault.  A key that was raised as missing is shown quoted. -/
def message : Fault → Text
  | .raised k m _ => if k = .key then m.quoted else m
  | .edit c => c.message
  | .stack c => c.message
  | .recovery c => c.message
  | .strict c => c.message
  | .diagnostic c => c.message
  | .hookReported h => Text.cat ["Grammar hook ", h.name, " reported failure"]
  | .statusRejected n => Text.cat ["Grammar rejected status ", Text.ofInt n]
  | .undecodable e f => Text.cat ["Cannot decode input as ", e, ": ", f.message]
  | .unknownEncoding e => Text.cat ["Cannot decode input as ", e, ": unknown encoding: ", e]
  | .encodingNotText t => Text.cat ["decode() argument 'encoding' must be str, not ", t]
  | .nullInEncoding => "embedded null character"
  | .notInput t => Text.cat ["parse() expects str or bytes, got ", t]
  | .reentrant => "parse() called while this engine is already parsing"
  | .brokenTree vs => Text.cat ["Tree invariants violated: ", Text.joinWith "; " vs]
  | .exploded name => Text.cat ["teardown of ", name.plain, " exploded"]
  | .outside s i =>
      if isWord i then Text.cat [s.name, " index out of range"] else ArithmeticFault.notAWord.message
  | .notAnIndex s t => Text.cat [s.name, " indices must be integers or slices, not ", t]
  | .arithmetic c => c.message
  | .emptyStack => "pop from empty list"
  | .incomparable t =>
      Text.cat ["'<' not supported between instances of ", t.quoted, " and 'int'"]
  | .incomparableTo t =>
      Text.cat ["'<' not supported between instances of 'int' and ", t.quoted]
  | .notConvertible t => Text.cat ["int() argument must be a string, a bytes-like object ",
      "or a real number, not ", t.quoted]
  | .infiniteInteger => "cannot convert float infinity to integer"
  | .nanInteger => "cannot convert float NaN to integer"
  | .notAnInteger t =>
      Text.cat ["invalid literal for int() with base 10: ", t.quoted.take quotationLength]
  | .numeralTooLong n => Text.tooLongMessage n
  | .noNames => "integer modulo by zero"
  | .notCallable => "Filter callback must be callable"
  | .unknownFilterKind k => Text.cat ["Unknown filter type: ", k.quoted]
  | .missingKey k => k.quoted
  | .unhashable t => Text.cat ["unhashable type: ", t.quoted]
  | .noMember t a => Text.cat [t.quoted, " object has no attribute ", a.quoted]
  | .nestedTooDeeply => "maximum recursion depth exceeded"
  | .outOfRounds => "scan ran out of rounds"
  | .unexpected c => Text.cat ["Unexpected error during parse: ", c.message]
  | .teardownFailed c => Text.cat ["Node teardown failed: ", c.message]

/-- The details of a fault. -/
def details : Fault → Fields
  | .raised _ _ d => d
  | .edit c => c.details
  | .recovery c => c.details
  | .strict c => c.details
  | .statusRejected n => [("status", .int n)]
  | .undecodable e _ => [("encoding", .text e)]
  | .unknownEncoding e => [("encoding", .text e)]
  | .brokenTree vs => [("violations", .list (vs.map .text))]
  | .unexpected c => [("exception_type", .text c.kind.name)]
  | .teardownFailed c => [("exception_type", .text c.kind.name)]
  | _ => []

/-- The hook that a fault came from. -/
def hook? : Fault → Option Text
  | .hookReported h => some h.name
  | .statusRejected _ => some HookName.setStatus.name
  | .teardownFailed _ => some "_teardown"
  | _ => none

/-- The kind of the fault that a fault wraps. -/
def cause? : Fault → Option FaultKind
  | .undecodable _ _ => some .unicodeDecode
  | .unknownEncoding _ => some .lookup
  | .unexpected c => some c.kind
  | .teardownFailed c => some c.kind
  | _ => none

/-- Whether a fault is a parse fault. -/
def isParseFault (f : Fault) : Bool := f.kind.isParseFault

/-- Whether a fault leaves a parse as it is. -/
def passesThrough (f : Fault) : Bool := f.kind.passesThrough

end Fault

end Needlework
