/-
CilProbe/Error.lean

Everything that can go wrong, as causes.  An `Error` says which operation
failed and why; where many causes share one heading (`malformed`,
`unsupportedShape`, `rejected`, `invalidRule`) the cause is an inductive type
of its own.  `Error.message` is the single place where wording is decided.

Two classes of errors matter to the engine: a *decline* leaves a method alone
on purpose, a *fatal* error keeps the engine from attaching at all.
-/
import CilProbe.Token

namespace CilProbe

/-! ### Malformed data -/

/-- Why bytes, code or signatures cannot be read or written. -/
inductive Defect where
  /-- A number above the largest compressed integer. -/
  | compressedTooLarge (value : Nat)
  /-- A byte that starts no compressed integer. -/
  | compressedLead (byte : UInt8)
  /-- A coded token whose tag names no type table. -/
  | codedTokenTag (value : Nat)
  /-- An instruction that starts beyond the 32-bit positions. -/
  | positionTooLarge
  /-- A code that is no instruction. -/
  | invalidOpcode (code : UInt16) (offset : UInt32)
  /-- A jump table longer than the rest of the code. -/
  | switchTooLong (offset : UInt32) (cases : Nat)
  /-- A branch that leaves the 32-bit positions. -/
  | targetOutOfRange (target : Int)
  /-- A method body without a single byte. -/
  | noBodyBytes
  /-- A fat header that claims fewer than twelve bytes. -/
  | fatHeaderTooSmall (size : Nat)
  /-- A first byte that announces neither header form. -/
  | unknownHeader (first : UInt8)
  /-- A data section too short for its own header or too long for the data. -/
  | sectionSize (size start : Nat)
  /-- Code longer than a body header can say. -/
  | codeTooLong (size : Nat)
  /-- More clauses than a section can hold. -/
  | tooManyClauses (count : Nat)
  /-- A branch to a position where no instruction starts. -/
  | targetNotInstruction (source target : UInt32)
  /-- A position where no instruction starts and the code does not end. -/
  | notBoundary (offset : UInt32)
  /-- A node that was never added. -/
  | unknownNode (node : Nat)
  /-- A label on a node that is not part of the code. -/
  | labelUnplaced (label : Nat)
  /-- A label that was never bound. -/
  | labelUnbound (label : Nat)
  /-- Code that grew beyond the 32-bit positions. -/
  | layoutTooLarge
  /-- A branch without a label to go to. -/
  | branchWithoutLabel (opcode : String)
  /-- A displacement that does not fit the long branch form. -/
  | branchTooFar (displacement : Int)
  /-- A displacement that does not fit the short branch form. -/
  | shortBranchTooFar (displacement : Int)
  /-- A displacement that does not fit a jump table. -/
  | switchTooFar (displacement : Int)
  /-- A type nested deeper than signatures may be. -/
  | nestingTooDeep (limit : Nat)
  /-- A generic instantiation of neither a class nor a value type. -/
  | genericKind (byte : UInt8)
  /-- A byte that starts no type. -/
  | elementType (byte : UInt8)
  /-- A token that no coded form can hold. -/
  | notTypeToken (token : Token)
  /-- A local signature where a method signature should be. -/
  | localSignatureFound
  /-- A local signature that does not start like one. -/
  | localsLead (byte : UInt8)
  /-- A local signature with no slot number left. -/
  | tooManyLocals (count : Nat)
  /-- A header whose local signature and the locals given disagree. -/
  | localsMismatch (token : Token)
  /-- Any other defect, in words. -/
  | other (text : String)
  deriving DecidableEq, Repr

/-- The wording of a defect. -/
def Defect.message : Defect → String
  | .compressedTooLarge value => s!"Value {Text.hex value} is too large for compressed encoding"
  | .compressedLead byte => s!"Invalid compressed uint - {byte.toNat}"
  | .codedTokenTag value => s!"Invalid coded token tag - {Text.hex value}"
  | .positionTooLarge => "Code offset exceeds u32 range"
  | .invalidOpcode code offset =>
    s!"Invalid opcode {Text.hexPaddedUpper 4 code.toNat} at {Text.position offset.toNat}"
  | .switchTooLong offset cases =>
    s!"Switch at {Text.position offset.toNat} declares {cases} cases"
  | .targetOutOfRange target => s!"Branch target {target} out of range"
  | .noBodyBytes => "Provided data for body parsing is empty"
  | .fatHeaderTooSmall size => s!"Fat header size {size} is too small"
  | .unknownHeader first => s!"MethodHeader is neither FAT nor TINY - {first.toNat}"
  | .sectionSize size start => s!"Invalid method data section size {size} at {start}"
  | .codeTooLong size => s!"Code size {size} exceeds u32"
  | .tooManyClauses count => s!"Too many exception clauses - {count}"
  | .targetNotInstruction source target =>
    s!"Branch at {Text.position source.toNat} targets {Text.position target.toNat}" ++
      ", which is not an instruction"
  | .notBoundary offset => s!"{Text.position offset.toNat} is not an instruction boundary"
  | .unknownNode node => s!"Unknown node {node}"
  | .labelUnplaced label => s!"Label {label} bound to unplaced node"
  | .labelUnbound label => s!"Label {label} is unbound"
  | .layoutTooLarge => "Code size exceeds u32 range"
  | .branchWithoutLabel opcode => s!"Branch {opcode} without a label operand"
  | .branchTooFar displacement => s!"Branch displacement {displacement} too large"
  | .shortBranchTooFar displacement => s!"Short branch displacement {displacement} out of range"
  | .switchTooFar displacement => s!"Switch displacement {displacement} too large"
  | .nestingTooDeep limit => s!"Signature nesting exceeds {limit}"
  | .genericKind byte => s!"Invalid generic instantiation kind - {Text.hex byte.toNat}"
  | .elementType byte => s!"Unknown element type - {Text.hex byte.toNat}"
  | .notTypeToken token =>
    s!"Token {token.display} of table {Text.hex token.table.toNat} is not TypeDefOrRef"
  | .localSignatureFound => "Expected a method signature, found a local signature"
  | .localsLead byte => s!"Invalid local signature lead byte - {Text.hex byte.toNat}"
  | .tooManyLocals count => s!"Too many locals - {count}"
  | .localsMismatch token =>
    s!"Local signature token {Text.hex token.value.toNat} does not match the supplied locals"
  | .other text => text

/-! ### Unsupported methods -/

/-- What makes a method one that is left alone. -/
inductive MethodShape where
  /-- There is no code to run. -/
  | emptyBody
  /-- A clause chooses by running code. -/
  | exceptionFilter
  /-- Control moves to another method for good. -/
  | jump
  /-- A call replaces the caller's frame. -/
  | tailCall
  /-- Stack memory is allocated. -/
  | localAllocation
  /-- The method constructs an instance. -/
  | instanceConstructor
  /-- The method returns a reference to a place. -/
  | byRefReturn
  /-- The method returns a type that depends on a generic parameter. -/
  | genericReturn
  /-- Any other shape, in words. -/
  | other (text : String)
  deriving DecidableEq, Repr

/-- The wording of a method shape. -/
def MethodShape.message : MethodShape → String
  | .emptyBody => "empty body"
  | .exceptionFilter => "exception filter"
  | .jump => "jmp"
  | .tailCall => "tail. prefixed call"
  | .localAllocation => "localloc"
  | .instanceConstructor => "instance constructor"
  | .byRefReturn => "by-ref return"
  | .genericReturn => "generic return"
  | .other text => text

/-! ### Rejected code -/

/-- What a check of a method body found wrong. -/
inductive Finding where
  /-- The body cannot be read, for the reason quoted. -/
  | unreadable (reason : String)
  /-- There is no code. -/
  | emptyCode
  /-- The last instruction lets control run on. -/
  | fallsOffEnd
  /-- A branch goes where no instruction starts. -/
  | strayTarget (target : UInt32)
  /-- A clause range starts or ends where no instruction starts. -/
  | clauseEdge (clause : Nat)
  /-- A clause protects or handles nothing. -/
  | clauseEmpty (clause : Nat)
  /-- A clause handles part of what it protects. -/
  | clauseOverlapsItself (clause : Nat)
  /-- An outer clause stands before an inner one. -/
  | clauseOrder (outer inner : Nat)
  /-- Two ranges overlap and neither holds the other. -/
  | clauseNesting (first second : Nat)
  /-- Control can reach a position where no instruction starts. -/
  | noInstruction (offset : UInt32)
  /-- A protected range is entered with values on the stack. -/
  | stackNotEmpty
  /-- An instruction takes more than there is. -/
  | underflow (opcode : String) (needs has : UInt16)
  /-- A return leaves values behind. -/
  | returnDepth (left : UInt16)
  /-- Two ways to one instruction disagree on the depth. -/
  | inconsistentDepth (target : UInt32) (existing found : UInt16)
  /-- A call has nothing to call. -/
  | callWithoutToken
  /-- A called member cannot be resolved, for the reason quoted. -/
  | unresolvedCall (token : Token) (reason : String)
  /-- The stack grows beyond what the header declares. -/
  | aboveMaxStack (depth declared : UInt16)
  /-- Any other finding, in words. -/
  | other (text : String)
  deriving DecidableEq, Repr

/-- The wording of a finding. -/
def Finding.message : Finding → String
  | .unreadable reason => reason
  | .emptyCode => "Empty code"
  | .fallsOffEnd => "Control falls off the end of the code"
  | .strayTarget target =>
    s!"Branch target {Text.position target.toNat} is not an instruction boundary"
  | .clauseEdge clause => s!"Exception clause {clause} edge is not an instruction boundary"
  | .clauseEmpty clause => s!"Exception clause {clause} is empty"
  | .clauseOverlapsItself clause =>
    s!"Exception clause {clause} handler overlaps its protected range"
  | .clauseOrder outer inner =>
    s!"Exception clause {outer} encloses clause {inner} but is listed first"
  | .clauseNesting first second =>
    s!"Exception ranges of clauses {first} and {second} are not properly nested"
  | .noInstruction offset => s!"{Text.position offset.toNat} is not an instruction"
  | .stackNotEmpty => "Protected region entered with a non-empty stack"
  | .underflow opcode needs has => s!"Stack underflow: {opcode} needs {needs.toNat}, has {has.toNat}"
  | .returnDepth left => s!"ret with {left.toNat} extra stack slots"
  | .inconsistentDepth target existing found =>
    s!"Inconsistent stack depth at {Text.position target.toNat}: {existing.toNat} vs {found.toNat}"
  | .callWithoutToken => "Call without a token operand"
  | .unresolvedCall token reason => s!"Cannot resolve call site {token.display}: {reason}"
  | .aboveMaxStack depth declared =>
    s!"Stack depth {depth.toNat} exceeds declared max_stack {declared.toNat}"
  | .other text => text

/-! ### Invalid rules -/

/-- Why an instrumentation rule cannot be used. -/
inductive RuleFlaw where
  /-- The rule does not say which integration it belongs to. -/
  | emptyIntegration
  /-- The rule does not say which assembly it is about. -/
  | missingAssembly
  /-- The assembly's name is empty. -/
  | emptyAssembly
  /-- One of the version bounds cannot be read. -/
  | versionRange (low high : String)
  /-- No version lies between the bounds. -/
  | versionOrder
  /-- The type pattern is empty. -/
  | emptyTypePattern
  /-- There is no type pattern. -/
  | missingTypePattern
  /-- The method pattern is empty. -/
  | emptyMethodPattern
  /-- There is no method pattern. -/
  | missingMethodPattern
  /-- The rule does not say what to call. -/
  | missingHelper
  /-- Part of the name of what to call is empty. -/
  | incompleteHelper
  /-- The policy injects nothing at the method's entry. -/
  | policyWithoutEntry
  /-- Exceptions are observed only together with exits. -/
  | exceptionWithoutExit
  /-- Any other flaw, in words. -/
  | other (text : String)
  deriving DecidableEq, Repr

/-- The wording of a rule's flaw. -/
def RuleFlaw.message : RuleFlaw → String
  | .emptyIntegration => "empty integration name"
  | .missingAssembly => "missing assembly"
  | .emptyAssembly => "empty assembly name"
  | .versionRange low high => s!"invalid version range {low}..{high}"
  | .versionOrder => "minimum version exceeds maximum"
  | .emptyTypePattern => "empty type pattern"
  | .missingTypePattern => "missing type pattern"
  | .emptyMethodPattern => "empty method pattern"
  | .missingMethodPattern => "missing method pattern"
  | .missingHelper => "missing helper"
  | .incompleteHelper => "incomplete helper reference"
  | .policyWithoutEntry => "policy without ENTRY"
  | .exceptionWithoutExit => "EXCEPTION requires EXIT"
  | .other text => text

/-! ### Status codes -/

/-- The status code a runtime call answers with; negative codes are failures. -/
structure StatusCode where
  /-- The signed code. -/
  value : Int32
  deriving DecidableEq, Repr, Inhabited

namespace StatusCode

/-- The code of plain success. -/
def success : StatusCode := ⟨0⟩

/-- Whether the code reports success, which every non-negative one does. -/
def isOk (c : StatusCode) : Bool := decide (0 ≤ c.value.toInt)

/-- The code as eight hexadecimal digits of its word. -/
def display (c : StatusCode) : String := "HRESULT 0x" ++ Text.hexPadded 8 c.value.toUInt32.toNat

end StatusCode

/-! ### Errors -/

/-- Why an operation failed. -/
inductive Error where
  /-- The runtime cannot be profiled. -/
  | runtimeUnavailable (reason : String)
  /-- The runtime is not one this engine supports. -/
  | incompatibleVersion (found expected : String)
  /-- The configuration turns the engine off. -/
  | disabled
  /-- The method is left alone on purpose. -/
  | unsupportedShape (shape : MethodShape)
  /-- The branch forms were not settled within the pass budget. -/
  | nonConvergentLayout (passes : Nat)
  /-- The runtime's metadata changed while a row was defined. -/
  | emissionConflict (what : String)
  /-- An instrumented body failed its check. -/
  | rejected (offset : UInt32) (finding : Finding)
  /-- Data that does not follow its format. -/
  | malformed (defect : Defect)
  /-- A read beyond the end of the data. -/
  | outOfBounds
  /-- A rule that cannot be used. -/
  | invalidRule (integration : String) (flaw : RuleFlaw)
  /-- A configuration value that cannot be understood. -/
  | invalidConfig (key value : String)
  /-- A module the runtime does not know. -/
  | unknownModule (id : UInt64)
  /-- A token that resolves to nothing. -/
  | tokenNotFound (token : Token)
  /-- The runtime answered with a failure code. -/
  | runtime (code : StatusCode)
  /-- A lock whose holder died. -/
  | lockBroken
  deriving DecidableEq, Repr

namespace Error

/-- The wording of an error. -/
def message : Error → String
  | .runtimeUnavailable reason => s!"Runtime unavailable - {reason}"
  | .incompatibleVersion found expected =>
    s!"Incompatible runtime version {found}, expected {expected}"
  | .disabled => "Profiler is disabled by configuration"
  | .unsupportedShape shape => s!"Unsupported method shape - {shape.message}"
  | .nonConvergentLayout passes => s!"Branch layout did not converge after {passes} passes"
  | .emissionConflict what => s!"Metadata emission conflict while emitting {what}"
  | .rejected offset finding =>
    s!"Verifier rejected rewritten body at {Text.position offset.toNat}: {finding.message}"
  | .malformed defect => s!"Malformed - {defect.message}"
  | .outOfBounds => "Out of Bound read would have occurred!"
  | .invalidRule integration flaw =>
    s!"Invalid instrumentation rule '{integration}' - {flaw.message}"
  | .invalidConfig key value => s!"Invalid configuration value for {key}: '{value}'"
  | .unknownModule id => s!"Unknown module {Text.hex id.toNat}"
  | .tokenNotFound token => s!"Failed to resolve token {token.display}"
  | .runtime code => s!"Runtime call failed with {code.display}"
  | .lockBroken => "Failed to lock target"

/-- What kind of error this is, in one word. -/
def kind : Error → String
  | .runtimeUnavailable _ => "RuntimeUnavailable"
  | .incompatibleVersion _ _ => "IncompatibleVersion"
  | .disabled => "Disabled"
  | .unsupportedShape _ => "UnsupportedMethodShape"
  | .nonConvergentLayout _ => "NonConvergentLayout"
  | .emissionConflict _ => "MetadataEmissionConflict"
  | .rejected _ _ => "VerifierRejection"
  | .malformed _ => "Malformed"
  | .outOfBounds => "OutOfBounds"
  | .invalidRule _ _ => "InvalidRule"
  | .invalidConfig _ _ => "InvalidConfig"
  | .unknownModule _ => "UnknownModule"
  | .tokenNotFound _ => "TokenNotFound"
  | .runtime _ => "Runtime"
  | .lockBroken => "LockError"

/-- Whether the engine cannot attach at all. -/
def isFatal : Error → Bool
  | .runtimeUnavailable _ | .incompatibleVersion _ _ | .disabled => true
  | _ => false

/-- Whether the method is left alone on purpose, and nothing went wrong. -/
def isDecline : Error → Bool
  | .unsupportedShape _ | .nonConvergentLayout _ => true
  | _ => false

end Error

/-- Fail if the code reports failure. -/
def StatusCode.check (c : StatusCode) : Except Error Unit :=
  if c.isOk then .ok () else .error (.runtime c)

end CilProbe
