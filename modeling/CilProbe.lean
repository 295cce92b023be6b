import CilProbe.Bytes.Hex
import CilProbe.Bytes.Number
import CilProbe.Proofs.Engine.Instrument
import CilProbe.Proofs.Engine.Runs
import CilProbe.Proofs.Probe.Stack
import CilProbe.Scripted.Access
import CilProbe.Scripted.Failure
import CilProbe.Scripted.Session
import CilProbe.Proofs.Machine.Alike
import CilProbe.Proofs.Machine.Runs
import CilProbe.Proofs.Probe.Containment
import CilProbe.Proofs.Probe.Covering
import CilProbe.Proofs.Probe.Exit
import CilProbe.Proofs.Probe.Clauses
import CilProbe.Proofs.Probe.Recognition
import CilProbe.Proofs.Code.Agreement
import CilProbe.Proofs.Machine.Lockstep
import CilProbe.Proofs.Probe.Transparency
import CilProbe.Proofs.Check.Reachable
import CilProbe.Proofs.Check.Depths
import CilProbe.Proofs.Check.Bounds
import CilProbe.Proofs.Check.Nesting
import CilProbe.Proofs.Bytes.Compressed
import CilProbe.Proofs.Signature.RoundTrip
import CilProbe.Proofs.Signature.Rewriting
import CilProbe.Proofs.Engine.Compiling
import CilProbe.Proofs.Engine.Claims
import CilProbe.Proofs.Engine.Callbacks
import CilProbe.Proofs.Engine.Settled
import CilProbe.Proofs.Engine.Books
import CilProbe.Proofs.Engine.Accounting
import CilProbe.Proofs.Engine.Records
import CilProbe.Proofs.Engine.Steady
import CilProbe.Proofs.Engine.Watch
import CilProbe.Proofs.Engine.Once
import CilProbe.Proofs.Rule.FirstMatch
import CilProbe.Proofs.Engine.Steps
import CilProbe.Proofs.Engine.Choice
import CilProbe.Proofs.Engine.Progress
import CilProbe.Proofs.Engine.Interplay
import CilProbe.Proofs.Engine.Loaded
import CilProbe.Proofs.Engine.Teardown
import CilProbe.Proofs.Engine.Pairing
import CilProbe.Proofs.Engine.Cues
import CilProbe.Proofs.Engine.Mirrors
import CilProbe.Proofs.Engine.Separation
import CilProbe.Proofs.Code.Settling
import CilProbe.Proofs.Probe.Budget
import CilProbe.Proofs.Metadata.Rows
import CilProbe.Proofs.Signature.Rereading
import CilProbe.Proofs.Metadata.Helpers
import CilProbe.Proofs.Rule.Pattern
import CilProbe.Proofs.Code.Reencoding
import CilProbe.Proofs.Probe.Slots
import CilProbe.Proofs.Probe.Supported
import CilProbe.Proofs.Probe.LargestCode
import CilProbe.Proofs.Signature.Attempts
import CilProbe.Proofs.Body.Bounds
import CilProbe.Proofs.Cil.Tiling
import CilProbe.Proofs.Code.Labels
import CilProbe.Proofs.Rule.Version
import CilProbe.Proofs.Rule.Parameters
import CilProbe.Proofs.Signature.CodedTokens
import CilProbe.Proofs.Bytes.Moves
import CilProbe.Proofs.Signature.Progress
import CilProbe.Proofs.Signature.Ending
