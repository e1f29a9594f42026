import Netlist.Diagnostic
import Netlist.Event.Counts
import Netlist.Event.Printer
import Netlist.Read
import Netlist.Sink.Bounded
import Netlist.Proofs.Adjacent
import Netlist.Proofs.Assignments
import Netlist.Proofs.Blanking
import Netlist.Proofs.Bytes
import Netlist.Proofs.Calls
import Netlist.Proofs.Canonical
import Netlist.Proofs.Constant
import Netlist.Proofs.Course
import Netlist.Proofs.Display
import Netlist.Proofs.Events
import Netlist.Proofs.Faults
import Netlist.Proofs.Function
import Netlist.Proofs.Gap
import Netlist.Proofs.Gathered
import Netlist.Proofs.Grammar
import Netlist.Proofs.Headway
import Netlist.Proofs.InRange
import Netlist.Proofs.Interchange
import Netlist.Proofs.Interruption
import Netlist.Proofs.Latched
import Netlist.Proofs.Layout
import Netlist.Proofs.Lead
import Netlist.Proofs.Lexed
import Netlist.Proofs.Locality
import Netlist.Proofs.Malformed
import Netlist.Proofs.Name
import Netlist.Proofs.Nesting
import Netlist.Proofs.Noise
import Netlist.Proofs.Number
import Netlist.Proofs.Observation
import Netlist.Proofs.Options
import Netlist.Proofs.Order
import Netlist.Proofs.Peeking
import Netlist.Proofs.Places
import Netlist.Proofs.Position
import Netlist.Proofs.Positional
import Netlist.Proofs.Printed
import Netlist.Proofs.Reaches
import Netlist.Proofs.Reading
import Netlist.Proofs.Refusal
import Netlist.Proofs.Reliable
import Netlist.Proofs.Reread
import Netlist.Proofs.Respelling
import Netlist.Proofs.RoundTrip
import Netlist.Proofs.Shadow
import Netlist.Proofs.Shape
import Netlist.Proofs.Skipped
import Netlist.Proofs.Spelled
import Netlist.Proofs.Splice
import Netlist.Proofs.Step
import Netlist.Proofs.Transparency
import Netlist.Proofs.Truncation
import Netlist.Proofs.Turns
import Netlist.Proofs.Unexpected
import Netlist.Proofs.Utf8
import Netlist.Proofs.Value
import Netlist.Proofs.Written
