import EofStack.Code.Sweep
import EofStack.CommandLine.Directory
import EofStack.Main
import EofStack.Opcode.Byte
import EofStack.Proofs.Assembly.RoundTrip
import EofStack.Proofs.Container.Safety
import EofStack.Proofs.Stack.Rejection
import EofStack.Proofs.Stack.FreeWalk
import EofStack.Proofs.Stack.Boundary
import EofStack.Proofs.Container.Verdict
import EofStack.Proofs.Assembly.Encoding
import EofStack.Proofs.Assembly.Agreement
import EofStack.Proofs.Code.UniqueDecoding
import EofStack.Proofs.Stack.Loops
import EofStack.Proofs.Stack.Resources
import EofStack.Proofs.Stack.Locality
import EofStack.Proofs.Assembly.Labels
import EofStack.Proofs.Structured.Program
import EofStack.Proofs.Structured.Shape
import EofStack.Proofs.Structured.Source
import EofStack.Proofs.Structured.Layout
import EofStack.Proofs.Stack.FirstPath
import EofStack.Proofs.Structured.Heights
import EofStack.Proofs.Structured.Segments
import EofStack.Proofs.Structured.Verdict
import EofStack.Proofs.Stack.Frame
import EofStack.Proofs.FunctionType.Printed
import EofStack.Proofs.CommandLine.Dump
import EofStack.Proofs.Container.Declared
import EofStack.Proofs.CommandLine.Modes
import EofStack.Proofs.Readers
import EofStack.Proofs.Assembly.Faults
import EofStack.Proofs.Assembly.Misplaced
import EofStack.Proofs.Assembly.Diagnosis
import EofStack.Proofs.Assembly.PushValue
import EofStack.Proofs.Assembly.Targets
import EofStack.Proofs.CommandLine.Arguments
import EofStack.Proofs.CommandLine.Files
import EofStack.Proofs.CommandLine.Outcome
import EofStack.Proofs.CommandLine.Reading
import EofStack.Proofs.Container.Log
import EofStack.Proofs.Code.Truncation
import EofStack.Proofs.CommandLine.Separators
import EofStack.Proofs.FunctionType.Grammar
import EofStack.Proofs.Assembly.Edits
import EofStack.Proofs.Code.Relocation
import EofStack.Proofs.Assembly.Emission
import EofStack.Proofs.Stack.Ceiling
import EofStack.Proofs.Word.Walk
