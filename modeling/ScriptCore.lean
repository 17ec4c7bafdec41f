import ScriptCore.Host.Dispatch
import ScriptCore.Number.Literal
import ScriptCore.Proofs.Heap.Marking
import ScriptCore.Proofs.Heap.Valid
import ScriptCore.Proofs.Heap.Sweeping
import ScriptCore.Proofs.Heap.Operations
import ScriptCore.Proofs.Renaming.Basic
import ScriptCore.Proofs.Renaming.Data
import ScriptCore.Proofs.Renaming.Heap
import ScriptCore.Proofs.Renaming.Sim
import ScriptCore.Proofs.Renaming.Objects
import ScriptCore.Proofs.Renaming.Allocation
import ScriptCore.Proofs.Renaming.Properties
import ScriptCore.Proofs.Renaming.Operators
import ScriptCore.Proofs.Renaming.References
import ScriptCore.Proofs.Renaming.Statements
import ScriptCore.Proofs.Renaming.Expressions
import ScriptCore.Proofs.Renaming.Invocations
import ScriptCore.Proofs.Renaming.Tasks
import ScriptCore.Proofs.Drive.Turn
import ScriptCore.Proofs.Renaming.Drive
import ScriptCore.Proofs.Renaming.Collection
import ScriptCore.Proofs.Renaming.Programs
import ScriptCore.Proofs.Soundness
import ScriptCore.Proofs.Boundaries
import ScriptCore.Proofs.Schedules
import ScriptCore.Proofs.Transparency
import ScriptCore.Proofs.Drive.Tracks
import ScriptCore.Proofs.Drive.Recursion
import ScriptCore.Proofs.Drive.Refinement
import ScriptCore.Proofs.Heap.Counting
import ScriptCore.Proofs.Heap.Changes
import ScriptCore.Proofs.Heap.Lengths
import ScriptCore.Proofs.Heap.Interning
import ScriptCore.Proofs.Heap.Generations
import ScriptCore.Proofs.Heap.Holders
import ScriptCore.Proofs.Heap.Prototypes
import ScriptCore.Proofs.Drive.Scripted
import ScriptCore.Proofs.Drive.Unwinding
import ScriptCore.Proofs.Drive.Fuel
import ScriptCore.Proofs.Drive.Isolation
import ScriptCore.Proofs.Drive.Balance
import ScriptCore.Proofs.Drive.Nesting
import ScriptCore.Proofs.Drive.Aborts
import ScriptCore.Proofs.Number.Counts
import ScriptCore.Proofs.Object.Arrays
import ScriptCore.Proofs.Object.Edits
import ScriptCore.Proofs.Number.Doubles
import ScriptCore.Proofs.Property.Endurance
import ScriptCore.Proofs.Object.Frozen
import ScriptCore.Proofs.Drive.Invariants
import ScriptCore.Proofs.Renaming.Idle
import ScriptCore.Proofs.Operators
import ScriptCore.Proofs.Calls.Acts
import ScriptCore.Proofs.Calls.Expressions
import ScriptCore.Proofs.Calls.Invocations
import ScriptCore.Proofs.Heap.Foreign
import ScriptCore.Proofs.Object.DefinedLengths
import ScriptCore.Proofs.Object.Touches
import ScriptCore.Proofs.Object.Assignment
import ScriptCore.Proofs.Object.FrozenArrays
import ScriptCore.Proofs.Object.Rejections
import ScriptCore.Proofs.Scope.Limits
import ScriptCore.Proofs.Calls.Collecting
import ScriptCore.Proofs.Calls.Founding
import ScriptCore.Proofs.Calls.Globals
import ScriptCore.Proofs.Conversion.Equality
import ScriptCore.Proofs.Conversion.Operands
import ScriptCore.Proofs.Object.Enumeration
import ScriptCore.Proofs.Object.KeyOrder
import ScriptCore.Proofs.Object.LiveEnumeration
import ScriptCore.Proofs.Scope.Bindings
import ScriptCore.Proofs.Scope.BodyStart
import ScriptCore.Proofs.Scope.FirstStatement
import ScriptCore.Proofs.Number.Grammar
import ScriptCore.Proofs.Property.Canonical
import ScriptCore.Proofs.Evaluation.Expressions
import ScriptCore.Proofs.Scope.Variables
import ScriptCore.Proofs.Object.Visibility
import ScriptCore.Proofs.Evaluation.Throws
import ScriptCore.Proofs.Evaluation.Building
import ScriptCore.Proofs.Scope.Destructuring
import ScriptCore.Proofs.Object.Depth
import ScriptCore.Proofs.Evaluation.Completions
import ScriptCore.Proofs.Scope.Declarations
import ScriptCore.Proofs.Hiding.Declarations
