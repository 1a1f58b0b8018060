import ClassWeave.Bytes.Lemmas
import ClassWeave.CommandLine.FileTree
import ClassWeave.Main
import ClassWeave.Proofs.ClassFile.Cursor
import ClassWeave.Proofs.Text.ModifiedUtf8
import ClassWeave.Proofs.ClassFile.Constants
import ClassWeave.Proofs.ClassFile.Annotations
import ClassWeave.Proofs.ClassFile.Attributes
import ClassWeave.Proofs.ClassFile.RoundTrip
import ClassWeave.Proofs.ClassFile.Continued
import ClassWeave.Proofs.Pool.Growth
import ClassWeave.Proofs.ClassFile.Resolved
import ClassWeave.Proofs.ClassFile.Edits
import ClassWeave.Proofs.Platform.Body
import ClassWeave.Proofs.Platform.Forwarding
import ClassWeave.Proofs.Platform.Transformed
import ClassWeave.Proofs.Relocation.Moves
import ClassWeave.Proofs.Relocation.Places
import ClassWeave.Proofs.Relocation.Relocated
import ClassWeave.Proofs.ClassFile.Fits
import ClassWeave.Proofs.Bytecode.Operations
import ClassWeave.Proofs.Bytecode.Execution
import ClassWeave.Proofs.Platform.Execution
import ClassWeave.Proofs.Platform.Footprint
import ClassWeave.Proofs.Platform.Aborted
import ClassWeave.Proofs.Platform.PlanAgain
import ClassWeave.Proofs.Platform.Repeated
import ClassWeave.Proofs.Platform.Steady
import ClassWeave.Proofs.Platform.Unmarked
import ClassWeave.Proofs.Relocation.Retyped
import ClassWeave.Proofs.Relocation.Names
import ClassWeave.Proofs.Support.Copies
import ClassWeave.Proofs.Support.Placed
import ClassWeave.Proofs.Support.Linked
import ClassWeave.Proofs.Support.Resolver
import ClassWeave.Proofs.Support.Injected
import ClassWeave.Proofs.Operations.Kept
import ClassWeave.Proofs.Operations.Runs
import ClassWeave.Proofs.Pool.TextImages
import ClassWeave.Proofs.Platform.TwoBuilds
import ClassWeave.Proofs.Signature.Named
import ClassWeave.Proofs.Signature.Parsed
import ClassWeave.Proofs.Relocation.Again
import ClassWeave.Proofs.Relocation.Settled
import ClassWeave.Proofs.Support.Stable
import ClassWeave.Proofs.Text.TextEntries
import ClassWeave.Proofs.Descriptor.Parsed
import ClassWeave.Proofs.Descriptor.Renamed
import ClassWeave.Proofs.CommandLine.Places
import ClassWeave.Proofs.CommandLine.Written
import ClassWeave.Proofs.CommandLine.Contents
import ClassWeave.Proofs.CommandLine.Walks
import ClassWeave.Proofs.CommandLine.Stages
import ClassWeave.Proofs.CommandLine.ClassPaths
import ClassWeave.Proofs.CommandLine.Stored
import ClassWeave.Proofs.CommandLine.Outcome
import ClassWeave.Proofs.Signature.Images
import ClassWeave.Proofs.Renaming.Composed
import ClassWeave.Proofs.Descriptor.AsSignature
import ClassWeave.Proofs.Signature.Grammar
import ClassWeave.Proofs.Signature.Derived
import ClassWeave.Proofs.Platform.Markers
import ClassWeave.Proofs.Platform.PlanOutcome
import ClassWeave.Proofs.Pool.Sequences
import ClassWeave.Proofs.Bytecode.Code
import ClassWeave.Proofs.Bytecode.Depth
import ClassWeave.Proofs.Pool.Numbers
import ClassWeave.Proofs.CommandLine.Confined
