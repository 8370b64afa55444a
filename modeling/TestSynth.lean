import TestSynth.Case.Binding
import TestSynth.Case.File
import TestSynth.Case.Intake
import TestSynth.Case.Model
import TestSynth.Case.Registry
import TestSynth.Case.Substitution
import TestSynth.Case.Tables
import TestSynth.CaseFiles
import TestSynth.Code.Allocation
import TestSynth.Code.Options
import TestSynth.Code.Statement
import TestSynth.Code.TestFunction
import TestSynth.Command.Arguments
import TestSynth.Command.Run
import TestSynth.CompileCommand
import TestSynth.Config
import TestSynth.Decimal
import TestSynth.Declarations
import TestSynth.Declarations.Dump
import TestSynth.Error
import TestSynth.Expr
import TestSynth.Files
import TestSynth.Json.Basic
import TestSynth.Json.Record
import TestSynth.Json.Token
import TestSynth.LogLevel
import TestSynth.Main
import TestSynth.Path
import TestSynth.Sha256
import TestSynth.Table
import TestSynth.Text.Alphanumeric
import TestSynth.Text.Blank
import TestSynth.Text.Split
import TestSynth.Toml.Basic
import TestSynth.Toml.Parser
import TestSynth.Toml.Quoted
import TestSynth.Toml.Scalar
import TestSynth.Toml.Text
import TestSynth.TypeResolution
import TestSynth.TypeSpelling
import TestSynth.Value.Basic
import TestSynth.Value.Index
import TestSynth.Value.Lexeme
import TestSynth.Value.ParseError
import TestSynth.Value.Parser
import TestSynth.Value.Token
import TestSynth.Proofs.Accesses
import TestSynth.Proofs.Agree
import TestSynth.Proofs.Coverage
import TestSynth.Proofs.Denotation
import TestSynth.Proofs.Duplicates
import TestSynth.Proofs.Execution
import TestSynth.Proofs.IndexText
import TestSynth.Proofs.Lexing
import TestSynth.Proofs.Memory
import TestSynth.Proofs.Narrowing
import TestSynth.Proofs.OrderFree
import TestSynth.Proofs.Ownership
import TestSynth.Proofs.PointerLevels
import TestSynth.Proofs.Reading
import TestSynth.Proofs.Registration
import TestSynth.Proofs.Renaming.Binding
import TestSynth.Proofs.Renaming.Body
import TestSynth.Proofs.Renaming.Cases
import TestSynth.Proofs.Renaming.Reading
import TestSynth.Proofs.Renaming.Spelling
import TestSynth.Proofs.Renaming.Tests
import TestSynth.Proofs.Renaming.Text
import TestSynth.Proofs.Renaming.Types
import TestSynth.Proofs.Resolution
import TestSynth.Proofs.RoundTrip
import TestSynth.Proofs.Runs
import TestSynth.Proofs.Settled
import TestSynth.Proofs.TestOrder
import TestSynth.Proofs.ValueTree
import TestSynth.Proofs.Acyclic
import TestSynth.Proofs.Unfolding
import TestSynth.Proofs.Turns
import TestSynth.Proofs.Addresses
import TestSynth.Proofs.Capture
import TestSynth.Proofs.Isolation
import TestSynth.Proofs.Growth
import TestSynth.Proofs.KeptOut
import TestSynth.Proofs.Nesting
import TestSynth.Proofs.RegistrationOrder
import TestSynth.Proofs.AllocationOrder
import TestSynth.Proofs.SpellingParts
import TestSynth.Proofs.TypedefWalk
import TestSynth.Proofs.TypeFixpoints
import TestSynth.Proofs.Shapes
import TestSynth.Proofs.BufferTypes
import TestSynth.Proofs.SecondReading
import TestSynth.Proofs.Spans
import TestSynth.Proofs.Rendering
import TestSynth.Proofs.RecordLayouts
import TestSynth.Proofs.FieldLinks
import TestSynth.Proofs.PostfixForms
import TestSynth.Proofs.Precedence
import TestSynth.Proofs.ModelText
import TestSynth.Proofs.Numerals
import TestSynth.Proofs.BracketGroups
import TestSynth.Proofs.Cuts
import TestSynth.Proofs.Locality
import TestSynth.Proofs.Faults
import TestSynth.Proofs.Blame
import TestSynth.Proofs.ElementTypes
import TestSynth.Proofs.Actions
import TestSynth.Proofs.DepthLimit
import TestSynth.Proofs.Merging
import TestSynth.Proofs.Outputs
import TestSynth.Proofs.CursorSafety
