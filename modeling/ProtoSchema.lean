import ProtoSchema.Comment.Tracker
import ProtoSchema.Diagnostic.Fault
import ProtoSchema.Diagnostic.Report
import ProtoSchema.Frontend.CommandLine
import ProtoSchema.Frontend.Load
import ProtoSchema.Frontend.Parse
import ProtoSchema.Grammar.Enums
import ProtoSchema.Grammar.Fields
import ProtoSchema.Grammar.Files
import ProtoSchema.Grammar.Messages
import ProtoSchema.Grammar.Options
import ProtoSchema.Grammar.Parser
import ProtoSchema.Grammar.Phrases
import ProtoSchema.Grammar.Reservations
import ProtoSchema.Grammar.Services
import ProtoSchema.Main
import ProtoSchema.Number.Decimal
import ProtoSchema.Number.Double
import ProtoSchema.Proofs.Canonical.Declarations
import ProtoSchema.Proofs.Canonical.Fields
import ProtoSchema.Proofs.Canonical.Files
import ProtoSchema.Proofs.Canonical.Lines
import ProtoSchema.Proofs.Canonical.Messages
import ProtoSchema.Proofs.Canonical.Options
import ProtoSchema.Proofs.Canonical.Phrases
import ProtoSchema.Proofs.Canonical.Texts
import ProtoSchema.Proofs.Canonical.Tokens
import ProtoSchema.Proofs.Comment.Blocks
import ProtoSchema.Proofs.Comment.Declarations
import ProtoSchema.Proofs.Comment.Files
import ProtoSchema.Proofs.Comment.Gaps
import ProtoSchema.Proofs.Comment.Remarks
import ProtoSchema.Proofs.Comment.Rows
import ProtoSchema.Proofs.Comment.Rules
import ProtoSchema.Proofs.Derivation.Completeness
import ProtoSchema.Proofs.Derivation.Enums
import ProtoSchema.Proofs.Derivation.Grammar
import ProtoSchema.Proofs.Derivation.Members
import ProtoSchema.Proofs.Derivation.Rules
import ProtoSchema.Proofs.Derivation.Soundness
import ProtoSchema.Proofs.Diagnostic.Arrange
import ProtoSchema.Proofs.Diagnostic.Spans
import ProtoSchema.Proofs.Diagnostic.Wording
import ProtoSchema.Proofs.Frontend.Accepted
import ProtoSchema.Proofs.Frontend.Comments
import ProtoSchema.Proofs.Frontend.Deliveries
import ProtoSchema.Proofs.Frontend.Direction
import ProtoSchema.Proofs.Frontend.Emptiness
import ProtoSchema.Proofs.Frontend.Enums
import ProtoSchema.Proofs.Frontend.FieldNames
import ProtoSchema.Proofs.Frontend.Lines
import ProtoSchema.Proofs.Frontend.Listing
import ProtoSchema.Proofs.Frontend.Literals
import ProtoSchema.Proofs.Frontend.Messages
import ProtoSchema.Proofs.Frontend.Names
import ProtoSchema.Proofs.Frontend.Nesting
import ProtoSchema.Proofs.Frontend.Numbers
import ProtoSchema.Proofs.Frontend.Placement
import ProtoSchema.Proofs.Frontend.References
import ProtoSchema.Proofs.Frontend.Repetition
import ProtoSchema.Proofs.Frontend.Reports
import ProtoSchema.Proofs.Frontend.RoundTrip
import ProtoSchema.Proofs.Frontend.Semicolons
import ProtoSchema.Proofs.Frontend.Spans
import ProtoSchema.Proofs.Frontend.Trivia
import ProtoSchema.Proofs.Grammar.Blocks
import ProtoSchema.Proofs.Grammar.Declarations
import ProtoSchema.Proofs.Grammar.Fields
import ProtoSchema.Proofs.Grammar.Files
import ProtoSchema.Proofs.Grammar.Messages
import ProtoSchema.Proofs.Grammar.Options
import ProtoSchema.Proofs.Grammar.Phrases
import ProtoSchema.Proofs.Grammar.Reading
import ProtoSchema.Proofs.Grammar.Spots
import ProtoSchema.Proofs.Grammar.WellFormed
import ProtoSchema.Proofs.Insertion.Declarations
import ProtoSchema.Proofs.Insertion.Endings
import ProtoSchema.Proofs.Insertion.Files
import ProtoSchema.Proofs.Insertion.Options
import ProtoSchema.Proofs.Insertion.Phrases
import ProtoSchema.Proofs.Insertion.Rules
import ProtoSchema.Proofs.Insertion.Spots
import ProtoSchema.Proofs.Insertion.Streams
import ProtoSchema.Proofs.Insertion.Tree
import ProtoSchema.Proofs.Layout.Bodies
import ProtoSchema.Proofs.Layout.Checks
import ProtoSchema.Proofs.Layout.Definitions
import ProtoSchema.Proofs.Layout.Enums
import ProtoSchema.Proofs.Layout.Fields
import ProtoSchema.Proofs.Layout.Files
import ProtoSchema.Proofs.Layout.Findings
import ProtoSchema.Proofs.Layout.Groups
import ProtoSchema.Proofs.Layout.Messages
import ProtoSchema.Proofs.Layout.Options
import ProtoSchema.Proofs.Layout.Outline
import ProtoSchema.Proofs.Layout.Paths
import ProtoSchema.Proofs.Layout.Phrases
import ProtoSchema.Proofs.Layout.Rules
import ProtoSchema.Proofs.Layout.Services
import ProtoSchema.Proofs.Layout.Tree
import ProtoSchema.Proofs.Movement.Declarations
import ProtoSchema.Proofs.Movement.Faults
import ProtoSchema.Proofs.Movement.Files
import ProtoSchema.Proofs.Movement.Layout
import ProtoSchema.Proofs.Movement.Options
import ProtoSchema.Proofs.Movement.Phrases
import ProtoSchema.Proofs.Movement.Resolve
import ProtoSchema.Proofs.Movement.Rules
import ProtoSchema.Proofs.Movement.Tree
import ProtoSchema.Proofs.Nesting.Blame
import ProtoSchema.Proofs.Nesting.Brackets
import ProtoSchema.Proofs.Nesting.Declarations
import ProtoSchema.Proofs.Nesting.Oneofs
import ProtoSchema.Proofs.Nesting.Options
import ProtoSchema.Proofs.Nesting.Points
import ProtoSchema.Proofs.Nesting.Rules
import ProtoSchema.Proofs.Number.Shortest
import ProtoSchema.Proofs.Renaming.Fields
import ProtoSchema.Proofs.Renaming.Files
import ProtoSchema.Proofs.Renaming.Tree
import ProtoSchema.Proofs.Resolution.Deciding
import ProtoSchema.Proofs.Resolution.EnumNames
import ProtoSchema.Proofs.Resolution.Fields
import ProtoSchema.Proofs.Resolution.Parts
import ProtoSchema.Proofs.Resolution.Places
import ProtoSchema.Proofs.Resolution.Qualified
import ProtoSchema.Proofs.Resolution.Readings
import ProtoSchema.Proofs.Resolution.Resolve
import ProtoSchema.Proofs.Resolution.Scopes
import ProtoSchema.Proofs.Resolution.Sites
import ProtoSchema.Proofs.Resolution.Symbols
import ProtoSchema.Proofs.Scanning.Brace
import ProtoSchema.Proofs.Scanning.Decided
import ProtoSchema.Proofs.Scanning.Edge
import ProtoSchema.Proofs.Scanning.Faults
import ProtoSchema.Proofs.Scanning.Framing
import ProtoSchema.Proofs.Scanning.Fronts
import ProtoSchema.Proofs.Scanning.Integers
import ProtoSchema.Proofs.Scanning.Joining
import ProtoSchema.Proofs.Scanning.Lexical
import ProtoSchema.Proofs.Scanning.Literal
import ProtoSchema.Proofs.Scanning.Nesting
import ProtoSchema.Proofs.Scanning.Numeral
import ProtoSchema.Proofs.Scanning.Order
import ProtoSchema.Proofs.Scanning.Shift
import ProtoSchema.Proofs.Scanning.Spelling
import ProtoSchema.Proofs.Scanning.Suffixes
import ProtoSchema.Proofs.Scanning.Tiling
import ProtoSchema.Proofs.Source.Location
import ProtoSchema.Proofs.Tracking.Declarations
import ProtoSchema.Proofs.Tracking.Faults
import ProtoSchema.Proofs.Tracking.Files
import ProtoSchema.Proofs.Tracking.Options
import ProtoSchema.Proofs.Tracking.Phrases
import ProtoSchema.Proofs.Tracking.Rules
import ProtoSchema.Proofs.Tree.Definitions
import ProtoSchema.Proofs.Tree.Erasure
import ProtoSchema.Proofs.Tree.IntLiteral
import ProtoSchema.Proofs.Tree.Naming
import ProtoSchema.Proofs.Tree.Preorder
import ProtoSchema.Proofs.Tree.Printing
import ProtoSchema.Proofs.Validation.Clashes
import ProtoSchema.Proofs.Validation.Declarations
import ProtoSchema.Proofs.Validation.Erasure
import ProtoSchema.Proofs.Validation.FieldRules
import ProtoSchema.Proofs.Validation.FullNames
import ProtoSchema.Proofs.Validation.Kinds
import ProtoSchema.Proofs.Validation.Legality
import ProtoSchema.Proofs.Validation.Message
import ProtoSchema.Proofs.Validation.Numbers
import ProtoSchema.Resolution.Resolve
import ProtoSchema.Resolution.SymbolTable
import ProtoSchema.Source.Identifier
import ProtoSchema.Source.Location
import ProtoSchema.Source.Span
import ProtoSchema.Token.Basic
import ProtoSchema.Token.BlockComment
import ProtoSchema.Token.Escape
import ProtoSchema.Token.Lexeme
import ProtoSchema.Token.Listing
import ProtoSchema.Token.Numeral
import ProtoSchema.Token.Scan
import ProtoSchema.Token.StringLiteral
import ProtoSchema.Tree.Declaration
import ProtoSchema.Tree.Definitions
import ProtoSchema.Tree.Edit
import ProtoSchema.Tree.FieldType
import ProtoSchema.Tree.IntLiteral
import ProtoSchema.Tree.Name
import ProtoSchema.Tree.OptionValue
import ProtoSchema.Tree.Printer
import ProtoSchema.Tree.References
import ProtoSchema.Validation.Clashes
import ProtoSchema.Validation.Enumeration
import ProtoSchema.Validation.Extension
import ProtoSchema.Validation.File
import ProtoSchema.Validation.Message
import ProtoSchema.Validation.ReservedNumbers
import ProtoSchema.Validation.Service
