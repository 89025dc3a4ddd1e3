import CLint.Code.Stretch
import CLint.Command.Arguments
import CLint.Command.Basic
import CLint.Command.Check
import CLint.Command.Outcome
import CLint.Command.Run
import CLint.Comment
import CLint.Control.Basic
import CLint.Control.Block
import CLint.Control.Comparison
import CLint.Cut
import CLint.Date
import CLint.Decl.Basic
import CLint.Decl.Batch
import CLint.Decl.Declarator
import CLint.Decl.Specifier
import CLint.Diagnostic
import CLint.Directive
import CLint.Files.Basic
import CLint.Files.Selection
import CLint.Finding
import CLint.Glob
import CLint.Json
import CLint.Main
import CLint.Name
import CLint.Name.Words
import CLint.Numeral.Basic
import CLint.Numeral.Binary64
import CLint.Numeral.Hashed
import CLint.Outline
import CLint.Path
import CLint.Report.Human
import CLint.Report.Machine
import CLint.Report.Summary
import CLint.Rule.Basic
import CLint.Rule.Catalogue
import CLint.Rule.Condition
import CLint.Rule.Control
import CLint.Rule.Documentation
import CLint.Rule.Hazard
import CLint.Rule.Indentation
import CLint.Rule.Layout
import CLint.Rule.MagicNumber
import CLint.Rule.Naming
import CLint.Rule.Selection
import CLint.Rule.Spacing
import CLint.Rule.Structure
import CLint.Run
import CLint.Settings.Basic
import CLint.Settings.Loading
import CLint.Settings.Reading
import CLint.Settings.Value
import CLint.Source
import CLint.Stmt.Basic
import CLint.Stmt.Read
import CLint.Stmt.Scan
import CLint.Stmt.Site
import CLint.Text.Blank
import CLint.Text.Cased
import CLint.Text.Lowercase
import CLint.Text.Matches
import CLint.Text.Printable
import CLint.Text.Quoted
import CLint.Text.Styled
import CLint.Text.Utf8
import CLint.Text.WordChar
import CLint.Token.Keyword
import CLint.Token.Lexeme
import CLint.Token.Lexer
import CLint.Token.Place
import CLint.Token.Punct
import CLint.Toml.Document
import CLint.Toml.Front
import CLint.Toml.Key
import CLint.Toml.Moment
import CLint.Toml.Number
import CLint.Toml.Quoted
import CLint.Toml.Statement
import CLint.Toml.Value
import CLint.Proofs.Division
import CLint.Proofs.Reading
import CLint.Proofs.Within.Basic
import CLint.Proofs.Within.Declaration
import CLint.Proofs.Within.Block
import CLint.Proofs.WellFormed
import CLint.Proofs.Layout
import CLint.Proofs.Grammar
import CLint.Proofs.Recognition
import CLint.Proofs.Tidy
import CLint.Proofs.Shapes
import CLint.Proofs.Join.Basic
import CLint.Proofs.Join.Lexing
import CLint.Proofs.Join.Placing
import CLint.Proofs.Join.Gathering
import CLint.Proofs.Join.Dividing
import CLint.Proofs.Join.Reading
import CLint.Proofs.Join.Shifting
import CLint.Proofs.Join.Blocks
import CLint.Proofs.Join.Sorting
import CLint.Proofs.Join.Parts
import CLint.Proofs.Join.Clauses
import CLint.Proofs.Join.Attaching
import CLint.Proofs.Join.Numbering
import CLint.Proofs.Join.Outline
import CLint.Proofs.Aggregation
import CLint.Proofs.Lines
import CLint.Proofs.Schedule
import CLint.Proofs.Balance
import CLint.Proofs.Imbalance
import CLint.Proofs.Declaring.Declarators
import CLint.Proofs.Declaring.Recording
import CLint.Proofs.Orderly
import CLint.Proofs.Completing
import CLint.Proofs.Forest.Outline
import CLint.Proofs.Located.Run
import CLint.Proofs.Canonical
import CLint.Proofs.Independence
import CLint.Proofs.Partition
import CLint.Proofs.Indented.Check
import CLint.Proofs.LogicalLine
import CLint.Proofs.Labels
import CLint.Proofs.Returns
import CLint.Proofs.Flipped.Check
import CLint.Proofs.Extents.Check
import CLint.Proofs.Terms.Check
import CLint.Proofs.TypeNames
import CLint.Proofs.Attributes.Check
import CLint.Proofs.Lexemes.Extent
import CLint.Proofs.Lexemes.Reprinting
import CLint.Proofs.Lexemes.Appended
import CLint.Proofs.Unterminated
import CLint.Proofs.Attached.Gathering
import CLint.Proofs.Attached.Outline
import CLint.Proofs.Terms.Paired
import CLint.Proofs.Terms.Whole
import CLint.Proofs.Lexemes.OpenQuotes
import CLint.Proofs.Renaming.Words
import CLint.Proofs.Renaming.Check
import CLint.Proofs.Numbers.Spelling
import CLint.Proofs.Numbers.Enumerations
import CLint.Proofs.Numbers.Check
import CLint.Proofs.Numbers.Signs
import CLint.Proofs.Calls
import CLint.Proofs.Identifiers
import CLint.Proofs.Renaming.Definitions
import CLint.Proofs.Documented
import CLint.Proofs.Selected
import CLint.Proofs.Overview
import CLint.Proofs.Described
import CLint.Proofs.Chapters
import CLint.Proofs.Shown
import CLint.Proofs.Encoded
import CLint.Proofs.Checking.Command
