import SchemaEnums.Catalog.Build
import SchemaEnums.Catalog.Entry
import SchemaEnums.Catalog.SharedPrefix
import SchemaEnums.CommandLine.Arguments
import SchemaEnums.CommandLine.Conversion
import SchemaEnums.CommandLine.Disk
import SchemaEnums.CommandLine.Files
import SchemaEnums.CommandLine.Program
import SchemaEnums.CommandLine.Word
import SchemaEnums.Descriptor
import SchemaEnums.Descriptor.Alias
import SchemaEnums.Descriptor.Inspect
import SchemaEnums.Descriptor.Load
import SchemaEnums.Descriptor.LoadBytes
import SchemaEnums.Descriptor.OfSchema
import SchemaEnums.Directive
import SchemaEnums.Documentation
import SchemaEnums.Generator.CodeName
import SchemaEnums.Generator.Emission
import SchemaEnums.Generator.Generate
import SchemaEnums.Generator.TypeComment
import SchemaEnums.Label
import SchemaEnums.Main
import SchemaEnums.Noted
import SchemaEnums.Numeral
import SchemaEnums.Path
import SchemaEnums.Proofs.Catalog.Assignment
import SchemaEnums.Proofs.Catalog.CapitalWords
import SchemaEnums.Proofs.Catalog.Contract
import SchemaEnums.Proofs.Catalog.Names
import SchemaEnums.Proofs.CommandLine.RawCode
import SchemaEnums.Proofs.CommandLine.Run
import SchemaEnums.Proofs.Descriptor.Flags
import SchemaEnums.Proofs.Descriptor.Located
import SchemaEnums.Proofs.Descriptor.Named
import SchemaEnums.Proofs.Descriptor.Outline
import SchemaEnums.Proofs.Descriptor.Package
import SchemaEnums.Proofs.Descriptor.Repeats
import SchemaEnums.Proofs.Documentation.Declaration
import SchemaEnums.Proofs.Documentation.LeadingRun
import SchemaEnums.Proofs.Documentation.Sharing
import SchemaEnums.Proofs.Documentation.Trailing
import SchemaEnums.Proofs.Generator.Calls
import SchemaEnums.Proofs.Generator.Emission
import SchemaEnums.Proofs.Generator.Failure
import SchemaEnums.Proofs.Generator.History
import SchemaEnums.Proofs.Generator.NameSearch
import SchemaEnums.Proofs.Generator.Names
import SchemaEnums.Proofs.Generator.Success
import SchemaEnums.Proofs.Generator.Uncommented
import SchemaEnums.Proofs.Generator.Words
import SchemaEnums.Proofs.Label
import SchemaEnums.Proofs.Layout.Attachment
import SchemaEnums.Proofs.Layout.Descriptors
import SchemaEnums.Proofs.Layout.Forest
import SchemaEnums.Proofs.Layout.Line
import SchemaEnums.Proofs.Layout.Load
import SchemaEnums.Proofs.Layout.Parse
import SchemaEnums.Proofs.Layout.Reading
import SchemaEnums.Proofs.Layout.Statement
import SchemaEnums.Proofs.Numeral
import SchemaEnums.Proofs.Numeral.Denotes
import SchemaEnums.Proofs.Output.Bare
import SchemaEnums.Proofs.Output.Blocks
import SchemaEnums.Proofs.Output.Code
import SchemaEnums.Proofs.Output.Comments
import SchemaEnums.Proofs.Output.DocComment
import SchemaEnums.Proofs.Output.DocContent
import SchemaEnums.Proofs.Output.Generate
import SchemaEnums.Proofs.Output.Header
import SchemaEnums.Proofs.Output.Literal
import SchemaEnums.Proofs.Output.Modular
import SchemaEnums.Proofs.Output.Reader
import SchemaEnums.Proofs.Output.Statement
import SchemaEnums.Proofs.Schema.Between
import SchemaEnums.Proofs.Schema.Grammar
import SchemaEnums.Proofs.Schema.Hole
import SchemaEnums.Proofs.Schema.Integers
import SchemaEnums.Proofs.Schema.Literals
import SchemaEnums.Proofs.Schema.Moved
import SchemaEnums.Proofs.Schema.Nesting
import SchemaEnums.Proofs.Schema.Options
import SchemaEnums.Proofs.Schema.Order
import SchemaEnums.Proofs.Schema.Parsed
import SchemaEnums.Proofs.Schema.Placed
import SchemaEnums.Proofs.Schema.Statements
import SchemaEnums.Proofs.Schema.Terminated
import SchemaEnums.Proofs.Schema.Trace
import SchemaEnums.Proofs.Schema.Unplaced
import SchemaEnums.Proofs.Source.Cut
import SchemaEnums.Proofs.Source.Firm
import SchemaEnums.Proofs.Source.Integers
import SchemaEnums.Proofs.Source.NumberShape
import SchemaEnums.Proofs.Source.Place
import SchemaEnums.Proofs.Source.Reread
import SchemaEnums.Proofs.Source.Spelling
import SchemaEnums.Proofs.Spacing.Filler
import SchemaEnums.Proofs.Spacing.Parse
import SchemaEnums.Proofs.Text.Lines
import SchemaEnums.Proofs.TypeScript.Delimited
import SchemaEnums.Proofs.TypeScript.Identifier
import SchemaEnums.Proofs.TypeScript.Names
import SchemaEnums.Proofs.TypeScript.Scope
import SchemaEnums.Proofs.TypeScript.UniqueReading
import SchemaEnums.Proofs.Workspace
import SchemaEnums.Schema.Attachment
import SchemaEnums.Schema.Error
import SchemaEnums.Schema.Item
import SchemaEnums.Schema.Literals
import SchemaEnums.Schema.Outline
import SchemaEnums.Schema.Parse
import SchemaEnums.Schema.Place
import SchemaEnums.Schema.State
import SchemaEnums.Source.Comment
import SchemaEnums.Source.Context
import SchemaEnums.Source.Gap
import SchemaEnums.Source.Lexeme
import SchemaEnums.Source.Position
import SchemaEnums.Source.Splits
import SchemaEnums.Source.Token
import SchemaEnums.Text.Blank
import SchemaEnums.Text.Case
import SchemaEnums.Text.CaseTable
import SchemaEnums.Text.DigitTable
import SchemaEnums.Text.Filled
import SchemaEnums.Text.Hex
import SchemaEnums.Text.Lines
import SchemaEnums.Text.Literal
import SchemaEnums.Text.Newlines
import SchemaEnums.Text.PrintableTable
import SchemaEnums.Text.Quoted
import SchemaEnums.Text.Utf8
import SchemaEnums.TypeScript.EnumDraft
import SchemaEnums.TypeScript.Expr
import SchemaEnums.TypeScript.Identifier
import SchemaEnums.TypeScript.JsDoc
import SchemaEnums.TypeScript.OutputFile
import SchemaEnums.TypeScript.Scope
import SchemaEnums.TypeScript.Statement
import SchemaEnums.Workspace
