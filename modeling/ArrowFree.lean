import ArrowFree.CommandLine
import ArrowFree.CommandLine.Arguments
import ArrowFree.Compiler
import ArrowFree.Diagnostic
import ArrowFree.Document
import ArrowFree.Document.Json
import ArrowFree.Estree
import ArrowFree.Fault
import ArrowFree.Files
import ArrowFree.Grammar
import ArrowFree.Grammar.Chart
import ArrowFree.Literal
import ArrowFree.Location
import ArrowFree.Lowering.Analysis
import ArrowFree.Lowering.Apply
import ArrowFree.Lowering.Arguments
import ArrowFree.Main
import ArrowFree.NodeMap
import ArrowFree.Number.Binary64
import ArrowFree.Number.Reading
import ArrowFree.Number.Shortest
import ArrowFree.Pass
import ArrowFree.PathName
import ArrowFree.Pipeline
import ArrowFree.Printer
import ArrowFree.Printer.Pieces
import ArrowFree.Printer.Precedence
import ArrowFree.Schedule
import ArrowFree.Scope
import ArrowFree.Scope.Analysis
import ArrowFree.Script.Build
import ArrowFree.Script.Grammar
import ArrowFree.Script.Parser
import ArrowFree.Sexpr
import ArrowFree.SourceMap
import ArrowFree.Text
import ArrowFree.Text.Blank
import ArrowFree.Text.DecimalDigit
import ArrowFree.Text.Printable
import ArrowFree.Text.Quoted
import ArrowFree.Text.Utf8
import ArrowFree.Token
import ArrowFree.Token.Lexer
import ArrowFree.Tree
import ArrowFree.Tree.Kind
import ArrowFree.Tree.Place
import ArrowFree.Tree.Visit
import ArrowFree.Vlq
import ArrowFree.Proofs.Lowered
import ArrowFree.Proofs.NoArrow
import ArrowFree.Proofs.Run
import ArrowFree.Proofs.Additions
import ArrowFree.Proofs.Counterparts
import ArrowFree.Proofs.CounterpartAdditions
import ArrowFree.Proofs.Chains
import ArrowFree.Proofs.Idempotent
import ArrowFree.Proofs.Numbering
import ArrowFree.Proofs.Facts
import ArrowFree.Proofs.LexicalThis
import ArrowFree.Proofs.Declarations
import ArrowFree.Proofs.Entering
import ArrowFree.Proofs.Outline
import ArrowFree.Proofs.LoweredScopes
import ArrowFree.Proofs.Names
import ArrowFree.Proofs.Declaring
import ArrowFree.Proofs.Contents
import ArrowFree.Proofs.Resolution
import ArrowFree.Proofs.HiddenVariables
import ArrowFree.Proofs.ArgumentFacts
import ArrowFree.Proofs.LoweredBindings
import ArrowFree.Proofs.Capture
import ArrowFree.Proofs.Lexing
import ArrowFree.Proofs.Numerals
import ArrowFree.Proofs.Spelling
import ArrowFree.Proofs.Scanning
import ArrowFree.Proofs.Formed
import ArrowFree.Proofs.Words
import ArrowFree.Proofs.PrintedWords
import ArrowFree.Proofs.PrintedTrees
import ArrowFree.Proofs.Emitted
import ArrowFree.Proofs.Charts
import ArrowFree.Proofs.Making
import ArrowFree.Proofs.Analyzable
import ArrowFree.Proofs.LoweredParts
import ArrowFree.Proofs.Compiled
import ArrowFree.Proofs.Unambiguous
import ArrowFree.Proofs.OperatorGrammar
import ArrowFree.Proofs.Readings
import ArrowFree.Proofs.Parenthesized
import ArrowFree.Proofs.EmittedAgain
import ArrowFree.Proofs.SharedArguments
import ArrowFree.Proofs.Strictness
import ArrowFree.Proofs.CompleteCharts
import ArrowFree.Proofs.AcceptedScripts
import ArrowFree.Proofs.DecodedMappings
import ArrowFree.Proofs.Exchanged
import ArrowFree.Proofs.Relabeled
import ArrowFree.Proofs.ArrowFreeDocuments
import ArrowFree.Proofs.FunctionScopes
import ArrowFree.Proofs.Determined
import ArrowFree.Proofs.Classification
import ArrowFree.Proofs.FunctionAnalysis
import ArrowFree.Proofs.Modularity
import ArrowFree.Proofs.ExplicitDeclarations
import ArrowFree.Proofs.OptimalCharts
import ArrowFree.Proofs.OutermostElse
import ArrowFree.Proofs.PreferredBlocks
import ArrowFree.Proofs.Nesting
import ArrowFree.Proofs.PreOrder
import ArrowFree.Proofs.Positions
import ArrowFree.Proofs.DeclarationOrder
import ArrowFree.Proofs.Accounting
import ArrowFree.Proofs.SharedBinding
import ArrowFree.Proofs.PrintedParts
import ArrowFree.Proofs.TruePositions
import ArrowFree.Proofs.MappedNames
import ArrowFree.Proofs.WordsWithin
import ArrowFree.Proofs.Brackets
import ArrowFree.Proofs.BareIn
import ArrowFree.Proofs.ScheduleOrder
import ArrowFree.Proofs.ParsedLocations
import ArrowFree.Proofs.StringLiterals
import ArrowFree.Proofs.FoldedLines
import ArrowFree.Proofs.Traversals
import ArrowFree.Proofs.CompactForms
