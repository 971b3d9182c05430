import SourceModel.Path
import SourceModel.Word
import SourceModel.Token
import SourceModel.Lexical.LineIndex
import SourceModel.Lexical.Rule
import SourceModel.Lexical.Tokenize
import SourceModel.TemplateList
import SourceModel.Cursor
import SourceModel.Declaration
import SourceModel.Diagnostic
import SourceModel.Parsing.SumType
import SourceModel.Parsing.File
import SourceModel.Registry
import SourceModel.Failure
import SourceModel.SymbolTable
import SourceModel.Config.Basic
import SourceModel.Icon
import SourceModel.Hierarchy.Basic
import SourceModel.Hierarchy.NodeTree
import SourceModel.Hierarchy.Walk
import SourceModel.FileSystem.Basic
import SourceModel.FileSystem.Edit
import SourceModel.Workspace.Outline
import SourceModel.Workspace.Scan
import SourceModel.Hex
import SourceModel.Yaml.Spot
import SourceModel.Yaml.Scalar
import SourceModel.Yaml.Tag
import SourceModel.Yaml.Token
import SourceModel.Yaml.Node
import SourceModel.Config.Load
import SourceModel.Project.Survey
import SourceModel.Project.Basic
import SourceModel.Log
import SourceModel.Project.Log
import SourceModel.CommandLine.Style
import SourceModel.CommandLine.Json
import SourceModel.CommandLine.Arguments
import SourceModel.CommandLine.Check
import SourceModel.CommandLine.Symbols
import SourceModel.CommandLine.Run
import SourceModel.FileSystem.Image
import SourceModel.Main
import SourceModel.Proofs.Registration
import SourceModel.Proofs.Registry
import SourceModel.Proofs.History
import SourceModel.Proofs.Reachable
import SourceModel.Proofs.Changes
import SourceModel.Proofs.Cursor
import SourceModel.Proofs.TemplateScan
import SourceModel.Proofs.Parsing.Phrase
import SourceModel.Proofs.Parsing.Reader
import SourceModel.Proofs.Parsing.Split
import SourceModel.Proofs.Parsing.Viable
import SourceModel.Proofs.Lexical.LineIndex
import SourceModel.Proofs.Lexical.Longest
import SourceModel.Proofs.Lexical.Partition
import SourceModel.Proofs.Lexical.Layout
import SourceModel.Proofs.Lexical.Positions
import SourceModel.Proofs.Lexical.LineBreak
import SourceModel.Proofs.Parsing.Join
import SourceModel.Proofs.RoundTrip
import SourceModel.Proofs.Hierarchy.Preorder
import SourceModel.Proofs.Hierarchy.Links
import SourceModel.Proofs.Hierarchy.Walk
import SourceModel.Proofs.Hierarchy.Additions
import SourceModel.Proofs.Hierarchy.Numbers
import SourceModel.Proofs.FileSystem.Spelling
import SourceModel.Proofs.FileSystem.Location
import SourceModel.Proofs.Workspace.Outlines
import SourceModel.Proofs.Workspace.Admitted
import SourceModel.Proofs.Project.Merge
import SourceModel.Proofs.Project.Runs
import SourceModel.Proofs.Project.Snapshots
import SourceModel.Proofs.Project.Gate
import SourceModel.Proofs.Project.Order
import SourceModel.Proofs.Project.Opening
import SourceModel.Proofs.CommandLine.Check
import SourceModel.Proofs.Project.Figures
