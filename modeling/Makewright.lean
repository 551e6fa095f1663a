import Makewright.BuildFile
import Makewright.Calendar
import Makewright.CommandLine.Arguments
import Makewright.CommandLine.Run
import Makewright.Decimal.Binary64
import Makewright.Decimal.Numeral
import Makewright.Decimal.Shortest
import Makewright.Description
import Makewright.Disk.FileTree
import Makewright.Disk.Repository
import Makewright.Distinct
import Makewright.Document.Base64
import Makewright.Document.Basic
import Makewright.Document.File
import Makewright.Document.Json
import Makewright.Document.Toml
import Makewright.Document.Yaml.Basic
import Makewright.Document.Yaml.Cursor
import Makewright.Document.Yaml.Scalar
import Makewright.Document.Yaml.ScalarText
import Makewright.Document.Yaml.Stamp
import Makewright.Document.Yaml.Tag
import Makewright.Document.Yaml.Token
import Makewright.Document.Yaml.Tree
import Makewright.Error
import Makewright.Fetch.Fetcher
import Makewright.Fetch.Identifier
import Makewright.Fetch.Sha1
import Makewright.FileSet
import Makewright.Generation
import Makewright.Graph.Basic
import Makewright.Graph.Load
import Makewright.Graph.Order
import Makewright.Journal
import Makewright.Location
import Makewright.Main
import Makewright.Makefile
import Makewright.Node.Basic
import Makewright.Node.LinkInputs
import Makewright.Node.Read
import Makewright.Node.Recipe
import Makewright.Node.Rules
import Makewright.Path
import Makewright.Registry
import Makewright.Proofs.Graph.Dependency
import Makewright.Proofs.Graph.Resolution
import Makewright.Proofs.Layered
import Makewright.Proofs.Order.Finished
import Makewright.Proofs.Order.Walk
import Makewright.Proofs.Outcome
import Makewright.Resource
import Makewright.Settings
import Makewright.Shell.Builtin
import Makewright.Shell.Lexeme
import Makewright.Shell.Machine
import Makewright.Shell.Quote
import Makewright.Shell.Recorder
import Makewright.Shell.Script
import Makewright.Target
import Makewright.Template
import Makewright.Text.Blank
import Makewright.Text.Cased
import Makewright.Text.Cut
import Makewright.Text.Digit
import Makewright.Text.Lines
import Makewright.Text.LowerCase
import Makewright.Text.Printable
import Makewright.Text.Quoted
import Makewright.TextList
import Makewright.Value
import Makewright.Proofs.Node.LinkInputs
import Makewright.Proofs.Makefile.Grounded
import Makewright.Proofs.Node.Recipes
import Makewright.Proofs.Generation.Assembly
import Makewright.Proofs.Generation.Ordered
import Makewright.Proofs.Path
import Makewright.Proofs.Node.Outputs
import Makewright.Proofs.Node.Prerequisites
import Makewright.Proofs.Generation.Complete
import Makewright.Proofs.Makefile.WorkOrder
import Makewright.Proofs.Generation.Acyclic
import Makewright.Proofs.Generation.Selection
import Makewright.Proofs.FileSet
import Makewright.Proofs.Node.Reading
import Makewright.Proofs.Node.LinkFiles
import Makewright.Proofs.Graph.LinkPaths
import Makewright.Proofs.Generation.Linking
import Makewright.Proofs.Graph.Description
import Makewright.Proofs.Stateful
import Makewright.Proofs.Graph.Loading
import Makewright.Proofs.Generation.Contribution
import Makewright.Proofs.Disk
import Makewright.Proofs.Fetch.Checkout
import Makewright.Proofs.Fetch.Calls
import Makewright.Proofs.Generation.Footprint
import Makewright.Proofs.Generation.Writing
import Makewright.Proofs.Target
import Makewright.Proofs.Graph.Termination
import Makewright.Proofs.Graph.Exact
import Makewright.Proofs.Shell.Quoting
import Makewright.Proofs.Shell.Words
import Makewright.Proofs.Makefile.Expansion
import Makewright.Proofs.Makefile.Reading
import Makewright.Proofs.Makefile.Legible
import Makewright.Proofs.Generation.Heads
import Makewright.Proofs.Generation.Values
import Makewright.Proofs.Node.Plain
import Makewright.Proofs.Generation.Legible
import Makewright.Proofs.Makefile.Commands
import Makewright.Proofs.Generation.Invocations
import Makewright.Proofs.Generation.Flags
import Makewright.Proofs.Node.Naming
import Makewright.Proofs.Node.Lines
import Makewright.Proofs.Generation.RoundTrip
import Makewright.Proofs.Generation.Coverage
import Makewright.Proofs.Graph.Moves
import Makewright.Proofs.Node.Confined
import Makewright.Proofs.Graph.Packages
import Makewright.Proofs.Generation.Confinement
import Makewright.Proofs.CommandLine.Selection
import Makewright.Proofs.Installation
import Makewright.Proofs.Generation.Installing
import Makewright.Proofs.Order.Expansion
import Makewright.Proofs.Graph.Coherent
import Makewright.Proofs.Graph.Expansion
import Makewright.Proofs.Graph.History
import Makewright.Proofs.Graph.Reload
import Makewright.Proofs.Agreement
import Makewright.Proofs.Generation.Passes
import Makewright.Proofs.Graph.LinkOrder
import Makewright.Proofs.Generation.LinkLine
import Makewright.Proofs.Makefile.Assignments
import Makewright.Proofs.Generation.HeadLines
import Makewright.Proofs.Node.Variables
import Makewright.Proofs.Generation.Variables
import Makewright.Proofs.Downward
import Makewright.Proofs.Settings
import Makewright.Proofs.Node.Containment
import Makewright.Proofs.Node.Scratch
import Makewright.Proofs.Generation.Scratch
import Makewright.Proofs.Node.Generates
import Makewright.Proofs.Meeting
import Makewright.Proofs.Node.LinkerFlags
import Makewright.Proofs.Graph.RemoteSources
import Makewright.Proofs.Graph.DeclarationOrder
import Makewright.Proofs.Fetch.Commands
import Makewright.Proofs.Fetch.Attempts
import Makewright.Proofs.Text
import Makewright.Proofs.Spelling
import Makewright.Proofs.Makefile.History
import Makewright.Proofs.Makefile.Unique
import Makewright.Proofs.Node.Built
import Makewright.Proofs.Generation.Awaited
import Makewright.Proofs.Template
import Makewright.Proofs.Attributes
import Makewright.Proofs.References
import Makewright.Proofs.Node.SharedLibrary
import Makewright.Proofs.Node.InstallDir
import Makewright.Proofs.Resolver
import Makewright.Proofs.Schema
import Makewright.Proofs.Graph.ObjectFiles
import Makewright.Proofs.Document.Reading
import Makewright.Proofs.Document.Json
import Makewright.Proofs.Document.Toml
import Makewright.Proofs.Document.Yaml.ScalarText
import Makewright.Proofs.Document.Yaml.Token
import Makewright.Proofs.Document.Yaml.Tree
import Makewright.Proofs.Document.Yaml.Values
import Makewright.Proofs.Document.Load
