import Vendoring.Build.Discovery
import Vendoring.Build.Event
import Vendoring.Build.File
import Vendoring.Build.Run
import Vendoring.Build.Session
import Vendoring.Build.Write
import Vendoring.Catalog.Basic
import Vendoring.Catalog.Survey
import Vendoring.Command.Line
import Vendoring.Command.Progress
import Vendoring.Command.Run
import Vendoring.Command.Usage
import Vendoring.Decimal.Binary64
import Vendoring.Decimal.Shortest
import Vendoring.Failure
import Vendoring.FileKind
import Vendoring.FileTree.Basic
import Vendoring.FileTree.Edit
import Vendoring.FileTree.Manifests
import Vendoring.FileTree.Walk
import Vendoring.Graph.Basic
import Vendoring.Graph.Component
import Vendoring.Graph.Dependency
import Vendoring.Graph.Memo
import Vendoring.Graph.Outline
import Vendoring.Json.Basic
import Vendoring.Json.Reader
import Vendoring.Loader
import Vendoring.Main
import Vendoring.Manifest
import Vendoring.Package
import Vendoring.Path.Basic
import Vendoring.Path.Extension
import Vendoring.Path.Normal
import Vendoring.Path.PackageTree
import Vendoring.Placement
import Vendoring.Proofs.Build.Arrival
import Vendoring.Proofs.Build.Bounds
import Vendoring.Proofs.Build.BundleClosure
import Vendoring.Proofs.Build.Bundles
import Vendoring.Proofs.Build.Closure
import Vendoring.Proofs.Build.Companions
import Vendoring.Proofs.Build.Containment
import Vendoring.Proofs.Build.Coverage
import Vendoring.Proofs.Build.Destinations
import Vendoring.Proofs.Build.Ending
import Vendoring.Proofs.Build.Entering
import Vendoring.Proofs.Build.MainEntries
import Vendoring.Proofs.Build.Memory
import Vendoring.Proofs.Build.Offers
import Vendoring.Proofs.Build.Once
import Vendoring.Proofs.Build.Overlong
import Vendoring.Proofs.Build.Passage
import Vendoring.Proofs.Build.Permuted
import Vendoring.Proofs.Build.Queue
import Vendoring.Proofs.Build.Run
import Vendoring.Proofs.Build.Steps
import Vendoring.Proofs.Build.Tidy
import Vendoring.Proofs.Build.Writing
import Vendoring.Proofs.Catalog.Insertion
import Vendoring.Proofs.Catalog.Installed
import Vendoring.Proofs.Catalog.Listing
import Vendoring.Proofs.Catalog.Names
import Vendoring.Proofs.Catalog.Nearest
import Vendoring.Proofs.Catalog.Owners
import Vendoring.Proofs.Catalog.Splitting
import Vendoring.Proofs.Catalog.Survey
import Vendoring.Proofs.Catalog.Trees
import Vendoring.Proofs.Command.Inputs
import Vendoring.Proofs.FileTree.Edits
import Vendoring.Proofs.FileTree.Listings
import Vendoring.Proofs.FileTree.Locations
import Vendoring.Proofs.FileTree.Lookup
import Vendoring.Proofs.FileTree.Siblings
import Vendoring.Proofs.FileTree.Spelling
import Vendoring.Proofs.Graph.Closure
import Vendoring.Proofs.Graph.Component
import Vendoring.Proofs.Graph.Dependency
import Vendoring.Proofs.Graph.Memory
import Vendoring.Proofs.Graph.Order
import Vendoring.Proofs.Graph.Outline
import Vendoring.Proofs.Graph.Walk
import Vendoring.Proofs.Json.Documents
import Vendoring.Proofs.Json.Exchange
import Vendoring.Proofs.Json.Grammar
import Vendoring.Proofs.Json.Members
import Vendoring.Proofs.Json.Strings
import Vendoring.Proofs.Json.Tokens
import Vendoring.Proofs.Path.Ancestors
import Vendoring.Proofs.Path.Below
import Vendoring.Proofs.Path.Canonical
import Vendoring.Proofs.Path.Companions
import Vendoring.Proofs.Path.Components
import Vendoring.Proofs.Path.Descent
import Vendoring.Proofs.Path.Extensions
import Vendoring.Proofs.Path.Keys
import Vendoring.Proofs.Path.Plain
import Vendoring.Proofs.Path.Relative
import Vendoring.Proofs.Path.Rooted
import Vendoring.Proofs.Path.Ways
import Vendoring.Proofs.Placement.Collisions
import Vendoring.Proofs.Placement.Companions
import Vendoring.Proofs.Placement.Destinations
import Vendoring.Proofs.Placement.Kinds
import Vendoring.Proofs.Placement.Places
import Vendoring.Proofs.Resolver.BareNames
import Vendoring.Proofs.Resolver.Candidates
import Vendoring.Proofs.Resolver.Rooted
import Vendoring.Proofs.Resolver.Search
import Vendoring.Proofs.Resolver.Soundness
import Vendoring.Proofs.Resolver.Spelling
import Vendoring.Proofs.Resolver.Targets
import Vendoring.Proofs.Rewrite.Components
import Vendoring.Proofs.Rewrite.Contents
import Vendoring.Proofs.Rewrite.Document
import Vendoring.Proofs.Rewrite.Packages
import Vendoring.Proofs.Rewrite.Splice
import Vendoring.Proofs.Rewrite.Stylesheets
import Vendoring.Proofs.Rewrite.Targets
import Vendoring.Proofs.Scan.Braces
import Vendoring.Proofs.Scan.Declarations
import Vendoring.Proofs.Scan.Forms
import Vendoring.Proofs.Scan.Found
import Vendoring.Proofs.Scan.Manifest
import Vendoring.Proofs.Scan.Order
import Vendoring.Proofs.Scan.Search
import Vendoring.Proofs.Scan.Statements
import Vendoring.Proofs.Scan.Stylesheets
import Vendoring.Proofs.Settings
import Vendoring.Proofs.Specifier.Rendered
import Vendoring.Proofs.Specifier.Subpaths
import Vendoring.Proofs.Specifier.Text
import Vendoring.Resolver
import Vendoring.Rewrite.Basic
import Vendoring.Rewrite.Table
import Vendoring.Scan.Basic
import Vendoring.Scan.Manifest
import Vendoring.Scan.Script
import Vendoring.Scan.Search
import Vendoring.Scan.Stylesheet
import Vendoring.Settings
import Vendoring.Sorting
import Vendoring.Specifier
import Vendoring.Text.Blank
import Vendoring.Text.Split
import Vendoring.Text.Utf8
import Vendoring.Text.Word
