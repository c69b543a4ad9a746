import DeviceModel.Binary64
import DeviceModel.Book.Sheet
import DeviceModel.Book.Trees
import DeviceModel.Can.Matrix
import DeviceModel.Can.SymbolFile
import DeviceModel.Check.Issue
import DeviceModel.Check.Report
import DeviceModel.Code.Bitfield
import DeviceModel.Code.Identifier
import DeviceModel.Code.Interface
import DeviceModel.Code.RegisterTable
import DeviceModel.Code.Template
import DeviceModel.Command.Arguments
import DeviceModel.Command.Run
import DeviceModel.Decimal
import DeviceModel.Document.Format
import DeviceModel.Error
import DeviceModel.Expansion.Family
import DeviceModel.Expansion.Shape
import DeviceModel.Expansion.Table
import DeviceModel.Expansion.View
import DeviceModel.Export.All
import DeviceModel.Export.Error
import DeviceModel.Files.Host
import DeviceModel.Files.Store
import DeviceModel.Hierarchy
import DeviceModel.Json.Basic
import DeviceModel.Json.Reader
import DeviceModel.Json.Writer
import DeviceModel.Log
import DeviceModel.Main
import DeviceModel.Project
import DeviceModel.Proofs.Can.Enumerations
import DeviceModel.Proofs.Can.Frames
import DeviceModel.Proofs.Can.LaidOut
import DeviceModel.Proofs.Can.SymbolLines
import DeviceModel.Proofs.Can.SymbolSignals
import DeviceModel.Proofs.Check.Findings
import DeviceModel.Proofs.Check.Referring
import DeviceModel.Proofs.Check.Reporting
import DeviceModel.Proofs.Code.Closure
import DeviceModel.Proofs.Code.Generated
import DeviceModel.Proofs.Code.Names
import DeviceModel.Proofs.Code.Tables
import DeviceModel.Proofs.Document.Conformance
import DeviceModel.Proofs.Document.Files
import DeviceModel.Proofs.Document.Identifiers
import DeviceModel.Proofs.Document.Restating
import DeviceModel.Proofs.Document.RoundTrip
import DeviceModel.Proofs.Document.Values
import DeviceModel.Proofs.Expansion.Again
import DeviceModel.Proofs.Expansion.Agreeing
import DeviceModel.Proofs.Expansion.Completing
import DeviceModel.Proofs.Expansion.Cores
import DeviceModel.Proofs.Expansion.Coverage
import DeviceModel.Proofs.Expansion.Edits
import DeviceModel.Proofs.Expansion.Families
import DeviceModel.Proofs.Expansion.Identifiers
import DeviceModel.Proofs.Expansion.LeafReferences
import DeviceModel.Proofs.Expansion.Multiplexers
import DeviceModel.Proofs.Expansion.Numbering
import DeviceModel.Proofs.Expansion.Orders
import DeviceModel.Proofs.Expansion.Packing
import DeviceModel.Proofs.Expansion.PlacedViews
import DeviceModel.Proofs.Expansion.Products
import DeviceModel.Proofs.Expansion.Regrown
import DeviceModel.Proofs.Expansion.Reuse
import DeviceModel.Proofs.Expansion.Schemes
import DeviceModel.Proofs.Expansion.SettledViews
import DeviceModel.Proofs.Expansion.Shapes
import DeviceModel.Proofs.Expansion.Sources
import DeviceModel.Proofs.Expansion.Standing
import DeviceModel.Proofs.Expansion.Suffixes
import DeviceModel.Proofs.Expansion.Syncing
import DeviceModel.Proofs.Expansion.TableTrees
import DeviceModel.Proofs.Expansion.Tables
import DeviceModel.Proofs.Expansion.TakenUp
import DeviceModel.Proofs.Expansion.Twins
import DeviceModel.Proofs.Expansion.ViewTrees
import DeviceModel.Proofs.Expansion.Views
import DeviceModel.Proofs.Export.Exchange
import DeviceModel.Proofs.Export.Exportable
import DeviceModel.Proofs.Export.Hierarchy
import DeviceModel.Proofs.Export.Imported
import DeviceModel.Proofs.Json.Grammar
import DeviceModel.Proofs.Json.Scanning
import DeviceModel.Proofs.Lists
import DeviceModel.Proofs.Register.Circles
import DeviceModel.Proofs.Register.Contents
import DeviceModel.Proofs.Register.Keys
import DeviceModel.Proofs.Register.Lengths
import DeviceModel.Proofs.Register.Measure
import DeviceModel.Proofs.Register.References
import DeviceModel.Proofs.Register.Rows
import DeviceModel.Proofs.Register.Settling
import DeviceModel.Proofs.Register.Sums
import DeviceModel.Proofs.Register.Tiling
import DeviceModel.Proofs.Register.UpToDate
import DeviceModel.Proofs.Register.Updating
import DeviceModel.Proofs.Rules.ArrayElements
import DeviceModel.Proofs.Rules.ArrayTrees
import DeviceModel.Proofs.Rules.Arrays
import DeviceModel.Proofs.Rules.ByHand
import DeviceModel.Proofs.Rules.Demands
import DeviceModel.Proofs.Rules.Generated
import DeviceModel.Proofs.Rules.NewNodes
import DeviceModel.Proofs.Rules.Offers
import DeviceModel.Proofs.Rules.Originals
import DeviceModel.Proofs.Rules.SharedSearches
import DeviceModel.Proofs.Schema.Accepting
import DeviceModel.Proofs.Schema.Attributes
import DeviceModel.Proofs.Schema.Entering
import DeviceModel.Proofs.Smdx.RoundTrip
import DeviceModel.Proofs.Supply
import DeviceModel.Proofs.Text.Decimal
import DeviceModel.Proofs.Text.Digits
import DeviceModel.Proofs.Text.Uuid
import DeviceModel.Proofs.Tree.Changes
import DeviceModel.Proofs.Tree.Children
import DeviceModel.Proofs.Tree.Editing
import DeviceModel.Proofs.Tree.Links
import DeviceModel.Proofs.Tree.Listings
import DeviceModel.Proofs.Tree.Moving
import DeviceModel.Proofs.Tree.Places
import DeviceModel.Proofs.Tree.Relabel
import DeviceModel.Proofs.Tree.Spreading
import DeviceModel.Proofs.Tree.Trail
import DeviceModel.Proofs.Tree.Traversal
import DeviceModel.Proofs.Tree.Validity
import DeviceModel.Proofs.Workspace.ArrayEdits
import DeviceModel.Proofs.Workspace.ArrayRows
import DeviceModel.Proofs.Workspace.Arrays
import DeviceModel.Proofs.Workspace.Changing
import DeviceModel.Proofs.Workspace.Committing
import DeviceModel.Proofs.Workspace.DroppedSettings
import DeviceModel.Proofs.Workspace.EditShapes
import DeviceModel.Proofs.Workspace.ExpandAll
import DeviceModel.Proofs.Workspace.ExpandedChecks
import DeviceModel.Proofs.Workspace.Failing
import DeviceModel.Proofs.Workspace.HandEdits
import DeviceModel.Proofs.Workspace.ImportedModels
import DeviceModel.Proofs.Workspace.ImportedParameters
import DeviceModel.Proofs.Workspace.ImportedPoints
import DeviceModel.Proofs.Workspace.Importing
import DeviceModel.Proofs.Workspace.Indexing
import DeviceModel.Proofs.Workspace.ModelBlocks
import DeviceModel.Proofs.Workspace.Outcomes
import DeviceModel.Proofs.Workspace.Policies
import DeviceModel.Proofs.Workspace.RegisterRuns
import DeviceModel.Proofs.Workspace.Remade
import DeviceModel.Proofs.Workspace.Requests
import DeviceModel.Proofs.Workspace.RowEdits
import DeviceModel.Proofs.Workspace.ScopeEdits
import DeviceModel.Proofs.Workspace.SeededViews
import DeviceModel.Proofs.Workspace.Selectors
import DeviceModel.Proofs.Workspace.Succeeding
import DeviceModel.Proofs.Workspace.Syncing
import DeviceModel.Proofs.Workspace.Tables
import DeviceModel.Proofs.Workspace.ViewCoverage
import DeviceModel.Proofs.Workspace.Views
import DeviceModel.Proofs.Workspace.Watching
import DeviceModel.Proofs.Xml.Tokens
import DeviceModel.Register.Layout
import DeviceModel.Register.Map
import DeviceModel.Register.PointType
import DeviceModel.Rules.Anomalies
import DeviceModel.Rules.Basic
import DeviceModel.Rules.Can
import DeviceModel.Rules.Parameters
import DeviceModel.Rules.Register
import DeviceModel.Schema.Attribute
import DeviceModel.Schema.Data
import DeviceModel.Schema.Field
import DeviceModel.Schema.Kind
import DeviceModel.Schema.Value
import DeviceModel.Smdx.Basic
import DeviceModel.Smdx.Document
import DeviceModel.Smdx.Export
import DeviceModel.Smdx.Reader
import DeviceModel.Smdx.Search
import DeviceModel.Smdx.Writer
import DeviceModel.Supply
import DeviceModel.Text.Blank
import DeviceModel.Text.Cut
import DeviceModel.Text.Integer
import DeviceModel.Text.LowerCase
import DeviceModel.Text.Quoted
import DeviceModel.Tree.Basic
import DeviceModel.Tree.Lookup
import DeviceModel.Uuid
import DeviceModel.ValueSet
import DeviceModel.Workspace.Basic
import DeviceModel.Workspace.Edits
import DeviceModel.Workspace.Import
import DeviceModel.Workspace.Model
import DeviceModel.Xml.Basic
import DeviceModel.Xml.Cursor
import DeviceModel.Xml.Reader
import DeviceModel.Xml.Token
