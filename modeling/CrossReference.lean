import CrossReference.Load
import CrossReference.Proofs.Import.Absorption
import CrossReference.Proofs.Reading.Lossless
import CrossReference.Proofs.Workspace.Sync
import CrossReference.Proofs.Workspace.Store
import CrossReference.Proofs.Text.Substitution
import CrossReference.Proofs.Text.Facing
import CrossReference.Proofs.Symbols.History
import CrossReference.Proofs.Reading.Naming
import CrossReference.Proofs.Symbols.Growth
import CrossReference.Proofs.Tree.Within
import CrossReference.Proofs.Symbols.Targets
import CrossReference.Proofs.Reference.Landing
import CrossReference.Proofs.Tree.Spread
import CrossReference.Proofs.Tree.Counterpart
import CrossReference.Proofs.Symbols.Parallel
import CrossReference.Proofs.Workspace.FixAll
import CrossReference.Proofs.Workspace.FixFrame
import CrossReference.Proofs.Reading.Layout
import CrossReference.Proofs.Reading.Contract
import CrossReference.Proofs.Reading.Shape
import CrossReference.Proofs.Tree.Children
import CrossReference.Proofs.Printing.Lexeme
import CrossReference.Proofs.Reading.Leads
import CrossReference.Proofs.Printing.Expression
import CrossReference.Proofs.Printing.Declaration
import CrossReference.Proofs.Printing.Forms
import CrossReference.Proofs.Reference.Message
import CrossReference.Proofs.Printing.Class
import CrossReference.Proofs.Reference.Page
import CrossReference.Proofs.Reference.Listing
import CrossReference.Proofs.Printing.Quotation
import CrossReference.Proofs.Scanning.Delimiter
import CrossReference.Proofs.Printing.Separated
import CrossReference.Proofs.Printing.Member
import CrossReference.Proofs.Printing.NameChain
import CrossReference.Proofs.Printing.Literal
import CrossReference.Proofs.Printing.ClassSource
import CrossReference.Proofs.Symbols.Access
import CrossReference.Proofs.Reference.Picture
import CrossReference.Proofs.Json.Grammar
import CrossReference.Proofs.Reference.KeyScan
import CrossReference.Proofs.Reference.CatalogEntry
import CrossReference.Proofs.Tree.Leaves
import CrossReference.Proofs.Tree.ChainRoot
import CrossReference.Proofs.Reference.Navigation
import CrossReference.Proofs.Reference.Marker
import CrossReference.Proofs.Reading.Application
import CrossReference.Proofs.Import.CalledName
import CrossReference.Proofs.Text.Escape
import CrossReference.Proofs.Text.Stuck
import CrossReference.Proofs.Reading.Parting
import CrossReference.Proofs.Reading.Progress
import CrossReference.Proofs.Reading.Reports
import CrossReference.Proofs.Tree.ChainNames
import CrossReference.Proofs.Symbols.Tight
import CrossReference.Proofs.Reading.Edges
import CrossReference.Proofs.Workspace.Resource
import CrossReference.Proofs.Path.Components
import CrossReference.Proofs.Text.Bytes
import CrossReference.Proofs.Text.Lines
import CrossReference.Proofs.Disk.Walk
import CrossReference.Proofs.Reference.Density
import CrossReference.Proofs.Workspace.Innermost
import CrossReference.Proofs.Symbols.Depth
import CrossReference.Proofs.Reading.Quiet
import CrossReference.Proofs.Reading.Skimming
import CrossReference.Proofs.Reading.TypeLookahead
