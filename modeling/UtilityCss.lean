import UtilityCss.Arbitrary
import UtilityCss.Declarations
import UtilityCss.Font.Subset
import UtilityCss.Markup
import UtilityCss.Page.Session
import UtilityCss.Remote.Load
import UtilityCss.Json.Reader
import UtilityCss.Log
import UtilityCss.Stylesheet.Aggregator
import UtilityCss.Text.FixedPoint
import UtilityCss.Path
import UtilityCss.Glob.PatternSet
import UtilityCss.Watch.Filter
import UtilityCss.Command.Arguments
import UtilityCss.Command.LogFilter
import UtilityCss.Project.ConfigFile
import UtilityCss.Project.Scan
import UtilityCss.Main
import UtilityCss.Proofs.Absorb
import UtilityCss.Proofs.Batching
import UtilityCss.Proofs.CompleteStylesheet
import UtilityCss.Proofs.Passes
import UtilityCss.Proofs.ExactlyOnce
import UtilityCss.Proofs.SessionText
import UtilityCss.Proofs.SessionUpdates
import UtilityCss.Proofs.CachedDocuments
import UtilityCss.Proofs.Attempts
import UtilityCss.Proofs.SessionMetadata
import UtilityCss.Proofs.Attributes
import UtilityCss.Proofs.PageMarkup
import UtilityCss.Proofs.IconGlyphs
import UtilityCss.Proofs.WatchedFiles
import UtilityCss.Proofs.LiteralFront
import UtilityCss.Proofs.WatchedRoots
import UtilityCss.Proofs.BuildRuns
import UtilityCss.Proofs.OutputScan
import UtilityCss.Proofs.Rebuild
import UtilityCss.Proofs.DiscoveryOrder
import UtilityCss.Proofs.FileBoundaries
import UtilityCss.Proofs.NewDirectories
import UtilityCss.Proofs.SharedKeyframes
import UtilityCss.Proofs.BuildFootprint
import UtilityCss.Proofs.WatchRuns
import UtilityCss.Proofs.NoLostChange
import UtilityCss.Proofs.CanonicalTokens
import UtilityCss.Proofs.SelectorNames
import UtilityCss.Proofs.ValueClasses
import UtilityCss.Proofs.BackgroundUrl
import UtilityCss.Proofs.ClassIdentifiers
import UtilityCss.Proofs.AttributeScan
import UtilityCss.Proofs.BatchRuns
import UtilityCss.Proofs.BracePairs
import UtilityCss.Proofs.EntryShapes
import UtilityCss.Proofs.Pauses
import UtilityCss.Proofs.CodePoints
import UtilityCss.Proofs.KeptFont
import UtilityCss.Proofs.SelectedFiles
