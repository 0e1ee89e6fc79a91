import AsmListing.CommandLine.Run
import AsmListing.Main
import AsmListing.Proofs.Lines
import AsmListing.Proofs.Resolution
import AsmListing.Proofs.Removal
import AsmListing.Proofs.Disk
import AsmListing.Proofs.LooseText
import AsmListing.Proofs.Utf8
import AsmListing.Proofs.Encoding
import AsmListing.Proofs.Store
import AsmListing.Proofs.StoredText
import AsmListing.Proofs.SolidLines
import AsmListing.Proofs.StoredRemoval
import AsmListing.Proofs.Collapse
import AsmListing.Proofs.Chapters
import AsmListing.Proofs.Layout
import AsmListing.Proofs.Declarations
import AsmListing.Proofs.RoundTrip
import AsmListing.Proofs.Agreement
import AsmListing.Proofs.Outline
import AsmListing.Proofs.Remainder
import AsmListing.Proofs.FailedRemoval
import AsmListing.Proofs.Replacement
import AsmListing.Proofs.Strike
import AsmListing.Proofs.RemovalOrder
import AsmListing.Proofs.BreakStyle
import AsmListing.Proofs.BreakStyleRemoval
import AsmListing.Proofs.ByteSegment
import AsmListing.Proofs.TextOrder
import AsmListing.Proofs.CallGraph
import AsmListing.Proofs.Draft
import AsmListing.Proofs.Component
import AsmListing.Proofs.LeafFirst
import AsmListing.Proofs.Tree
import AsmListing.Proofs.ValidSettings
import AsmListing.Proofs.SettingsWrite
import AsmListing.Proofs.ChangeReport
import AsmListing.Proofs.CommandFrame
import AsmListing.Proofs.QuotedText
import AsmListing.Proofs.PrintedJson
import AsmListing.Proofs.PlainJson
import AsmListing.Proofs.ReadJson
import AsmListing.Proofs.SettingsMerge
import AsmListing.Proofs.RejectedWrite
import AsmListing.Proofs.UnusableSettings
import AsmListing.Proofs.SortedJson
import AsmListing.Proofs.Arguments
import AsmListing.Proofs.TidySettings
import AsmListing.Proofs.SettingsRuns
import AsmListing.Proofs.BufferRuns
import AsmListing.Proofs.Blocks
import AsmListing.Proofs.Cycles
import AsmListing.Proofs.Attribution
import AsmListing.Proofs.Exhaustion
import AsmListing.Proofs.SoleRoutine
import AsmListing.Proofs.BlankRunSearch
import AsmListing.Proofs.CollapsedListing
import AsmListing.Proofs.FirstFound
import AsmListing.Proofs.MarkerGrammar
import AsmListing.Proofs.ReferenceForms
import AsmListing.Proofs.PathText
import AsmListing.Proofs.Walk
import AsmListing.Proofs.Discovery
import AsmListing.Proofs.Subdirectory
import AsmListing.Proofs.Terminator
import AsmListing.Proofs.AlignedTable
