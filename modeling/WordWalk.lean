import WordWalk.Disk
import WordWalk.Document.Route
import WordWalk.FlatChart
import WordWalk.Main
import WordWalk.Proofs.GraphAdditions
import WordWalk.Proofs.BinaryRules
import WordWalk.Proofs.Derivation
import WordWalk.Proofs.Normalization
import WordWalk.Proofs.Saturation
import WordWalk.Proofs.Language
import WordWalk.Proofs.Tables
import WordWalk.Proofs.Chart
import WordWalk.Proofs.Recognition
import WordWalk.Proofs.SearchInvariant
import WordWalk.Proofs.SearchTermination
import WordWalk.Proofs.SearchReport
import WordWalk.Proofs.SearchTruncation
import WordWalk.Proofs.SearchCircles
import WordWalk.Proofs.SearchTrace
import WordWalk.Proofs.Preorder
import WordWalk.Proofs.SearchOrder
import WordWalk.Proofs.SearchLimits
import WordWalk.Proofs.Provenance
import WordWalk.Proofs.Accounts
import WordWalk.Proofs.Cells
import WordWalk.Proofs.ChartTrace
import WordWalk.Proofs.Reachability
import WordWalk.Proofs.SearchEpisodes
import WordWalk.Proofs.SearchDependence
import WordWalk.Proofs.RoundTrip
import WordWalk.Proofs.UnitRules
import WordWalk.FileLaws
import WordWalk.Proofs.FileFrame
import WordWalk.Proofs.DiskLaws
import WordWalk.Proofs.Recording
import WordWalk.Proofs.LogFile
import WordWalk.Proofs.RunResults
import WordWalk.Proofs.Delivery
import WordWalk.Proofs.Verbosity
import WordWalk.Proofs.Contents
import WordWalk.Proofs.CheckedBuild
import WordWalk.Proofs.BuildFaults
import WordWalk.Proofs.Strictness
import WordWalk.Proofs.Naming
import WordWalk.Proofs.DocumentFaults
import WordWalk.Proofs.FindingsDocument
import WordWalk.Proofs.FlatChart
import WordWalk.Proofs.Flushing
