import MergeBot.Foundation.HashBiMap
import MergeBot.Foundation.ShrinkingScan
import MergeBot.Foundation.NestedScan
import MergeBot.Foundation.Lines
import MergeBot.Foundation.Placement
import MergeBot.Foundation.Anchors
import MergeBot.Foundation.Forest
import MergeBot.Foundation.Runs
import MergeBot.Foundation.FirstOccurrences
import MergeBot.Foundation.Kahn
import MergeBot.Foundation.Replacement
import MergeBot.Foundation.RingBuffer
import MergeBot.Foundation.Headings
import MergeBot.Foundation.Segments
import MergeBot.Foundation.BoundedLines
import MergeBot.Foundation.BlankRuns
import MergeBot.Foundation.SortedLists
import MergeBot.Foundation.Timeline
import MergeBot.Foundation.InOrder
import MergeBot.Foundation.KeyedTable
import MergeBot.Foundation.CStrings
import MergeBot.Foundation.Doubles
import MergeBot.Foundation.EditScripts
import MergeBot.Foundation.BlockHash
import MergeBot.Model.SemanticNode
import MergeBot.Model.TwoWayMatching
import MergeBot.Conflict.Scanner
import MergeBot.Conflict.MarkerLines
import MergeBot.Conflict.BufferBounds
import MergeBot.Conflict.EditorBlocks
import MergeBot.Conflict.EditorMarkers
import MergeBot.Conflict.RoundTrip
import MergeBot.Semantic.GraphMatcher
import MergeBot.Semantic.WeightedMatcher
import MergeBot.Semantic.GreedyMatcher
import MergeBot.Semantic.GraphMerger
import MergeBot.Semantic.MergedRecord
import MergeBot.Semantic.Mirror
import MergeBot.Semantic.MergeRun
import MergeBot.Semantic.ChildOrder
import MergeBot.Semantic.InsertionPlaces
import MergeBot.Semantic.TheirAdditions
import MergeBot.Semantic.OneSidedMerge
import MergeBot.Semantic.UnionMerge
import MergeBot.Semantic.CommentOwners
import MergeBot.Semantic.Indentation
import MergeBot.Semantic.PrettyPrinter
import MergeBot.Semantic.PrintedUnit
import MergeBot.Semantic.AccessLabels
import MergeBot.Semantic.AccessPlaces
import MergeBot.Semantic.SyntaxTree
import MergeBot.Semantic.GraphBuilder
import MergeBot.Semantic.BuiltGraph
import MergeBot.Semantic.BuiltForest
import MergeBot.Semantic.Representation
import MergeBot.Semantic.BuiltSources
import MergeBot.Semantic.MergeOrder
import MergeBot.Semantic.BuiltMerge
import MergeBot.Semantic.BottomUpMatch
import MergeBot.Semantic.ThreeWayMerge
import MergeBot.Utils.DependencyGraph
import MergeBot.Utils.CommentRemoval
import MergeBot.Utils.MacroExpansion
import MergeBot.Utils.FileChunks
import MergeBot.Utils.Similarity
import MergeBot.Utils.SpaceComparison
import MergeBot.Utils.ThreadPool
import MergeBot.Handler.Resolution
import MergeBot.Handler.Conservation
import MergeBot.Handler.Chain
import MergeBot.Handler.Sides
import MergeBot.Handler.BlockLookup
import MergeBot.Handler.OneSideDelta
import MergeBot.Handler.ListMerge
import MergeBot.Handler.PathNames
import MergeBot.Handler.StringPieces
import MergeBot.Handler.Inclusion
import MergeBot.Handler.CommentedLists
import MergeBot.Server.Cache
import MergeBot.Server.Manifest
import MergeBot.Server.Scenario
import MergeBot.Server.Exclusion
import MergeBot.Server.ScenarioNames
import MergeBot.Server.LockedFile
import MergeBot.Server.CompDB
import MergeBot.Utils.Sha1
import MergeBot.Lsp.Pipe
import MergeBot.Lsp.Framing
import MergeBot.Lsp.Endpoint
import MergeBot.Lsp.Calls
import MergeBot.Lsp.Uri
import MergeBot.Editor.DiffHunks
import MergeBot.Editor.SemanticPatch
import MergeBot.Editor.OfferedPatches
import MergeBot.Editor.Fingerprints
import MergeBot.Editor.Store
import MergeBot.Editor.Resolutions
import MergeBot.Editor.BlockSearch
import MergeBot.Editor.History
import MergeBot.Editor.RemainingBlocks
import MergeBot.Editor.FreshFile
import MergeBot.Manager.FileRecords
import MergeBot.Manager.BlockTuples
