import PackedStruct.Session
import PackedStruct.Value.Json
import PackedStruct.Proofs.Number
import PackedStruct.Proofs.Ascending
import PackedStruct.Proofs.WellFormed
import PackedStruct.Proofs.LeafPlaces
import PackedStruct.Proofs.Lookup
import PackedStruct.Proofs.LeafWrites
import PackedStruct.Proofs.CompleteTrees
import PackedStruct.Proofs.PackedNumber
import PackedStruct.Proofs.UnpackedNumber
import PackedStruct.Proofs.Normalize
import PackedStruct.Proofs.RoundTrip
import PackedStruct.Proofs.MaskText
import PackedStruct.Proofs.Admissible
import PackedStruct.Proofs.RestoredDocument
import PackedStruct.Proofs.DocumentJson
import PackedStruct.Proofs.ExportedDocument
import PackedStruct.Proofs.JsonScan
import PackedStruct.Proofs.JsonText
import PackedStruct.Proofs.DeclaredLayout
import PackedStruct.Proofs.StoredDocument
import PackedStruct.Proofs.Reachable
import PackedStruct.Proofs.DocumentRoundTrip
import PackedStruct.Proofs.DocumentEdits
import PackedStruct.Proofs.Grammar
import PackedStruct.Proofs.JoinedText
import PackedStruct.Proofs.Effects
import PackedStruct.Proofs.JoinedDefinitions
import PackedStruct.Proofs.LeafPaths
import PackedStruct.Proofs.TreeIntegers
import PackedStruct.Proofs.DumpTable
import PackedStruct.Proofs.LeafGeometry
import PackedStruct.Proofs.ByteOrders
import PackedStruct.Guarded
import PackedStruct.Proofs.GuardedBits
import PackedStruct.Proofs.ReplacedBits
import PackedStruct.Proofs.BitAccess
import PackedStruct.Proofs.GuardedPacking
import PackedStruct.Proofs.ReplacedTokens
import PackedStruct.Proofs.UnboundedPlaces
import PackedStruct.Proofs.Violations
import PackedStruct.Proofs.DottedPaths
import PackedStruct.Proofs.IndependentDefinitions
import PackedStruct.Proofs.AppendedMembers
import PackedStruct.Proofs.UnrolledArrays
import PackedStruct.Proofs.ReplacedWords
import PackedStruct.Proofs.StrippedComments
import PackedStruct.Proofs.SettledConstants
import PackedStruct.Proofs.PreparedLines
import PackedStruct.Proofs.BoundedCounts
import PackedStruct.Proofs.HexText
import PackedStruct.Proofs.LabelHistory
import PackedStruct.Proofs.CompactText
import PackedStruct.Proofs.RereadTrees
import PackedStruct.Proofs.MaskForms
