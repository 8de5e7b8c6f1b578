import TypeStubs.Main
import TypeStubs.Proofs.UnionSpellings
import TypeStubs.Proofs.ExitCodes
import TypeStubs.Proofs.Unfolding
import TypeStubs.Proofs.OverwrittenFiles
import TypeStubs.Proofs.BalancedLayers
import TypeStubs.Proofs.AttributeTypes
import TypeStubs.Proofs.Rearrangements
import TypeStubs.Proofs.DenotedDocstrings
import TypeStubs.Proofs.ReadingEnds
import TypeStubs.Proofs.ArrayStyles
import TypeStubs.Proofs.PublicNames
import TypeStubs.Proofs.ReproducedSignatures
import TypeStubs.Proofs.MemoryAddresses
import TypeStubs.Proofs.PlacedEnums
import TypeStubs.Proofs.ReadPatterns
import TypeStubs.Proofs.ReadableDocstrings
import TypeStubs.Proofs.RecoveredOverloads
import TypeStubs.Proofs.StringDefaults
import TypeStubs.Proofs.DocstringBorders
import TypeStubs.Proofs.JoinedPieces
import TypeStubs.Proofs.SelfHints
