import E9Patch.A64Branches
import E9Patch.AnalysisTheorems
import E9Patch.DiscoveryTheorems
import E9Patch.DiffTheorems
import E9Patch.LiveReloadBounds
import E9Patch.SymbolExport
import E9Patch.Xrefs
import E9Patch.ZipEnd
import E9Patch.AddressLists
import E9Patch.AllocPlacement
import E9Patch.ApeTranslation
import E9Patch.BinPatchFailure
import E9Patch.BinPatchTheorems
import E9Patch.BranchMachine
import E9Patch.CFGTargets
import E9Patch.CFRTheorems
import E9Patch.CSVTables
import E9Patch.CaveTheorems
import E9Patch.CompositeTrampolines
import E9Patch.DecompileTheorems
import E9Patch.Demangling
import E9Patch.Desync
import E9Patch.DwarfLines
import E9Patch.DynamicSymbols
import E9Patch.FailedRelocation
import E9Patch.FlattenLabels
import E9Patch.FlattenLayout
import E9Patch.FlattenReferences
import E9Patch.Hooks
import E9Patch.IdeJsonTheorems
import E9Patch.InsnSize
import E9Patch.InstrSet
import E9Patch.JsonDiscard
import E9Patch.JsonTexts
import E9Patch.JsonRoundTrip
import E9Patch.JumpTables
import E9Patch.LiteralTokens
import E9Patch.LiveReload
import E9Patch.LoadedImage
import E9Patch.LoaderModel
import E9Patch.MappingSearch
import E9Patch.MappingTheorems
import E9Patch.MatchOrder
import E9Patch.MatchSemantics
import E9Patch.OptionsTheorems
import E9Patch.OrderedSet
import E9Patch.PEReloc
import E9Patch.PrologueEntries
import E9Patch.PunnedBounds
import E9Patch.Refactor
import E9Patch.RpcStream
import E9Patch.ShortJump
import E9Patch.SymbolLookup
import E9Patch.TargetTheorems
import E9Patch.TemplateCache
import E9Patch.TrampolineBounds
import E9Patch.TrapHandler
import E9Patch.TrapTable
import E9Patch.X86Length
import E9Patch.X86Relocate
