import BorrowLang.Check.Module
import BorrowLang.Report
import BorrowLang.Ty.Reader
import BorrowLang.Typed.Display
import BorrowLang.Typed.Reborrow
import BorrowLang.Proofs.Merge
import BorrowLang.Proofs.Frames
import BorrowLang.Proofs.FrameDiscipline
import BorrowLang.Proofs.Nodes
import BorrowLang.Proofs.Runs
import BorrowLang.Proofs.Annotations
import BorrowLang.Proofs.CheckedFunctions
import BorrowLang.Proofs.CheckedBodies
import BorrowLang.Proofs.Reborrow
import BorrowLang.Proofs.ReborrowRuns
import BorrowLang.Proofs.PatternLocals
import BorrowLang.Proofs.Locals
import BorrowLang.Proofs.LocalTypes
import BorrowLang.Proofs.WellFormed
import BorrowLang.Proofs.Printing
import BorrowLang.Proofs.Places
import BorrowLang.Proofs.ReachedItems
import BorrowLang.Proofs.Denotation
import BorrowLang.Proofs.Binding
import BorrowLang.Proofs.BoundPlaces
import BorrowLang.Proofs.TypeBindings
import BorrowLang.Proofs.Finds
import BorrowLang.Proofs.SymbolTypes
import BorrowLang.Proofs.KnownSymbols
import BorrowLang.Proofs.KnownLookups
import BorrowLang.Proofs.KnownFrames
import BorrowLang.Proofs.KnownChecks
import BorrowLang.Proofs.BoundPrograms
import BorrowLang.Proofs.MethodSearch
import BorrowLang.Proofs.AliasChains
import BorrowLang.Proofs.SeparateChecks
import BorrowLang.Proofs.ReplacedBodies
import BorrowLang.Proofs.BlamelessLookups
import BorrowLang.Proofs.BlamedChecks
import BorrowLang.Proofs.BlamedPrograms
import BorrowLang.Proofs.TypeProperties
import BorrowLang.Proofs.FrameTypes
import BorrowLang.Proofs.Generics
import BorrowLang.Proofs.Matching
import BorrowLang.Proofs.VariantTypes
import BorrowLang.Proofs.Elaboration
import BorrowLang.Proofs.ScopedTypes
import BorrowLang.Proofs.ScopedPlaces
import BorrowLang.Proofs.ScopedSymbols
import BorrowLang.Proofs.ScopedChecks
import BorrowLang.Proofs.Leaks
import BorrowLang.Proofs.InherentBlocks
import BorrowLang.Proofs.ReborrowedNodes
import BorrowLang.Proofs.WrittenSizes
import BorrowLang.Proofs.InsertedBorrows
import BorrowLang.Proofs.Renaming
import BorrowLang.Proofs.TwinChecks
import BorrowLang.Proofs.RenamedChecks
import BorrowLang.Proofs.ScopeTraces
import BorrowLang.Proofs.LexicalScope
import BorrowLang.Proofs.DerefLimits
import BorrowLang.Proofs.ReboundPrograms
import BorrowLang.Proofs.CheckedTypes
import BorrowLang.Proofs.SpelledAliases
import BorrowLang.Proofs.CallArguments
import BorrowLang.Proofs.InstantiatedAliases
import BorrowLang.Proofs.ConcreteTypes
import BorrowLang.Proofs.BoundParams
import BorrowLang.Proofs.FieldAccess
import BorrowLang.Proofs.PatternParts
import BorrowLang.Proofs.ExpectedTypes
import BorrowLang.Proofs.TaillessBlocks
import BorrowLang.Proofs.TraitDefaults
import BorrowLang.Proofs.AskedNames
import BorrowLang.Proofs.BlanksAround
import BorrowLang.Proofs.PlainNames
import BorrowLang.Proofs.DeclaredItems
import BorrowLang.Proofs.RefusedTexts
