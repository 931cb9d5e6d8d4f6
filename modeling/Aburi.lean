import Aburi.Backend.FastWideValues
import Aburi.Air.DefBeforeUse
import Aburi.Air.Semantics
import Aburi.Air.Points
import Aburi.Air.SingleAssignment
import Aburi.Air.InstSimplify
import Aburi.Air.ResultReplacement
import Aburi.Air.IntegerFolding
import Aburi.Air.OperandTypes
import Aburi.Air.SimplifyInstSound
import Aburi.Air.InstSimplifySound
import Aburi.Backend.AArch64.Frame
import Aburi.Backend.AArch64.FrameSound
import Aburi.Backend.EdgeStores
import Aburi.Backend.EdgeStoresSound
import Aburi.Backend.FastValueSteps
import Aburi.Backend.FastValueInsts
import Aburi.Backend.FastValuesPreserved
import Aburi.Lib.Rounding
import Aburi.Numeric.FloatValues
import Aburi.Numeric.CorrectRounding
import Aburi.Numeric.RoundRational
import Aburi.Numeric.Arithmetic
import Aburi.Numeric.Parse
import Aburi.Numeric.Literals
import Aburi.Numeric.RoundingUnique
import Aburi.Numeric.ParseCorrect
import Aburi.Assembler.Unit
import Aburi.Assembler.Expand
import Aburi.Assembler.Layout
import Aburi.Assembler.Positions
import Aburi.Assembler.Tracking
import Aburi.Assembler.FinalPositions
import Aburi.Backend.EhMetadata
import Aburi.Backend.Lsda
import Aburi.Backend.LsdaSize
import Aburi.Backend.LsdaActions
import Aburi.Backend.LsdaTypes
import Aburi.Backend.LsdaSound
import Aburi.Cir.Types
import Aburi.Cir.StructuralEquality
import Aburi.Cir.Forms
import Aburi.Cir.StructuralEqualitySound
import Aburi.Cir.InternFile
import Aburi.Cir.InternTypeSound
import Aburi.Cir.InternExprSound
import Aburi.Cir.InternExprSettled
import Aburi.Cir.InterningCanonical
import Aburi.Constexpr.PpTokens
import Aburi.Constexpr.PpConstExpr
import Aburi.Constexpr.PpGrammar
import Aburi.Constexpr.PpParserSound
import Aburi.Constexpr.PpUnambiguous
import Aburi.Constexpr.IntegerValues
import Aburi.Constexpr.PpConstExprSound
import Aburi.Backend.Elf
import Aburi.Backend.ElfReader
import Aburi.Backend.ElfTables
import Aburi.Backend.ElfLayout
import Aburi.Backend.ElfRecords
import Aburi.Backend.ElfSymbols
import Aburi.Backend.ElfLossless
import Aburi.Backend.MachO
import Aburi.Backend.MachOReader
import Aburi.Backend.MachOContents
import Aburi.Backend.MachOSymbols
import Aburi.Backend.MachOFile
import Aburi.Backend.MachOLossless
import Aburi.Cir.FileTables
import Aburi.Cir.FileCalls
import Aburi.Cir.FileUndo
import Aburi.Cir.FileKeeps
import Aburi.Cir.CallsKeep
import Aburi.Cir.FileRuns
import Aburi.Cir.RollbackRestores
import Aburi.Adinkra.Tree
import Aburi.Lib.RedBlack
import Aburi.Adinkra.TreeEdits
import Aburi.Adinkra.TreeWalk
import Aburi.Adinkra.TreeInsert
import Aburi.Adinkra.TreeErase
import Aburi.Adinkra.TreeBalanced
import Aburi.Adinkra.Map
import Aburi.Adinkra.MapReference
import Aburi.Adinkra.MapSearch
import Aburi.Adinkra.MapKeeps
import Aburi.Adinkra.MapOperations
import Aburi.Adinkra.MapHistories
import Aburi.Adinkra.Regex
import Aburi.Lib.OrderedChoice
import Aburi.Adinkra.RegexVm
import Aburi.Adinkra.RegexNfa
import Aburi.Backend.Or1kBranch
import Aburi.Collect.TemplateEquivalence
import Aburi.Lib.MonotoneForms
import Aburi.Collect.ConstraintNormalForm
import Aburi.Collect.TemplateEquivalenceSound
import Aburi.Collect.ConstraintIdentity
import Aburi.Collect.ConstraintSubsumption
import Aburi.Collect.ConstraintOrder
import Aburi.Layout.Types
import Aburi.Lib.FirstFit
import Aburi.Layout.RecordLayout
import Aburi.Layout.Subobjects
import Aburi.Layout.PlatformLayout
import Aburi.Layout.PlatformAgreement
import Aburi.Layout.UniqueAddresses
import Aburi.Layout.LayoutSound
import Aburi.Collect.ConversionAntisymmetry
import Aburi.Lib.Tournament
import Aburi.Collect.TemplateOrder
import Aburi.Collect.Overload
import Aburi.Collect.OverloadOrder
import Aburi.Numeric.Underflow
import Aburi.Lib.Words
import Aburi.Numeric.BigUInt
import Aburi.Numeric.BigUIntText
import Aburi.Numeric.Remainder
import Aburi.Numeric.IntegerConversion
import Aburi.Backend.ParallelCopies
import Aburi.Lib.DominatorIteration
import Aburi.Air.DominatorSearch
import Aburi.Air.DominatorComplete
import Aburi.Air.DominatorCorrect
import Aburi.Air.SimplifyCfg
import Aburi.Air.SimplifyCfgEnds
import Aburi.Backend.AArch64.FrameSaves
import Aburi.Backend.X86.Frame
import Aburi.Backend.X86.FrameSaves
import Aburi.Backend.FrameLayouts
import Aburi.Assembler.FieldBytes
import Aburi.Assembler.Relaxation
import Aburi.Backend.AArch64.BitmaskImmediate
import Aburi.Backend.AArch64.MoveImmediate
import Aburi.Lib.FloorTable
import Aburi.Source.PragmaState
import Aburi.Adinkra.MapDepth
import Aburi.Adinkra.Rotate
import Aburi.Adinkra.Charconv
import Aburi.Source.HideSets
