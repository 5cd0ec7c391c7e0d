import Scc.Lib.Run
import Scc.Lib.Chain
import Scc.Lib.Unrolling
import Scc.Lib.Fuel
import Scc.Lib.Numeral
import Scc.Lib.Simulation
import Scc.Lib.Splits
import Scc.Lib.Ranked
import Scc.Lib.Acyclic
import Scc.Lib.Reaching
import Scc.As.Lexer
import Scc.As.Expr
import Scc.As.Grammar
import Scc.As.ExprRun
import Scc.As.ExprOutcome
import Scc.As.ExprValue
import Scc.As.Pass
import Scc.As.FileLayout
import Scc.As.Match
import Scc.As.MatchExact
import Scc.Cc1.Conditional
import Scc.Cc1.ConditionalSelection
import Scc.Cc1.HideSet
import Scc.Cc1.SymbolTable
import Scc.Cc1.SymbolScope
import Scc.Cc1.SymbolFrame
import Scc.Cc1.Types
import Scc.Cc1.TypeSignature
import Scc.Cc1.Amd64Sysv
import Scc.Cc1.TypeTable
import Scc.Cc1.TypeInterning
import Scc.Cc1.ArrayCompletion
import Scc.Cc1.TagScope
import Scc.Cc1.Lex
import Scc.Cc1.Token
import Scc.Cc1.Macro
import Scc.Cc1.StringMacro
import Scc.Cc1.Relex
import Scc.Cc1.MacroArgument
import Scc.Cc1.Mangling
import Scc.Cc1.Substitution
import Scc.Cc1.Stringizing
import Scc.Cc1.ArgumentSurvival
import Scc.Cc1.Redeclaration
import Scc.Cc1.StaticInit
import Scc.Cc1.InitLayout
import Scc.Cc1.Condition
import Scc.Cc1.Statement
import Scc.Cc1.StatementShape
import Scc.Cc1.StatementPlace
import Scc.Cc1.SwitchValue
import Scc.Cc1.Dispatch
import Scc.Cc1.ControlFlow
import Scc.Ir.Expression
import Scc.Ir.RoundTrip
import Scc.Cc2.Op
import Scc.Cc2.Cfg
import Scc.Cc2.LabelCounts
import Scc.Cc2.Node
import Scc.Cc2.Sethi
import Scc.Cc2.Evaluation
import Scc.Cc2.Machine
import Scc.Cc2.SethiShape
import Scc.Cc2.SethiPieces
import Scc.Cc2.SethiCounting
import Scc.Cc2.SethiCorrect
import Scc.Ld.Section
import Scc.Ld.SectionLayout
import Scc.Ld.Symbol
import Scc.Libmach.Coff32Write
import Scc.Libmach.Coff32Offsets
import Scc.Make.Rules
import Scc.Make.DependencyGraph
import Scc.Make.Rebuild
import Scc.Make.Termination
import Scc.Make.OutOfDate
import Scc.Make.Meets
import Scc.Make.OneExecution
import Scc.Make.Failure
import Scc.Make.Containment
import Scc.Make.Macro
import Scc.Make.MacroPrecedence
import Scc.Lib.Shifts
import Scc.Libmach.Pack
import Scc.Libmach.PackRoundTrip
import Scc.Ar.Header
import Scc.Ar.Walkers
import Scc.Ar.Edit
import Scc.Ar.EditLaw
import Scc.Ranlib.Symbols
import Scc.Ranlib.SymbolRun
import Scc.Ranlib.Index
import Scc.Ranlib.IndexLaw
import Scc.Ranlib.Merge
import Scc.Ranlib.Run
import Scc.Ranlib.BadArchive
import Scc.Ranlib.Again
import Scc.Libmach.Coff32Record
import Scc.Libmach.Coff32Read
import Scc.Libmach.Coff32Codec
import Scc.Libmach.Coff32Entries
import Scc.Libmach.Coff32Survival
import Scc.Libmach.Coff32Build
import Scc.Libmach.Coff32Reading
import Scc.Libmach.Coff32Names
import Scc.Libmach.Coff32Sound
import Scc.As.KeywordHash
import Scc.Libc.Mbrtowc
import Scc.Cc1.Identity
import Scc.Libc.StdioRefine
import Scc.Libc.StdioStreams
import Scc.Libc.Calendar
import Scc.Cc1.Members
import Scc.Libc.Vfprintf
import Scc.Libc.Vsnprintf
import Scc.Libc.PrintfInteger
import Scc.As.Z80Emit
import Scc.As.Z80Fields
import Scc.As.Z80Recovery
import Scc.As.Z80Rows
import Scc.Cc1.FoldInt
import Scc.Cc1.FoldRange
import Scc.Cc1.AggregateLayout
import Scc.Cc1.IntegerLiteral
import Scc.Cc1.StringArray
import Scc.Cc1.Escape
import Scc.Cc1.Readline
import Scc.Cc1.Simplify
import Scc.As.Numeral
import Scc.As.LineFields
import Scc.As.OperandParse
import Scc.Cc2.SwitchRecords
import Scc.Cc2.StatementList
import Scc.As.OperandReturns
import Scc.Cc1.TypeCompatible
import Scc.Cc1.OutCpp
import Scc.Cc2.JumpTermination
import Scc.Lib.Slots
import Scc.Cc2.SwitchLowering
import Scc.Cc1.MacroBuffer
import Scc.Lib.Search
import Scc.Cc2.DeadCode
import Scc.Lib.Multiples
import Scc.As.Align
import Scc.As.Z80Branch
import Scc.As.PpcBranch
import Scc.Libmach.Coff32Relocs
import Scc.Libmach.Coff32Index
import Scc.Ld.Load
import Scc.Ld.ScanIndex
import Scc.Make.Replace
import Scc.Make.Expand
import Scc.Make.ActionLine
import Scc.Make.DollarQuoting
import Scc.Make.ExpandTermination
import Scc.Libc.Bsearch
import Scc.Libc.NumberBuffer
import Scc.Libc.PrintfCount
import Scc.Libc.Normalize
import Scc.Libc.Strftime
import Scc.Libc.StrftimeWeeks
import Scc.Libc.StrftimeItems
import Scc.Libc.StrftimeContract
import Scc.Libmach.Coff32Strings
import Scc.Lib.Rearrangement
import Scc.Libc.Qsort
import Scc.Libc.Strtol
import Scc.Libc.IsoWeek
import Scc.Libc.Strncmp
import Scc.Libc.Strtok
import Scc.Lib.Utf8
import Scc.Libc.Validutf8
import Scc.Libc.Wcsrtombs
import Scc.Lib.Threaded
import Scc.Libscc.Arenas
import Scc.Lib.Linked
import Scc.Lib.Ring
import Scc.Libc.Malloc
import Scc.Libc.MallocSearch
import Scc.Libc.Realloc
import Scc.Libc.ReadBack
