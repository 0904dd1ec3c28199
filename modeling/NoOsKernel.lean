import NoOsKernel.Fs.Layout
import NoOsKernel.Lib.Runs
import NoOsKernel.Trans.Autotune
import NoOsKernel.Fs.NoosFs
import NoOsKernel.Fs.Primitives
import NoOsKernel.Fs.Invariant
import NoOsKernel.Fs.FileOps
import NoOsKernel.Fs.DirOps
import NoOsKernel.Fs.Mount
import NoOsKernel.Fs.Session
import NoOsKernel.Fs.Reboot
import NoOsKernel.Fs.Durability
import NoOsKernel.Lib.Radix
import NoOsKernel.Mm.Pmm
import NoOsKernel.Mm.Vmm
import NoOsKernel.Mm.AddressSpace
import NoOsKernel.Mm.ModelWindow
import NoOsKernel.Mm.Swap
import NoOsKernel.Mm.Sched
import NoOsKernel.Mm.Syscall
import NoOsKernel.Mm.Residency
import NoOsKernel.Mm.KernelInv
import NoOsKernel.Mm.Ownership
import NoOsKernel.Mm.Puts
import NoOsKernel.Lib.CodeBuf
import NoOsKernel.Noc.Ast
import NoOsKernel.Noc.Bytecode
import NoOsKernel.Noc.Compiler
import NoOsKernel.Noc.Vm
import NoOsKernel.Noc.Emit
import NoOsKernel.Noc.Layout
import NoOsKernel.Lib.StepIndex
import NoOsKernel.Noc.Depth
import NoOsKernel.Noc.Session
import NoOsKernel.Noc.Step
import NoOsKernel.Noc.Safety
import NoOsKernel.Noc.Correctness
import NoOsKernel.Noc.LineCorrect
import NoOsKernel.Fs.DirMap
import NoOsKernel.Fs.Regions
import NoOsKernel.Fs.Boot
import NoOsKernel.Lib.Layers
import NoOsKernel.Mm.SwapRegion
import NoOsKernel.Lib.KeyedList
import NoOsKernel.Noc.FnTable
import NoOsKernel.Noc.Exec
import NoOsKernel.Noc.Isolation
import NoOsKernel.Lib.LinkedList
import NoOsKernel.Mm.Blocks
import NoOsKernel.Mm.Frames
import NoOsKernel.Mm.Heap
import NoOsKernel.Mm.HeapRep
import NoOsKernel.Mm.HeapRuns
import NoOsKernel.Noc.Reentry
import NoOsKernel.Noc.Arity
import NoOsKernel.Lib.Window
import NoOsKernel.Log.Interact
import NoOsKernel.Log.Records
import NoOsKernel.Log.Idle
import NoOsKernel.Trans.Session
import NoOsKernel.Trans.Bounds
import NoOsKernel.Lib.Accesses
import NoOsKernel.Trans.Forward
import NoOsKernel.Trans.Workspace
import NoOsKernel.Lib.BitCount
import NoOsKernel.Mm.Budget
import NoOsKernel.Mm.Translate
import NoOsKernel.Sched.Switch
import NoOsKernel.Sched.Invariant
import NoOsKernel.Sched.KeyWait
import NoOsKernel.Lib.SlotPool
import NoOsKernel.Mm.SwapTable
import NoOsKernel.Mm.SwapPages
import NoOsKernel.Mm.SwapRuns
import NoOsKernel.Mm.Loading
import NoOsKernel.Mm.Residue
import NoOsKernel.Lib.Refusal
import NoOsKernel.Lib.Region
import NoOsKernel.Noc.Fragment
import NoOsKernel.Noc.ShortCircuit
import NoOsKernel.Noc.Increment
import NoOsKernel.Fs.Capacity
import NoOsKernel.Fs.Contents
import NoOsKernel.Fs.Exits
import NoOsKernel.Fs.Atomic
import NoOsKernel.Fs.SaveFile
import NoOsKernel.Fs.Restore
import NoOsKernel.Fs.RunScript
import NoOsKernel.Mm.ScriptCopy
import NoOsKernel.Kern.Format
import NoOsKernel.Noc.DivTrap
import NoOsKernel.Noc.Format
import NoOsKernel.Kern.FormatLaws
import NoOsKernel.Noc.FormatSpec
import NoOsKernel.Lib.Dialog
import NoOsKernel.Lib.Scan
import NoOsKernel.Mm.HeapSizes
import NoOsKernel.Noc.Token
import NoOsKernel.Noc.Arena
import NoOsKernel.Noc.Lexer
import NoOsKernel.Noc.LexerLaws
import NoOsKernel.Noc.LexerBounds
import NoOsKernel.Noc.LexerPrint
import NoOsKernel.Noc.Parser
import NoOsKernel.Noc.ParserBounds
import NoOsKernel.Noc.ParserPrint
import NoOsKernel.Noc.ParserInverse
import NoOsKernel.Lib.CellRing
import NoOsKernel.Drivers.Kbd
import NoOsKernel.Drivers.KeyQueue
import NoOsKernel.Lib.Latch
import NoOsKernel.Drivers.Modifiers
import NoOsKernel.Drivers.KeyWake
import NoOsKernel.Log.Escape
import NoOsKernel.Log.Checkpoint
import NoOsKernel.Lib.Recent
import NoOsKernel.Lib.Tally
import NoOsKernel.Lib.Bigram
import NoOsKernel.Noc.Predict
import NoOsKernel.Lib.Bump
import NoOsKernel.Mm.FreeFrames
import NoOsKernel.Mm.UserHeap
import NoOsKernel.Lib.Postorder
import NoOsKernel.Mm.SpaceGrowth
import NoOsKernel.Mm.Teardown
import NoOsKernel.Mm.SpawnFrames
import NoOsKernel.Mm.SpawnWhole
import NoOsKernel.Mm.WeightWindow
import NoOsKernel.Trans.Degrade
import NoOsKernel.Lib.Tiling
import NoOsKernel.Trans.Layout
import NoOsKernel.Trans.Rsqrt
import NoOsKernel.Lib.StoreLog
import NoOsKernel.Trans.Init
import NoOsKernel.Lib.Triple
import NoOsKernel.Noc.Log2
import NoOsKernel.Trans.Backward
import NoOsKernel.Trans.Effects
import NoOsKernel.Trans.Adjoint
import NoOsKernel.Trans.LnCover
import NoOsKernel.Trans.Attention
import NoOsKernel.Trans.Shares
import NoOsKernel.Trans.Causal
import NoOsKernel.Noc.Histories
import NoOsKernel.Trans.Update
import NoOsKernel.Kern.Digits
import NoOsKernel.Fs.FreeSpace
import NoOsKernel.Fs.Budget
import NoOsKernel.Fs.CorpusCommit
import NoOsKernel.Fs.Rollback
import NoOsKernel.Lib.Cursor
import NoOsKernel.Kern.Str
import NoOsKernel.Kern.Line
import NoOsKernel.Kern.LineEdit
import NoOsKernel.Kern.History
import NoOsKernel.Noc.LineResult
import NoOsKernel.Lib.Saturate
import NoOsKernel.Noc.Train
import NoOsKernel.Noc.Exhaustion
import NoOsKernel.Lib.Yields
import NoOsKernel.Noc.Grammar
import NoOsKernel.Noc.GrammarParse
