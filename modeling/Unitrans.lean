import Unitrans.X86.Mem
import Unitrans.X86.Insn
import Unitrans.X86.Code
import Unitrans.X86.Exec
import Unitrans.X86.Length
import Unitrans.Library.Ensures
import Unitrans.Library.Related
import Unitrans.Library.HashChain
import Unitrans.Library.FirstArrival
import Unitrans.Library.RadixTree
import Unitrans.Library.MaximalRuns
import Unitrans.Layout
import Unitrans.DecodeTable
import Unitrans.Decode
import Unitrans.DecodeFacts
import Unitrans.DecodeInputs
import Unitrans.InsnLength
import Unitrans.State
import Unitrans.Tb
import Unitrans.Emit
import Unitrans.Translate
import Unitrans.CpuExec
import Unitrans.EmitFacts
import Unitrans.EmitInsn
import Unitrans.PrologueFacts
import Unitrans.TbFacts
import Unitrans.Predecessors
import Unitrans.PathHistory
import Unitrans.InlineChain
import Unitrans.RetransStack
import Unitrans.CallerFacts
import Unitrans.HostContext
import Unitrans.Sieve
import Unitrans.SieveRuns
import Unitrans.SieveStat
import Unitrans.Superblock
import Unitrans.Sweep
import Unitrans.Invoked
import Unitrans.Bookkeeping
import Unitrans.StaleDecode
import Unitrans.DispatchFrame
import Unitrans.RoundTrip
import Unitrans.Links
import Unitrans.Visits
import Unitrans.Fields
import Unitrans.Pointing
import Unitrans.Progress
import Unitrans.Entry
import Unitrans.Chaining
import Unitrans.Syscall
import Unitrans.IndirectTarget
import Unitrans.OperandRoundTrip
import Unitrans.PageTable
import Unitrans.PageFlags
import Unitrans.PageRange
import Unitrans.MemoryRegions
import Unitrans.Library.Tally
import Unitrans.IndProf
import Unitrans.TargetStats
import Unitrans.MaxHit
import Unitrans.Overlap
import Unitrans.Library.Align
import Unitrans.Library.Splice
import Unitrans.LinuxLoad
import Unitrans.ElfSegments
import Unitrans.SegmentImage
import Unitrans.Library.FirstFit
import Unitrans.Mmap
import Unitrans.FindVma
import Unitrans.HostProt
import Unitrans.FixedMap
import Unitrans.FreshMap
import Unitrans.Unmap
import Unitrans.Remap
import Unitrans.VmRuns
import Unitrans.ElfTables
import Unitrans.ArgPages
import Unitrans.ArgTables
import Unitrans.Library.KeyedList
import Unitrans.Envlist
import Unitrans.EnvlistMap
import Unitrans.EnvlistFailure
