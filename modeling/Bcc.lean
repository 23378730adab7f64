import Bcc.Usdt.X64Operand
import Bcc.Usdt.TypeNames
import Bcc.Usdt.MemoryOperands
import Bcc.Usdt.X64Sequences
import Bcc.Usdt.Arity
import Bcc.Api.Release
import Bcc.Api.Keys
import Bcc.Api.ReaderRelease
import Bcc.Api.UsdtErrors
import Bcc.Rw.RoundTrip
import Bcc.Rw.Snprintf
import Bcc.Table.BatchRounds
import Bcc.Table.FirstKey
import Bcc.Table.Clear
import Bcc.Maps.Modules
import Bcc.Usdt.Genargs
import Bcc.Elf.Notes
import Bcc.Elf.ProbeOrder
import Bcc.Syms.Unresolved
import Bcc.Syms.Kallsyms
import Bcc.Syms.Relocate
import Bcc.Syms.Stale
import Bcc.Syms.Symname
import Bcc.Syms.BuildSyms
import Bcc.Zip.Path
import Bcc.Desc.SameLayout
import Bcc.Tracepoint.Layout
import Bcc.Btf.SourceTexts
import Bcc.Perf.Delivery
import Bcc.Perf.UseState
import Bcc.Perf.CpuRange
import Bcc.Export.PacketWrite
import Bcc.Load.Released
import Bcc.Load.Tag
import Bcc.Lua.Program
import Bcc.Lua.MathLog2
import Bcc.Lua.Constants
import Bcc.Lua.CompareString
import Bcc.Py.Counted
import Bcc.Tools.FindDso
import Bcc.Tools.FindSym
import Bcc.Hist.Rows
import Bcc.Hist.Sections
import Bcc.Tools.Dumped
import Bcc.Tracefs.Detach
import Bcc.Tools.Counters
