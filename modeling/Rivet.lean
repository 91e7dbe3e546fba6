import Rivet.Alloc.HeapRuns
import Rivet.Alloc.Slab
import Rivet.Assembler.Backend
import Rivet.Assembler.Comments
import Rivet.Assembler.Constants
import Rivet.Assembler.Cursor
import Rivet.Assembler.Strings
import Rivet.Assembler.SymbolMap
import Rivet.Bitmap
import Rivet.Codec.Base64Input
import Rivet.Disassembler.Partition
import Rivet.Image.Bursts
import Rivet.Image.Elf
import Rivet.Image.Fat
import Rivet.Image.FdtInput
import Rivet.Image.IhexInput
import Rivet.Image.Padded
import Rivet.Image.Segments
import Rivet.Image.Sha256
import Rivet.Kernel.CacheMisses
import Rivet.Kernel.HashDelete
import Rivet.Kernel.RamfsNames
import Rivet.Kernel.RamfsStorage
import Rivet.Kernel.RoundRobin
import Rivet.Kernel.Sequences
import Rivet.Kernel.Signal
import Rivet.Kernel.Sleepers
import Rivet.Kernel.SlotReuse
import Rivet.Kernel.VfsCalls
import Rivet.Linker.Placement
import Rivet.Net.Arp
import Rivet.Net.Checksum
import Rivet.Paging.Permissions
import Rivet.Rand
import Rivet.Riscv32.Faithful
import Rivet.Riscv32.Registers
import Rivet.Str.Copy
import Rivet.Str.Format
import Rivet.Sync.MutexOwner
import Rivet.Sync.PipeDelivery
import Rivet.Sync.SleepLocks
import Rivet.Sync.Tty
import Rivet.Time.Clock
import Rivet.Time.Rtc
import Rivet.Time.Tasks
import Rivet.Tools.Strings
import Rivet.X86.Carried
import Rivet.X86.Listed
import Rivet.X86.Reassembly
