import AexKernel.Dev.Sata
import AexKernel.Dev.Terminal
import AexKernel.Elf.References
import AexKernel.Elf.ZeroFill
import AexKernel.Fs.Iso9660
import AexKernel.Fs.Lookup
import AexKernel.Ipc.MessageQueue
import AexKernel.Ipc.SimpleEvent
import AexKernel.Mem.AddressSpace
import AexKernel.Mem.BufferThreads
import AexKernel.Mem.HeapGrowth
import AexKernel.Mem.KernelShare
import AexKernel.Mem.MMapConserve
import AexKernel.Mem.PhysInit
import AexKernel.Mem.SmartArray
import AexKernel.Mem.Vector
import AexKernel.Net.ArpTable
import AexKernel.Net.TcpAck
import AexKernel.Net.TcpClose
import AexKernel.Net.TcpFlow
import AexKernel.Net.TcpHandshake
import AexKernel.Net.TcpLayer
import AexKernel.Net.TcpLocking
import AexKernel.Net.TcpLossless
import AexKernel.Net.TcpOrder
import AexKernel.Net.TcpReaders
import AexKernel.Net.TcpScan
import AexKernel.Net.TcpSpoof
import AexKernel.Net.UdpPorts
import AexKernel.Net.UdpQueue
import AexKernel.Proc.ChildWait
import AexKernel.Proc.ProcessExit
import AexKernel.Proc.Signals
import AexKernel.Proc.TaskLists
import AexKernel.Sync.RWLock
import AexKernel.Sys.Time
import AexKernel.Syscall.Cwd
import AexKernel.Syscall.Descriptors
import AexKernel.Syscall.Read
import AexKernel.Syscall.UidTree
