import Nachos.Lib.LittleEndian
import Nachos.Lib.Ownership
import Nachos.Lib.System
import Nachos.Lib.Agreement
import Nachos.Lib.Dispatcher
import Nachos.Lib.Enumeration
import Nachos.Lib.Triple
import Nachos.Lib.SortedQueue
import Nachos.Lib.Splice
import Nachos.Lib.SlotTable
import Nachos.Lib.Intervals
import Nachos.Lib.LossyChannel
import Nachos.FileSys.Disk
import Nachos.FileSys.BitMap
import Nachos.FileSys.FileHdr
import Nachos.FileSys.Allocation
import Nachos.FileSys.OpenFile
import Nachos.FileSys.ByteArrays
import Nachos.FileSys.Partial
import Nachos.FileSys.Bounds
import Nachos.FileSys.Directory
import Nachos.FileSys.FileSystem
import Nachos.FileSys.Consistency
import Nachos.FileSys.Operations
import Nachos.FileSys.Format
import Nachos.FileSys.Updates
import Nachos.FileSys.Session
import Nachos.FileSys.Copy
import Nachos.FileSys.Isolation
import Nachos.Machine.Decode
import Nachos.Machine.Memory
import Nachos.Machine.Execute
import Nachos.Machine.DelayedLoad
import Nachos.Machine.Parallel
import Nachos.Machine.Preemption
import Nachos.Machine.Translation
import Nachos.Machine.Access
import Nachos.Machine.Effect
import Nachos.Machine.Exceptions
import Nachos.Machine.Routines
import Nachos.Machine.Visibility
import Nachos.Machine.Protection
import Nachos.Threads.Interrupt
import Nachos.Threads.Kernel
import Nachos.Threads.Step
import Nachos.Threads.Control
import Nachos.Threads.Abstraction
import Nachos.Threads.Simulation
import Nachos.Threads.Semaphores
import Nachos.Threads.Lifecycle
import Nachos.Threads.RegisterFile
import Nachos.Threads.UserContext
import Nachos.Threads.Clock
import Nachos.Threads.LinkedList
import Nachos.Threads.OneTick
import Nachos.Threads.Synch
import Nachos.FileSys.SynchDisk
import Nachos.FileSys.Atomicity
import Nachos.UserProg.Noff
import Nachos.UserProg.AddrSpace
import Nachos.UserProg.Coff2noff
import Nachos.UserProg.Image
import Nachos.Network.Wire
import Nachos.Network.PostOffice
import Nachos.Network.Transit
import Nachos.Network.Delivery
import Nachos.FileSys.DirectoryMap
import Nachos.FileSys.Listing
import Nachos.Lib.WordBytes
import Nachos.Machine.Words
import Nachos.Machine.Unaligned
import Nachos.Machine.LoadPair
import Nachos.Machine.StorePair
import Nachos.Lib.Monitor
import Nachos.Threads.SynchList
import Nachos.Lib.DoubleWord
import Nachos.Machine.Mult
import Nachos.Machine.Overflow
import Nachos.Machine.Checks
import Nachos.Threads.PutBack
import Nachos.Lib.WriteLog
import Nachos.Machine.Host
import Nachos.Threads.Idle
import Nachos.Machine.ByteMemory
import Nachos.Lib.Rotation
import Nachos.Machine.DiskLatency
import Nachos.Lib.Mailbox
import Nachos.Machine.Console
import Nachos.Machine.Polling
import Nachos.Machine.Transfer
import Nachos.UserProg.ConsoleTest
import Nachos.FileSys.BitMapWords
import Nachos.Machine.TlbCopy
import Nachos.Threads.ListSequence
import Nachos.Network.Device
import Nachos.Network.Residue
import Nachos.UserProg.BssMerge
import Nachos.UserProg.Dump
import Nachos.UserProg.Abort
import Nachos.Lib.Assembly
import Nachos.Threads.Switch
import Nachos.Threads.KernelContext
import Nachos.Threads.ContextSwitch
import Nachos.FileSys.SectorProgram
import Nachos.FileSys.Accesses
import Nachos.FileSys.Crash
import Nachos.FileSys.FileStore
import Nachos.FileSys.NamedFiles
import Nachos.FileSys.Concurrent
import Nachos.Threads.Timer
import Nachos.Network.MailTest
import Nachos.Machine.TrackBuffer
import Nachos.Machine.Placement
import Nachos.FileSys.PerformanceTest
import Nachos.Threads.VirtualProcessor
import Nachos.UserProg.StartProcess
import Nachos.Lib.Desk
import Nachos.FileSys.DiskCalls
import Nachos.Network.MailProtocol
import Nachos.Threads.HandlerNotes
import Nachos.Threads.ListCalls
import Nachos.Threads.SemaphoreCalls
