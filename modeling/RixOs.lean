import RixOs.ProofKit.Runs
import RixOs.ProofKit.Cyclic
import RixOs.ProofKit.Table
import RixOs.ProofKit.Interrupts
import RixOs.ProofKit.Triples
import RixOs.ProofKit.Bytes
import RixOs.ProofKit.Loops
import RixOs.ProofKit.Sweep
import RixOs.ProofKit.Typestates
import RixOs.ProofKit.Ledger
import RixOs.ProofKit.Exceptions
import RixOs.ProofKit.Atomicity
import RixOs.Panic
import RixOs.Scheduler
import RixOs.Process
import RixOs.Kernel
import RixOs.Scheduling
import RixOs.RoundRobin
import RixOs.Fairness
import RixOs.ProcessExit
import RixOs.ContextSwitch
import RixOs.Interleaving
import RixOs.ConcurrentExit
import RixOs.ExitFrame
import RixOs.FrameAllocator
import RixOs.FrameOrder
import RixOs.Heap
import RixOs.PageWalk
import RixOs.Handlers
import RixOs.LockSafety
import RixOs.Preemption
import RixOs.Servicing
import RixOs.Exceptions
import RixOs.Logging
import RixOs.SerialOutput
import RixOs.Acpi
import RixOs.Apic
import RixOs.Pci
import RixOs.PciAccess
import RixOs.Pcie
import RixOs.Console
import RixOs.ConsoleChunks
import RixOs.Blending
import RixOs.ProofKit.Overlay
import RixOs.FirmwareMemory
import RixOs.ConsoleScreen
import RixOs.Logo
import RixOs.ApicInit
import RixOs.ProofKit.HeapTasks
import RixOs.AllocTest
import RixOs.ProofKit.Ownership
import RixOs.ProofKit.Extension
import RixOs.ThreadLocks
