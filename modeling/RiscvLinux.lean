import RiscvLinux.Arith.Shifts
import RiscvLinux.Arith.WordAtATime
import RiscvLinux.Config.Decimal
import RiscvLinux.Config.DeviceList
import RiscvLinux.Config.Hexadecimal
import RiscvLinux.Config.KeyUses
import RiscvLinux.Config.Lookup
import RiscvLinux.Config.Quoted
import RiscvLinux.Config.Walk
import RiscvLinux.Drivers.Flash
import RiscvLinux.Drivers.FrenoxEth.Registers
import RiscvLinux.Drivers.FrenoxEth.Transmit
import RiscvLinux.Drivers.Plic
import RiscvLinux.Drivers.Rawio
import RiscvLinux.Drivers.Uart
import RiscvLinux.Mem.Memcpy
import RiscvLinux.Mem.Memset
import RiscvLinux.Mm.BootTable
import RiscvLinux.Mm.Fault
import RiscvLinux.Mm.Ioremap
import RiscvLinux.Mm.Pgtable
import RiscvLinux.Mm.PteFlags
import RiscvLinux.Mm.Spaces
import RiscvLinux.Mm.Tlb
import RiscvLinux.Mm.VmallocFault
import RiscvLinux.Ptrace.Regset
import RiscvLinux.Signal.AltStack
import RiscvLinux.Signal.Nesting
import RiscvLinux.Signal.Passes
import RiscvLinux.Smp.AddUnless
import RiscvLinux.Smp.Atomic
import RiscvLinux.Smp.Atomic64
import RiscvLinux.Smp.Bitops
import RiscvLinux.Smp.Bringup
import RiscvLinux.Smp.CanLock
import RiscvLinux.Smp.Ipi
import RiscvLinux.Smp.Rwlock
import RiscvLinux.Smp.Spinlock
import RiscvLinux.Stacktrace.Save
import RiscvLinux.Syscall.Arguments
import RiscvLinux.Syscall.SysRiscv
import RiscvLinux.Time.Cycles
import RiscvLinux.Time.Delay
import RiscvLinux.Trap.Nesting
import RiscvLinux.Trap.Service
import RiscvLinux.Trap.SwitchTo
import RiscvLinux.Trap.UserAccess
import RiscvLinux.Uaccess.Assign
import RiscvLinux.Uaccess.ClearUser
import RiscvLinux.Uaccess.CopyBlocks
import RiscvLinux.Uaccess.CopyText
import RiscvLinux.Uaccess.CopyUser
