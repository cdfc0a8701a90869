import MiniOS.Kalloc.BestFit
import MiniOS.Sched.Select
import MiniOS.CowRace
import MiniOS.Vm.PageMap
import MiniOS.Machine.Rmap
import MiniOS.Machine.Args
import MiniOS.Kernel.Grow
import MiniOS.BlockStore
import MiniOS.Fs.Ownership
import MiniOS.Dir.Path
import MiniOS.Memfile.Bounds
import MiniOS.Memfile.Contents
import MiniOS.Syslog.Limits
import MiniOS.Console
import MiniOS.Pipe
import MiniOS.Smp.Wakeup
import MiniOS.Grep.Lines
import MiniOS.Calculator.Expr
import MiniOS.Sh.Words
import MiniOS.Vm.Copyinstr
import MiniOS.Umalloc.Granted
import MiniOS.Cp
import MiniOS.Printf.Numeral
import MiniOS.Bcache
import MiniOS.Quiz
import MiniOS.Machine.Isolation
