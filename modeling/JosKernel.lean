import JosKernel.Console.Escapes
import JosKernel.Console.Input
import JosKernel.Console.Numbers
import JosKernel.Console.Readline
import JosKernel.Debug.Eip
import JosKernel.Env.Authority
import JosKernel.Env.BigLock
import JosKernel.Env.Dispatch
import JosKernel.Env.EnvIds
import JosKernel.Env.LoadIcode
import JosKernel.Env.Reclaim
import JosKernel.Env.Recycled
import JosKernel.Env.Rights
import JosKernel.Env.RoundRobin
import JosKernel.Env.SelfMap
import JosKernel.Env.Stale
import JosKernel.Env.Stubs
import JosKernel.Env.TrapEntry
import JosKernel.Env.Upcall
import JosKernel.Env.Windows
import JosKernel.Ipc.Delivery
import JosKernel.Ipc.Failures
import JosKernel.Ipc.Fifo
import JosKernel.Ipc.Perm
import JosKernel.Machine.MemMove
import JosKernel.Machine.MpConfig
import JosKernel.Monitor.Runcmd
import JosKernel.Monitor.Setperm
import JosKernel.Pmap.Mapped
import JosKernel.Pmap.Mmio
import JosKernel.Pmap.PageInit
import JosKernel.Pmap.Relink
import JosKernel.User.Fork
import JosKernel.User.Send
import JosKernel.User.Upcalls
import JosKernel.Env.Bootmain
