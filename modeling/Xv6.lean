import Xv6.Kernel.Bio
import Xv6.Kernel.ByteFile
import Xv6.Kernel.Coherence
import Xv6.Kernel.Console
import Xv6.Kernel.ExecFiles
import Xv6.Kernel.BigArgs
import Xv6.Kernel.FailedCalls
import Xv6.Kernel.FileTable
import Xv6.Kernel.Dock
import Xv6.Kernel.DrawWindow
import Xv6.Kernel.Getcwd
import Xv6.Kernel.GuiCalls
import Xv6.Kernel.Ide
import Xv6.Kernel.Kill
import Xv6.Kernel.LockPaths
import Xv6.Kernel.LogCrash
import Xv6.Kernel.PipeWakeup
import Xv6.Kernel.PrivateMemories
import Xv6.Kernel.PowerCut
import Xv6.Kernel.References
import Xv6.Kernel.Scheduler
import Xv6.Kernel.Shared
import Xv6.Kernel.Spinlock
import Xv6.Kernel.UserPointers
import Xv6.Kernel.Uvm
import Xv6.Kernel.Fork
import Xv6.Kernel.MouseInput
import Xv6.Kernel.DrawLine
import Xv6.Kernel.WindowOwners
import Xv6.Mkfs.DataRegion
import Xv6.Mkfs.FirstBoot
import Xv6.Mkfs.Links
import Xv6.Ulib.TextLayout
import Xv6.Ulib.WidgetList
import Xv6.Verified.Probing
import Xv6.Ulib.HashTable
import Xv6.User.Bash2
import Xv6.User.BashParser
import Xv6.Verified.Chains
import Xv6.Ulib.Umalloc
import Xv6.Kernel.Rollback
import Xv6.Kernel.MouseTargets
import Xv6.User.NulTerminate
import Xv6.User.Bash2Flatten
import Xv6.Ulib.Memmove
import Xv6.Ulib.Bitmap
import Xv6.Ulib.HashTablePointers
import Xv6.Ulib.HashTableSet
import Xv6.Ulib.InputField
import Xv6.Ulib.MallocSizes
import Xv6.Ulib.Printf
import Xv6.User.Grep
import Xv6.User.ReadInput
import Xv6.User.Fgetline
import Xv6.User.Ps
import Xv6.Kernel.Processors
import Xv6.Kernel.DiskStats
import Xv6.Kernel.PathSplit
import Xv6.Kernel.PageMap
import Xv6.User.CopyMove
import Xv6.User.Runcmd
