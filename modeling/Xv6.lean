import Xv6.Lib.Mem
import Xv6.Lib.Splice
import Xv6.Lib.Slots
import Xv6.Lib.Writes
import Xv6.Lib.Prog
import Xv6.Lib.Owned
import Xv6.Lib.Machine
import Xv6.Lib.Ring
import Xv6.Param
import Xv6.RedoLog
import Xv6.Cstring
import Xv6.Account
import Xv6.AccountFile
import Xv6.Fs.Disk
import Xv6.Fs.Inode
import Xv6.Fs.Dir
import Xv6.Kernel
import Xv6.Fs.Discipline
import Xv6.FileCalls
import Xv6.Transactions
import Xv6.AccountLaw
import Xv6.References
import Xv6.Home
import Xv6.Identity
import Xv6.Fs.Contents
import Xv6.Fs.Sound
import Xv6.Fs.Freeing
import Xv6.Fs.Writing
import Xv6.Fs.Names
import Xv6.Fs.Walk
import Xv6.Soundness
import Xv6.Blocks
import Xv6.FileContents
import Xv6.FileWrite
import Xv6.Footprint
import Xv6.Directory
import Xv6.Permissions
import Xv6.OpenMode
import Xv6.Search
import Xv6.Namei
import Xv6.FailedCalls
import Xv6.InodeCache
import Xv6.Bcache
import Xv6.GroupCommit
import Xv6.Console
import Xv6.Pipe
import Xv6.UserMemory
import Xv6.ProcTable
import Xv6.Kill
import Xv6.PipeWakeup
import Xv6.AddUser
import Xv6.FileTable
import Xv6.FileProcs
import Xv6.FilePipes
import Xv6.FileRuns
import Xv6.Mlfq
import Xv6.MlfqSelect
import Xv6.Multilevel
import Xv6.Priority
import Xv6.Mkfs
import Xv6.MkfsSpec
import Xv6.MkfsImage
import Xv6.MkfsKernel
import Xv6.Vm
import Xv6.Growproc
import Xv6.Uvm
import Xv6.Copyout
import Xv6.AddressSpace
import Xv6.Copyuvm
import Xv6.Sh.Parser
import Xv6.Sh.Grammar
import Xv6.Sh.Correct
import Xv6.Sh.Parsecmd
import Xv6.Regexp
import Xv6.Grep
import Xv6.Skipelem
import Xv6.PracPthread
import Xv6.BufferList
import Xv6.IdeQueue
import Xv6.LineDiscipline
import Xv6.Umalloc
import Xv6.Sbrk
import Xv6.StringC
