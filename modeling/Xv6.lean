import Xv6.Mem.RaceRuns
import Xv6.Proc.UserPtr
import Xv6.Proc.KillCall
import Xv6.Proc.Refinement
import Xv6.Proc.Scheduler
import Xv6.Fs.SharedFile
import Xv6.Fs.PathSpec
import Xv6.Proc.PipeSleep
import Xv6.Fs.InodeFree
import Xv6.Fs.InodeLocks
import Xv6.Fs.BcacheTransparent
import Xv6.Fs.BcacheRoom
import Xv6.Mem.CowUndo
import Xv6.Proc.ExecLeak
import Xv6.Proc.Inspect
import Xv6.User.Grep
import Xv6.User.ShellStrings
import Xv6.User.UmallocRuns
import Xv6.User.Memmove
import Xv6.User.Decimal
import Xv6.Proc.MpTable
import Xv6.Proc.Sleeplock
import Xv6.Mem.Tables
import Xv6.Proc.Console
import Xv6.Fs.Ide
import Xv6.User.ShellPipes
