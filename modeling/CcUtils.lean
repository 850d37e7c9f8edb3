import CcUtils.Queue.Concurrent
import CcUtils.Queue.Sequential
import CcUtils.Lists.Stq
import CcUtils.Lists.Flag
import CcUtils.Lists.Drain
import CcUtils.Lists.Entries
import CcUtils.Cli.Life
import CcUtils.Cli.Start
import CcUtils.Cli.Options
import CcUtils.Cli.Limits
import CcUtils.Cli.Receive
import CcUtils.Cli.Discover
import CcUtils.Cli.Commands
import CcUtils.Cli.Poll
import CcUtils.Binlog.Skip
import CcUtils.Binlog.Render
import CcUtils.Binlog.Terminate
import CcUtils.Binlog.Buffer
import CcUtils.Binlog.Time
import CcUtils.Binlog.ElfReadStr
import CcUtils.Binlog.ElfParse
import CcUtils.Rbtree.Add
import CcUtils.Rbtree.Postorder
import CcUtils.Rbtree.Cached
import CcUtils.Rbtree.Augment
import CcUtils.Fault.Window
import CcUtils.Fault.Priv
import CcUtils.Tools.BitmapPrint
import CcUtils.Tools.StrToInt
import CcUtils.Tools.DoubleToStr
import CcUtils.Tools.JsonFields
import CcUtils.Tools.CheckAddr
import CcUtils.Tools.PointArray
import CcUtils.Tools.Mock
import CcUtils.Lib.Linear
import CcUtils.Lists.Rwstq
import CcUtils.Lists.Sl
import CcUtils.Lib.SafeLoop
import CcUtils.Lists.Chains
import CcUtils.Lists.Foreach
import CcUtils.Lists.Rwdtq
import CcUtils.Queue.Progress
import CcUtils.Queue.Spin
import CcUtils.Queue.Spinlock
import CcUtils.Binlog.Logging
import CcUtils.Binlog.Table
import CcUtils.Rbtree.AugmentedRun
import CcUtils.Rbtree.Multimap
import CcUtils.Cli.Session
import CcUtils.Cli.Stop
import CcUtils.Cli.Usage
import CcUtils.Tools.Patches
import CcUtils.Fault.Sites
