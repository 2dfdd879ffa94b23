import Innigkeit.Memory.AddressSpace.Contract
import Innigkeit.Memory.AddressSpace.ObjectCounts
import Innigkeit.Memory.Decompress
import Innigkeit.Memory.Page.BuddyAllocator
import Innigkeit.User.ExitStatus
import Innigkeit.User.FdTable
import Innigkeit.User.Spawn
import Innigkeit.User.Termination
import Innigkeit.User.ThreadHandle
import Innigkeit.User.WriteExecute
import Innigkeit.X64.PageTable.Exact
import Innigkeit.Task.Sched.Prefer
import Innigkeit.Task.Sched.Qos
import Innigkeit.Sync.Futex
import Innigkeit.Sync.Mutex
import Innigkeit.Sync.Parker
import Innigkeit.Sync.RwLockSafety
import Innigkeit.Capabilities.DerivationSafety
import Innigkeit.Capabilities.EndpointPairing
import Innigkeit.Capabilities.Transfer
import Innigkeit.Core.RedBlackInsert
import Innigkeit.Core.RedBlackIterator
import Innigkeit.Crypto.EncryptedVolume
import Innigkeit.Drivers.RingPages
import Innigkeit.Filesystem.Ext4.Truncate
import Innigkeit.Filesystem.SimpleFsSeparate
import Innigkeit.ImageBuilder.Gpt
import Innigkeit.ImageBuilder.LongName
import Innigkeit.Network.Tcp.Accept
import Innigkeit.Network.Tcp.Receive
import Innigkeit.Wm.Isolation
