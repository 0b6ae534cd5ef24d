import Fasco.Theory.PlainStack
import Fasco.Theory.DeepResume
import Fasco.Theory.Freeing
import Fasco.Theory.HomeThread
import Fasco.Theory.Mirror
import Fasco.Theory.Removal
import Fasco.Theory.FirstUse
import Fasco.Theory.Builds
import Fasco.Theory.Closing
import Fasco.Theory.Stranded
import Fasco.Theory.Wakeups
import Fasco.Theory.Current
import Fasco.Theory.Readings
import Fasco.Theory.Poller
import Fasco.Theory.WholeCalls
import Fasco.Theory.Shutdown
import Fasco.Theory.Inherited
import Fasco.Theory.StartSpares
import Fasco.Theory.Delivered
import Fasco.Theory.Registered
import Fasco.Theory.Buffer
import Fasco.Core.LoopPool
import Fasco.Lib.Rotation
import Fasco.Theory.RoundRobin
import Fasco.Theory.Routing
import Fasco.Theory.Bottom
import Fasco.Theory.Flags
import Fasco.Theory.Postponed
import Fasco.Theory.Allocation
import Fasco.Theory.Ownership
import Fasco.Theory.Connections
import Fasco.Theory.Joining
import Fasco.Theory.Endpoints
import Fasco.Theory.Faultless
import Fasco.Theory.OwnStacks
import Fasco.Theory.Turns
import Fasco.Theory.Ending
import Fasco.Theory.Sharing
