import Pintos.Booter.Keyboard
import Pintos.Devices.Partition
import Pintos.Filesys.Atomicity
import Pintos.Filesys.Attempts
import Pintos.Filesys.CacheDeadlock
import Pintos.Filesys.CacheHistory
import Pintos.Filesys.CacheKills
import Pintos.Filesys.CacheRefinement
import Pintos.Filesys.CacheThreads
import Pintos.Filesys.Confinement
import Pintos.Filesys.Consistency
import Pintos.Filesys.Counting
import Pintos.Filesys.Durability
import Pintos.Filesys.FailedCreation
import Pintos.Filesys.GrowthThreads
import Pintos.Filesys.Handles
import Pintos.Filesys.OpenThreads
import Pintos.Filesys.Ownership
import Pintos.Filesys.Races
import Pintos.Filesys.Release
import Pintos.Filesys.Removal
import Pintos.Filesys.Replacement
import Pintos.Filesys.Splitting
import Pintos.Library.Arithmetic
import Pintos.Shell.Redirection
import Pintos.Threads.Conditions
import Pintos.Threads.Inversion
import Pintos.Threads.MlfqsValues
import Pintos.Userprog.Descriptors
import Pintos.Userprog.Execute
import Pintos.Userprog.Pointers
import Pintos.Userprog.WaitExit
import Pintos.Vm.Contents
import Pintos.Vm.Executables
import Pintos.Vm.FailedLoads
import Pintos.Vm.Loader
import Pintos.Vm.Mappings
import Pintos.Vm.Pools
import Pintos.Vm.StackGrowth
import Pintos.Vm.UserPool
