import OsExercises.ForMathlib.Run
import OsExercises.ForMathlib.FirstGap
import OsExercises.Uthreads.Defs
import OsExercises.Uthreads.Placement
import OsExercises.Uthreads.Calls
import OsExercises.Uthreads.Scheduler
import OsExercises.Uthreads.Context
import OsExercises.Uthreads.Preemption
import OsExercises.Blockchain.Defs
import OsExercises.Blockchain.Linked
import OsExercises.Blockchain.Numbers
import OsExercises.Blockchain.Tree
import OsExercises.Ftp.Session
import OsExercises.Ftp.Accept
import OsExercises.Ftp.Client
import OsExercises.Ftp.Transfer
import OsExercises.CachingFs.Defs
import OsExercises.CachingFs.Blocks
import OsExercises.CachingFs.Transparency
import OsExercises.Uthreads.Order
import OsExercises.Uthreads.Fcfs
import OsExercises.Uthreads.Quantums
import OsExercises.Uthreads.Ids
import OsExercises.Blockchain.Hashing
import OsExercises.Blockchain.Clients
import OsExercises.Blockchain.Interleaving
import OsExercises.Blockchain.Lifecycle
import OsExercises.Blockchain.Policy
import OsExercises.Uthreads.Mask
import OsExercises.Uthreads.Outcomes
import OsExercises.ForMathlib.RoundRobin
import OsExercises.Uthreads.Rotation
import OsExercises.CachingFs.Cold
import OsExercises.Blockchain.Pruned
import OsExercises.Blockchain.Failures
import OsExercises.Blockchain.Shift
import OsExercises.Blockchain.Reopening
import OsExercises.CachingFs.FileTree
import OsExercises.CachingFs.Rename
import OsExercises.CachingFs.Turns
import OsExercises.CachingFs.Filed
import OsExercises.ForMathlib.Lfu
import OsExercises.CachingFs.Counters
import OsExercises.CachingFs.Bytes
import OsExercises.Ftp.Upload
import OsExercises.ForMathlib.Numeral
import OsExercises.Ftp.Arguments
import OsExercises.Blockchain.Nonces
import OsExercises.Osm.Measure
import OsExercises.ForMathlib.LockOrder
import OsExercises.Uthreads.Starvation
import OsExercises.Blockchain.Program
import OsExercises.Blockchain.Races
import OsExercises.ForMathlib.Separated
import OsExercises.CachingFs.Buffers
import OsExercises.CachingFs.Log
import OsExercises.CachingFs.Handles
import OsExercises.ForMathlib.WriteAt
import OsExercises.Ftp.Shared
import OsExercises.Blockchain.Termination
import OsExercises.Uthreads.Alternation
import OsExercises.Ftp.ShortSends
