import QueueFlex.Request
import QueueFlex.Dispatch.ShortestQueue
import QueueFlex.Dispatch.Policy
import QueueFlex.Dispatch.Table
import QueueFlex.Dispatch.Affinity
import QueueFlex.Balancer.Basic
import QueueFlex.Balancer.World
import QueueFlex.Balancer.Spec
import QueueFlex.Balancer.Tracking
import QueueFlex.Balancer.Admission
import QueueFlex.Balancer.IndexAware
import QueueFlex.Balancer.Exclusive
import QueueFlex.Balancer.Ownership
import QueueFlex.Pipeline.Basic
import QueueFlex.Pipeline.Worker
import QueueFlex.Pipeline.System
import QueueFlex.Pipeline.Custody
import QueueFlex.Pipeline.Refinement
import QueueFlex.Pipeline.Accounting
import QueueFlex.Pipeline.Versions
import QueueFlex.Pipeline.Locking
import QueueFlex.Pipeline.Exclusion
import QueueFlex.Pipeline.Measurement
import QueueFlex.Pipeline.Effect
import QueueFlex.Pipeline.ServiceTime
import QueueFlex.Pipeline.Erew
import QueueFlex.Pipeline.Waiters
import QueueFlex.Pipeline.ReadOnly
import QueueFlex.Rlu.EpochTracker
import QueueFlex.Rlu.Deferral
import QueueFlex.Rlu.Multiversion
import QueueFlex.Cache.DataCache
import QueueFlex.Cache.Lru
import QueueFlex.Cache.Locality
import QueueFlex.Cache.FunctionMiss
import QueueFlex.Dram.Profiler
import QueueFlex.Pipeline.Double
import QueueFlex.Pipeline.LatencyStore
