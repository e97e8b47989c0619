import L4env.Util.Word
import L4env.DMphys.Pages
import L4env.DMphys.AreaList
import L4env.Util.Meets
import L4env.DMphys.FreeList
import L4env.DMphys.Internal
import L4env.DMphys.PoolInv
import L4env.DMphys.PoolSplit
import L4env.DMphys.PoolRelease
import L4env.DMphys.PoolAlloc
import L4env.DMphys.PoolOps
import L4env.DMphys.PoolHolds
import L4env.DMphys.PoolRun
import L4env.DMphys.MemMap
import L4env.DMphys.MemMapInv
import L4env.DMphys.MemMapRun
import L4env.DMphys.ReserveExact
import L4env.DMphys.Map
import L4env.DMphys.MapFpage
import L4env.DMphys.Server
import L4env.DMphys.Rights
import L4env.DMphys.Isolation
import L4env.L4rm.AvlTree
import L4env.L4rm.AvlEdit
import L4env.L4rm.AvlInv
import L4env.L4rm.AvlInsert
import L4env.L4rm.AvlRemove
import L4env.L4rm.AvlMap
import L4env.L4rm.Region
import L4env.L4rm.RegionList
import L4env.L4rm.RegionInv
import L4env.L4rm.RegionOps
import L4env.L4rm.RegionRun
import L4env.L4rm.Placement
import L4env.L4rm.TraceRun
import L4env.Fiasco.PresentList
import L4env.Util.Ring
import L4env.Fiasco.KillTask
import L4env.Fiasco.KillRun
import L4env.Roottask.Memmap
import L4env.Roottask.MemmapInv
import L4env.Roottask.MemmapRun
import L4env.Fiasco.SchedRun
import L4env.Fiasco.BuddyRun
import L4env.Fiasco.TimeoutRun
import L4env.Fiasco.SemaphoreRun
import L4env.Fiasco.SlabCacheRun
import L4env.Sigma0.PagerOwns
import L4env.L4semaphore.Quiet
import L4env.Dsi.EventRun
import L4env.Dsi.SelectRun
import L4env.Dsi.PacketRun
import L4env.Dsi.AreaInside
import L4env.Events.TimeoutQueueRun
import L4env.Events.MessageCopies
import L4env.Cxx.ListAllocRun
import L4env.Cxx.SlabRun
import L4env.Cxx.AvlMap
import L4env.Cxx.AvlClimb
import L4env.Fiasco.MappingFlush
import L4env.Fiasco.MappingHead
import L4env.Fiasco.MappingPack
import L4env.L4io.ResRun
import L4env.DMphys.SingleArea
import L4env.DMphys.Copy
import L4env.DMphys.Accounting
import L4env.Fiasco.MapUtil
import L4env.Fiasco.Treemap
import L4env.Fiasco.TreemapFlush
import L4env.Fiasco.AccessBits
import L4env.DMphys.CheckPagesize
import L4env.L4rm.Unmap
import L4env.L4rm.AreaRelease
import L4env.DMphys.Resize
import L4env.Fiasco.IoSpace
import L4env.Fiasco.IoSpaceRun
import L4env.Fiasco.AbsTimeout
import L4env.Fiasco.PrioListRun
import L4env.Fiasco.LongIpcBounds
import L4env.Fiasco.PreemptionRun
import L4env.Fiasco.SemaphoreExit
import L4env.Roottask.Pager
import L4env.Roottask.PagerGrant
import L4env.Roottask.ReserveGrant
import L4env.Roottask.RequestsOwn
import L4env.Roottask.RegionTable
import L4env.SimpleTs.KillRun
import L4env.Bootstrap.MoveModules
import L4env.Bootstrap.GetArg
import L4env.Bootstrap.Optimize
import L4env.L4io.MemGrant
import L4env.Names.ServerRun
import L4env.Fiasco.TimeSliceRun
import L4env.SimpleTs.ServerRun
import L4env.Fiasco.RamQuotaRun
import L4env.Omega0.CarefulRun
