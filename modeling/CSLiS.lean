import CSLiS.Apush.InsertExact
import CSLiS.Apush.LookupExact
import CSLiS.Apush.Agreement
import CSLiS.Apush.DropMod
import CSLiS.Queue.Representation
import CSLiS.Queue.FlushWishes
import CSLiS.Queue.Exclusion
import CSLiS.Deferred.Order
import CSLiS.Deferred.Count
import CSLiS.Sched.Enables
import CSLiS.Sched.Detached
import CSLiS.Sched.Thawed
import CSLiS.Timeout.Fires
import CSLiS.Timeout.Outlive
import CSLiS.Bufcall.Integrity
import CSLiS.Wait.Balance
import CSLiS.Wait.OneReader
import CSLiS.Head.ReadCount
import CSLiS.Head.Reassembly
import CSLiS.Buffer.Release
import CSLiS.Ioctl.CopyExact
import CSLiS.Ioctl.Matching
import CSLiS.Head.OnePcproto
import CSLiS.Head.Drained
import CSLiS.Write.SentOnce
import CSLiS.Write.Packets
import CSLiS.Write.Putmsg
import CSLiS.Write.Fdinsert
import CSLiS.Stream.HeadPut
import CSLiS.Stream.Route
import CSLiS.Stream.OneHead
import CSLiS.Stream.PipeClosed
import CSLiS.Mux.Booked
import CSLiS.Mux.UnlinkAll
import CSLiS.Mux.Runs
import CSLiS.Mux.Cascade
import CSLiS.Queue.QSync
import CSLiS.Head.Delivered
import CSLiS.Mod.Injective
import CSLiS.Mod.Held
import CSLiS.Mod.Balance
import CSLiS.Mod.Guarded
import CSLiS.Mod.Stacks
import CSLiS.Sched.Attended
import CSLiS.Sched.Balanced
import CSLiS.Sched.Runners
import CSLiS.Locks.Nested
import CSLiS.Fifo.Counted
import CSLiS.Ioctl.CompatExact
import CSLiS.Queue.Insq
import CSLiS.Queue.FlushOnce
import CSLiS.Queue.Shortage
import CSLiS.Queue.WaterMarks
import CSLiS.Queue.DrainGap
import CSLiS.Buffer.Adjmsg
import CSLiS.Head.Passfp
import CSLiS.Head.Passed
import CSLiS.Head.Closing
import CSLiS.Head.Drains
import CSLiS.Events.ElistRuns
import CSLiS.Bufcall.Pass
import CSLiS.Buffer.MsgpullupExact
import CSLiS.Head.Peek
import CSLiS.Lib.Path
import CSLiS.Head.Calls
import CSLiS.Head.ReadLost
import CSLiS.Mod.Stropen
import CSLiS.Mod.Init
import CSLiS.Head.Setopts
import CSLiS.Stream.Inspect
import CSLiS.Apush.Sad
import CSLiS.Apush.UserSet
import CSLiS.Ioctl.Reply
import CSLiS.Poll.Agrees
import CSLiS.Buffer.SameFrees
import CSLiS.Osif.Irq
import CSLiS.Timeout.Port
import CSLiS.Stream.Fattach
import CSLiS.Memory.Requests
import CSLiS.Memory.PagesRight
import CSLiS.Fifo.UnitsRight
import CSLiS.Config.DriversRight
import CSLiS.Stream.PipeFlush
import CSLiS.Pipe.Messages
import CSLiS.Minimux.Refines
