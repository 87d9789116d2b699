import Ctm.HashMap.Atomicity
import Ctm.LinkList.Ring
import Ctm.Process.ChangeLog
import Ctm.Process.Failures
import Ctm.Sampler.Consumers
import Ctm.Sampler.Destroy
import Ctm.Sampler.OneThread
import Ctm.Lib.Spsc
import Ctm.Sound.Basic
import Ctm.Sound.Queue
import Ctm.Sound.Progress
import Ctm.Sound.Finish
import Ctm.HashMap.Callbacks
import Ctm.HashMap.Tombstones
import Ctm.HashMap.Spacing
import Ctm.HashMap.Memory
import Ctm.HashMap.Leak
import Ctm.Process.Read
import Ctm.Process.Decode
import Ctm.Process.Lookups
import Ctm.Process.Accounts
import Ctm.Process.Aborts
import Ctm.Process.Partial
import Ctm.Strings
import Ctm.Metrics.Mem
import Ctm.Metrics.Report
import Ctm.Metrics.Cpu
import Ctm.Metrics.Usage
import Ctm.Metrics.Aggregate
import Ctm.Metrics.Overread
import Ctm.HashMap.Complete
import Ctm.HashMap.Update
import Ctm.HashMap.Collisions
import Ctm.HashMap.Bounds
import Ctm.HashMap.Resize
import Ctm.HashMap.Churn
import Ctm.RingBuffer.Bounds
import Ctm.Sampler.Retry
import Ctm.Sound.Frames
import Ctm.Process.Sweep
import Ctm.Printf
import Ctm.Process.Path
import Ctm.Lib.Layers
import Ctm.Lib.Pad
import Ctm.Process.Accessors
import Ctm.Process.Announced
import Ctm.Tui.Basic
import Ctm.Tui.Frames
import Ctm.Tui.Rows
import Ctm.Tui.Screen
import Ctm.Tui.Scroll
import Ctm.Tui.Stack
import Ctm.Tui.System
import Ctm.HashMap.OpenIterator
import Ctm.HashMap.Pointers
import Ctm.Sound.Returns
import Ctm.Gtk.ProcessTab
import Ctm.Gtk.Rows
import Ctm.Lib.Weight
import Ctm.Sampler.Joins
import Ctm.Sampler.ShutDown
import Ctm.Sampler.Lifecycle
import Ctm.Process.Order
