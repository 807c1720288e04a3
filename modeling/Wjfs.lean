import Wjfs.Forest
import Wjfs.Basic
import Wjfs.Frame
import Wjfs.Frame.Scan
import Wjfs.Frame.Roundtrip
import Wjfs.Dcache
import Wjfs.Inode
import Wjfs.Host
import Wjfs.Callbacks
import Wjfs.Vfs
import Wjfs.Remote
import Wjfs.Content
import Wjfs.Server
import Wjfs.Dcache.Laws
import Wjfs.Host.Laws
import Wjfs.Namespace
import Wjfs.Refusal
import Wjfs.Dcache.Sound
import Wjfs.Dcache.Plant
import Wjfs.Host.Create
import Wjfs.Host.Remove
import Wjfs.Dcache.Bare
import Wjfs.Host.Keep
import Wjfs.Host.Peer
import Wjfs.Search
import Wjfs.Host.Link
import Wjfs.Dcache.Move
import Wjfs.Host.Rename
import Wjfs.Run
import Wjfs.Umount
import Wjfs.Genocide
import Wjfs.Nlink
import Wjfs.Table.Laws
import Wjfs.Links
import Wjfs.Frame.Grammar
import Wjfs.Paged
import Wjfs.FileOps
import Wjfs.PageCache
import Wjfs.RemoteWrite
import Wjfs.ReadReply
import Wjfs.Turns
import Wjfs.RemoteRead
import Wjfs.Dcache.Fade
import Wjfs.Host.Grow
import Wjfs.Host.MakeLink
import Wjfs.Ownership
import Wjfs.Reach
import Wjfs.Removal
import Wjfs.Host.Paths
import Wjfs.Agreement
import Wjfs.Mounts
import Wjfs.Reorder
import Wjfs.Delivery
import Wjfs.Frame.Number
import Wjfs.Slots
import Wjfs.Mapping
import Wjfs.Cells
import Wjfs.Layout
import Wjfs.Options
import Wjfs.Options.Laws
import Wjfs.Replica
import Wjfs.Rows
import Wjfs.Orderly
import Wjfs.Announce
import Wjfs.Net
import Wjfs.Crossing
import Wjfs.Host.Faults
import Wjfs.Survival
import Wjfs.Converge
import Wjfs.Routing
import Wjfs.Progress
import Wjfs.Rounds
import Wjfs.FileTree
import Wjfs.Tree
import Wjfs.Resolution
import Wjfs.Address
