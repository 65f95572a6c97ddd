import WiiJoybus.Library.Bytes
import WiiJoybus.Library.Layout
import WiiJoybus.Library.Dialogue
import WiiJoybus.Library.Interleaving
import WiiJoybus.Library.Exchange
import WiiJoybus.Library.Serial
import WiiJoybus.Library.LinkedTable
import WiiJoybus.Library.Forest
import WiiJoybus.Library.DirTree
import WiiJoybus.Library.CString
import WiiJoybus.Library.ByteFile
import WiiJoybus.Library.Ring
import WiiJoybus.Library.Interrupt
import WiiJoybus.Library.RunLength
import WiiJoybus.Shared.Messages
import WiiJoybus.Shared.Command
import WiiJoybus.Shared.Codec
import WiiJoybus.Gba.Store
import WiiJoybus.Gba.Handlers
import WiiJoybus.Gba.Write
import WiiJoybus.Gba.Dispatcher
import WiiJoybus.Gba.Change
import WiiJoybus.Gba.Resize
import WiiJoybus.Gba.WellFormed
import WiiJoybus.Gba.Setsize
import WiiJoybus.Gba.Reachable
import WiiJoybus.Gba.BlockMap
import WiiJoybus.Gba.ExactRuns
import WiiJoybus.Gba.Leaks
import WiiJoybus.Gba.Failures
import WiiJoybus.Gba.Tree
import WiiJoybus.Gba.TreeRuns
import WiiJoybus.Gba.Removal
import WiiJoybus.Gba.Reclaim
import WiiJoybus.Gba.Ids
import WiiJoybus.Gba.Contents
import WiiJoybus.Gba.Copy
import WiiJoybus.Gba.Positions
import WiiJoybus.Gba.Untouched
import WiiJoybus.Gba.Confined
import WiiJoybus.Gba.Names
import WiiJoybus.Gba.Namespace
import WiiJoybus.Gba.DeadIds
import WiiJoybus.Gba.LinkCounts
import WiiJoybus.Gba.Sizes
import WiiJoybus.Gba.Accesses
import WiiJoybus.Gba.FileRuns
import WiiJoybus.Gba.Server
import WiiJoybus.Gba.LinkCube
import WiiJoybus.Gba.Traffic
import WiiJoybus.Wii.Puffs
import WiiJoybus.Wii.Client
import WiiJoybus.Link.Network
import WiiJoybus.Link.Calls
import WiiJoybus.Link.Resizing
import WiiJoybus.Link.CookieMap
import WiiJoybus.Link.Sizes
import WiiJoybus.Link.Listing
import WiiJoybus.Link.Names
import WiiJoybus.Link.Read
import WiiJoybus.Link.ReadEnds
import WiiJoybus.Link.Write
import WiiJoybus.Link.WriteEnds
import WiiJoybus.Link.Uninit
import WiiJoybus.Link.Attributes
import WiiJoybus.Link.Session
import WiiJoybus.Link.Append
import WiiJoybus.Link.Enumeration
import WiiJoybus.Link.Driver
import WiiJoybus.Link.DriverSession
import WiiJoybus.Link.DriverProgress
import WiiJoybus.Link.DriverRuns
import WiiJoybus.Link.SessionCalls
import WiiJoybus.Link.FileSession
import WiiJoybus.Link.TreeSession
import WiiJoybus.Link.NameSession
import WiiJoybus.Library.Cursor
import WiiJoybus.Library.ShiftRegister
import WiiJoybus.Library.Port
import WiiJoybus.Multiboot.Multiboot
import WiiJoybus.Multiboot.Runs
import WiiJoybus.Multiboot.Checksum
import WiiJoybus.Multiboot.Stream
import WiiJoybus.Multiboot.RomSizes
import WiiJoybus.Echo.Echo
import WiiJoybus.Echo.EchoDriver
import WiiJoybus.Echo.EchoSession
import WiiJoybus.Helloworld.Pcx
