import Ludlc.Lib.SeqNum
import Ludlc.Lib.Ring
import Ludlc.Lib.Runs
import Ludlc.Proto
import Ludlc.Conn
import Ludlc.Queue
import Ludlc.Receive
import Ludlc.Transmit
import Ludlc.Window
import Ludlc.Steps
import Ludlc.History
import Ludlc.Inline
import Ludlc.Report
import Ludlc.Threads
import Ludlc.Reporting
import Ludlc.Sections
import Ludlc.Sessions
import Ludlc.Unnumbered
import Ludlc.Buffers
import Ludlc.Framing.CobsDecoder
import Ludlc.Framing.HdlcDecoder
import Ludlc.Spi.Delivery
import Ludlc.Terminate
import Ludlc.Cleanup
import Ludlc.Notify
import Ludlc.SessionEnd
import Ludlc.Linux.Hold
import Ludlc.Linux.Follow
import Ludlc.InOrder
import Ludlc.Tally
import Ludlc.Agreement
import Ludlc.Channels
import Ludlc.Caps
import Ludlc.Framing.Cuts
import Ludlc.Framing.RawWire
import Ludlc.Lib.Lfsr
import Ludlc.Framing.Crc16
import Ludlc.Framing.Bounds
import Ludlc.Framing.Boundary
import Ludlc.Framing.Resync
import Ludlc.Framing.Dropped
import Ludlc.Spi.Clocked
import Ludlc.Spi.Heeded
import Ludlc.Ttl
import Ludlc.Turns
import Ludlc.Watchdog
import Ludlc.Posix.SerialRx
import Ludlc.Posix.Kfifo
import Ludlc.Posix.SerialTx
import Ludlc.Posix.Timer
import Ludlc.Zephyr.SerialRx
import Ludlc.Linux.CsumRegistry
import Ludlc.Linux.Channels
import Ludlc.Slots
import Ludlc.Lib.Pipe
import Ludlc.Lib.Ranked
import Ludlc.Framing.Decodes
import Ludlc.Linux.Serdev
import Ludlc.Sized
import Ludlc.Wired
import Ludlc.Lib.Sliding
import Ludlc.Finish
import Ludlc.Peers
import Ludlc.Truth
import Ludlc.KeepAlive
import Ludlc.Handshake
