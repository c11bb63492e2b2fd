import AntTracer.Record.Word
import AntTracer.Record.Pack
import AntTracer.Record.Scan
import AntTracer.Record.Format
import AntTracer.Record.RoundTrip
import AntTracer.Record.Ring
import AntTracer.Record.Checked
import AntTracer.Library.Frames
import AntTracer.Library.Runs
import AntTracer.Library.Tape
import AntTracer.Library.Newest
import AntTracer.Library.Links
import AntTracer.Library.ReflectedCrc
import AntTracer.Library.Stores
import AntTracer.Library.Circular
import AntTracer.Library.Bytes
import AntTracer.Library.Shared
import AntTracer.Loader.Map
import AntTracer.Loader.ChunkSet
import AntTracer.Loader.Main
import AntTracer.Loader.Search
import AntTracer.Loader.Image
import AntTracer.Loader.Presence
import AntTracer.Loader.Passes
import AntTracer.Loader.Idempotent
import AntTracer.Loader.Safety
import AntTracer.Loader.Converge
import AntTracer.Loader.Outside
import AntTracer.Loader.Interrupted
import AntTracer.Loader.Memcmp
import AntTracer.App.Packets
import AntTracer.App.SuperLoop
import AntTracer.App.Intervals
import AntTracer.App.Config
import AntTracer.App.Log
import AntTracer.App.Disk
import AntTracer.App.Device
import AntTracer.App.Reading
import AntTracer.App.Journal
import AntTracer.App.Phases
import AntTracer.App.Recovery
import AntTracer.App.Resume
import AntTracer.App.Wear
import AntTracer.App.Store
import AntTracer.App.Rounds
import AntTracer.App.Start
import AntTracer.App.Slots
import AntTracer.App.Sound
import AntTracer.App.Flow
import AntTracer.App.Discipline
import AntTracer.App.Saves
import AntTracer.App.Reports
import AntTracer.App.Requests
import AntTracer.App.Reread
import AntTracer.App.Listing
import AntTracer.App.Framing
import AntTracer.App.Scanning
import AntTracer.App.Capacity
import AntTracer.App.Progress
import AntTracer.App.Recency
import AntTracer.Time.Ticks
import AntTracer.Time.Clock
import AntTracer.Time.Ticking
import AntTracer.Time.Snapshot
import AntTracer.Time.Callouts
import AntTracer.Time.Expiry
import AntTracer.Misc.Crc
import AntTracer.Misc.Base85
import AntTracer.Misc.Base85RoundTrip
import AntTracer.Misc.Base85Limits
import AntTracer.Misc.Rand
import AntTracer.Misc.ByteOrder
import AntTracer.Misc.Memory
import AntTracer.Debug.Printf
import AntTracer.Debug.Number
import AntTracer.Debug.Snprintf
import AntTracer.Debug.Output
import AntTracer.Debug.Level
import AntTracer.Rtt.Buffer
import AntTracer.Board.Buttons
import AntTracer.Board.Reboot
import AntTracer.Command.Words
import AntTracer.Command.Lines
import AntTracer.Command.CommandLoop
import AntTracer.Command.Names
import AntTracer.Rtt.Down
import AntTracer.Rtt.Reads
import AntTracer.Rtt.Up
import AntTracer.Rtt.Writes
import AntTracer.System.Flash
import AntTracer.System.Update
import AntTracer.App.Delivery
import AntTracer.System.Delivery
