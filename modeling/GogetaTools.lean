import GogetaTools.Map.Sort
import GogetaTools.Map.Table
import GogetaTools.Map.SortUsable
import GogetaTools.Map.Sorted
import GogetaTools.Map.Qsort
import GogetaTools.Lib.ByteFile
import GogetaTools.Replay.FillBlk
import GogetaTools.Replay.Distribute
import GogetaTools.Replay.TimestampSort
import GogetaTools.Replay.Hints
import GogetaTools.Replay.TimestampQsort
import GogetaTools.Replay.Setup
import GogetaTools.Replay.Segments
import GogetaTools.Replay.Feeds
import GogetaTools.Replay.SetupBounds
import GogetaTools.Replay.ShareBound
import GogetaTools.Replay.LbaOrder
import GogetaTools.Replay.NullGenerator
import GogetaTools.Replay.SeededGenerator
import GogetaTools.Replay.SingleWorker
import GogetaTools.Replay.Materialise
import GogetaTools.Mcp.Assign
import GogetaTools.Mcp.Copy
import GogetaTools.Mcp.Walk
import GogetaTools.Mcp.Links
import GogetaTools.Mcp.Rerun
import GogetaTools.Mcp.Program
import GogetaTools.Interference.Protocol
import GogetaTools.Replay.FinalNewline
import GogetaTools.Aging.Phases
import GogetaTools.Aging.Room
import GogetaTools.Scripts.Aggregate
import GogetaTools.Scripts.PartialTable
import GogetaTools.Scripts.StatTrace
import GogetaTools.Filters.TableCell
import GogetaTools.Map.Removable
import GogetaTools.Replay.MersenneTwister
import GogetaTools.Replay.Hitsz
import GogetaTools.Replay.FiuOutcome
