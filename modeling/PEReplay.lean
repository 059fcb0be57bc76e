import PEReplay.Lib.Loop
import PEReplay.Lib.KeyedSet
import PEReplay.Lib.Worklist
import PEReplay.Lib.ShiftRing
import PEReplay.Lib.Printf
import PEReplay.Lib.Monitor
import PEReplay.Lib.Ranges
import PEReplay.Lib.Interleave
import PEReplay.Lib.NestedWord
import PEReplay.Lib.LongestPrefix
import PEReplay.Lib.Traced
import PEReplay.Lib.Decoder
import PEReplay.Lib.X86Address
import PEReplay.Machine
import PEReplay.Replay.Frame
import PEReplay.Replay.KeyFrames
import PEReplay.Replay.Block
import PEReplay.Replay.Run
import PEReplay.Replay.BlocksCsv
import PEReplay.Replay.Writes
import PEReplay.Replay.Threads
import PEReplay.Replay.FramesCsv
import PEReplay.Replay.Rejoin
import PEReplay.Log.Logger
import PEReplay.Log.Parts
import PEReplay.Log.Rotation
import PEReplay.Log.Calls
import PEReplay.Log.Limit
import PEReplay.Log.Format
import PEReplay.Log.Registry
import PEReplay.Log.Capacity
import PEReplay.Log.Finalize
import PEReplay.Log.Config
import PEReplay.Replay.Tool
import PEReplay.Image.Relocation
import PEReplay.Image.RelocTargets
import PEReplay.Image.Progress
import PEReplay.Image.Modules
import PEReplay.Image.Accesses
import PEReplay.Image.Dump
import PEReplay.Replay.Instrument
import PEReplay.Image.Routines
import PEReplay.Image.DataDirectory
import PEReplay.Image.Imports
import PEReplay.Image.DirectoryReads
import PEReplay.Shadow.Stack
import PEReplay.Shadow.Nested
import PEReplay.Shadow.Matching
import PEReplay.Shadow.Unwind
import PEReplay.Shadow.Callback
import PEReplay.Sweeper.Trace
import PEReplay.Sweeper.Sweeper
import PEReplay.Sweeper.StraightLine
import PEReplay.Sweeper.Explore
import PEReplay.Sweeper.DirectTargets
import PEReplay.Sweeper.Gaps
import PEReplay.Sweeper.Split
import PEReplay.Sweeper.Bounds
import PEReplay.Sweeper.Padding
import PEReplay.Sweeper.LinearSweep
import PEReplay.Sweeper.Coverage
import PEReplay.Sweeper.GapList
import PEReplay.Sweeper.GreyAreas
import PEReplay.Sweeper.GreyLoop
import PEReplay.Sweeper.Indexes
import PEReplay.Sweeper.PaddingScan
import PEReplay.Sweeper.PostProcess
import PEReplay.Sweeper.Points
import PEReplay.Sweeper.Trampolines
import PEReplay.Sweeper.Trim
import PEReplay.Sweeper.Inside
import PEReplay.Sweeper.Lookups
import PEReplay.Sweeper.Justify
import PEReplay.Sweeper.Batches
import PEReplay.Sweeper.Decoded
import PEReplay.Libdasm.Tables
import PEReplay.Libdasm.Decode
import PEReplay.Libdasm.Operands
import PEReplay.Libdasm.Layout
import PEReplay.Libdasm.Address
import PEReplay.Libdasm.Code
import PEReplay.Libdasm.Relative
import PEReplay.Regexd.Main
