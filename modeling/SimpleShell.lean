import SimpleShell.A2.Execution
import SimpleShell.A2.FileLoad
import SimpleShell.A2.Scheduling
import SimpleShell.Fs.CopyIn
import SimpleShell.Shell.ParseInput
import SimpleShell.Shell.VarStore
import SimpleShell.Fs.CopyOut
import SimpleShell.A2.SortQueue
import SimpleShell.Shell.WordLoop
import SimpleShell.A2.OneLiners
import SimpleShell.Fs.Inverse
import SimpleShell.Fs.Readdir
import SimpleShell.Fs.DirMap
import SimpleShell.Fs.Paths
import SimpleShell.Fs.Recover
import SimpleShell.Fs.Relist
import SimpleShell.Fs.FailedWrite
import SimpleShell.Fs.Dump
import SimpleShell.Fs.Stale
import SimpleShell.Fs.FindFile
import SimpleShell.A3.ListSpec
import SimpleShell.Fs.PathSplit
import SimpleShell.Fs.Partition
import SimpleShell.A1.IfStatement
import SimpleShell.Fs.SectorList
import SimpleShell.Fs.Shrink
import SimpleShell.Fs.FirstFit
import SimpleShell.Fs.Smooth
import SimpleShell.Fs.Ownership
import SimpleShell.Fs.Remount
import SimpleShell.Fs.GrowableFile
import SimpleShell.Fs.FailedCreate
import SimpleShell.Fs.ReserveWrites
import SimpleShell.Fs.Appending
import SimpleShell.A3.Kernel
import SimpleShell.A3.Interpreter
import SimpleShell.A3.PageFault
import SimpleShell.A3.Script
import SimpleShell.Fs.Store
import SimpleShell.Lib.MoveToFront
import SimpleShell.A3.Paging
import SimpleShell.A3.Turns
import SimpleShell.A3.CalmLines
import SimpleShell.A3.Exec
import SimpleShell.A3.ScriptText
import SimpleShell.A3.DemandPaging
import SimpleShell.A3.LruOrder
import SimpleShell.A3.Cleanup
