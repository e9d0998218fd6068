import Frosk.Lib.Run
import Frosk.Lib.Bytes
import Frosk.Lib.Dll
import Frosk.Lib.Radix
import Frosk.Lib.Numeral
import Frosk.Lib.Range
import Frosk.Lib.Cover
import Frosk.Lib.Ring
import Frosk.Lib.Rotation
import Frosk.Lib.SearchTree
import Frosk.Lib.Inorder
import Frosk.Lib.Lockstep
import Frosk.Lib.Pic
import Frosk.Common
import Frosk.Strings
import Frosk.Queue.Definitions
import Frosk.Queue.Links
import Frosk.Queue.Locking
import Frosk.Queue.Order
import Frosk.Queue.Deadlock
import Frosk.Queue.Release
import Frosk.Pages.Definitions
import Frosk.Pages.Safety
import Frosk.Pages.Undoing
import Frosk.UserHeap.Definitions
import Frosk.UserHeap.Steps
import Frosk.UserHeap.Safety
import Frosk.UserHeap.Coverage
import Frosk.UserHeap.Exhaustion
import Frosk.UserHeap.Callers
import Frosk.UserHeap.Loading
import Frosk.KernelHeap.Definitions
import Frosk.KernelHeap.Parts
import Frosk.KernelHeap.Steps
import Frosk.KernelHeap.Safety
import Frosk.KernelHeap.Coverage
import Frosk.KernelHeap.Large
import Frosk.Pages.Setup
import Frosk.Fs.Node
import Frosk.Fs.Definitions
import Frosk.Fs.Bounds
import Frosk.Fs.Tree
import Frosk.Fs.Directory
import Frosk.Fs.Editing
import Frosk.Fs.Reading
import Frosk.Fs.Files
import Frosk.Fs.Forest
import Frosk.Fs.Iteration
import Frosk.Fs.Retrieval
import Frosk.Paging.Definitions
import Frosk.Paging.Window
import Frosk.Paging.Exact
import Frosk.Regions.Definitions
import Frosk.Regions.Swapping
import Frosk.Regions.Overlap
import Frosk.Regions.Growth
import Frosk.Scheduler.Definitions
import Frosk.Scheduler.Spawn
import Frosk.Scheduler.Threads
import Frosk.Scheduler.Invariant
import Frosk.Scheduler.Steps
import Frosk.Scheduler.Isolation
import Frosk.Scheduler.Faults
import Frosk.Scheduler.RoundRobin
import Frosk.Scheduler.Startup
import Frosk.Scheduler.Context
import Frosk.Scheduler.Places
import Frosk.Scheduler.Resuming
import Frosk.Interrupts.Definitions
import Frosk.Interrupts.Delivery
import Frosk.Interrupts.Entries
import Frosk.Keyboard.Definitions
import Frosk.Keyboard.Buffer
import Frosk.Keyboard.Order
import Frosk.Keyboard.Polling
import Frosk.Builder.Definitions
import Frosk.Builder.Blocks
import Frosk.Builder.Entries
import Frosk.Builder.Writing
import Frosk.Builder.Strings
import Frosk.Builder.Building
import Frosk.Builder.Layout
import Frosk.Builder.Positions
import Frosk.Builder.Pointers
import Frosk.Builder.Parsing
import Frosk.Builder.Lexing
import Frosk.Builder.Directives
import Frosk.Builder.Descriptions
import Frosk.Builder.Reaching
import Frosk.Builder.Runs
import Frosk.Builder.Virtual
import Frosk.Builder.Confirming
import Frosk.Builder.Grammar
import Frosk.Builder.Tokens
import Frosk.Builder.Unambiguous
import Frosk.Builder.Returning
import Frosk.Builder.Room
import Frosk.Builder.Ending
import Frosk.Builder.Main
import Frosk.Stdin.Definitions
import Frosk.Stdin.Stream
import Frosk.Stdin.Limit
import Frosk.Stdio.Definitions
import Frosk.Stdio.Formatting
import Frosk.Stdio.Numbers
import Frosk.Stdio.Safety
import Frosk.Stdio.Printers
import Frosk.Stdio.Streams
import Frosk.Cstd.Random
import Frosk.Cstd.Comparing
import Frosk.Cstd.Duplicating
import Frosk.Fcurses.Definitions
import Frosk.Fcurses.Terminal
import Frosk.Shell.Definitions
import Frosk.Shell.Keys
import Frosk.Shell.Running
import Frosk.Exec.Definitions
import Frosk.Exec.Termination
import Frosk.Exec.Inside
import Frosk.Exec.Files
import Frosk.Mount.Definitions
import Frosk.Mount.Stored
import Frosk.Mount.Loading
import Frosk.Mount.RoundTrip
import Frosk.Mount.Boot
import Frosk.Mount.Loader
import Frosk.Mount.Booting
import Frosk.Dev.Definitions
import Frosk.Dev.Reading
import Frosk.Dev.Ata
import Frosk.Dev.Cursor
import Frosk.Exec.Described
