import JyyOS.Core.Transition
import JyyOS.Core.LockPlan
import JyyOS.Core.ThreadSum
import JyyOS.Core.ListSum
import JyyOS.Core.SemaphoreThreads
import JyyOS.Core.Monitor
import JyyOS.Core.Tso
import JyyOS.Core.WordSearch
import JyyOS.Core.ByteImage
import JyyOS.Core.Overlay
import JyyOS.Core.Overwrite
import JyyOS.Core.LostUpdate
import JyyOS.Core.DepthFirst
import JyyOS.Core.Fairness
import JyyOS.Core.Substitution
import JyyOS.Concurrency.Brackets
import JyyOS.Concurrency.PcSem
import JyyOS.Concurrency.Pc
import JyyOS.Concurrency.Fish
import JyyOS.Concurrency.Philosopher
import JyyOS.Concurrency.SumScalability
import JyyOS.Concurrency.Sum
import JyyOS.Concurrency.Mandelbrot
import JyyOS.Concurrency.PetersonBarrier
import JyyOS.Concurrency.MemOrdering
import JyyOS.Concurrency.Flock
import JyyOS.Concurrency.Midterm
import JyyOS.Concurrency.MidtermStranding
import JyyOS.Concurrency.MidtermTle
import JyyOS.Concurrency.MidtermTleSum
import JyyOS.ModelChecker.Execute
import JyyOS.ModelChecker.Bfs
import JyyOS.ModelChecker.Reduce
import JyyOS.ModelChecker.Names
import JyyOS.ModelChecker.Python
import JyyOS.ModelChecker.Instrument
import JyyOS.ModelChecker.Granularity
import JyyOS.ModelChecker.Position
import JyyOS.ModelChecker.Heap
import JyyOS.ModelChecker.Renaming
import JyyOS.ModelChecker.Determined
import JyyOS.ModelChecker.Staged
import JyyOS.ModelChecker.Program
import JyyOS.ModelChecker.DekkerLock
import JyyOS.ModelChecker.PetersonFlag
import JyyOS.ModelChecker.ConditionVariable
import JyyOS.ModelChecker.Serialize
import JyyOS.ModelChecker.Drawing
import JyyOS.ModelChecker.Futex
import JyyOS.ModelChecker.Semaphore
import JyyOS.Shell.Parser
import JyyOS.Shell.Getcmd
import JyyOS.Shell.Grammar
import JyyOS.Shell.Lexing
import JyyOS.Shell.ParserCorrect
import JyyOS.Shell.ParserExact
import JyyOS.Shell.ParserProgress
import JyyOS.Shell.Nulterminate
import JyyOS.Shell.Descriptors
import JyyOS.Shell.Process
import JyyOS.Shell.Session
import JyyOS.Shell.Background
import JyyOS.Shell.Wiring
import JyyOS.Shell.Orderly
import JyyOS.Shell.Foreground
import JyyOS.Shell.Plan
import JyyOS.Shell.Redirections
import JyyOS.Shell.Append
import JyyOS.Dl.Assembler
import JyyOS.Dl.Image
import JyyOS.Dl.Loader
import JyyOS.Dl.Runs
import JyyOS.Dl.Termination
import JyyOS.Dl.Graph
import JyyOS.Dl.Failures
import JyyOS.Dl.Exports
import JyyOS.Dl.Resolution
import JyyOS.Hanoi.Frames
import JyyOS.Hanoi.Puzzle
import JyyOS.Virtualization.Bootmain
import JyyOS.Virtualization.LoaderStatic
import JyyOS.Virtualization.InitialStack
import JyyOS.Virtualization.DosboxHack
import JyyOS.Virtualization.Dsu
import JyyOS.Virtualization.Maze
import JyyOS.Virtualization.DfsFork
import JyyOS.LinuxMinimal.Launcher
import JyyOS.Calculator.Tokenizer
import JyyOS.Calculator.Builder
import JyyOS.Calculator.Session
import JyyOS.Hanoi.Optimal
