import FogOS.Lib.ByteMem
import FogOS.Lib.Ring
import FogOS.Lib.Steps
import FogOS.Lib.Placement
import FogOS.Umalloc.Basic
import FogOS.Umalloc.Repr
import FogOS.Umalloc.Lists
import FogOS.Umalloc.SplitMerge
import FogOS.Umalloc.Fit
import FogOS.Umalloc.Heap
import FogOS.Umalloc.Moves
import FogOS.Umalloc.Calls
import FogOS.Umalloc.Program
import FogOS.Umalloc.Contract
import FogOS.Umalloc.Foreign
import FogOS.Umalloc.Overflow
import FogOS.Umalloc.Realloc
import FogOS.Umalloc.Tail
import FogOS.Kernel.Basic
import FogOS.Kernel.Kalloc
import FogOS.Kernel.PageTable
import FogOS.Kernel.Vm
import FogOS.Kernel.Space
import FogOS.Kernel.Fs
import FogOS.Kernel.Itable
import FogOS.Kernel.Blocks
import FogOS.Kernel.Inodes
import FogOS.Kernel.Entries
import FogOS.Kernel.Exec
import FogOS.Kernel.Freelist
import FogOS.Kernel.Log
import FogOS.Kernel.Recovery
import FogOS.Shell.Crash
import FogOS.Shell.History
import FogOS.Shell.Tokens
import FogOS.Shell.Script
import FogOS.Shell.Lines
import FogOS.Shell.Record
import FogOS.Shell.Ends
import FogOS.Kernel.Machine
import FogOS.Kernel.Wait
import FogOS.Kernel.Inherit
import FogOS.Kernel.Tenancy
import FogOS.Kernel.Room
import FogOS.Kernel.Calls
import FogOS.Kernel.Runs
import FogOS.Kernel.Shared
import FogOS.Kernel.HeapLimit
import FogOS.Kernel.ExecMmap
import FogOS.Kernel.Shortage
import FogOS.Kernel.Pipe
import FogOS.Kernel.Slots
import FogOS.Kernel.Kill
import FogOS.Kernel.Console
import FogOS.Kernel.Bio
import FogOS.Kernel.Virtio
import FogOS.Kernel.PageMap
import FogOS.Kernel.Tables
import FogOS.Kernel.OpenFiles
import FogOS.Kernel.Files
import FogOS.Lib.Register
import FogOS.Kernel.Chunks
import FogOS.Kernel.Faults
import FogOS.Kernel.Sbrk
import FogOS.Kernel.Scheduler
import FogOS.Kernel.TableCost
import FogOS.Kernel.Loader
import FogOS.Kernel.Paths
import FogOS.Kernel.Reclaim
import FogOS.Shell.NextToken
import FogOS.Umalloc.Policies
import FogOS.User.Catlines
import FogOS.User.Printf
import FogOS.Mkfs.Agree
import FogOS.Shell.Grammar
import FogOS.Kernel.Balance
import FogOS.Kernel.Dirs
import FogOS.Kernel.Links
import FogOS.Kernel.Arguments
import FogOS.Kernel.ExecFile
import FogOS.Kernel.ExecFails
import FogOS.Kernel.SysExec
import FogOS.Kernel.Descriptors
import FogOS.Kernel.Locking
import FogOS.Kernel.Races
import FogOS.Kernel.Wakeups
import FogOS.Shell.Pipeline
