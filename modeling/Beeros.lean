import Beeros.Memory
import Beeros.Malloc
import Beeros.MallocHeap
import Beeros.MallocRuns
import Beeros.VirtioBlk
import Beeros.VirtioBlkTimeout
import Beeros.VirtioBlkSwitch
import Beeros.VirtioBlkDma
import Beeros.VirtioBlkTasks
import Beeros.Ring
import Beeros.VirtioInput
import Beeros.Console
import Beeros.Exec
import Beeros.Utf8
import Beeros.Ext2
import Beeros.Ext2Write
import Beeros.Ext2Volume
import Beeros.Ext2Blocks
import Beeros.Ext2Bitmap
import Beeros.Ext2Alloc
import Beeros.Ext2Books
import Beeros.Ext2Read
import Beeros.Ext2Record
import Beeros.Ext2Map
import Beeros.Ext2Data
import Beeros.Ext2Build
import Beeros.Ext2Dir
import Beeros.Ext2DirWrite
import Beeros.Ext2Image
import Beeros.Ext2Check
import Beeros.Ext2Edit
import Beeros.Ext2Inodes
import Beeros.Ext2Entries
import Beeros.Ext2Paths
import Beeros.Ext2Ops
import Beeros.Ext2ReadBack
import Beeros.Ext2Append
import Beeros.Interleave
import Beeros.Ext2Lock
import Beeros.Lines
import Beeros.Beerlang
import Beeros.BeermacsBuffer
import Beeros.BeermacsText
import Beeros.BeermacsRefine
import Beeros.BeermacsEditor
import Beeros.BeermacsCommands
import Beeros.BeermacsKin
import Beeros.BeermacsNames
import Beeros.BeermacsMark
import Beeros.BeermacsUndo
import Beeros.BeermacsKill
import Beeros.BeermacsTabs
import Beeros.BeermacsSearch
import Beeros.Captures
import Beeros.CaptureSlots
import Beeros.Loop
import Beeros.Gfx
import Beeros.GfxCursor
import Beeros.GfxOwner
import Beeros.GfxDraw
import Beeros.Grid
import Beeros.Term
import Beeros.TermGood
import Beeros.TermDraw
import Beeros.TermSteps
import Beeros.TermFeed
import Beeros.TermRuns
import Beeros.TermQueue
import Beeros.IrqPending
import Beeros.Wm
import Beeros.WmAgree
import Beeros.Rekey
import Beeros.RamFs
import Beeros.RamMv
import Beeros.FormComplete
import Beeros.FormScan
import Beeros.Tty
import Beeros.Ustar
import Beeros.UstarArchive
import Beeros.TarCache
import Beeros.TermText
import Beeros.BeermacsDisplay
import Beeros.Ext2Logical
import Beeros.Ext2Transfer
import Beeros.Ext2Scan
import Beeros.Ext2Mount
import Beeros.Resolution
import Beeros.Ext2Resolve
import Beeros.Ext2Exact
import Beeros.UstarPax
import Beeros.Ext2Symlink
import Beeros.Ext2DirMap
import Beeros.TermWrap
import Beeros.TermMargin
import Beeros.Lineedit
import Beeros.Brackets
import Beeros.LineeditMatch
import Beeros.LineeditKeys
import Beeros.WmTasks
import Beeros.FsMount
import Beeros.TarPaths
import Beeros.CInt
import Beeros.GfxFlat
import Beeros.GfxPaint
import Beeros.GfxPictures
import Beeros.GfxBounds
import Beeros.GfxBlits
import Beeros.GfxClip
import Beeros.GfxCopy
import Beeros.GfxReads
import Beeros.WmSurfaces
import Beeros.WmPointer
import Beeros.BeermacsScan
import Beeros.BeermacsSexp
import Beeros.BeermacsIsearch
import Beeros.Bmp
import Beeros.GfxShapes
import Beeros.MallocAlign
import Beeros.PsfFont
import Beeros.VirtQueue
import Beeros.Input
import Beeros.WmDrag
import Beeros.WmRouting
import Beeros.TermOutput
import Beeros.LineeditForm
import Beeros.Monitor
import Beeros.VirtioInit
import Beeros.VirtioHandshake
import Beeros.MallocPeak
import Beeros.ReplUart
import Beeros.VirtioAnswers
import Beeros.HelpBrowse
