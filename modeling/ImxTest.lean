import ImxTest.Lib.Cut
import ImxTest.Lib.BitString
import ImxTest.Lib.While
import ImxTest.Lib.Copy
import ImxTest.Lib.Ring
import ImxTest.Lib.Runs
import ImxTest.Lib.Window
import ImxTest.Lib.Wrap
import ImxTest.Lib.Feed
import ImxTest.Lib.Prog
import ImxTest.Lib.Writes
import ImxTest.Lib.Reading
import ImxTest.Lib.SpareSlot
import ImxTest.Lib.Words
import ImxTest.Lib.Grid
import ImxTest.Lib.Cascade
import ImxTest.Lib.Marker
import ImxTest.Lib.Strips
import ImxTest.Lib.Fields
import ImxTest.Lib.Expansion
import ImxTest.Lib.Loops
import ImxTest.Lib.Guards
import ImxTest.Lib.InPlace
import ImxTest.Lib.Borders
import ImxTest.Lib.Masks
import ImxTest.Lib.Overlay
import ImxTest.Lib.Account
import ImxTest.Pitcher.Def
import ImxTest.Pitcher.Parse
import ImxTest.Pitcher.Memory
import ImxTest.Pitcher.Kmp
import ImxTest.Pitcher.ParseProofs
import ImxTest.Pitcher.Ranges
import ImxTest.Pitcher.Elementary
import ImxTest.Pitcher.Pictures
import ImxTest.Pitcher.Mpeg2
import ImxTest.Pitcher.H265
import ImxTest.Pitcher.Bitstream
import ImxTest.Pitcher.BitstreamProofs
import ImxTest.Pitcher.Codewords
import ImxTest.Pitcher.H264
import ImxTest.Pitcher.H264Proofs
import ImxTest.Pitcher.H264Safety
import ImxTest.Pitcher.H264History
import ImxTest.Pitcher.H264Syntax
import ImxTest.Pitcher.H264Stream
import ImxTest.Pitcher.H264Pictures
import ImxTest.Pitcher.H264Slices
import ImxTest.Pitcher.Ivf
import ImxTest.Pitcher.IvfProofs
import ImxTest.Pitcher.Rcv
import ImxTest.Pitcher.Vp6
import ImxTest.Pitcher.Delivery
import ImxTest.Pitcher.Emission
import ImxTest.Pitcher.PixFmt
import ImxTest.Pitcher.PictureCopy
import ImxTest.Pitcher.Transfer
import ImxTest.Pitcher.PlaneLayout
import ImxTest.Pitcher.Counting
import ImxTest.Pitcher.Splitting
import ImxTest.Pitcher.FileInput
import ImxTest.Pitcher.Tiles
import ImxTest.Pitcher.V4l2
import ImxTest.Pitcher.PlaneViews
import ImxTest.Pitcher.TileReads
import ImxTest.Pitcher.Detile
import ImxTest.Pitcher.Crop
import ImxTest.Pitcher.Convert
import ImxTest.Pitcher.Packing
import ImxTest.Pitcher.FastPath
import ImxTest.Pitcher.RoundTrips
import ImxTest.Pitcher.BitFields
import ImxTest.Pitcher.ChromaPairs
import ImxTest.Pitcher.Queue
import ImxTest.Pitcher.Fifo
import ImxTest.Pitcher.QueueProofs
import ImxTest.Pitcher.Core
import ImxTest.Pitcher.Registry
import ImxTest.Pitcher.Topology
import ImxTest.Pitcher.Removal
import ImxTest.Pitcher.Skip
import ImxTest.Pitcher.Schedule
import ImxTest.Pitcher.Sweep
import ImxTest.Pitcher.Handover
import ImxTest.Pitcher.Drain
import ImxTest.Pitcher.Loop
import ImxTest.Pitcher.Timers
import ImxTest.Pitcher.Release
import ImxTest.Pitcher.Output
import ImxTest.Pitcher.Ledger
import ImxTest.Pitcher.Sessions
import ImxTest.Pitcher.Pool
import ImxTest.Pitcher.PoolProofs
import ImxTest.Pitcher.Ownership
import ImxTest.Nodes.Cmdline
import ImxTest.Nodes.Segments
import ImxTest.Nodes.Table
import ImxTest.Nodes.Sources
import ImxTest.Nodes.Decoding
import ImxTest.Nodes.Session
import ImxTest.Nodes.Finish
import ImxTest.Vpu.Utils
import ImxTest.Vpu.Udp
import ImxTest.Vpu.Dec
import ImxTest.Vpu.Enc
import ImxTest.Vpu.BufQueue
import ImxTest.Vpu.Display
import ImxTest.Vpu.DisplayProofs
import ImxTest.Vpu.Ratio
import ImxTest.Vpu.Fb
import ImxTest.Vpu.Mjpg
import ImxTest.Vpu.Options
import ImxTest.Vpu.CropRect
import ImxTest.V4l2Dec.Fill
import ImxTest.V4l2Dec.Frame
import ImxTest.V4l2Dec.Tiles8
import ImxTest.V4l2Dec.Fields10
import ImxTest.V4l2Dec.Tiles10
import ImxTest.V4l2Dec.Agreement
import ImxTest.V4l2Dec.Interlaced
import ImxTest.Patgen.Bitmap
import ImxTest.Patgen.Convert
import ImxTest.Patgen.Passes
import ImxTest.Patgen.Content
import ImxTest.Patgen.Written
import ImxTest.Dsd.Read
import ImxTest.Dsd.Dff
import ImxTest.Dsd.Walk
import ImxTest.Dsd.Play
import ImxTest.Dsd.Files
import ImxTest.Dsd.Forms
import ImxTest.Dsd.Guard
import ImxTest.Dsd.Accept
import ImxTest.Dsd.Interleave
import ImxTest.Dsd.Device
import ImxTest.Dsd.Sound
import ImxTest.Asrc.Wav
import ImxTest.Asrc.Parse
import ImxTest.Asrc.Chunks
import ImxTest.Asrc.Accept
import ImxTest.Asrc.OutputSize
import ImxTest.Asrc.Shift
import ImxTest.Asrc.Rescale
import ImxTest.Pdm.Ring
import ImxTest.Pdm.RingProofs
import ImxTest.Pdm.Cic
import ImxTest.Extractor.Annexb
import ImxTest.Extractor.Lengths
import ImxTest.Extractor.CodecData
import ImxTest.Extractor.Avcc
import ImxTest.Extractor.Hvcc
import ImxTest.Extractor.Records
import ImxTest.Extractor.Truncated
import ImxTest.Extractor.Samples
import ImxTest.Memtool.Access
import ImxTest.Memtool.Pages
import ImxTest.Memtool.Registers
import ImxTest.Memtool.Modules
import ImxTest.Memtool.Cmdline
import ImxTest.Memtool.Window
import ImxTest.Etm.Formatter
import ImxTest.Etm.Decoder
import ImxTest.Etm.Reads
import ImxTest.Etm.Address
import ImxTest.Etm.Acts
import ImxTest.Etm.Packets
import ImxTest.Etm.Etm33
import ImxTest.Etm.Pft
import ImxTest.Etm.Objdump
import ImxTest.Etm.Listing
import ImxTest.Asrc.Converted
