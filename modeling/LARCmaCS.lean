import LARCmaCS.Lib.BestFirst
import LARCmaCS.Lib.BreadthFirst
import LARCmaCS.Lib.Buffer
import LARCmaCS.Lib.Crc
import LARCmaCS.Lib.Descent
import LARCmaCS.Lib.FirstBest
import LARCmaCS.Lib.InPlace
import LARCmaCS.Lib.LinkedList
import LARCmaCS.Lib.LittleEndian
import LARCmaCS.Lib.Log
import LARCmaCS.Lib.Loop
import LARCmaCS.Lib.Machine
import LARCmaCS.Lib.Mailbox
import LARCmaCS.Lib.RadixSort
import LARCmaCS.Lib.Ranking
import LARCmaCS.Lib.Roster
import LARCmaCS.Lib.SeedFill
import LARCmaCS.Lib.Sighting
import LARCmaCS.Lib.UnionFind
import LARCmaCS.Double
import LARCmaCS.PacketSSL
import LARCmaCS.Merge
import LARCmaCS.Receiver
import LARCmaCS.HandOff
import LARCmaCS.Stream
import LARCmaCS.Message
import LARCmaCS.CommandData
import LARCmaCS.ErrorDetection
import LARCmaCS.MainAlg
import LARCmaCS.Pause
import LARCmaCS.Broadcast
import LARCmaCS.Dispatch
import LARCmaCS.Narrowing
import LARCmaCS.Config
import LARCmaCS.RuleBounds
import LARCmaCS.RemoteControl
import LARCmaCS.Connector
import LARCmaCS.CommandPath
import LARCmaCS.Scene.FieldScene
import LARCmaCS.Scene.Robots
import LARCmaCS.Scene.Items
import LARCmaCS.RingBuffer
import LARCmaCS.CMVision.Runs
import LARCmaCS.CMVision.Encode
import LARCmaCS.CMVision.Regions
import LARCmaCS.CMVision.Connect
import LARCmaCS.CMVision.Limits
import LARCmaCS.CMVision.Paint
import LARCmaCS.CMVision.Groups
import LARCmaCS.CMVision.ColorLists
import LARCmaCS.CMVision.Filter
import LARCmaCS.Lut3d.Table
import LARCmaCS.Lut3d.Segment
import LARCmaCS.Lut3d.FloodFill
import LARCmaCS.Lut3d.Overflow
import LARCmaCS.Lut3d.Termination
import LARCmaCS.CMVision.Threshold
import LARCmaCS.CMVision.Blobs
import LARCmaCS.CMVision.Processor
import LARCmaCS.Conversions
import LARCmaCS.Sobel
import LARCmaCS.VarNotifier
import LARCmaCS.VarTypes.Base64
import LARCmaCS.Xml.Text
import LARCmaCS.Xml.Node
import LARCmaCS.Xml.Parser
import LARCmaCS.Xml.RoundTrip
import LARCmaCS.Xml.File
import LARCmaCS.VarTypes.Number
import LARCmaCS.VarTypes.Tree
import LARCmaCS.VarTypes.Reading
import LARCmaCS.VarTypes.Keeping
import LARCmaCS.VarTypes.Restore
import LARCmaCS.VarTypes.Shape
import LARCmaCS.VarTypes.Settings
import LARCmaCS.CMPattern.TeamDetector
import LARCmaCS.CMPattern.Duplicates
import LARCmaCS.CMPattern.Pattern
import LARCmaCS.CMPattern.Matching
import LARCmaCS.CMPattern.Team
import LARCmaCS.CMPattern.Loading
import LARCmaCS.CMPattern.Chain
import LARCmaCS.NKDTree.Scan
import LARCmaCS.CMPattern.ModelDetector
