import Pungoo.Failing
import Pungoo.Wire
import Pungoo.Codec
import Pungoo.AmqpTable
import Pungoo.AmqpTableCodec
import Pungoo.AmqpTableDecoder
import Pungoo.AmqpMethods
import Pungoo.AmqpProperties
import Pungoo.AmqpClone
import Pungoo.AmqpMerge
import Pungoo.AmqpFrames
import Pungoo.Chunks
import Pungoo.AmqpInbound
import Pungoo.AmqpStream
import Pungoo.AmqpInboundStream
import Pungoo.AmqpDelivery
import Pungoo.AmqpInboundSafety
import Pungoo.AmqpPool
import Pungoo.AmqpQueue
import Pungoo.AmqpPublish
import Pungoo.AmqpMessage
import Pungoo.AmqpRpc
import Pungoo.AmqpTune
import Pungoo.AmqpLogin
import Pungoo.Crc
import Pungoo.RedisSlots
import Pungoo.BlockHash
import Pungoo.Sha1
import Pungoo.Run
import Pungoo.Machine
import Pungoo.Numeral
import Pungoo.TinyUrl
import Pungoo.TinyUrlStore
import Pungoo.TinyUrlCodec
import Pungoo.Ipv4
import Pungoo.Ipv4Grammar
import Pungoo.Ipv4Scan
import Pungoo.Window
import Pungoo.MinSpan
import Pungoo.MinSpanWindow
import Pungoo.MinSpanRun
import Pungoo.MinSpanOptimal
import Pungoo.MinSpanReal
import Pungoo.MinSpanSteps
import Pungoo.Stdio
import Pungoo.Disk
import Pungoo.DiskStreams
import Pungoo.DiskTransfer
import Pungoo.RetryLoop
import Pungoo.DiskRetry
import Pungoo.Webhdfs
import Pungoo.WebhdfsFailover
import Pungoo.WebhdfsAppend
import Pungoo.WebhdfsPasses
import Pungoo.WebhdfsRelease
import Pungoo.Query
import Pungoo.WebhdfsUrl
import Pungoo.Shuffle
import Pungoo.IntArray
import Pungoo.Heap
import Pungoo.HeapArray
import Pungoo.Hsort
import Pungoo.Heapsort
import Pungoo.HeapIndex
import Pungoo.Quicksort
import Pungoo.QuicksortSteps
import Pungoo.ArithmeticSlices
import Pungoo.ArithmeticSlicesRange
import Pungoo.HammingDistance
import Pungoo.Decimal
import Pungoo.AmqpUrl
import Pungoo.StdString
import Pungoo.ComplexNum
import Pungoo.Battleships
import Pungoo.BattleshipsFleet
import Pungoo.BattleshipsRuns
