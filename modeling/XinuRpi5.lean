import XinuRpi5.Cc.ActorLives
import XinuRpi5.Cc.ArenaBlocks
import XinuRpi5.Cc.BlobLoad
import XinuRpi5.Cc.CodeBounds
import XinuRpi5.Cc.ConstantText
import XinuRpi5.Cc.Encodings
import XinuRpi5.Cc.ExprCode
import XinuRpi5.Cc.Futures
import XinuRpi5.Cc.ListRuns
import XinuRpi5.Cc.MemberPlaces
import XinuRpi5.Cc.MethodNames
import XinuRpi5.Cc.NowContext
import XinuRpi5.Cc.ParseScopes
import XinuRpi5.Cc.ParserStops
import XinuRpi5.Cc.RemoteText
import XinuRpi5.Cc.ReplySlots
import XinuRpi5.Cc.Resources
import XinuRpi5.Fs.FatInside
import XinuRpi5.Fs.FatMirror
import XinuRpi5.Fs.ShortNames
import XinuRpi5.Fs.SingleRuns
import XinuRpi5.Fs.VfsContents
import XinuRpi5.Fs.VfsTotal
import XinuRpi5.Fs.VfsTree
import XinuRpi5.Fs.WriteLaw
import XinuRpi5.Llm.Encode
import XinuRpi5.Mem.CallRuns
import XinuRpi5.Mem.FirstFit
import XinuRpi5.Mem.KmallocBooks
import XinuRpi5.System.AiplOwnAnswer
import XinuRpi5.System.AiplWire
import XinuRpi5.System.ContextSwitch
import XinuRpi5.System.CssCascade
import XinuRpi5.System.DemandRuns
import XinuRpi5.System.DhcpWire
import XinuRpi5.System.DnsAnswers
import XinuRpi5.System.HtmlI18n
import XinuRpi5.System.HtmlKeepsText
import XinuRpi5.System.InterruptExact
import XinuRpi5.System.JsDom
import XinuRpi5.System.JsIntern
import XinuRpi5.System.JsReturn
import XinuRpi5.System.JsStrings
import XinuRpi5.System.MeshCollect
import XinuRpi5.System.NQueensTasks
import XinuRpi5.System.ProxyReplies
import XinuRpi5.System.QueryParams
import XinuRpi5.System.ReadyQueue
import XinuRpi5.System.ReadyRuns
import XinuRpi5.System.Spinlock
import XinuRpi5.System.TcpFlow
import XinuRpi5.System.TcpFrame
import XinuRpi5.System.TcpIsolation
import XinuRpi5.System.TcpReceive
import XinuRpi5.System.TcpRequest
import XinuRpi5.System.TcpRetransmit
import XinuRpi5.System.TcpShift
import XinuRpi5.System.Update
import XinuRpi5.Video.AvmBatch
import XinuRpi5.Video.AvmContained
import XinuRpi5.Video.AvmLoad
import XinuRpi5.Video.AvmRoot
import XinuRpi5.Video.BasicArrays
import XinuRpi5.Video.BasicFlow
import XinuRpi5.Video.BasicStore
import XinuRpi5.Video.RasterBands
import XinuRpi5.Video.WindowList
import XinuRpi5.Wifi.AodvLoopFree
import XinuRpi5.Wifi.AodvSeen
import XinuRpi5.Wifi.ManetAcks
import XinuRpi5.Wifi.TftpRuns
