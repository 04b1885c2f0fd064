import MsgCourier.CText
import MsgCourier.Buffer
import MsgCourier.BufferContent
import MsgCourier.HeaderExtract
import MsgCourier.RoutingTag
import MsgCourier.Msg
import MsgCourier.Inbound
import MsgCourier.Framing
import MsgCourier.FrameSize
import MsgCourier.MsgContent
import MsgCourier.Classification
import MsgCourier.InboundContent
import MsgCourier.UdpServer
import MsgCourier.PayloadWindow
import MsgCourier.CursorSweep
import MsgCourier.MsgPool
import MsgCourier.MsgQueue
import MsgCourier.Runs
import MsgCourier.PoolSweep
import MsgCourier.PoolRun
import MsgCourier.WireMessage
import MsgCourier.Fragmentation
import MsgCourier.Outbound
import MsgCourier.OutboundContent
import MsgCourier.HandlerHistory
import MsgCourier.Delivery
import MsgCourier.HandlerIndependence
import MsgCourier.RetryRun
import MsgCourier.DatagramRun
import MsgCourier.DatagramReply
import MsgCourier.Recycling
import MsgCourier.SharedPayload
import MsgCourier.PathPlaces
import MsgCourier.Url
import MsgCourier.WebRequest
import MsgCourier.VirtualDirectory
import MsgCourier.ServerScripts
import MsgCourier.Dispatch
import MsgCourier.DispatchOnce
import MsgCourier.Service
import MsgCourier.ServiceRun
import MsgCourier.HandOver
import MsgCourier.SortedEntries
import MsgCourier.ServiceCursor
import MsgCourier.ServiceRegistry
import MsgCourier.ServiceLock
import MsgCourier.Presence
import MsgCourier.PeerList
import MsgCourier.PresenceBroadcast
import MsgCourier.WireFields
import MsgCourier.PresenceAnnouncement
import MsgCourier.ServiceWalks
import MsgCourier.NodeList
import MsgCourier.ConnectionCache
import MsgCourier.CacheRun
import MsgCourier.OutboundTasks
import MsgCourier.TextBlock
import MsgCourier.XmlText
import MsgCourier.XmlParser
import MsgCourier.XmlContent
import MsgCourier.XmlBounds
import MsgCourier.UniqueID
import MsgCourier.PreQueue
import MsgCourier.PendingWrite
import MsgCourier.XmlCursor
import MsgCourier.AccessRules
import MsgCourier.DatabaseFlush
import MsgCourier.ScraperMarks
import MsgCourier.HandShake
import MsgCourier.FileCoherence
import MsgCourier.Nesting
import MsgCourier.Statement
import MsgCourier.MCScript
import MsgCourier.BraceBalance
import MsgCourier.BufferEdit
import MsgCourier.BufferRefinement
import MsgCourier.BufferScan
import MsgCourier.Replacement
import MsgCourier.BufferText
import MsgCourier.BufferCleanup
import MsgCourier.PresenceIdentity
import MsgCourier.RoutingForms
import MsgCourier.RoutingNormal
import MsgCourier.ReplyAddress
import MsgCourier.HeaderSizes
import MsgCourier.Turns
import MsgCourier.Pipelining
import MsgCourier.WireHeaders
import MsgCourier.WireAgreement
import MsgCourier.Relaying
import MsgCourier.SortedMap
import MsgCourier.Tuples
import MsgCourier.UrlCoding
import MsgCourier.HeaderValues
import MsgCourier.AccessForms
import MsgCourier.Base64
import MsgCourier.Base64RoundTrip
import MsgCourier.KeyValue
import MsgCourier.XmlRounds
import MsgCourier.XmlAttributes
import MsgCourier.TagReading
import MsgCourier.XmlScanner
import MsgCourier.XmlReading
import MsgCourier.XmlComments
import MsgCourier.XmlTags
import MsgCourier.XmlDocument
import MsgCourier.AccessLog
import MsgCourier.RoundRobin
import MsgCourier.DescriptorRange
import MsgCourier.TimeoutSweep
import MsgCourier.StatementRounds
import MsgCourier.RulesEngine
import MsgCourier.RuleSearch
import MsgCourier.ScriptInclude
import MsgCourier.SpecialTags
import MsgCourier.Markup
import MsgCourier.MarkupSafety
import MsgCourier.BufferRoom
import MsgCourier.Limits
import MsgCourier.ParseMarkup
import MsgCourier.MarkupRoom
import MsgCourier.MarkupTexts
import MsgCourier.MarkupPages
import MsgCourier.PageSafety
import MsgCourier.Expressions
import MsgCourier.FragmentTcl
import MsgCourier.Composition
import MsgCourier.ExpressionWalk
import MsgCourier.EditDistance
import MsgCourier.Levenshtein
import MsgCourier.EditLaws
import MsgCourier.ClosestName
import MsgCourier.SysMetrics
import MsgCourier.HourlyIndex
import MsgCourier.PorterStemmer
import MsgCourier.StemBounds
import MsgCourier.WordStems
import MsgCourier.KeptWords
import MsgCourier.ShiftRegister
import MsgCourier.Crc32
import MsgCourier.XmlSearch
import MsgCourier.ServerConfig
import MsgCourier.RouteConfig
import MsgCourier.ConfigRouting
import MsgCourier.LinkedCells
import MsgCourier.XmlList
import MsgCourier.HttpReply
import MsgCourier.Revalidation
import MsgCourier.BufferCrypto
import MsgCourier.FormParameters
import MsgCourier.HandlerFactory
import MsgCourier.Leases
import MsgCourier.PresenceReport
