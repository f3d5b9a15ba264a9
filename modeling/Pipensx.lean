import Pipensx.Bencode
import Pipensx.BencodeGrammar
import Pipensx.TorrentFile
import Pipensx.PieceGeometry
import Pipensx.PrefixLayout
import Pipensx.TorrentLayout
import Pipensx.Keystream
import Pipensx.PeerSend
import Pipensx.ByteBits
import Pipensx.Storage
import Pipensx.StorageFlat
import Pipensx.StorageArray
import Pipensx.SinkDelivery
import Pipensx.PieceManager
import Pipensx.HashPipeline
import Pipensx.PieceBuffers
import Pipensx.PieceEdits
import Pipensx.HashRing
import Pipensx.PieceBookkeeping
import Pipensx.PieceIntegrity
import Pipensx.PeerQueue
import Pipensx.RequestCounts
import Pipensx.Engine
import Pipensx.Hedging
import Pipensx.EngineMoves
import Pipensx.PipelineCounts
import Pipensx.HedgeBudget
import Pipensx.EngineProgress
import Pipensx.EngineRuns
import Pipensx.PieceWrites
import Pipensx.RemoteSafety
import Pipensx.PieceFrames
import Pipensx.TorrentTick
import Pipensx.SkippedPieces
import Pipensx.CompletionReport
import Pipensx.EngineCalls
import Pipensx.HashingJobs
import Pipensx.HashingAgreement
import Pipensx.FastResume
import Pipensx.ReadBack
import Pipensx.CompletionChecked
import Pipensx.Mse
import Pipensx.MseSegmentation
import Pipensx.MseLimit
import Pipensx.KeyAgreement
import Pipensx.MseAgreement
import Pipensx.PeerIngest
import Pipensx.PeerSegmentation
import Pipensx.LateAnswers
import Pipensx.BlockLedger
import Pipensx.PeerDial
import Pipensx.DialPlaces
import Pipensx.DialShifts
import Pipensx.DialLadder
import Pipensx.PipelineLimit
import Pipensx.LexicalPath
import Pipensx.StoragePaths
import Pipensx.DhtSessions
import Pipensx.BencodeWalk
import Pipensx.OrderCursor
import Pipensx.WorkConserving
import Pipensx.FreshBytes
import Pipensx.InitialPeers
import Pipensx.ReceiveRoom
import Pipensx.StringDict
import Pipensx.PexMessage
import Pipensx.PexDispatch
import Pipensx.AllocLedger
import Pipensx.TorrentBuffers
import Pipensx.UdpTracker
import Pipensx.JsonParser
import Pipensx.JsonLayout
import Pipensx.JsonReading
import Pipensx.JsonProgress
import Pipensx.CString
import Pipensx.JsonCursor
import Pipensx.Catalog
import Pipensx.CatalogLoading
import Pipensx.CatalogSort
import Pipensx.ShiftSort
import Pipensx.CatalogRating
import Pipensx.CatalogSearch
import Pipensx.BlockHash
import Pipensx.Sha1
import Pipensx.Sha1Standard
import Pipensx.Sha256
import Pipensx.Sha256Standard
import Pipensx.QueueProbes
import Pipensx.LatencyAverage
import Pipensx.RateEstimator
import Pipensx.UrlText
import Pipensx.AnnounceUrl
import Pipensx.Stdio
import Pipensx.DhtCache
import Pipensx.BigEndian
import Pipensx.SplitPath
import Pipensx.DhtTable
import Pipensx.NearestFirst
import Pipensx.Occurrence
import Pipensx.DhtMessages
import Pipensx.DhtParsing
import Pipensx.DhtReading
import Pipensx.DhtWire
import Pipensx.DhtEngine
import Pipensx.DhtShape
import Pipensx.DhtMoves
import Pipensx.DhtSplit
import Pipensx.DhtUpkeep
import Pipensx.DhtTurns
import Pipensx.DhtStorage
import Pipensx.DhtRuns
import Pipensx.DhtRouting
import Pipensx.DhtKept
import Pipensx.DhtSearches
import Pipensx.DhtClock
import Pipensx.DhtSenders
