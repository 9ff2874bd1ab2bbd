import NewsChain.Laws.GeneratedBlock
import NewsChain.Laws.Linkage
import NewsChain.Laws.Reindex
import NewsChain.Laws.BlockLookup
import NewsChain.Laws.BranchMeeting
import NewsChain.Laws.LinkedTree
import NewsChain.Laws.ForkWindow
import NewsChain.Laws.Supply
import NewsChain.Laws.BatchTransfer
import NewsChain.Laws.HeadTime
import NewsChain.Laws.BlockSummary
import NewsChain.Laws.RawRoundTrip
import NewsChain.Laws.Authority
import NewsChain.Laws.AssetText
import NewsChain.Laws.MerkleRoot
import NewsChain.Laws.LogOpen
import NewsChain.Laws.UndoStore
import NewsChain.Laws.MutatedCopies
import NewsChain.Laws.Slots
import NewsChain.Laws.KeyText
import NewsChain.Laws.Synopsis
import NewsChain.Laws.Accounts
import NewsChain.Laws.Hardforks
import NewsChain.Laws.OperationIndex
import NewsChain.Laws.AccountHistory
import NewsChain.Laws.WriteQueue
import NewsChain.Laws.SharedMemory
import NewsChain.Laws.CatchUp
import NewsChain.Laws.Following
import NewsChain.Laws.SyncSession
import NewsChain.Laws.Sessions
import NewsChain.Laws.PeerLink
import NewsChain.Laws.MessageConnection
import NewsChain.Laws.Application
import NewsChain.Laws.Json
import NewsChain.Laws.JsonRpc
