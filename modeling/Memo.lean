import Memo.PaxosReads
import Memo.RemoveMany
import Memo.SplitBrain
import Memo.Validated
import Memo.Unloading
import Memo.Authentication
import Memo.Removals
import Memo.TokenHolders
import Memo.GroupStack
import Memo.Overwrites
import Memo.Disappearances
import Memo.AddressBook
import Memo.Allocation
import Memo.Handshake
import Memo.AsyncReads
import Memo.AsyncSync
import Memo.CacheVersions
import Memo.CacheRemovals
import Memo.CacheDisk
import Memo.KeyNumbers
import Memo.KVBlocks
import Memo.KVReads
import Memo.Delimiters
import Memo.DockRegistries
import Memo.KelipsGossip
import Memo.KelipsPut
import Memo.KelipsFaults
import Memo.KelipsTuning
import Memo.KelipsPicks
import Memo.KelipsReads
import Memo.ReactorGeneratorRuns
import Memo.ReactorAlternativeRuns
import Memo.ReactorStrands
import Memo.ReactorWaits
import Memo.ReactorLocks
import Memo.ReactorScope
import Memo.AcceptorCalls
import Memo.FreshVersions
import Memo.EvictionLoops
import Memo.RebalanceLoops
import Memo.ProducerPool
import Memo.Addresses
import Memo.Durations
import Memo.Base64Streams
import Memo.RoundTrips
import Memo.UniformPicks
import Memo.FailedWrites
import Memo.CacheBound
import Memo.IntRanges
import Memo.PrintArguments
import Memo.LocalStores
import Memo.RemoteCalls
import Memo.Upgrades
import Memo.Reopenings
