import Zapdos.Store.Reservation
import Zapdos.Hrpc.Replication
import Zapdos.Hrpc.PushBuffer
import Zapdos.Hrpc.Election
import Zapdos.Hrpc.ElectionRounds
import Zapdos.Hrpc.RejoinCheck
import Zapdos.Store.LogWindow
import Zapdos.Store.Startup
import Zapdos.Store.BatchRequest
import Zapdos.Store.Merging
import Zapdos.Node.Crash
import Zapdos.Node.Counters
import Zapdos.Store.Privileges
import Zapdos.Store.Access
import Zapdos.Query.LoginService
import Zapdos.Store.DeletedAccounts
import Zapdos.Store.CacheTransparency
import Zapdos.Search.Completeness
import Zapdos.Search.Ranking
import Zapdos.Search.XapIndex
import Zapdos.Store.ReadAccess
import Zapdos.Search.SelfMatch
import Zapdos.Crypto.SessionForgery
import Zapdos.Crypto.SessionLife
import Zapdos.Node.ReplayOrder
import Zapdos.Store.LostUpdates
import Zapdos.Store.KeyText
import Zapdos.Search.EarlyStop
import Zapdos.Store.ListMerges
import Zapdos.Store.CategoryAccess
import Zapdos.Store.TagMerge
import Zapdos.Search.GeoRing
import Zapdos.Search.FlatText
import Zapdos.Search.BeginWith
import Zapdos.Query.ProtoForm
import Zapdos.Utils.CfgFileOptions
import Zapdos.Utils.CfgLookup
import Zapdos.Lib.BitStream
import Zapdos.Utils.B64String
import Zapdos.Search.KrovetzStems
import Zapdos.Jamspell.LangModel
import Zapdos.Jamspell.BloomFilter
import Zapdos.Jamspell.FixFragment
