import Nxlog.L1Encoding.DecodedRecord
import Nxlog.L1Encoding.EncodeLimits
import Nxlog.L3Protocol.MultilineConserve
import Nxlog.L3Protocol.CsvRoundtrip
import Nxlog.L3Protocol.InPlace
import Nxlog.L4App.PmBufferRestart
import Nxlog.L4App.EventLists
import Nxlog.L4App.ExprCalls
import Nxlog.L4App.CoreFuncs
import Nxlog.L4App.ConfTree
import Nxlog.L4App.ConfTerm
import Nxlog.L4App.Router
import Nxlog.L4App.Schedule
import Nxlog.L4App.ConfigCacheRun
import Nxlog.L4App.ImFileCount
import Nxlog.L4App.ImFileLines
import Nxlog.L4App.EvcorrAbsence
import Nxlog.L4App.NoRepeat
import Nxlog.L4App.ExprTags
import Nxlog.L4App.Substitute
import Nxlog.Core.Fuel
import Nxlog.L4App.CanSend
import Nxlog.L4App.Progress
