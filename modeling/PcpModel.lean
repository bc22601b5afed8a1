import PcpModel.Access.Connections
import PcpModel.Cache.Agree
import PcpModel.Cache.Keys
import PcpModel.Cache.SaveLoad
import PcpModel.Derive.Children
import PcpModel.Derive.Grammar
import PcpModel.Derive.Register
import PcpModel.EventQueue.Delivery
import PcpModel.Events.RoundTrip
import PcpModel.Extract.Indoms
import PcpModel.Hash.Execution
import PcpModel.Help.Table
import PcpModel.Import.Distinct
import PcpModel.Import.Put
import PcpModel.Import.Separate
import PcpModel.InstProfile.Refinement
import PcpModel.Interp.Build
import PcpModel.Interp.Origin
import PcpModel.Interp.Pinned
import PcpModel.LocalFetch.Fresh
import PcpModel.Log.Errors
import PcpModel.Log.Position
import PcpModel.Logger.Callback
import PcpModel.OptFetch.Frame
import PcpModel.PduBuf.Execution
import PcpModel.PduIo.Sequence
import PcpModel.PduNames.InstanceRoundTrip
import PcpModel.PduProfile.RoundTrip
import PcpModel.PduResult.Bounds
import PcpModel.PduResult.Overlap
import PcpModel.Pmapi.UnparseAttrs
import PcpModel.Pmcd.Fetch
import PcpModel.Pmcd.NameAnswers
import PcpModel.Pmcd.Profile
import PcpModel.Pmcd.Store
import PcpModel.Pmie.Aggregate
import PcpModel.Pmie.AndOr
import PcpModel.Pmie.Instances
import PcpModel.Pmie.Merge
import PcpModel.Pmns.Lookup
import PcpModel.Rewrite.Instances
import PcpModel.Rewrite.Order
import PcpModel.Rtime.Window
import PcpModel.Units.Scale
