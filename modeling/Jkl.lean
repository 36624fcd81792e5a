import Jkl.Pb.VarintWords
import Jkl.Pb.Sizing
import Jkl.Pb.Extent
import Jkl.Pb.Asserts
import Jkl.Pb.Safety
import Jkl.Pb.MapField
import Jkl.Pb.RoundTrip
import Jkl.Pb.BoolVarint
import Jkl.Pb.WireLayout
import Jkl.Async.EcAwaiterRuns
import Jkl.Async.ResPoolQueue
import Jkl.Uri.RoundTrip
import Jkl.Uri.Composite
import Jkl.Uri.WriterSize
import Jkl.Uri.NormalizeKeeps
import Jkl.Uri.DotSegmentsRelative
import Jkl.Uri.ResolveSize
import Jkl.Uri.QueryRead
import Jkl.Uri.PcntAppend
import Jkl.Uri.AuthorityPort
import Jkl.Uri.DataUrl
import Jkl.Uri.DecodeAppend
import Jkl.Util.Handle
import Jkl.Util.Result
import Jkl.Sqlite.Savepoint
import Jkl.Async.WhileNext
import Jkl.Async.UntilOne
import Jkl.Async.ResPoolRoom
import Jkl.Async.ResPoolAwaiter
import Jkl.Async.ResHolder
import Jkl.Client.ReadSome
import Jkl.Client.StopRequests
import Jkl.Client.Sockets
import Jkl.Client.HeaderTrailer
import Jkl.Charset.ParseHtml
import Jkl.Charset.Icu
import Jkl.Html.Search
import Jkl.Html.SelectorParts
import Jkl.Http.ContentTypeScan
import Jkl.Html.Selector
import Jkl.Html.Outermost
import Jkl.Client.UrlQuery
import Jkl.Pb.TagCodec
import Jkl.Uri.DotSegmentsCopies
import Jkl.Json.ReadArr
import Jkl.Json.WriterText
import Jkl.Async.StopStateProgress
import Jkl.Async.IocPool
import Jkl.Async.SyncAwait
import Jkl.Async.TaskMeaning
import Jkl.Html.Collections
import Jkl.Util.Stringify
