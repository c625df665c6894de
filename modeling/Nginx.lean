import Nginx.Core.Printf
import Nginx.Modules.Myfilter
import Nginx.Modules.Stock
import Nginx.Modules.Mysubrequest
import Nginx.Modules.Mytest
import Nginx.Modules.Myconfig
import Nginx.Upstream.RoundRobin
import Nginx.Upstream.Selection
import Nginx.Upstream.Retry
import Nginx.Core.Rbtree
import Nginx.Core.Rbtree.Rotate
import Nginx.Core.Rbtree.Insert
import Nginx.Core.Rbtree.DeleteFix
import Nginx.Core.Rbtree.Delete
import Nginx.Core.Rbtree.Runs
import Nginx.Library.LeakyBucket
import Nginx.Core.Crc32
import Nginx.Core.Memcmp
import Nginx.Http.LimitReq
import Nginx.Http.LimitReq.Bound
import Nginx.Core.RadixTree
import Nginx.Library.LinkedTrie
import Nginx.Core.RadixTree.Operations
import Nginx.Core.RadixTree.Runs
import Nginx.Http.RangeFilter
import Nginx.Http.RangeFilter.Parse
import Nginx.Http.RangeFilter.Selection
import Nginx.Http.Parse
import Nginx.Http.Parse.Normalise
import Nginx.Http.Parse.FastPath
import Nginx.Core.Hash
import Nginx.Core.Hash.Build
import Nginx.Core.Hash.Agreement
import Nginx.Http.Fastcgi
import Nginx.Http.Fastcgi.Reader
import Nginx.Http.Fastcgi.Decode
import Nginx.Http.Fastcgi.InputFilter
import Nginx.Http.Fastcgi.RoundTrip
import Nginx.Core.Palloc
import Nginx.Core.Palloc.Arena
import Nginx.Core.Palloc.Steps
import Nginx.Core.Palloc.Runs
import Nginx.Core.Palloc.Safety
import Nginx.Core.Escape
import Nginx.Http.Script
import Nginx.Http.Script.Compile
import Nginx.Http.Rewrite
import Nginx.Http.Rewrite.Bound
import Nginx.Core.Hash.Wildcard
import Nginx.Library.LongestMatch
import Nginx.Core.Hash.Wildcard.Walk
import Nginx.Core.Hash.Wildcard.Rules
import Nginx.Core.Hash.Wildcard.Serve
import Nginx.Core.Hash.Wildcard.Build
import Nginx.Core.Hash.Wildcard.Names
import Nginx.Core.Hash.Wildcard.ServerNames
import Nginx.Core.Hash.Conflicts
import Nginx.Core.Buf
import Nginx.Os.Iovec
import Nginx.Os.WritevChain
import Nginx.Os.LinuxSendfileChain
import Nginx.Http.WriteFilter
import Nginx.Http.Parse.HeaderLine
import Nginx.Http.Parse.StatusLine
import Nginx.Http.Parse.Pieces
import Nginx.Core.OutputChain
import Nginx.Core.OutputChain.Keeps
import Nginx.Core.OutputChain.Runs
import Nginx.Core.Queue
import Nginx.Http.Location
import Nginx.Library.FirstDifference
import Nginx.Http.Location.Joined
import Nginx.Http.Location.Levels
import Nginx.Http.Location.Find
import Nginx.Http.Location.Match
import Nginx.Http.RequestBody
import Nginx.Http.RequestBody.Assembly
import Nginx.Http.ChunkedFilter
import Nginx.Http.ChunkedFilter.RoundTrip
import Nginx.Http.RangeFilter.Singlepart
import Nginx.Http.Memcached
import Nginx.Http.RangeFilter.Multipart
import Nginx.Http.Memcached.Filter
import Nginx.Http.Memcached.Response
import Nginx.Http.CharsetFilter
import Nginx.Http.CharsetFilter.Decode
import Nginx.Http.CharsetFilter.Stream
import Nginx.Http.CharsetFilter.Runs
import Nginx.Core.OpenFileCache
import Nginx.Core.OpenFileCache.Books
import Nginx.Core.OpenFileCache.Steps
import Nginx.Core.OpenFileCache.Runs
import Nginx.Core.ConfFile
import Nginx.Core.ConfFile.Refill
import Nginx.Core.ConfFile.Bounded
import Nginx.Core.ConfFile.Lexer
import Nginx.Core.Shmtx
import Nginx.Core.Rbtree.Keyed
import Nginx.Http.LimitZone
import Nginx.Http.LimitZone.Runs
import Nginx.Http.Listening
import Nginx.Http.Listening.Sorted
import Nginx.Http.Listening.Exact
import Nginx.Http.Geo
import Nginx.Http.Geo.Ranges
import Nginx.Http.Geo.Runs
import Nginx.Upstream.IpHash
import Nginx.Upstream.IpHash.Runs
import Nginx.Http.ComplexValue
import Nginx.Http.ComplexValue.Emit
import Nginx.Http.ComplexValue.Value
import Nginx.Http.ComplexValue.Expand
import Nginx.Event.Timer
import Nginx.Library.SerialOrder
import Nginx.Event.Timer.Runs
import Nginx.Mail.Imap
import Nginx.Mail.Imap.Grammar
import Nginx.Mail.Imap.Stage
import Nginx.Mail.Imap.Runs
import Nginx.Http.FileCache
import Nginx.Http.FileCache.Ledger
import Nginx.Http.FileCache.Sections
import Nginx.Http.FileCache.Runs
import Nginx.Http.Mp4
import Nginx.Http.Mp4.Update
import Nginx.Http.Mp4.Bounds
import Nginx.Http.Mp4.Runs
import Nginx.Core.Resolver
import Nginx.Core.Resolver.Copy
import Nginx.Core.Resolver.Query
import Nginx.Core.Resolver.Response
import Nginx.Core.Resolver.Errors
import Nginx.Core.Resolver.Answer
import Nginx.Library.PeriodicCount
import Nginx.Upstream.Fairness
import Nginx.Http.Ssi
import Nginx.Http.NonBuffered
import Nginx.Http.NonBuffered.Runs
import Nginx.Http.Ssi.Bounds
import Nginx.Http.Proxy
import Nginx.Http.Proxy.Merge
import Nginx.Http.Proxy.Engine
import Nginx.Http.Proxy.Request
import Nginx.Http.Proxy.CreateRequest
import Nginx.Upstream.Tried
import Nginx.Core.Base64
import Nginx.Core.Md5
import Nginx.Http.Parse.Lines
import Nginx.Http.Parse.UnsafeUri
import Nginx.Http.Parse.Lookup
import Nginx.Http.Parse.MultiHeader
import Nginx.Http.ValidateHost
import Nginx.Http.RequestBody.Lingering
import Nginx.Http.SecureLink
import Nginx.Http.Geo.Delete
import Nginx.Http.Geo.Undo
import Nginx.Http.Geo.Block
import Nginx.Http.SplitClients
import Nginx.Mail.Sasl
import Nginx.Mail.Send
import Nginx.Core.Crypt
import Nginx.Http.AuthBasic
import Nginx.Mail.Command
import Nginx.Http.Parse.Exten
import Nginx.Http.SubFilter
import Nginx.Http.SubFilter.Reads
import Nginx.Core.Printf.Bounded
import Nginx.Core.Number
import Nginx.Core.Inet
import Nginx.Core.Inet.Text
import Nginx.Core.Inet.Url
import Nginx.Core.ParseTime
import Nginx.Library.Gregorian
import Nginx.Core.Times
import Nginx.Http.ParseTime
import Nginx.Library.ReflectedCrc
import Nginx.Library.BlockHash
import Nginx.Library.Rfc1321
import Nginx.Core.Queue.Links
