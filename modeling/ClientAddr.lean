import ClientAddr.Order.Laminar
import ClientAddr.Order.Lookup
import ClientAddr.Order.Firsts
import ClientAddr.Iter.DoubleEnded
import ClientAddr.Iter.Keyed
import ClientAddr.Cidr.Block
import ClientAddr.Cidr.Normal
import ClientAddr.Cidr.Combine
import ClientAddr.Text.Basic
import ClientAddr.Text.Utf8
import ClientAddr.Text.Quote
import ClientAddr.Text.Cuts
import ClientAddr.Text.Closed
import ClientAddr.Net.Address
import ClientAddr.Net.Family
import ClientAddr.Net.Parse
import ClientAddr.Net.Spelling
import ClientAddr.Net.Display
import ClientAddr.Model.Canonical
import ClientAddr.Model.Http
import ClientAddr.Model.Config
import ClientAddr.Model.CidrMerge
import ClientAddr.Model.Builder
import ClientAddr.Model.Headers
import ClientAddr.Model.Resolve
import ClientAddr.Model.Errors
import ClientAddr.Model.Extractor
import ClientAddr.Model.Throttle
import ClientAddr.Rules.Rewrite
import ClientAddr.Rules.Commute
import ClientAddr.Rules.Overlap
import ClientAddr.Rules.Merge
import ClientAddr.Rules.Lookup
import ClientAddr.Rules.Normal
import ClientAddr.Rules.Rebuild
import ClientAddr.Rules.Report
import ClientAddr.Rules.Message
import ClientAddr.Headers.Split
import ClientAddr.Headers.Lines
import ClientAddr.Headers.Join
import ClientAddr.Headers.Hop
import ClientAddr.Headers.Unquote
import ClientAddr.Headers.Quoted
import ClientAddr.Headers.Forwarded
import ClientAddr.Headers.Appended
import ClientAddr.Headers.Relay
import ClientAddr.Headers.Respelled
import ClientAddr.Resolve.Search
import ClientAddr.Resolve.Scan
import ClientAddr.Resolve.Noninterference
import ClientAddr.Resolve.Position
import ClientAddr.Resolve.Path
import ClientAddr.Resolve.Canonical
import ClientAddr.Resolve.Congruence
import ClientAddr.Resolve.Respelled
import ClientAddr.Resolve.Appended
import ClientAddr.Resolve.Relayed
import ClientAddr.Resolve.Tiers
import ClientAddr.Resolve.Probe
import ClientAddr.Resolve.Choice
import ClientAddr.Resolve.Growth
import ClientAddr.Resolve.Observed
import ClientAddr.Resolve.Orders
import ClientAddr.Resolve.Modes
import ClientAddr.Checked.Split
import ClientAddr.Checked.Hop
import ClientAddr.Checked.Entries
import ClientAddr.Checked.Resolve
import ClientAddr.Throttle.Charged
import ClientAddr.Throttle.Isolation
