import PlacitumNode.Lib.Run
import PlacitumNode.Lib.Linked
import PlacitumNode.Lib.Machine
import PlacitumNode.Lib.Octets
import PlacitumNode.Lib.Numerals
import PlacitumNode.Lib.Framing
import PlacitumNode.Lib.Mask
import PlacitumNode.Lib.Loop
import PlacitumNode.Lib.Utf8
import PlacitumNode.Lib.Runes
import PlacitumNode.Lib.History
import PlacitumNode.Lib.JsonText
import PlacitumNode.Lib.Feed
import PlacitumNode.Lib.Blocks
import PlacitumNode.Lib.Fips180
import PlacitumNode.Lib.Window
import PlacitumNode.Lib.Cover
import PlacitumNode.Lib.Prefix
import PlacitumNode.Lib.Replace
import PlacitumNode.Lib.SearchTree
import PlacitumNode.Lib.Probing
import PlacitumNode.Lib.Separated
import PlacitumNode.Rate.Account
import PlacitumNode.Rate.Bound
import PlacitumNode.Rate.Storage
import PlacitumNode.Slot.Table
import PlacitumNode.Slot.Keys
import PlacitumNode.Slot.Integrity
import PlacitumNode.Wave.State
import PlacitumNode.Wave.Verdict
import PlacitumNode.Wave.Phase
import PlacitumNode.Wave.Effects
import PlacitumNode.Wave.Inversion
import PlacitumNode.Wave.NoEarlyAllow
import PlacitumNode.Wave.DenyDecided
import PlacitumNode.Wave.Score
import PlacitumNode.Wave.Modes
import PlacitumNode.Wave.View
import PlacitumNode.Wave.Order
import PlacitumNode.Wave.Ledger
import PlacitumNode.Wave.Merge
import PlacitumNode.Wave.Total
import PlacitumNode.Response.Filter
import PlacitumNode.Response.Gate
import PlacitumNode.Frame.Direction
import PlacitumNode.Frame.Connection
import PlacitumNode.Frame.Moves
import PlacitumNode.Frame.Stream
import PlacitumNode.Frame.Reassembly
import PlacitumNode.Frame.Release
import PlacitumNode.Frame.Room
import PlacitumNode.Frame.Termination
import PlacitumNode.Frame.Bounds
import PlacitumNode.Frame.Control
import PlacitumNode.Agent.Rps
import PlacitumNode.Agent.Sink
import PlacitumNode.Agent.Names
import PlacitumNode.Frame.Extensions
import PlacitumNode.Agent.Json
import PlacitumNode.Agent.Cut
import PlacitumNode.Agent.Locator
import PlacitumNode.Body.Sha256
import PlacitumNode.Net.Link
import PlacitumNode.Net.Redis
import PlacitumNode.Bus.Route
import PlacitumNode.Bus.Input
import PlacitumNode.Bus.Messages
import PlacitumNode.Net.Replies
import PlacitumNode.Frame.Cache
import PlacitumNode.Codec.Utf8
import PlacitumNode.Codec.Json
import PlacitumNode.Codec.Tokens
import PlacitumNode.Codec.Document
import PlacitumNode.Codec.Room
import PlacitumNode.Codec.RoundTrip
import PlacitumNode.Dataset.Cidr
import PlacitumNode.Dataset.Live
import PlacitumNode.Dataset.Books
import PlacitumNode.Dataset.Probe
import PlacitumNode.Dataset.Ban
import PlacitumNode.Dataset.Packages
import PlacitumNode.Dataset.Expiry
import PlacitumNode.Dataset.StrSet
import PlacitumNode.Dataset.Args
import PlacitumNode.Breaker.Circuit
import PlacitumNode.Retain.Record
import PlacitumNode.Retain.Pool
import PlacitumNode.Retain.Once
import PlacitumNode.Retain.Switch
import PlacitumNode.Attach.Prepare
import PlacitumNode.Attach.Found
import PlacitumNode.Conf.Settings
import PlacitumNode.Conf.Capture
import PlacitumNode.Rewrite.Versions
import PlacitumNode.Rewrite.Keys
import PlacitumNode.Edits.Query
import PlacitumNode.Desired.Pack
import PlacitumNode.Desired.Follow
import PlacitumNode.Desired.Apply
import PlacitumNode.Desired.Swap
import PlacitumNode.Desired.Whole
import PlacitumNode.Desired.Status
import PlacitumNode.Agent.Layout
import PlacitumNode.Dataset.Mirror
