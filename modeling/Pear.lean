import Pear.Text
import Pear.Manifest
import Pear.Manifest.Aliases
import Pear.Merge
import Pear.Merge.Names
import Pear.Merge.Outcome
import Pear.Merge.Valid
import Pear.Merge.Table
import Pear.Converge
import Pear.Lib.Runs
import Pear.Converge.LostAck
import Pear.Converge.Cut
import Pear.Converge.Recorded
import Pear.Converge.Fleet
import Pear.Relay
import Pear.Relay.Pool
import Pear.Disk
import Pear.Disk.Calls
import Pear.Disk.Fold
import Pear.Lib.Tx
import Pear.Relay.HeadLog
import Pear.Relay.Live
import Pear.Merge.Remerge
import Pear.Relay.Feed
import Pear.Relay.Flush
import Pear.Converge.Retry
import Pear.Mirror
import Pear.Converge.Losers
import Pear.Converge.Copies
import Pear.Scan.Precedence
import Pear.Scan.Copies
import Pear.Capture
import Pear.Placement
import Pear.Converge.Fixpoint
import Pear.Converge.Faults
import Pear.Converge.Edits
import Pear.Disk.Specs
import Pear.Disk.Inside
import Pear.Disk.Batch
import Pear.Disk.Applied
import Pear.Disk.Materialize
import Pear.Disk.Uncaptured
import Pear.Disk.Preserved
import Pear.Relay.Teams
import Pear.Relay.Oracle
import Pear.Upload
import Pear.Upload.Sink
import Pear.Upload.Split
import Pear.Errors
import Pear.Keyring
import Pear.Bundles
import Pear.Rotation
import Pear.Rotation.Pins
import Pear.Rotation.Fleet
import Pear.Rotation.Steps
import Pear.Rotation.Departed
import Pear.Rotation.Stale
import Pear.Rotation.Exposure
import Pear.Rotation.Fork
import Pear.Watch
import Pear.LocalSync
import Pear.Cache
import Pear.Fetch
import Pear.Frame
import Pear.Base64
import Pear.Hex
import Pear.WrapPayload
import Pear.Relay.Envelope
import Pear.Relay.Retention
import Pear.Relay.Wraps
import Pear.Lib.Calendar
import Pear.Lib.Digits
import Pear.Merge.Stamp
import Pear.Lib.Durable
import Pear.Daemon
import Pear.Daemon.Registry
import Pear.Daemon.Durable
import Pear.Daemon.Loops
import Pear.Daemon.Stopping
import Pear.Daemon.Tokens
import Pear.Sealed
import Pear.Snapshot
import Pear.Snapshot.Clone
import Pear.Snapshot.Restored
import Pear.Store
import Pear.Store.Shared
import Pear.HeadFeed
import Pear.HeadFeed.Converge
import Pear.HeadFeed.Mirror
