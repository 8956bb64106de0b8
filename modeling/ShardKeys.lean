import ShardKeys.Main
import ShardKeys.Pool.Rehearsal
import ShardKeys.Schema.Notice
import ShardKeys.Proofs.Counter.Shards
import ShardKeys.Proofs.Dialect.FetchQuery
import ShardKeys.Proofs.Exclusion.Jump
import ShardKeys.Proofs.Exclusion.RoundTrip
import ShardKeys.Proofs.Format.RoundTrip
import ShardKeys.Proofs.Pool.Awaiting
import ShardKeys.Proofs.Pool.Crash
import ShardKeys.Proofs.Pool.Enumeration
import ShardKeys.Proofs.Pool.Isolation
import ShardKeys.Proofs.Pool.LastCounter
import ShardKeys.Proofs.Pool.Refused
import ShardKeys.Proofs.Pool.Replay
import ShardKeys.Proofs.Pool.RoundTrips
import ShardKeys.Proofs.Pool.Sharing
import ShardKeys.Proofs.Pool.Termination
import ShardKeys.Proofs.Schema.CycleFaults
import ShardKeys.Proofs.Schema.Inheritance
import ShardKeys.Proofs.Schema.Lineages
import ShardKeys.Proofs.Schema.Keeping
import ShardKeys.Proofs.Schema.Sequences
import ShardKeys.Proofs.Schema.WellFormed
import ShardKeys.Proofs.Script.Batches
import ShardKeys.Proofs.Script.Recording
import ShardKeys.Proofs.Script.Recreate
import ShardKeys.Proofs.Script.Refusal
import ShardKeys.Proofs.Script.TableBody
import ShardKeys.Proofs.Sequence.Declaration
import ShardKeys.Proofs.Sequence.RoundTrip
