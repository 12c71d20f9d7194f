import Substreams.Block.Range
import Substreams.Block.Segmenter
import Substreams.Orchestrator.Squasher
import Substreams.Orchestrator.SquashSteps
import Substreams.Orchestrator.MergeTrace
import Substreams.Orchestrator.Bookkeeping
import Substreams.Orchestrator.SquashComplete
import Substreams.Orchestrator.SquasherRun
import Substreams.Stage.Stages
import Substreams.Stage.NextJob
import Substreams.Stage.Dependencies
import Substreams.Stage.Progress
import Substreams.Stage.Allocation
import Substreams.Stage.Jobs
import Substreams.Stage.Completion
import Substreams.Store.DeletePrefix
import Substreams.Pipeline.Stores
import Substreams.Pipeline.Terminated
import Substreams.Tracking.BytesMeter
