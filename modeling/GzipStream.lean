import GzipStream.Command.MemoryHost
import GzipStream.Engine.Log
import GzipStream.Main
import GzipStream.OneShot
import GzipStream.Proofs.CleanEnd
import GzipStream.Proofs.Closing
import GzipStream.Proofs.CompressedLayout
import GzipStream.Proofs.Detection
import GzipStream.Proofs.EngineReset
import GzipStream.Proofs.Failures
import GzipStream.Proofs.FlushTermination
import GzipStream.Proofs.FlushedPrefixes
import GzipStream.Proofs.HeaderCanonical
import GzipStream.Proofs.HeaderChoice
import GzipStream.Proofs.HeaderLimits
import GzipStream.Proofs.HeaderReport
import GzipStream.Proofs.HeaderSlices
import GzipStream.Proofs.MemberAcceptance
import GzipStream.Proofs.OneShotCompression
import GzipStream.Proofs.ReaderAccounts
import GzipStream.Proofs.ReaderLedger
import GzipStream.Proofs.ReaderRefinement
import GzipStream.Proofs.RoundTrip
import GzipStream.Proofs.SinkDelivery
import GzipStream.Proofs.Termination
