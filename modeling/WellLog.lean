import WellLog.Cursor.Lemmas
import WellLog.Decoder
import WellLog.Proofs.Reading
import WellLog.Settings.Text
import WellLog.Proofs.Content
import WellLog.Proofs.Parsing
import WellLog.Proofs.Placing
import WellLog.Proofs.Stored
import WellLog.Proofs.LaidOut
import WellLog.Proofs.Scanning
import WellLog.Proofs.Decoding
import WellLog.Proofs.Holding
import WellLog.Proofs.RoundTrip
import WellLog.Proofs.Accepted
import WellLog.Proofs.Stopped
import WellLog.Proofs.CutShort
import WellLog.Proofs.Tallying
import WellLog.Proofs.Sequencing
import WellLog.Proofs.Resuming
import WellLog.Proofs.Selecting
import WellLog.Proofs.Slicing
import WellLog.Proofs.Flattening
import WellLog.Proofs.InRange
import WellLog.Proofs.Probing
import WellLog.Proofs.ProbingFrames
import WellLog.Proofs.Agreeing
import WellLog.Proofs.Moving
import WellLog.Proofs.Overrunning
import WellLog.Proofs.Locating
import WellLog.Proofs.Telling
import WellLog.Proofs.Reusing
import WellLog.Proofs.Expecting
import WellLog.Proofs.Widening
import WellLog.Proofs.Stepping
import WellLog.Proofs.Committing
import WellLog.Proofs.Encoded
import WellLog.Proofs.Repairing
import WellLog.Proofs.Imaging
import WellLog.Proofs.Naming
import WellLog.Proofs.Identifying
import WellLog.Proofs.Measuring
import WellLog.Proofs.Marking
import WellLog.Proofs.Tiling
import WellLog.Proofs.Lettering
import WellLog.Proofs.Dating
import WellLog.Proofs.Answering
import WellLog.Proofs.Nearest
import WellLog.Proofs.Computing
import WellLog.Proofs.Narrowing
import WellLog.Proofs.Converting
import WellLog.Proofs.Ordering
import WellLog.Proofs.Keeping
import WellLog.Proofs.LineByLine
import WellLog.Proofs.Configuring
