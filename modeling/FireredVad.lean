import FireredVad.ReferenceScan
import FireredVad.TuningMonotonicity
import FireredVad.ForceSplit
import FireredVad.Alternation
import FireredVad.SpeechCoverage
import FireredVad.Reset
import FireredVad.StreamBounds
import FireredVad.Chunking
import FireredVad.FailedInference
import FireredVad.SegmentLength
import FireredVad.PendingRearm
import FireredVad.SpeechInSegments
import FireredVad.Smoothing
import FireredVad.PcmFraming
import FireredVad.CmvnParser
import FireredVad.ExactKernels
import FireredVad.FftInput
import FireredVad.MelPartition
import FireredVad.CounterWidths
import FireredVad.Stretches
import FireredVad.Binary32
import FireredVad.FiniteSamples
import FireredVad.Deserialize
import FireredVad.BackendChoice
import FireredVad.InputSymmetry
import FireredVad.EndToEnd
import FireredVad.SegmentPace
import FireredVad.PaddedStarts
import FireredVad.SilenceCut
import FireredVad.ProbabilityRange
import FireredVad.RunningSum
import FireredVad.Timeline
import FireredVad.FeatureBounds
import FireredVad.Forgetting
import FireredVad.FeatureDump
import FireredVad.RoundedFeatures
import FireredVad.DecisionMargins
import FireredVad.SavedOptions
