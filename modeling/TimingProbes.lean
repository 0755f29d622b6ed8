import TimingProbes.Disk.Basic
import TimingProbes.Main
import TimingProbes.Proofs.ConstantPool
import TimingProbes.Proofs.Respelling
import TimingProbes.Proofs.Label
import TimingProbes.Proofs.Bytecode
import TimingProbes.Proofs.Layout
import TimingProbes.Proofs.Placement
import TimingProbes.Proofs.Reading
import TimingProbes.Proofs.StackMap
import TimingProbes.Proofs.Success
import TimingProbes.Tree.Memory
import TimingProbes.Proofs.BodyTables
import TimingProbes.Proofs.Body
import TimingProbes.Proofs.Class
import TimingProbes.Proofs.PoolGrowth
import TimingProbes.Proofs.RoundTrip
import TimingProbes.Proofs.Weaving
import TimingProbes.Proofs.Instrumenting
import TimingProbes.Proofs.FrameChain
import TimingProbes.Proofs.InstrumentedBody
import TimingProbes.Proofs.InstrumentedClass
import TimingProbes.Proofs.DeclaredFrames
import TimingProbes.Proofs.Jumps
import TimingProbes.Proofs.RoomForProbes
import TimingProbes.Proofs.KeptTables
import TimingProbes.Proofs.Merging
import TimingProbes.Proofs.Editing
import TimingProbes.Proofs.AllOrNothing
import TimingProbes.Proofs.ModifiedUtf8
import TimingProbes.Proofs.Symbols
import TimingProbes.Proofs.Interning
import TimingProbes.Proofs.Truncation
import TimingProbes.Proofs.Counting
import TimingProbes.Proofs.Builds
import TimingProbes.Proofs.IncrementalBuilds
import TimingProbes.Proofs.Passages
import TimingProbes.Proofs.Confinement
import TimingProbes.Proofs.BuildBalances
import TimingProbes.Proofs.LostStates
import TimingProbes.Proofs.EmptyDirectories
import TimingProbes.Proofs.EntryEffects
import TimingProbes.Proofs.EncodeFailures
import TimingProbes.Proofs.StackDepths
import TimingProbes.Proofs.FilterChanges
import TimingProbes.Proofs.DirectoryRuns
import TimingProbes.Proofs.Eligibility
import TimingProbes.Proofs.BuildAccounts
import TimingProbes.Proofs.BuildSessions
import TimingProbes.Proofs.Descriptors
import TimingProbes.Proofs.FrameExpansion
import TimingProbes.Proofs.WrittenPools
import TimingProbes.Proofs.ChangeSets
import TimingProbes.Proofs.Spellings
import TimingProbes.Proofs.Locations
import TimingProbes.Proofs.Layers
import TimingProbes.Proofs.ArchiveEndings
import TimingProbes.Proofs.PlacedLabels
import TimingProbes.Proofs.Emission
import TimingProbes.Proofs.StoredStates
import TimingProbes.Proofs.CheckedUnits
import TimingProbes.Proofs.Pruning
