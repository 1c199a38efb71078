import JvmRelocation.Bytes.BigEndian
import JvmRelocation.Bytes.Decoder
import JvmRelocation.ClassFile.AnnotationTree
import JvmRelocation.ClassFile.Basic
import JvmRelocation.ClassFile.BuildCall
import JvmRelocation.ClassFile.Builder
import JvmRelocation.ClassFile.Constant
import JvmRelocation.ClassFile.ConstantPool
import JvmRelocation.ClassFile.Error
import JvmRelocation.ClassFile.Layout
import JvmRelocation.ClassFile.NameSite
import JvmRelocation.ClassFile.Parser
import JvmRelocation.ClassFile.Substitution
import JvmRelocation.ClassFile.Summary
import JvmRelocation.CommandLine.Arguments
import JvmRelocation.CommandLine.Output
import JvmRelocation.CommandLine.Run
import JvmRelocation.Config.File
import JvmRelocation.Config.JsonReader
import JvmRelocation.Config.Settings
import JvmRelocation.Digest.Sha256
import JvmRelocation.Host.FileSystem
import JvmRelocation.Host.FileTree
import JvmRelocation.Host.Path
import JvmRelocation.Main
import JvmRelocation.Name.Descriptor
import JvmRelocation.Name.Mapper
import JvmRelocation.Name.Role
import JvmRelocation.Name.Segments
import JvmRelocation.Name.Signature
import JvmRelocation.Name.Signature.Parser
import JvmRelocation.Relocation.Error
import JvmRelocation.Relocation.Naming
import JvmRelocation.Relocation.Program
import JvmRelocation.Relocation.Report
import JvmRelocation.Relocation.Run
import JvmRelocation.Relocation.Table
import JvmRelocation.Relocation.Tag
import JvmRelocation.Store.Basic
import JvmRelocation.Store.Memory
import JvmRelocation.Text.Decimal
import JvmRelocation.Text.Json
import JvmRelocation.Text.ModifiedUtf8
import JvmRelocation.Text.Printable
import JvmRelocation.Text.Quoted
import JvmRelocation.Proofs.Bytes.Codec
import JvmRelocation.Proofs.ClassFile.Codec
import JvmRelocation.Proofs.ClassFile.LayoutStability
import JvmRelocation.Proofs.ClassFile.Reindexing
import JvmRelocation.Proofs.Text.ModifiedUtf8
import JvmRelocation.Proofs.ClassFile.PoolTexts
import JvmRelocation.Proofs.ClassFile.References
import JvmRelocation.Proofs.ClassFile.RenamingPlan
import JvmRelocation.Proofs.ClassFile.Substitution
import JvmRelocation.Proofs.ClassFile.RenamedSites
import JvmRelocation.Proofs.Relocation.MemoryRun
import JvmRelocation.Proofs.Relocation.Discovery
import JvmRelocation.Proofs.Relocation.Updates
import JvmRelocation.Proofs.Relocation.Naming
import JvmRelocation.Proofs.Relocation.Survival
import JvmRelocation.Proofs.Name.SignatureReading
import JvmRelocation.Proofs.Name.SignatureText
import JvmRelocation.Proofs.Name.SignatureRenaming
import JvmRelocation.Proofs.Name.TaggedRenaming
import JvmRelocation.Proofs.Name.StagedTexts
import JvmRelocation.Proofs.ClassFile.SiteTexts
import JvmRelocation.Proofs.Relocation.OldNames
import JvmRelocation.Proofs.Name.TaggedPaths
import JvmRelocation.Proofs.Relocation.PhaseAgreement
import JvmRelocation.Proofs.ClassFile.RoundTrip
import JvmRelocation.Proofs.ClassFile.Preservation
import JvmRelocation.Proofs.Relocation.Emission
import JvmRelocation.Proofs.ClassFile.TextLengths
import JvmRelocation.Proofs.Relocation.Validity
import JvmRelocation.Proofs.Relocation.Success
import JvmRelocation.Proofs.Name.LookedUpNames
import JvmRelocation.Proofs.ClassFile.LookedUpNames
import JvmRelocation.Proofs.Relocation.StoreCalls
import JvmRelocation.Proofs.Relocation.Faults
import JvmRelocation.Proofs.Relocation.Noninterference
import JvmRelocation.Proofs.Name.TaggedTwice
import JvmRelocation.Proofs.Relocation.SecondRenaming
import JvmRelocation.Proofs.Text.ByteGroups
import JvmRelocation.Proofs.Relocation.TableEntries
import JvmRelocation.Proofs.Host.Tree
import JvmRelocation.Proofs.Host.Path
import JvmRelocation.Proofs.Host.Lookup
import JvmRelocation.Proofs.Host.Directories
import JvmRelocation.Proofs.Store.Memory
import JvmRelocation.Proofs.Store.DirectoryAccess
import JvmRelocation.Proofs.Store.DirectoryListing
import JvmRelocation.Proofs.Store.DirectoryRefinement
import JvmRelocation.Proofs.Store.DirectoryContainment
import JvmRelocation.Proofs.Relocation.SurveyRecords
import JvmRelocation.Proofs.Relocation.Accounting
import JvmRelocation.Proofs.Relocation.DiscoveryEnds
import JvmRelocation.Proofs.Relocation.DiscoveryOutcome
import JvmRelocation.Proofs.Name.TaggedSignatures
import JvmRelocation.Proofs.Name.SignatureGrammar
import JvmRelocation.Proofs.Name.SignatureBytes
import JvmRelocation.Proofs.Name.SignatureWritten
import JvmRelocation.Proofs.Name.SignatureFuel
import JvmRelocation.Proofs.Name.SignatureByteReading
import JvmRelocation.Proofs.Name.DescriptorTokens
import JvmRelocation.Proofs.Name.NestedRenaming
import JvmRelocation.Proofs.ClassFile.AppendedTexts
import JvmRelocation.Proofs.ClassFile.Repointing
import JvmRelocation.Proofs.ClassFile.RoomForTexts
import JvmRelocation.Proofs.Name.ChangedTexts
import JvmRelocation.Proofs.ClassFile.ChangedFlag
import JvmRelocation.Proofs.Relocation.SilentUpdates
import JvmRelocation.Proofs.ClassFile.AnnotationWalk
import JvmRelocation.Proofs.ClassFile.AppliedAnnotations
import JvmRelocation.Proofs.Bytes.ReadPrograms
import JvmRelocation.Proofs.ClassFile.PrefixFreedom
import JvmRelocation.Proofs.ClassFile.MarkerStability
import JvmRelocation.Proofs.Relocation.MarkedCopies
import JvmRelocation.Proofs.ClassFile.Interning
import JvmRelocation.Proofs.ClassFile.BuiltContents
import JvmRelocation.Proofs.ClassFile.BuiltClasses
import JvmRelocation.Proofs.ClassFile.PoolIndices
import JvmRelocation.Proofs.ClassFile.LayoutFuel
import JvmRelocation.Proofs.ClassFile.PositionWalk
import JvmRelocation.Proofs.ClassFile.MentionPositions
import JvmRelocation.Proofs.Relocation.AnyStores
import JvmRelocation.Proofs.Relocation.ContentTag
import JvmRelocation.Proofs.Relocation.TagVariants
