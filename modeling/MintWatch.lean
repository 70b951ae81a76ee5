import MintWatch.Main
import MintWatch.Schedule.Rehearsal
import MintWatch.Proofs.Abi.Typing
import MintWatch.Proofs.Abi.Words
import MintWatch.Proofs.Fallible
import MintWatch.Proofs.Abi.Reading
import MintWatch.Proofs.Abi.Walks
import MintWatch.Proofs.Abi.EncodedSize
import MintWatch.Proofs.Abi.RoundTrip
import MintWatch.Proofs.Bytes.HexText
import MintWatch.Proofs.Lists
import MintWatch.Proofs.Mint.Evidence
import MintWatch.Proofs.Record.ContentTable
import MintWatch.Proofs.Mint.ConfirmationHistory
import MintWatch.Proofs.Chain.TransactionReply
import MintWatch.Proofs.Record.Confirming
import MintWatch.Proofs.Mint.PassEffect
import MintWatch.Proofs.Mint.Convergence
import MintWatch.Proofs.Mint.Interleaving
import MintWatch.Proofs.Mint.WriteBack
import MintWatch.Proofs.Abi.TypeSpelling
import MintWatch.Proofs.Interface.IndexContents
import MintWatch.Proofs.Abi.TypeText
import MintWatch.Proofs.Interface.DeclaredType
import MintWatch.Proofs.Abi.TextBoundary
import MintWatch.Proofs.Interface.Splicing
import MintWatch.Proofs.Abi.TypeName
import MintWatch.Proofs.Interface.CanonicalSignature
import MintWatch.Proofs.Abi.Placeholders
import MintWatch.Proofs.Call.ConstructorArguments
import MintWatch.Proofs.Record.ObjectTable
import MintWatch.Proofs.Storage.ReclaimSteps
import MintWatch.Proofs.Storage.ReclaimEffect
import MintWatch.Proofs.Storage.RemovalTime
import MintWatch.Proofs.Storage.ReclaimTurns
import MintWatch.Proofs.Storage.ReclaimInterleaving
import MintWatch.Proofs.Storage.UploadOverlap
import MintWatch.Proofs.Schedule.Ticks
import MintWatch.Proofs.Schedule.DispatchHistory
import MintWatch.Proofs.Record.TableMaps
import MintWatch.Proofs.Chain.TransactionMembers
import MintWatch.Proofs.Mint.InputAlone
import MintWatch.Proofs.Chain.Session
import MintWatch.Proofs.Call.Classification
import MintWatch.Proofs.Abi.StaticWords
import MintWatch.Proofs.Call.StaticCalldata
import MintWatch.Proofs.Abi.LongerData
import MintWatch.Proofs.Call.LongerCalldata
import MintWatch.Proofs.Call.UnguessableTypes
import MintWatch.Proofs.Schedule.AnnouncedInterval
import MintWatch.Proofs.Mint.VerificationOutcome
import MintWatch.Proofs.Mint.MintConditions
import MintWatch.Proofs.Interface.CanonicalExpansion
import MintWatch.Proofs.Json.Members
import MintWatch.Proofs.Chain.TransactionRendering
import MintWatch.Proofs.Chain.DecodedInput
import MintWatch.Proofs.Json.Scalars
import MintWatch.Proofs.Json.Grammar
import MintWatch.Proofs.Json.Nesting
import MintWatch.Proofs.Interface.Presentation
import MintWatch.Proofs.Interface.PresentationDepth
import MintWatch.Proofs.Chain.QuantityText
import MintWatch.Proofs.Abi.ShownValues
import MintWatch.Proofs.Abi.WalkUses
import MintWatch.Proofs.Abi.ReadingPlaces
import MintWatch.Proofs.Abi.WalkBounds
