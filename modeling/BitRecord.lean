import BitRecord.Main
import BitRecord.Proofs.BitSequence
import BitRecord.Proofs.Blame
import BitRecord.Proofs.Confined
import BitRecord.Proofs.Consumption
import BitRecord.Proofs.DeclaredRuns
import BitRecord.Proofs.ExtensionRun
import BitRecord.Proofs.HexText
import BitRecord.Proofs.JsonShape
import BitRecord.Proofs.KeyedSet
import BitRecord.Proofs.Omission
import BitRecord.Proofs.Padding
import BitRecord.Proofs.Pattern
import BitRecord.Proofs.Placement
import BitRecord.Proofs.Pointer
import BitRecord.Proofs.Reparse
import BitRecord.Proofs.Selection
import BitRecord.Proofs.SelfDelimiting
import BitRecord.Proofs.SetProgress
import BitRecord.Proofs.Silent
import BitRecord.Proofs.StaticLength
import BitRecord.Proofs.Truncation
import BitRecord.Proofs.Unordered
import BitRecord.Proofs.Unwinding
