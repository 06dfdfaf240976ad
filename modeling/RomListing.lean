import RomListing.Main
import RomListing.Reassembly
import RomListing.Proofs.Banks
import RomListing.Proofs.BankGeometry
import RomListing.Proofs.Blocks
import RomListing.Proofs.Walk
import RomListing.Proofs.CheckedReads
import RomListing.Proofs.Decoding
import RomListing.Proofs.DistinctTexts
import RomListing.Proofs.Driver
import RomListing.Proofs.FileSystem
import RomListing.Proofs.HeaderFields
import RomListing.Proofs.HexDump
import RomListing.Proofs.InstructionTexts
import RomListing.Proofs.Jumps
import RomListing.Proofs.JumpRange
import RomListing.Proofs.Locality
import RomListing.Proofs.LineFormat
import RomListing.Proofs.Lines
import RomListing.Proofs.Operands
import RomListing.Proofs.Outcomes
import RomListing.Proofs.Padding
import RomListing.Proofs.Policies
import RomListing.Proofs.ReadBack
import RomListing.Proofs.ProcessorView
import RomListing.Proofs.Roundtrip
import RomListing.Proofs.Relocation
import RomListing.Proofs.HeaderArea
import RomListing.Proofs.Truncations
import RomListing.Proofs.Warnings
import RomListing.Proofs.WidthBound
import RomListing.Proofs.AllOrNothing
