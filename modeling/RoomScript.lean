import RoomScript.Main
import RoomScript.Proofs.Assembly.Symbols
import RoomScript.Proofs.Chunk
import RoomScript.Proofs.Preprocess.Ending
import RoomScript.Proofs.Preprocess.Selection
import RoomScript.Proofs.RoundTrip
import RoomScript.Proofs.Token.Lossless
import RoomScript.Proofs.Preprocess.Within
import RoomScript.Proofs.Preprocess.Lines
import RoomScript.Proofs.Preprocess.Conditional
import RoomScript.Proofs.Disk.Agreement
import RoomScript.Proofs.Listing.Lines
import RoomScript.Proofs.Bundle.Returning
import RoomScript.Proofs.Preprocess.Inclusion
import RoomScript.Proofs.ScriptFile
import RoomScript.Proofs.Printing
import RoomScript.Proofs.Build.Keeping
import RoomScript.Proofs.Numbering
import RoomScript.Proofs.Macro.Arguments
import RoomScript.Proofs.Macro.Cycles
import RoomScript.Proofs.Preprocess.Defined
import RoomScript.Proofs.Assembly.Grammar
import RoomScript.Proofs.Opcode.Symbols
import RoomScript.Proofs.Listing.Partition
import RoomScript.Proofs.Preprocess.Learned
import RoomScript.Proofs.Listing.Nesting
import RoomScript.Proofs.Token.Alone
import RoomScript.Proofs.Token.Lookahead
import RoomScript.Proofs.Assembly.Defines
import RoomScript.Proofs.Disk.Confinement
import RoomScript.Proofs.Build.Joining
import RoomScript.Proofs.Verification
