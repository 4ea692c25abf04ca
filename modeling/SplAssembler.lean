import SplAssembler.Text
import SplAssembler.Machine
import SplAssembler.Source
import SplAssembler.SymbolTable
import SplAssembler.Program
import SplAssembler.Assembler
import SplAssembler.Listing
import SplAssembler.CommandLine.Arguments
import SplAssembler.CommandLine.Run
import SplAssembler.Main
import SplAssembler.Proofs.Transaction
import SplAssembler.Proofs.Run
import SplAssembler.Proofs.Text
import SplAssembler.Proofs.Literal
import SplAssembler.Proofs.Source
import SplAssembler.Proofs.Symbols
import SplAssembler.Proofs.Emission
import SplAssembler.Proofs.Slots
import SplAssembler.Proofs.Layout
import SplAssembler.Proofs.TwoPass
import SplAssembler.Proofs.Reserved
import SplAssembler.Proofs.Session
import SplAssembler.Proofs.Listing.Plain
import SplAssembler.Proofs.Listing.Scanner
import SplAssembler.Proofs.Listing.Rows
import SplAssembler.Proofs.Listing.RoundTrip
import SplAssembler.Proofs.Labels
import SplAssembler.Proofs.Sequences
import SplAssembler.Proofs.Comments
import SplAssembler.Proofs.Listing.Lines
import SplAssembler.Proofs.Consistency
import SplAssembler.Proofs.Names
import SplAssembler.Proofs.Capacity
import SplAssembler.Proofs.CommandLine.Run
import SplAssembler.Proofs.Frame
import SplAssembler.Proofs.Calls
import SplAssembler.Proofs.Resolution
import SplAssembler.Proofs.Words
import SplAssembler.Proofs.Writing
import SplAssembler.Proofs.Exchange
import SplAssembler.Proofs.Bindings
import SplAssembler.Proofs.Header
import SplAssembler.Proofs.Division
import SplAssembler.Proofs.Numerals
import SplAssembler.Proofs.ByteTexts
import SplAssembler.Proofs.CommandLine.Diagnosis
import SplAssembler.Proofs.Listing.Stripping
import SplAssembler.Proofs.Listing.Elements
