import Mila.Span
import Mila.Word
import Mila.Text.Ascii
import Mila.Input
import Mila.Token
import Mila.Token.Scan
import Mila.Token.Lexer
import Mila.Text.Hidden
import Mila.Text.Quoted
import Mila.Token.Dump
import Mila.Tree
import Mila.Tree.Grouping
import Mila.Tree.Outline
import Mila.Tree.Parse
import Mila.Code
import Mila.Code.Builder
import Mila.Code.Target
import Mila.Code.Check
import Mila.Code.Listing
import Mila.Machine.Memory
import Mila.Machine
import Mila.Compile
import Mila.CommandLine
import Mila.Main
import Mila.Proofs.Grouping
import Mila.Proofs.Grammar
import Mila.Proofs.Derivations
import Mila.Proofs.Parsing
import Mila.Proofs.Reading
import Mila.Proofs.Accepting
import Mila.Proofs.Blocks
import Mila.Proofs.Names
import Mila.Proofs.Pairing
import Mila.Proofs.Tandem
import Mila.Proofs.Renumbering
import Mila.Proofs.Lowered
import Mila.Proofs.Emission
import Mila.Proofs.Compiled
import Mila.Proofs.Regions
import Mila.Proofs.Recording
import Mila.Proofs.Structure
import Mila.Proofs.Evaluator
import Mila.Proofs.Behaviour
import Mila.Proofs.Steps
import Mila.Proofs.Thresholds
import Mila.Proofs.Frames
import Mila.Proofs.States
import Mila.Proofs.Simulation
import Mila.Proofs.Constructs
import Mila.Proofs.Phrases
import Mila.Proofs.Activations
import Mila.Proofs.Correctness
import Mila.Proofs.Sources
import Mila.Proofs.Availability
import Mila.Proofs.Dominance
import Mila.Proofs.Sharing
import Mila.Proofs.Scoping
import Mila.Proofs.Watching
import Mila.Proofs.Unfinished
import Mila.Proofs.Impossible
import Mila.Proofs.Safety
import Mila.Proofs.Writing
import Mila.Proofs.Streaming
import Mila.Proofs.Renaming
import Mila.Proofs.Listings
import Mila.Proofs.OutlineTrees
import Mila.Proofs.OperatorTrees
import Mila.Proofs.Sessions
import Mila.Proofs.Namesakes
import Mila.Proofs.Abreast
import Mila.Proofs.Forwards
import Mila.Proofs.Effects
import Mila.Proofs.Counting
import Mila.Proofs.Rounds
import Mila.Proofs.Parts
import Mila.Proofs.Contents
import Mila.Proofs.ForLoops
import Mila.Proofs.Numerals
import Mila.Proofs.Layouts
import Mila.Proofs.Characters
import Mila.Proofs.Calls
import Mila.Proofs.Queueing
import Mila.Proofs.Elements
import Mila.Proofs.Indexing
import Mila.Proofs.Unread
import Mila.Proofs.Overlays
import Mila.Proofs.Merging
