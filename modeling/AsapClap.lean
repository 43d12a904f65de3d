import AsapClap.Library.Loop
import AsapClap.Library.LongestPrefix
import AsapClap.Tokenizer.Stream
import AsapClap.Parser
import AsapClap.Parser.Selection
import AsapClap.Parser.Positional
import AsapClap.Parser.Provenance
import AsapClap.Parser.Remainder
import AsapClap.Parser.Termination
import AsapClap.Parser.Forms
import AsapClap.Parser.Defaults
import AsapClap.Parser.Reports
import AsapClap.Parser.Assignment
import AsapClap.Parser.Interleaving
import AsapClap.Parser.Residue
import AsapClap.Parser.Online
import AsapClap.Parser.History
import AsapClap.Parser.Spelling
import AsapClap.Parser.Registration
import AsapClap.Parser.Turns
import AsapClap.Parser.Refinement
import AsapClap.Parser.Rejection
import AsapClap.Fluent.Spent
import AsapClap.Fluent.Groups
import AsapClap.Flags
import AsapClap.Enumerations
import AsapClap.Cli.Session
import AsapClap.Cli.Lookup
import AsapClap.Cli.Resolution
import AsapClap.Cli.Safety
