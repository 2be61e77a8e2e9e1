import Lox.Main
import Lox.Value.Describe
import Lox.Proofs.Grammar.Roundtrip
import Lox.Proofs.Parse.Numbering
import Lox.Proofs.Token.Scan
import Lox.Proofs.Resolve.Chart
import Lox.Proofs.Session.Orientation
import Lox.Proofs.Lexical.Simulation
import Lox.Proofs.Syntax.Lines
import Lox.Proofs.Parse.Lines
import Lox.Proofs.Machine.Lines
import Lox.Proofs.Resolve.Sequel
import Lox.Proofs.Machine.Sequence
import Lox.Proofs.Session.Batch
import Lox.Proofs.Resolve.Violations
import Lox.Proofs.Resolve.Uses
import Lox.Proofs.Resolve.Nesting
import Lox.Proofs.Session.Rejected
import Lox.Proofs.Session.Renaming
import Lox.Proofs.Session.Numbers
import Lox.Proofs.Session.Restored
import Lox.Proofs.Session.Returns
import Lox.Proofs.Session.Supers
import Lox.Proofs.Session.Depth
import Lox.Proofs.Session.Evaluated
import Lox.Proofs.Session.Limited
import Lox.Proofs.Token.Partition
import Lox.Proofs.Octets.Partition
import Lox.Proofs.Token.Lines
import Lox.Proofs.Session.Assignments
import Lox.Proofs.Machine.Footprint
import Lox.Proofs.Machine.Readings
import Lox.Proofs.Session.Globals
import Lox.Proofs.Session.Instances
import Lox.Proofs.Session.Loops
import Lox.Proofs.Descent.Recovery
import Lox.Proofs.Forest.Search
import Lox.Proofs.Token.Joined
import Lox.Proofs.Session.Outcomes
import Lox.Proofs.Session.Parameters
import Lox.Proofs.Grammar.Outlines
import Lox.Proofs.Resolve.Balance
import Lox.Proofs.Decimal.Paths
