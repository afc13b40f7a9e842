import Scriptlet.Main
import Scriptlet.Tree.Listing
import Scriptlet.Tree.Same
import Scriptlet.Proofs.Grammar.Recognition
import Scriptlet.Proofs.Session.References
import Scriptlet.Proofs.Session.Joining
import Scriptlet.Proofs.Session.Renaming
import Scriptlet.Proofs.Session.Assignments
import Scriptlet.Proofs.Session.Faults
import Scriptlet.Proofs.Session.Rejected
import Scriptlet.Proofs.Session.Same
import Scriptlet.Proofs.Session.Limit
import Scriptlet.Proofs.Token.Munch
import Scriptlet.Proofs.Session.Searching
import Scriptlet.Proofs.CommandLine.Modes
import Scriptlet.Proofs.Session.Returning
import Scriptlet.Proofs.Grammar.Recovery
import Scriptlet.Proofs.Session.Complaints
import Scriptlet.Proofs.Grammar.Composing
import Scriptlet.Proofs.Session.Footprint
import Scriptlet.Proofs.Session.Journal
import Scriptlet.Proofs.Token.Counting
import Scriptlet.Proofs.Session.Calls
import Scriptlet.Proofs.Session.Known
import Scriptlet.Proofs.Session.Mistakes
import Scriptlet.Proofs.Token.Quoting
import Scriptlet.Proofs.Token.Rescanning
import Scriptlet.Proofs.Grammar.Gathering
import Scriptlet.Proofs.Grammar.Advancing
import Scriptlet.Proofs.Eval.Variables
import Scriptlet.Proofs.Binding.Rosters
