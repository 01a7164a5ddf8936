import Script.Main
import Script.Proofs.Grammar.RoundTrip
import Script.Proofs.Grammar.Malformed
import Script.Proofs.Lexical.Sites
import Script.Proofs.Lexical.Jumps
import Script.Proofs.Source.Tokens
import Script.Proofs.Source.Longest
import Script.Proofs.Lexical.Initializers
import Script.Proofs.Lexical.Unused
import Script.Proofs.Tracking.Locals
import Script.Proofs.Tracking.Renamed
import Script.Proofs.Dialogue.Joining
import Script.Proofs.Guarded.Session
import Script.Proofs.Dialogue.Checked
import Script.Proofs.Dialogue.Environment
import Script.Proofs.Dialogue.Layout
import Script.Proofs.Dialogue.Room
import Script.Proofs.Dialogue.Globals
import Script.Proofs.Guarded.ForLoop
import Script.Proofs.Observed.Invisible
import Script.Proofs.Observed.Receivers
import Script.Proofs.Chains
import Script.Proofs.Grammar.Formed
import Script.Proofs.Grammar.Deriving
import Script.Proofs.Cursor.Following
import Script.Proofs.Cursor.Progress
import Script.Proofs.Equality
import Script.Proofs.Number.Literals
import Script.Proofs.Dialogue.Prompt
import Script.Proofs.Source.Skipping
