import Mlog.Expr.Equality
import Mlog.File.Disk
import Mlog.Main
import Mlog.Proofs.Preservation
import Mlog.Proofs.Printable
import Mlog.Proofs.Soundness
import Mlog.Proofs.Lexing
import Mlog.Proofs.RoundTrip
import Mlog.Proofs.CommentParsing
import Mlog.Proofs.ShapedParsing
import Mlog.Proofs.Sequencing
import Mlog.Proofs.Assignment
import Mlog.Proofs.Listing
import Mlog.Proofs.Jumps
import Mlog.Proofs.Waiting
import Mlog.Proofs.Layout
import Mlog.Proofs.Literals
import Mlog.Proofs.Script
import Mlog.Proofs.Totality
import Mlog.Proofs.Growth
import Mlog.Proofs.Pointing
import Mlog.Proofs.Footprint
import Mlog.Proofs.Nesting
import Mlog.Proofs.Renumbering
import Mlog.Proofs.Census
import Mlog.Proofs.WellFormed
import Mlog.Proofs.Settings
import Mlog.Proofs.SignParsing
