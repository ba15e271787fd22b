import KeepBlame.CommandLine.Session
import KeepBlame.Main
import KeepBlame.Proofs.Coverage
import KeepBlame.Proofs.Formatting
import KeepBlame.Proofs.Ownership
import KeepBlame.Proofs.Printed
import KeepBlame.Proofs.Rendering
import KeepBlame.Proofs.Untouched
import KeepBlame.Proofs.Calls
import KeepBlame.Proofs.Refusals
import KeepBlame.Proofs.SetAside
import KeepBlame.Proofs.Rearranged
import KeepBlame.Proofs.Least
import KeepBlame.Proofs.Banner
import KeepBlame.Proofs.Appearance
import KeepBlame.Proofs.Nesting
import KeepBlame.Proofs.CutShort
import KeepBlame.Proofs.Conflicts
import KeepBlame.Proofs.Found
import KeepBlame.Proofs.Anchored
import KeepBlame.Proofs.Author
import KeepBlame.Proofs.Rewritten
import KeepBlame.Proofs.TomlTables
import KeepBlame.Proofs.Settings
