import Outline.Live.Inspect
import Outline.Main
import Outline.Proofs.CommandLine.Exclusion
import Outline.Proofs.CommandLine.Index
import Outline.Proofs.Live.Progress
import Outline.Proofs.Live.Registries
import Outline.Proofs.Loader.Directory
import Outline.Proofs.Loader.Latest
import Outline.Proofs.Loader.OneKey
import Outline.Proofs.Loader.Origin
import Outline.Proofs.Loader.Transparency
import Outline.Proofs.Search.Identities
import Outline.Proofs.Search.Narrowing
import Outline.Proofs.Search.Snapshots
import Outline.Proofs.Syntax.Bases
import Outline.Proofs.Syntax.FirstNames
import Outline.Proofs.Syntax.Modifiers
import Outline.Proofs.Syntax.Spacing
import Outline.Proofs.Tree.Decoding
import Outline.Proofs.Tree.Equality
import Outline.Proofs.Tree.Print
import Outline.Proofs.Tree.RoundTrip
import Outline.Proofs.Tree.Versions
