import Schemata.Proofs.DraftBlind
import Schemata.Proofs.DraftFlags
import Schemata.Proofs.ExtensionChains
import Schemata.Proofs.FieldWrites
import Schemata.Proofs.Identity
import Schemata.Proofs.JsonNormalForm
import Schemata.Proofs.JsonRoundTrip
import Schemata.Proofs.Lineage
import Schemata.Proofs.LostWrites
import Schemata.Proofs.Membership
import Schemata.Proofs.NewNumbers
import Schemata.Proofs.Optionals
import Schemata.Proofs.PathConcatenation
import Schemata.Proofs.PathWalks
import Schemata.Proofs.Properties
import Schemata.Proofs.ReportedPaths
import Schemata.Proofs.Resets
import Schemata.Proofs.Retagging
import Schemata.Proofs.TagAgreement
import Schemata.Proofs.UndeclaredData
import Schemata.Proofs.Undrafted
import Schemata.Proofs.UnionDeclarations
import Schemata.Proofs.Upcasting
import Schemata.Session.Run
import Schemata.Proofs.StablePaths
