import GoOutline.Main
import GoOutline.GoType.Read
import GoOutline.Proofs.Collections
import GoOutline.Proofs.Visible
import GoOutline.Proofs.Growth
import GoOutline.Proofs.Phrases
import GoOutline.Proofs.Carrying
import GoOutline.Proofs.RoundTrip
import GoOutline.Proofs.Strictness
import GoOutline.Proofs.Building
import GoOutline.Proofs.Marking
import GoOutline.Proofs.Slicing
import GoOutline.Proofs.Forms
import GoOutline.Proofs.Writing
import GoOutline.Proofs.Saving
import GoOutline.Proofs.Remembering
import GoOutline.Proofs.Origins
import GoOutline.Proofs.DocComments
import GoOutline.Proofs.Spelling
import GoOutline.Proofs.Naming
import GoOutline.Proofs.Denotations
import GoOutline.Proofs.Qualifiers
import GoOutline.Proofs.Completeness
import GoOutline.Proofs.Arguments
import GoOutline.Proofs.Scanning
import GoOutline.Proofs.Arrangement
import GoOutline.Proofs.CommentStyles
import GoOutline.Proofs.Lookup
import GoOutline.Proofs.Appending
import GoOutline.Proofs.PackageNames
import GoOutline.Proofs.Commuting
