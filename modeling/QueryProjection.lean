import QueryProjection.Expr.Text
import QueryProjection.Proofs.Aliases
import QueryProjection.Proofs.DataPass
import QueryProjection.Proofs.Deferral
import QueryProjection.Proofs.DepthLimit
import QueryProjection.Proofs.Inlined
import QueryProjection.Proofs.Insertions
import QueryProjection.Proofs.Laziness
import QueryProjection.Proofs.Ordering
import QueryProjection.Proofs.Ownership
import QueryProjection.Proofs.PageSize
import QueryProjection.Proofs.Prune
import QueryProjection.Proofs.Services
import QueryProjection.Proofs.SiblingOrder
import QueryProjection.Proofs.Stages.Positions
import QueryProjection.Proofs.TwoPass.Pointing
import QueryProjection.Settings.Reader
