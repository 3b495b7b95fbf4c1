import ScalarSql.Program.Listing
import ScalarSql.Proofs.BlobLiterals
import ScalarSql.Proofs.CachedFacts
import ScalarSql.Proofs.Code.Leases
import ScalarSql.Proofs.Constants
import ScalarSql.Proofs.Depth
import ScalarSql.Proofs.Disjunction
import ScalarSql.Proofs.Grouping
import ScalarSql.Proofs.Hoisting
import ScalarSql.Proofs.KeyOrder
import ScalarSql.Proofs.NotNull
import ScalarSql.Proofs.PinnedConstants
import ScalarSql.Proofs.Program.Labels
import ScalarSql.Proofs.RegisterBounds
import ScalarSql.Proofs.Resolution.Arms
import ScalarSql.Proofs.RowComparison
import ScalarSql.Proofs.Shifts
import ScalarSql.Proofs.StoredRows
import ScalarSql.Proofs.Substrings
