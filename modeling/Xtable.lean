import Xtable.Theorems.PinAccount
import Xtable.Theorems.PinRelease
import Xtable.Theorems.Contest
import Xtable.Theorems.Phantoms
import Xtable.Theorems.Corruption
import Xtable.Theorems.SchemaOverflow
import Xtable.Theorems.Antidependencies
import Xtable.Theorems.Refusals
import Xtable.Theorems.OwnReads
import Xtable.Theorems.ChunkTables
import Xtable.Theorems.WalCuts
import Xtable.Theorems.RecordRows
import Xtable.Theorems.RecoveryOrder
import Xtable.Theorems.Validation
import Xtable.Theorems.KeySpellings
import Xtable.Theorems.ChunkIndex
import Xtable.Theorems.Uploads
import Xtable.Theorems.Tokens
import Xtable.Theorems.RowFormats
import Xtable.Theorems.Ranges
import Xtable.Theorems.Leases
import Xtable.Theorems.MemtableSizes
import Xtable.Theorems.Listings
