import Comdb2.Lib.Lex
import Comdb2.Lib.Bytes
import Comdb2.Lib.Qsort
import Comdb2.Lib.Bits
import Comdb2.Lib.Run
import Comdb2.Bdb.Genid
import Comdb2.Schemachange.LiveSc
import Comdb2.Db.Serial
import Comdb2.Comdb2rle.Format
import Comdb2.Comdb2rle.Hints
import Comdb2.Comdb2rle.RoundTrip
import Comdb2.Bdb.Rle8
import Comdb2.Bdb.Odh
import Comdb2.Bdb.Pack
import Comdb2.Comdb2rle.Plain
import Comdb2.Util.Plhash
import Comdb2.Db.Lrucache
import Comdb2.Util.Comdb2buf
import Comdb2.Lib.Bsearch
import Comdb2.Bdb.Temptable
import Comdb2.Db.Decimal
import Comdb2.Schemachange.ScStruct
import Comdb2.Db.Views
import Comdb2.Db.Utf8
import Comdb2.Lib.Ring
import Comdb2.Util.Comdb2bufWrite
import Comdb2.Util.PlhashMultimap
import Comdb2.Db.Datetime
import Comdb2.Lib.Chunks
import Comdb2.Db.Osqlblockproc
import Comdb2.Db.BplogReorder
import Comdb2.Lib.Merge
import Comdb2.Db.BplogReplay
import Comdb2.Lib.Cmp
import Comdb2.Lib.Circ
import Comdb2.Db.DohsqlOrder
import Comdb2.Db.DohsqlMerge
import Comdb2.Db.DohsqlRun
