import Mile.Binlog.TornLog
import Mile.Slave.Reassembly
import Mile.Slave.Master
import Mile.DocDb.Recover
import Mile.DocDb.BinRecord
import Mile.DocDb.HashIndexReject
import Mile.DocDb.HashMemCompress
import Mile.DocDb.RowidWalk
import Mile.DocDb.SuffixSets
import Mile.Execute.Expression
import Mile.Ldb.FailedInsert
import Mile.Ldb.SplitCommand
import Mile.Ldb.TableMgr
import Mile.DocDb.DyhashReplay
import Mile.DocDb.Table
import Mile.DocDb.LateIndex
import Mile.Protocol.RecvData
import Mile.Merge.Distinct
import Mile.Merge.Limit
import Mile.Merge.Aggregation
import Mile.Merge.ShardingExact
import Mile.Merge.Execution
import Mile.Protocol.PacketComplete
