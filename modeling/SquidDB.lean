import SquidDB.Lib.Checked
import SquidDB.Lib.Draws
import SquidDB.Lib.Machine
import SquidDB.Lib.Tower
import SquidDB.Lib.TowerDescent
import SquidDB.Lib.SortedMap
import SquidDB.Lib.MapScan
import SquidDB.Lib.SortedMultimap
import SquidDB.Lib.Int32Order
import SquidDB.Lib.Lease
import SquidDB.Lib.Circle
import SquidDB.Lib.Text
import SquidDB.Lib.Intake
import SquidDB.Lib.Window
import SquidDB.Lib.LastWrite
import SquidDB.Lib.Ledger
import SquidDB.Lib.Linked
import SquidDB.Infra.LinkedQueue
import SquidDB.Infra.QueueLifetime
import SquidDB.Core.SkipListStructure
import SquidDB.Core.IteratorEnd
import SquidDB.Core.SkipListAssertions
import SquidDB.Core.SkipListDescent
import SquidDB.Core.BufferOwnership
import SquidDB.Core.Cursor
import SquidDB.Core.SelfCheck
import SquidDB.Core.MemoryUsage
import SquidDB.Core.SecondaryOwnership
import SquidDB.Core.SecondaryIndex
import SquidDB.Core.SearchSteps
import SquidDB.Core.RandomHeights
import SquidDB.Core.AverageSearch
import SquidDB.Engine.Viewpoint
import SquidDB.Engine.AbandonedTransactions
import SquidDB.Engine.Rollback
import SquidDB.Engine.RowKeys
import SquidDB.Engine.RowStatus
import SquidDB.Engine.MisusedCalls
import SquidDB.Engine.TableStartup
import SquidDB.Engine.TypedReads
import SquidDB.Storage.TableFiles
import SquidDB.Storage.SchemaGrammar
import SquidDB.Storage.AgeOrder
import SquidDB.Storage.FileAddresses
import SquidDB.Storage.FailedInitialize
import SquidDB.Lib.AppendStream
import SquidDB.Storage.FileStream
import SquidDB.Storage.WrittenRecords
import SquidDB.Storage.SchemaRewriting
import SquidDB.Engine.TableSessions
import SquidDB.Utils.Logger
import SquidDB.Utils.OutputMode
import SquidDB.Utils.LoggerShutdown
import SquidDB.Utils.LoggerSessions
import SquidDB.Utils.Configuration
import SquidDB.Utils.ConfigurationFold
import SquidDB.Engine.TableContents
