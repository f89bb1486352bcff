import LibCoreCmd.Http.Completion
import LibCoreCmd.Http.Url
import LibCoreCmd.Http.Delivery
import LibCoreCmd.Executor.Shutdown
import LibCoreCmd.Tools.Synchronize
import LibCoreCmd.Tools.Conservation
import LibCoreCmd.Tools.Provenance
import LibCoreCmd.Tools.Picking
import LibCoreCmd.Tools.WellFormed
import LibCoreCmd.Explorers.LedgerApiParser
import LibCoreCmd.Tools.ServerPages
import LibCoreCmd.Commands.Atomicity
import LibCoreCmd.Commands.ListAccounts
import LibCoreCmd.Commands.Callback
import LibCoreCmd.Commands.EventReceiver
import LibCoreCmd.Orderly
import LibCoreCmd.Parameters
import LibCoreCmd.Async.Schedule
import LibCoreCmd.Async.ExecuteAll
import LibCoreCmd.Synchronizer.Account
import LibCoreCmd.Synchronizer.Settled
import LibCoreCmd.Synchronizer.Served
