import ZenDB.Crdt.Register
import ZenDB.Crdt.Queue
import ZenDB.Devices.Clock
import ZenDB.Workspace.TablesRuns
import ZenDB.Workspace.StatesRuns
import ZenDB.Devices.Receipts
import ZenDB.Crdt.Counters
import ZenDB.Workspace.Inserts
import ZenDB.Topic.Accounts
import ZenDB.Topic.Torn
import ZenDB.Crdt.Lattice
import ZenDB.Table.Refused
import ZenDB.BPlusTree.Inserts
import ZenDB.BPlusTree.Routing
import ZenDB.KeyDir.Refusal
import ZenDB.SkipList.Bulk
import ZenDB.Topic.Desync
import ZenDB.Topic.Faults
import ZenDB.Crdt.Edits
import ZenDB.Topic.Seek
import ZenDB.Workspace.WorkspaceId
import ZenDB.BPlusTree.Holdings
