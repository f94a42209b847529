import LedgerLine.Lib.BigEndian
import LedgerLine.Lib.Search
import LedgerLine.Lib.Landmarks
import LedgerLine.Lib.Program
import LedgerLine.Lib.Files
import LedgerLine.Lib.Directory
import LedgerLine.Lib.Crc
import LedgerLine.Lib.Scan
import LedgerLine.Lib.Json
import LedgerLine.Lib.Unmarshal
import LedgerLine.Broker.Record
import LedgerLine.Broker.Checksum
import LedgerLine.Broker.Coordinator
import LedgerLine.Broker.GroupCommit
import LedgerLine.Broker.Wakeups
import LedgerLine.Broker.Disk
import LedgerLine.Broker.Index
import LedgerLine.Broker.Segment
import LedgerLine.Broker.Log
import LedgerLine.Broker.Layout
import LedgerLine.Broker.Stream
import LedgerLine.Broker.Image
import LedgerLine.Broker.Recovery
import LedgerLine.Broker.Derived
import LedgerLine.Broker.Leftover
import LedgerLine.Broker.Skipped
import LedgerLine.Broker.Trusted
import LedgerLine.Broker.Storage
import LedgerLine.Broker.LogSpec
import LedgerLine.Broker.AppendSpec
import LedgerLine.Broker.Refinement
import LedgerLine.Broker.Kill
import LedgerLine.Broker.Roll
import LedgerLine.Broker.Landing
import LedgerLine.Broker.Live
import LedgerLine.Broker.Schedule
import LedgerLine.Broker.Flushing
import LedgerLine.Broker.Opening
import LedgerLine.Broker.Acknowledged
import LedgerLine.Broker.Closing
import LedgerLine.Broker.Exposure
import LedgerLine.Broker.Durable
import LedgerLine.Broker.Crash
import LedgerLine.Broker.Readable
import LedgerLine.Broker.Residue
import LedgerLine.Broker.Capacity
import LedgerLine.Broker.Interval
import LedgerLine.Broker.Reopening
import LedgerLine.Broker.Stacked
import LedgerLine.Broker.Phantom
import LedgerLine.Lib.Transaction
import LedgerLine.Lib.Calls
import LedgerLine.Lib.Serial
import LedgerLine.Lib.Schedule
import LedgerLine.Lib.First
import LedgerLine.Lib.Decimal
import LedgerLine.Lib.Calendar
import LedgerLine.Lib.Rounding
import LedgerLine.Billing.Ledger
import LedgerLine.Billing.Quantity
import LedgerLine.Billing.AmountText
import LedgerLine.Billing.Pricing
import LedgerLine.Billing.Charges
import LedgerLine.Billing.Database
import LedgerLine.Billing.Consumer
import LedgerLine.Billing.Statements
import LedgerLine.Billing.Drain
import LedgerLine.Billing.Draining
import LedgerLine.Billing.Tally
import LedgerLine.Billing.Delivery
import LedgerLine.Billing.Kept
import LedgerLine.Billing.Guards
import LedgerLine.Billing.Store
import LedgerLine.Billing.Invoicing
import LedgerLine.Billing.ClosePath
import LedgerLine.Billing.CloseEffect
import LedgerLine.Billing.Rebuilt
import LedgerLine.Billing.Event
import LedgerLine.Billing.Ingest
import LedgerLine.Billing.Decoding
import LedgerLine.Billing.Runs
import LedgerLine.Billing.Rollforward
import LedgerLine.Billing.OwnUsage
import LedgerLine.Billing.Constraints
import LedgerLine.Billing.Matching
import LedgerLine.Billing.Replay
import LedgerLine.Billing.OneInvoice
import LedgerLine.Billing.Overlap
import LedgerLine.Billing.Meanwhile
import LedgerLine.Billing.ReadBack
import LedgerLine.Billing.Chaos
import LedgerLine.Pipeline
import LedgerLine.Service
