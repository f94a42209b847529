import LedgerLine.Broker.Skipped

/-!
# What recovery takes from an index

The segment file is whole, and the index file holds any bytes.  `broker/log/segment.go` uses
the entries it loads in two places only: `recover` starts to read at the last one, and `read`
starts its walk at the one that `lookup` returns.  `Trusted` says what these entries have to
be; all others may be anything.  Exactly then the segment is opened whole
(`openSegment_whole_iff`).
-/

namespace LedgerLine.Broker

open Program

end LedgerLine.Broker
