import OfiTransport.Nanomsg
import OfiTransport.Lib.Linked
import OfiTransport.Lib.Machine
import OfiTransport.Lib.Locking
import OfiTransport.Lib.Simulation
import OfiTransport.Lib.Memory
import OfiTransport.Lib.Fifo
import OfiTransport.Lib.CString
import OfiTransport.Lib.Custody
import OfiTransport.Lib.Attempt
import OfiTransport.Lib.Ledger
import OfiTransport.Lib.Stock
import OfiTransport.Mr.Defs
import OfiTransport.Mr.Frame
import OfiTransport.Mr.Soundness
import OfiTransport.Mr.References
import OfiTransport.Mr.Slabs
import OfiTransport.Mr.Supply
import OfiTransport.Mr.Registrations
import OfiTransport.Mr.Turns
import OfiTransport.Mr.Errors
import OfiTransport.Mr.Invalidate
import OfiTransport.Mr.Purge
import OfiTransport.Mr.Eviction
import OfiTransport.Mr.Return
import OfiTransport.Mr.Locks
import OfiTransport.Sofi.Egress
import OfiTransport.Sofi.Ingress
import OfiTransport.Sofi.Defs
import OfiTransport.Sofi.EgressLaws
import OfiTransport.Sofi.IngressLaws
import OfiTransport.Sofi.Init
import OfiTransport.Sofi.Options
import OfiTransport.Sofi.Contexts
import OfiTransport.Sofi.Machine
import OfiTransport.Sofi.Steps
import OfiTransport.Sofi.Credit
import OfiTransport.Sofi.Flush
import OfiTransport.Sofi.Posting
import OfiTransport.Sofi.Receive
import OfiTransport.Sofi.Lists
import OfiTransport.Sofi.Order
import OfiTransport.Sofi.Delivery
import OfiTransport.Sofi.Shutdown
import OfiTransport.Sofi.Lifecycle
import OfiTransport.Sofi.Backpressure
import OfiTransport.Sofi.Resources
import OfiTransport.Sofi.Managed
import OfiTransport.Sofi.Keys
import OfiTransport.Sofi.Sharing
import OfiTransport.Sofi.Books
import OfiTransport.Sofi.Wire
import OfiTransport.Sofi.Rest
import OfiTransport.Sofi.Stale
import OfiTransport.Sofi.Stream
import OfiTransport.Sofi.Link
import OfiTransport.Sofi.Keepalive
import OfiTransport.Sofi.Silence
import OfiTransport.Sofi.Ownership
import OfiTransport.Sofi.Term
import OfiTransport.Sofi.Owned
import OfiTransport.Ofiw.Defs
import OfiTransport.Ofiw.Steps
import OfiTransport.Ofiw.Stop
import OfiTransport.Ofiw.Lock
import OfiTransport.Ofiw.Parking
import OfiTransport.Ofiw.Deadlock
import OfiTransport.Ofiw.Dispatch
import OfiTransport.Ofiw.Backlog
import OfiTransport.Ofiw.Calibration
import OfiTransport.Fabric.Defs
import OfiTransport.Fabric.Addresses
import OfiTransport.Fabric.Grammar
import OfiTransport.Fabric.Transport
import OfiTransport.Fabric.Leaks
import OfiTransport.Bofi.Defs
import OfiTransport.Bofi.Offsets
import OfiTransport.Bofi.Endpoints
import OfiTransport.Bofi.Stop
import OfiTransport.Bofi.Requests
import OfiTransport.Bofi.Opening
import OfiTransport.Bofi.Closing
import OfiTransport.Bofi.Server
import OfiTransport.Bofi.Serving
import OfiTransport.Cofi.Defs
import OfiTransport.Cofi.Laws
import OfiTransport.Cofi.Alternation
import OfiTransport.Cofi.Client
