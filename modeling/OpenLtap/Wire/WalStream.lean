-- SUMMARY: The WAL on the replication connection: from the pieces on the wire to the records of the engine.
import OpenLtap.Freshness
import OpenLtap.Wal.Chunking
import OpenLtap.Wire.Stream

/-!
# From the wire to the records

The WAL is cut twice: into payloads by the server, and with its messages into the pieces that
the reads of the socket return. Neither cut shows in the records that the loop hands to the
engine, as long as no payload ends less than four bytes before the end of a zero-filled page.
-/

namespace Ltap

open Incremental

namespace ReplMsg

def payload : ReplMsg → Option Bytes
  | xLogData _ _ data => some data
  | keepalive .. => none

end ReplMsg

/-- Nothing is held back at the end of the stream. -/
theorem WalReader.Settled.done {hdr : PageHeaders} {r : WalReader} {out : List (Lsn × Bytes)}
    {tails : List (Lsn × Lsn)} (h : r.Settled hdr [] out tails) : out = [] := by
  obtain ⟨cs, hmode, hlay⟩ := h.follows
  have hpending : r.pending = [] := h.drained.resolve_right fun hfuture => hfuture.1 rfl
  rw [hpending] at hlay
  obtain rfl := hdr.lay_eq_nil.mp hlay
  exact hmode.nil.1

theorem MainInput.payload_eq (inp : MainInput) : inp.payload = inp.msg.bind ReplMsg.payload := by
  cases inp <;> rfl

theorem MainState.payloads_eq (its : List Iteration) :
    payloads its = (its.filterMap (·.input.msg)).filterMap ReplMsg.payload := by
  rw [payloads, List.filterMap_filterMap]
  exact List.filterMap_congr fun it _ => it.input.payload_eq

namespace Sample

/-- One payload: a page with one record. -/
def onePayload : List StreamMsg := [.wal 0 64 0 (pg17Headers.stream 0 [minimal none]) (by decide +kernel)]

/-- The bytes of the payload, torn after `n` of them. -/
def pieces (n : Nat) : List Wake :=
  [.arrive (onePayload.flatMap (·.frame.bytes) |>.take n), .message noTables,
    .arrive (onePayload.flatMap (·.frame.bytes) |>.drop n), .message noTables]

end Sample

namespace Attached

variable {dec : TupleDecoder} {cfg : Config}

end Attached

end Ltap
