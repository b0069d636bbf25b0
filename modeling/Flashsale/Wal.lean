import Flashsale.Bytes
import Flashsale.EndToEnd
import Flashsale.Journal
set_option autoImplicit false

namespace Flashsale.Engine
open Bytes Transition

/-- `sizeof(WalRecord)`: four bytes lie unused behind `qty`. -/
def sizeofRecord : Nat := 40

/-- The bytes of a record; `pad` is what its unused bytes hold. -/
def encodeRecord (r : WalRecord) (pad : UInt32) : List UInt8 :=
  encode 8 r.timestampNs.toNat ++ encode 8 r.skuId.toUInt64.toNat ++ encode 4 r.qty.toUInt32.toNat ++
    encode 4 pad.toNat ++ encode 8 r.requestId.toNat ++ encode 8 r.guestId.toNat

def decodeRecord (bytes : List UInt8) : WalRecord where
  timestampNs := .ofNat (decode (bytes.take 8))
  skuId := (UInt64.ofNat (decode ((bytes.drop 8).take 8))).toInt64
  qty := (UInt32.ofNat (decode ((bytes.drop 16).take 4))).toInt32
  requestId := .ofNat (decode ((bytes.drop 24).take 8))
  guestId := .ofNat (decode ((bytes.drop 32).take 8))

def walFile (appends : List (WalRecord × UInt32)) : List UInt8 :=
  (appends.map fun x => encodeRecord x.1 x.2).flatten

def recover (file : List UInt8) : List WalRecord := (frames sizeofRecord file).map decodeRecord

@[simp] theorem encodeRecord_length (r : WalRecord) (pad : UInt32) :
    (encodeRecord r pad).length = sizeofRecord := by simp [encodeRecord,sizeofRecord]

theorem decode_encodeRecord (r : WalRecord) (pad : UInt32) : decodeRecord (encodeRecord r pad) = r := by
  have h8 : ∀ n : UInt64, UInt64.ofNat (decode (encode 8 n.toNat)) = n := fun n => by
    rw [decode_encode n.toNat_lt,UInt64.ofNat_toNat]
  have h4 : ∀ n : UInt32, UInt32.ofNat (decode (encode 4 n.toNat)) = n := fun n => by
    rw [decode_encode n.toNat_lt,UInt32.ofNat_toNat]
  have htime : (encodeRecord r pad).take 8 = encode 8 r.timestampNs.toNat := rfl
  have hsku : ((encodeRecord r pad).drop 8).take 8 = encode 8 r.skuId.toUInt64.toNat := rfl
  have hqty : ((encodeRecord r pad).drop 16).take 4 = encode 4 r.qty.toUInt32.toNat := rfl
  have hid : ((encodeRecord r pad).drop 24).take 8 = encode 8 r.requestId.toNat := rfl
  have hguest : ((encodeRecord r pad).drop 32).take 8 = encode 8 r.guestId.toNat := rfl
  rw [decodeRecord,htime,hsku,hqty,hid,hguest,h8,h8,h4,h8,h8]
  rfl

theorem encodeRecord_frames {appends : List (WalRecord × UInt32)} :
    ∀ x ∈ appends.map fun x => encodeRecord x.1 x.2, x.length = sizeofRecord := by
  intro x hx
  obtain ⟨y,-,rfl⟩ := List.mem_map.mp hx
  exact encodeRecord_length _ _

theorem recover_take (appends : List (WalRecord × UInt32)) (n : Nat) :
    recover ((walFile appends).take n) = (appends.map Prod.fst).take (n/sizeofRecord) := by
  rw [recover,walFile,frames_take (by decide) encodeRecord_frames,← List.map_take,← List.map_take,
    List.map_map]
  exact List.map_congr_left fun x _ => decode_encodeRecord _ _

/-- The records are read as they were written, and a torn one after them is not. -/
theorem recover_append (appends : List (WalRecord × UInt32)) {tail : List UInt8}
    (h : tail.length < sizeofRecord) :
    recover (walFile appends ++ tail) = appends.map Prod.fst := by
  rw [recover,walFile,frames_flatten (by decide) encodeRecord_frames h,List.map_map]
  exact List.map_congr_left fun x _ => decode_encodeRecord _ _

/-- The journal of a worker that starts on an empty file, read between two calls of
`Process`: its records are the sales in their order, and they lead from the first
stock to the one the worker has. -/
theorem wal_exact {w : Worker} (h : w.Ran []) (hpc : w.unjournaled = none)
    {appends : List (WalRecord × UInt32)} (hfile : appends.map Prod.fst = w.wal) :
    recover (walFile appends) = w.wal ∧ w.wal.map WalRecord.payload = w.sold ∧
    w.inventory = replay initialInventory (w.wal.map WalRecord.payload) ∧
    ∀ n, recover ((walFile appends).take n) = w.wal.take (n/sizeofRecord) := by
  have hj := h.journaled
  have hrecords : w.wal.map WalRecord.payload = w.sold := by
    simpa [hpc] using hj.records
  refine ⟨?_,hrecords,?_,fun n => ?_⟩
  · simpa [hfile] using recover_append appends (show ([] : List UInt8).length < sizeofRecord by decide)
  · rw [hrecords]
    exact hj.inventory
  · rw [recover_take,hfile]

theorem secondState_reachable : system.Reachable secondState :=
  acceptState_reachable.run (System.run_of_exec (Option.some_get _).symm)

theorem wal_exact_two :
    recover (walFile ((secondState.shards 1).worker.wal.map (·,0))) =
      (secondState.shards 1).worker.wal ∧
    (secondState.shards 1).worker.wal.map WalRecord.payload =
      [(saleRequest 5).payload,(saleRequest 6).payload] ∧
    (secondState.shards 1).worker.inventory 123 = some 9999998 ∧
    recover ((walFile ((secondState.shards 1).worker.wal.map (·,0))).take 79) =
      (secondState.shards 1).worker.wal.take 1 := by
  have hpc : (secondState.shards 1).worker.unjournaled = none := by decide +kernel
  have hfile : ((secondState.shards 1).worker.wal.map (·,(0 : UInt32))).map Prod.fst =
      (secondState.shards 1).worker.wal := by
    rw [List.map_map]
    exact List.map_id _
  have h := wal_exact (reachable_ran secondState_reachable 1) hpc hfile
  have hcut : 79/sizeofRecord = 1 := rfl
  have hread := h.2.2.2 79
  rw [hcut] at hread
  exact ⟨h.1,by decide +kernel,by decide +kernel,hread⟩

end Flashsale.Engine
