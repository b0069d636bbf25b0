import Flashsale.Wal
import Mathlib
set_option autoImplicit false

/-!
Writes of `WalLogger` that may be short: `Append` reports them and leaves their
bytes, which shift every record behind them.
-/

namespace Flashsale.Engine
open Bytes

def writeRaw (file data : List UInt8) : Option Nat → Bool × List UInt8
  | none => (false,file)
  | some n => (decide (data.length ≤ n),file ++ data.take n)

/-- A call of `Append`: its record, what the unused bytes hold, how `write` ends. -/
structure Append where
  record : WalRecord
  pad : UInt32
  written : Option Nat
  deriving DecidableEq

def Append.run (a : Append) (file : List UInt8) : Bool × List UInt8 :=
  writeRaw file (encodeRecord a.record a.pad) a.written

def session (file : List UInt8) (appends : List Append) : List UInt8 :=
  appends.foldl (fun file a => (a.run file).2) file

def sessions (ss : List (List Append)) : List UInt8 := ss.foldl session []

def stored (written : Option Nat) : Nat := min sizeofRecord (written.getD 0)

def appended (appends : List Append) : List WalRecord :=
  (appends.filter fun a => (a.run []).1).map (·.record)

/-- Torn writes lie behind the last whole record, and add up to less than a record. -/
def TornTail (writes : List (Option Nat)) : Prop :=
  ∃ before after, writes = before ++ after ∧
    (∀ w ∈ before, stored w = 0 ∨ stored w = sizeofRecord) ∧
    (after.map stored).sum < sizeofRecord

section Files
variable {a : Append} {as bs : List Append} {file : List UInt8}

def Append.bytes (a : Append) : List UInt8 :=
  (encodeRecord a.record a.pad).take (a.written.getD 0)

theorem run_file (a : Append) (file : List UInt8) : (a.run file).2 = file ++ a.bytes := by
  unfold Append.run Append.bytes writeRaw
  cases a.written <;> simp

theorem run_ok (a : Append) (file : List UInt8) :
    (a.run file).1 = decide (stored a.written = sizeofRecord) := by
  unfold Append.run writeRaw stored
  cases a.written with
  | none => rfl
  | some n => simp

@[simp] theorem bytes_length (a : Append) : a.bytes.length = stored a.written := by
  simp [Append.bytes,stored,min_comm]

theorem session_eq (file : List UInt8) (as : List Append) :
    session file as = file ++ (as.map Append.bytes).flatten := by
  induction as generalizing file with
  | nil => simp [session]
  | cons a as ih =>
    change session (a.run file).2 as = _
    rw [ih,run_file]
    simp

theorem sessions_eq (ss : List (List Append)) :
    sessions ss = (ss.flatten.map Append.bytes).flatten := by
  have hfold : ∀ file, ss.foldl session file = file ++ (ss.flatten.map Append.bytes).flatten := by
    induction ss with
    | nil => simp
    | cons as ss ih =>
      intro file
      rw [List.foldl_cons,ih,session_eq]
      simp
  simpa [sessions] using hfold []

theorem bytes_empty (h : stored a.written = 0) : a.bytes = [] :=
  List.eq_nil_of_length_eq_zero (by rw [bytes_length,h])

theorem bytes_whole (h : stored a.written = sizeofRecord) :
    a.bytes = encodeRecord a.record a.pad := by
  refine List.take_of_length_le ?_
  rw [encodeRecord_length]
  exact min_eq_left_iff.mp h

theorem appended_cons (a : Append) (as : List Append) :
    appended (a :: as) =
      if stored a.written = sizeofRecord then a.record :: appended as else appended as := by
  by_cases h : stored a.written = sizeofRecord <;> simp [appended,run_ok,h]

theorem recover_whole (r : WalRecord) (pad : UInt32) (file : List UInt8) :
    recover (encodeRecord r pad ++ file) = r :: recover file := by
  rw [recover,frames_append (by decide) (encodeRecord_length r pad),List.map_cons,
    decode_encodeRecord]
  rfl

theorem recover_short (h : file.length < sizeofRecord) : recover file = [] := by
  rw [recover,frames_of_lt h,List.map_nil]

theorem recover_nil_iff : recover file = [] ↔ file.length < sizeofRecord := by
  refine ⟨fun h => ?_,recover_short⟩
  by_contra hlen
  rw [recover,frames,dif_pos ⟨by decide,by omega⟩] at h
  simp at h

/-- With the torn writes behind the whole records, these are all that is read. -/
theorem recover_tornTail (h : TornTail (as.map (·.written))) :
    recover (as.map Append.bytes).flatten = appended as := by
  obtain ⟨before,after,hsplit,hwhole,hsum⟩ := h
  induction before generalizing as with
  | nil =>
    obtain rfl : as.map (·.written) = after := hsplit
    have hlen : (as.map Append.bytes).flatten.length < sizeofRecord := by
      simpa [List.length_flatten,Function.comp_def] using hsum
    have hnone : appended as = [] := by
      simp only [appended,List.map_eq_nil_iff,List.filter_eq_nil_iff,run_ok,decide_eq_true_eq]
      intro a ha hfull
      have hle : stored a.written ≤ ((as.map (·.written)).map stored).sum :=
        List.le_sum_of_mem (List.mem_map_of_mem (List.mem_map_of_mem ha))
      omega
    rw [recover_short hlen,hnone]
  | cons w before ih =>
    cases as with
    | nil => cases hsplit
    | cons a as =>
      obtain ⟨hw,hrest⟩ : a.written = w ∧ as.map (·.written) = before ++ after := by
        simpa using hsplit
      have hih := ih hrest fun w' hw' => hwhole w' (by simp [hw'])
      rw [List.map_cons,List.flatten_cons,appended_cons]
      rcases hwhole w (by simp) with hzero | hfull
      · rw [bytes_empty (hw ▸ hzero),hw,hzero]
        simpa [sizeofRecord] using hih
      · rw [bytes_whole (hw ▸ hfull),recover_whole,hih,hw,if_pos hfull]

end Files

section Shifted
variable {writes : List (Option Nat)}

/-- Records that show whether they were torn: a whole one is all zeros. -/
def marked (written : Option Nat) : Append where
  record :=
    { timestampNs := if stored written = sizeofRecord then 0 else 255
      skuId := 0
      qty := 0
      requestId := 0
      guestId := 0 }
  pad := 0
  written := written

theorem appended_marked (writes : List (Option Nat)) :
    ∀ r ∈ appended (writes.map marked), r.timestampNs = 0 := by
  intro r hr
  simp only [appended,run_ok,List.mem_map,List.mem_filter,decide_eq_true_eq] at hr
  obtain ⟨a,⟨⟨w,-,rfl⟩,hfull⟩,rfl⟩ := hr
  exact if_pos hfull

theorem recover_shifted {file : List UInt8} {r : WalRecord} {rs : List WalRecord}
    (h : recover (255 :: file) = r :: rs) : r.timestampNs ≠ 0 := by
  by_cases hlen : (255 :: file).length < sizeofRecord
  · rw [recover_short hlen] at h
    cases h
  · rw [recover,frames,dif_pos ⟨by decide,by omega⟩,List.map_cons] at h
    obtain ⟨rfl,-⟩ := List.cons.inj h
    intro hzero
    have hbytes : ((255 :: file).take sizeofRecord).take 8 = 255 :: (file.take 7) := by
      simp [sizeofRecord,List.take_take]
    rw [decodeRecord,hbytes,decode] at hzero
    have hnat := congrArg UInt64.toNat hzero
    simp at hnat
    omega

theorem bytes_marked {w : Option Nat} (hzero : stored w ≠ 0) (hfull : stored w ≠ sizeofRecord) :
    ∃ rest, (marked w).bytes = 255 :: rest := by
  cases w with
  | none => exact absurd rfl hzero
  | some n =>
    obtain ⟨k,rfl⟩ : ∃ k, n = k + 1 := Nat.exists_eq_succ_of_ne_zero fun hn => hzero (by simp [hn,stored])
    exact ⟨_,by simp only [Append.bytes,marked,if_neg hfull,encodeRecord,encode]; rfl⟩

theorem tornTail_of_recover
    (h : recover ((writes.map marked).map Append.bytes).flatten = appended (writes.map marked)) :
    TornTail writes := by
  induction writes with
  | nil => exact ⟨[],[],rfl,by simp,by decide⟩
  | cons w writes ih =>
    have hcons : ((writes.map marked).map Append.bytes).flatten.length =
        (writes.map stored).sum := by
      simp [List.length_flatten,Function.comp_def,marked]
    rw [List.map_cons,List.map_cons,List.flatten_cons,appended_cons] at h
    change recover _ = if stored w = _ then _ else _ at h
    by_cases hzero : stored w = 0
    · rw [bytes_empty hzero,if_neg (by rw [hzero]; decide),List.nil_append] at h
      obtain ⟨before,after,rfl,hwhole,hsum⟩ := ih h
      exact ⟨w :: before,after,rfl,by simpa [hzero] using hwhole,hsum⟩
    by_cases hfull : stored w = sizeofRecord
    · rw [bytes_whole hfull,recover_whole,if_pos hfull] at h
      obtain ⟨before,after,rfl,hwhole,hsum⟩ := ih (List.cons.inj h).2
      exact ⟨w :: before,after,rfl,by simpa [hfull] using hwhole,hsum⟩
    · rw [if_neg hfull] at h
      refine ⟨[],w :: writes,rfl,by simp,?_⟩
      have hlen : ((marked w).bytes ++ ((writes.map marked).map Append.bytes).flatten).length =
          ((w :: writes).map stored).sum := by
        rw [List.length_append,hcons,bytes_length]
        rfl
      rw [← hlen,← recover_nil_iff]
      cases hread : appended (writes.map marked) with
      | nil => rw [h,hread]
      | cons r rs =>
        obtain ⟨rest,hrest⟩ := bytes_marked hzero hfull
        rw [hrest,hread] at h
        exact absurd (appended_marked writes r (by simp [hread])) (recover_shifted h)

end Shifted

/-- How the writes end decides whether every record they were to store is read: the
same for all contents. -/
theorem recover_appended_iff (writes : List (List (Option Nat))) :
    (∀ ss : List (List Append), ss.map (·.map (·.written)) = writes →
      recover (sessions ss) = appended ss.flatten) ↔ TornTail writes.flatten := by
  constructor
  · intro h
    have hwritten : ∀ ws : List (Option Nat), (ws.map marked).map (·.written) = ws := fun ws => by
      simp [Function.comp_def,marked]
    have hread := h (writes.map (·.map marked)) (by simp [Function.comp_def,hwritten])
    rw [sessions_eq,← List.map_flatten] at hread
    exact tornTail_of_recover hread
  · rintro h ss rfl
    rw [sessions_eq]
    exact recover_tornTail (by rwa [List.map_flatten])

def tornSale : WalRecord :=
  { timestampNs := 1, skuId := 123, qty := 2, requestId := 5, guestId := 7 }

def laterSale : WalRecord :=
  { timestampNs := 2, skuId := 456, qty := 1, requestId := 6, guestId := 8 }

def tornSessions : List (List Append) :=
  [[⟨tornSale,0,some 20⟩],[⟨laterSale,0,some 40⟩]]

def readSale : WalRecord :=
  { timestampNs := 1, skuId := 123, qty := 2, requestId := 0x1c800000000, guestId := 0x100000000 }

theorem torn_write_hides_record :
    appended tornSessions.flatten = [laterSale] ∧ recover (sessions tornSessions) = [readSale] ∧
    readSale ≠ laterSale := by
  have happended : appended tornSessions.flatten = [laterSale] := by decide
  refine ⟨happended,?_,by decide⟩
  have hsplit : sessions tornSessions =
      (sessions tornSessions).take sizeofRecord ++ (sessions tornSessions).drop sizeofRecord :=
    (List.take_append_drop _ _).symm
  rw [recover,hsplit,frames_append (by decide) (by decide),frames_of_lt (by decide)]
  decide

end Flashsale.Engine
