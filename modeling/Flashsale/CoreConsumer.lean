import Flashsale.Fields
import Flashsale.Strconv
set_option autoImplicit false

/-!
The text of an order intent: what `MockPullClient` prints and what `parse_intent` reads.
A text is its characters; of those, the digits and the comma are all that is told apart.
-/

namespace Flashsale.CoreConsumer
open Strconv

structure OrderIntent where
  requestId : UInt64
  userId : UInt64
  skuId : UInt32
  qty : UInt32
  tsNs : UInt64
  deriving DecidableEq

def accumulate (val : UInt64) : List Char → Option UInt64
  | [] => some val
  | c :: cs => if c < '0' ∨ c > '9' then none else accumulate (val*10 + digitOf c) cs

def parseU64 (s : List Char) : Option UInt64 := if s = [] then none else accumulate 0 s

def parseU32 (s : List Char) : Option UInt32 :=
  match parseU64 s with
  | none => none
  | some tmp => if tmp > 0xFFFFFFFF then none else some tmp.toUInt32

def store {β : Type} (out : OrderIntent) (val : Option β) (field : β → OrderIntent)
    (next : OrderIntent → Bool × OrderIntent) : Bool × OrderIntent :=
  match val with
  | none => (false,out)
  | some v => next (field v)

def parts (payload : List Char) : List (List Char) := Fields.split ',' 5 payload

/-- `parse_intent`, with the intent as it leaves it. -/
def parseIntent (payload : List Char) (out : OrderIntent) : Bool × OrderIntent :=
  match parts payload with
  | requestId :: userId :: skuId :: qty :: rest =>
      store out (parseU64 requestId) (fun v => { out with requestId := v }) fun out =>
      store out (parseU64 userId) (fun v => { out with userId := v }) fun out =>
      store out (parseU32 skuId) (fun v => { out with skuId := v }) fun out =>
      store out (parseU32 qty) (fun v => { out with qty := v }) fun out =>
        let out := { out with tsNs := 0 }
        match rest with
        | ts :: _ =>
            if ts = [] then (true,out)
            else store out (parseU64 ts) (fun v => { out with tsNs := v }) fun out => (true,out)
        | [] => (true,out)
  | _ => (false,out)

/-- `std::to_string` of the fields with commas between, without the last one. -/
def OrderIntent.format (o : OrderIntent) : List Char :=
  Nat.toDigits 10 o.requestId.toNat ++ ',' :: (Nat.toDigits 10 o.userId.toNat ++
    ',' :: (Nat.toDigits 10 o.skuId.toNat ++ ',' :: Nat.toDigits 10 o.qty.toNat))

def OrderIntent.formatTs (o : OrderIntent) : List Char :=
  o.format ++ ',' :: Nat.toDigits 10 o.tsNs.toNat

def mockIntent (seq : UInt64) : OrderIntent where
  requestId := seq
  userId := seq%1024
  skuId := (seq%50).toUInt32 + 1
  qty := 1
  tsNs := seq

/-- `MockPullClient::fetch_batch`: the payloads, and the next sequence number. -/
def fetchBatch (seq : UInt64) : Nat → List (List Char) × UInt64
  | 0 => ([],seq)
  | maxMsgs + 1 =>
      let rest := fetchBatch (seq + 1) maxMsgs
      ((mockIntent seq).formatTs :: rest.1,rest.2)

def Numeral (s : List Char) : Prop := s ≠ [] ∧ ∀ c ∈ s, c.isDigit

instance (s : List Char) : Decidable (Numeral s) := inferInstanceAs (Decidable (_ ∧ _))

section Numerals
variable {s cs : List Char} {c : Char} {val : UInt64}

theorem digit_iff : ¬ (c < '0' ∨ c > '9') ↔ c.isDigit := by
  simp [Char.isDigit,Char.lt_def,UInt32.not_lt]

theorem step_toNat (h : c.isDigit) : (val*10 + digitOf c).toNat =
    (10*val.toNat + (c.toNat - '0'.toNat))%2^64 := by
  obtain ⟨hd,-⟩ := digitOf_toNat h
  rw [UInt64.toNat_add,UInt64.toNat_mul,hd]
  change (val.toNat*10%2^64 + _)%2^64 = _
  omega

/-- The loop computes with 64 bits: only the remainder of what came before matters. -/
theorem ofDigitChars_mod (cs : List Char) (n : Nat) :
    Nat.ofDigitChars 10 cs (n%2^64)%2^64 = Nat.ofDigitChars 10 cs n%2^64 := by
  rw [Nat.ofDigitChars_eq_ofDigitChars_zero,Nat.ofDigitChars_eq_ofDigitChars_zero (l := cs)]
  conv_rhs => rw [Nat.ofDigitChars_eq_ofDigitChars_zero]
  simp [Nat.add_mod,Nat.mul_mod]

theorem accumulate_eq : accumulate val cs = if ∀ c ∈ cs, c.isDigit then
    some (UInt64.ofNat (Nat.ofDigitChars 10 cs val.toNat)) else none := by
  induction cs generalizing val with
  | nil => simp [accumulate]
  | cons c cs ih =>
    rw [accumulate]
    by_cases hc : c.isDigit
    · rw [if_neg (digit_iff.mpr hc),ih,step_toNat hc,Nat.ofDigitChars_cons]
      have hmod := ofDigitChars_mod cs (10*val.toNat + (c.toNat - '0'.toNat))
      simp only [List.forall_mem_cons,hc,true_and]
      congr 2
      rw [← UInt64.toNat_inj,UInt64.toNat_ofNat',UInt64.toNat_ofNat',hmod]
    · rw [if_pos (not_not.mp fun h => hc (digit_iff.mp h)),if_neg (by simp [hc])]

theorem parseU64_eq : parseU64 s = if Numeral s then some (UInt64.ofNat (value s)) else none := by
  by_cases hs : s = []
  · simp [parseU64,hs,Numeral]
  · rw [parseU64,if_neg hs,accumulate_eq]
    simp [Numeral,hs,value]

theorem parseU32_eq : parseU32 s = if Numeral s ∧ value s%2^64 < 2^32 then
    some (UInt32.ofNat (value s)) else none := by
  rw [parseU32,parseU64_eq]
  by_cases hs : Numeral s
  · have hval : (UInt64.ofNat (value s)).toNat = value s%2^64 := UInt64.toNat_ofNat'
    have hbig : UInt64.ofNat (value s) > 0xFFFFFFFF ↔ ¬ value s%2^64 < 2^32 := by
      rw [gt_iff_lt,UInt64.lt_iff_toNat_lt,hval]
      change 0xFFFFFFFF < _ ↔ _
      omega
    rw [if_pos hs]
    simp only [hbig,hs,true_and,ite_not,UInt64.toUInt32_ofNat']
  · simp [hs]

end Numerals

/-- The texts that `parse_intent` lets pass, by their fields. -/
def Passing : List (List Char) → Prop
  | requestId :: userId :: skuId :: qty :: rest =>
      (Numeral requestId ∧ Numeral userId) ∧ (Numeral skuId ∧ value skuId%2^64 < 2^32) ∧
        (Numeral qty ∧ value qty%2^64 < 2^32) ∧ ∀ ts ∈ rest.head?, ts = [] ∨ Numeral ts
  | _ => False

def reading : List (List Char) → OrderIntent
  | requestId :: userId :: skuId :: qty :: rest =>
      { requestId := .ofNat (value requestId)
        userId := .ofNat (value userId)
        skuId := .ofNat (value skuId)
        qty := .ofNat (value qty)
        tsNs := .ofNat (value (rest.headD [])) }
  | _ => ⟨0,0,0,0,0⟩

def Writes (bound : Nat) (s : List Char) (n : Nat) : Prop :=
  Numeral s ∧ value s < bound ∧ n = value s

/-- The grammar: the fields of a text that says an intent. -/
inductive Says : List (List Char) → OrderIntent → Prop where
  | four {requestId userId skuId qty : List Char} {o : OrderIntent}
      (request : Writes (2^64) requestId o.requestId.toNat)
      (user : Writes (2^64) userId o.userId.toNat) (sku : Writes (2^32) skuId o.skuId.toNat)
      (quantity : Writes (2^32) qty o.qty.toNat) (time : o.tsNs = 0) :
      Says [requestId,userId,skuId,qty] o
  | five {requestId userId skuId qty ts : List Char} {o : OrderIntent}
      (request : Writes (2^64) requestId o.requestId.toNat)
      (user : Writes (2^64) userId o.userId.toNat) (sku : Writes (2^32) skuId o.skuId.toNat)
      (quantity : Writes (2^32) qty o.qty.toNat)
      (time : ts = [] ∧ o.tsNs = 0 ∨ Writes (2^64) ts o.tsNs.toNat) :
      Says [requestId,userId,skuId,qty,ts] o

section Parse
variable {payload : List Char} {fields : List (List Char)} {out o : OrderIntent}

theorem parts_eq (payload : List Char) : parts payload = (payload.splitOn ',').take 5 :=
  Fields.split_eq_take ',' 5 payload

theorem parseIntent_passing (h : Passing (payload.splitOn ',')) :
    parseIntent payload out = (true,reading (payload.splitOn ',')) := by
  unfold parseIntent
  rw [parts_eq]
  generalize payload.splitOn ',' = fields at h
  match fields,h with
  | requestId :: userId :: skuId :: qty :: rest,⟨⟨hrequest,huser⟩,hsku,hqty,hts⟩ =>
    simp only [List.take_succ_cons,store,parseU64_eq,parseU32_eq,hrequest,huser,hsku,hqty,
      and_self,if_true]
    cases rest with
    | nil => rfl
    | cons ts more =>
      rcases hts ts rfl with rfl | hts
      · rfl
      · simp [hts,hts.1,reading]

theorem store_accepts {β : Type} {val : Option β} {field : β → OrderIntent}
    {next : OrderIntent → Bool × OrderIntent} (h : (store out val field next).1 = true) :
    ∃ v, val = some v ∧ (next (field v)).1 = true := by
  cases val with
  | none => cases h
  | some v => exact ⟨v,rfl,h⟩

theorem numeral_of_parseU64 {s : List Char} {v : UInt64} (h : parseU64 s = some v) : Numeral s := by
  rw [parseU64_eq] at h
  by_contra hs
  rw [if_neg hs] at h
  cases h

theorem numeral_of_parseU32 {s : List Char} {v : UInt32} (h : parseU32 s = some v) :
    Numeral s ∧ value s%2^64 < 2^32 := by
  rw [parseU32_eq] at h
  by_contra hs
  rw [if_neg hs] at h
  cases h

theorem passing_of_parseIntent (h : (parseIntent payload out).1 = true) :
    Passing (payload.splitOn ',') := by
  unfold parseIntent at h
  rw [parts_eq] at h
  generalize payload.splitOn ',' = fields at h
  match fields with
  | requestId :: userId :: skuId :: qty :: rest =>
    simp only [List.take_succ_cons] at h
    obtain ⟨_,hrequest,h⟩ := store_accepts h
    obtain ⟨_,huser,h⟩ := store_accepts h
    obtain ⟨_,hsku,h⟩ := store_accepts h
    obtain ⟨_,hqty,h⟩ := store_accepts h
    refine ⟨⟨numeral_of_parseU64 hrequest,numeral_of_parseU64 huser⟩,numeral_of_parseU32 hsku,
      numeral_of_parseU32 hqty,?_⟩
    rintro ts hts
    obtain ⟨more,rfl⟩ : ∃ more, rest = ts :: more := List.head?_eq_some_iff.mp hts
    simp only [List.take_succ_cons] at h
    by_cases hempty : ts = []
    · exact .inl hempty
    · rw [if_neg hempty] at h
      obtain ⟨_,htime,-⟩ := store_accepts h
      exact .inr (numeral_of_parseU64 htime)
  | [] | [_] | [_,_] | [_,_,_] => simp at h

theorem writes_u64 {s : List Char} (hs : Numeral s) (hlt : value s < 2^64) :
    Writes (2^64) s (UInt64.ofNat (value s)).toNat :=
  ⟨hs,hlt,by rw [UInt64.toNat_ofNat',Nat.mod_eq_of_lt hlt]⟩

theorem writes_u32 {s : List Char} (hs : Numeral s ∧ value s%2^64 < 2^32) (hlt : value s < 2^64) :
    Writes (2^32) s (UInt32.ofNat (value s)).toNat := by
  have hfit : value s < 2^32 := by
    have hmod := hs.2
    rwa [Nat.mod_eq_of_lt hlt] at hmod
  exact ⟨hs.1,hfit,by rw [UInt32.toNat_ofNat',Nat.mod_eq_of_lt hfit]⟩

theorem Writes.lt {s : List Char} {n : Nat} (h : Writes (2^32) s n) : value s < 2^64 := by
  have := h.2.1
  omega

theorem Says.fits (h : Says fields o) : fields.length ≤ 5 ∧ ∀ s ∈ fields, value s < 2^64 := by
  cases h with
  | four request user sku quantity time =>
    refine ⟨Nat.le_succ 4,?_⟩
    simp only [List.forall_mem_cons]
    exact ⟨request.2.1,user.2.1,sku.lt,quantity.lt,nofun⟩
  | five request user sku quantity time =>
    have hts : _ < 2^64 := time.elim (fun h => by rw [h.1]; decide) fun h => h.2.1
    refine ⟨Nat.le_refl 5,?_⟩
    simp only [List.forall_mem_cons]
    exact ⟨request.2.1,user.2.1,sku.lt,quantity.lt,hts,nofun⟩

theorem says_reading (h : Passing fields) (hlen : fields.length ≤ 5)
    (hfit : ∀ s ∈ fields, value s < 2^64) : Says fields (reading fields) := by
  match fields,h with
  | requestId :: userId :: skuId :: qty :: rest,⟨⟨hrequest,huser⟩,hsku,hqty,hts⟩ =>
    have hrequest := writes_u64 hrequest (hfit _ (by simp))
    have huser := writes_u64 huser (hfit _ (by simp))
    have hsku := writes_u32 hsku (hfit _ (by simp))
    have hqty := writes_u32 hqty (hfit _ (by simp))
    match rest with
    | [] => exact .four hrequest huser hsku hqty rfl
    | [ts] =>
      refine .five hrequest huser hsku hqty ?_
      rcases hts ts rfl with rfl | hts
      · exact .inl ⟨rfl,rfl⟩
      · exact .inr (writes_u64 hts (hfit _ (by simp)))
    | _ :: _ :: _ =>
      simp only [List.length_cons] at hlen
      omega

/-- What `parse_intent` accepts is of the grammar, and says what was read, exactly where it
was not accepted with a sixth field or with a numeral that 64 bits do not hold. -/
theorem accepts_exact_iff (payload : List Char) (out : OrderIntent) :
    ((parseIntent payload out).1 = true → Says (payload.splitOn ',') (parseIntent payload out).2) ↔
      (Passing (payload.splitOn ',') →
        (payload.splitOn ',').length ≤ 5 ∧ ∀ s ∈ payload.splitOn ',', value s < 2^64) := by
  have hacc : (parseIntent payload out).1 = true ↔ Passing (payload.splitOn ',') :=
    ⟨passing_of_parseIntent,fun h => by rw [parseIntent_passing h]⟩
  rw [hacc]
  refine forall_congr' fun h => ?_
  rw [parseIntent_passing h]
  exact ⟨Says.fits,fun hfit => says_reading h hfit.1 hfit.2⟩

/-- A request id of 2^64 is read as 0, a quantity of 2^64 + 1 as 1, and what comes after the
time is not looked at. -/
theorem accepts_beyond :
    parseIntent "18446744073709551616,7,1,18446744073709551617".toList ⟨9,9,9,9,9⟩ =
      (true,⟨0,7,1,1,0⟩) ∧
    ¬ Says ("18446744073709551616,7,1,18446744073709551617".toList.splitOn ',') ⟨0,7,1,1,0⟩ ∧
    parseIntent "3,7,1,1,5,x".toList ⟨9,9,9,9,9⟩ = (true,⟨3,7,1,1,5⟩) ∧
    ¬ Says ("3,7,1,1,5,x".toList.splitOn ',') ⟨3,7,1,1,5⟩ := by
  refine ⟨rfl,fun h => ?_,rfl,fun h => ?_⟩
  · exact absurd (h.fits.2 _ (List.mem_cons_self ..)) (by decide +kernel)
  · exact absurd h.fits.1 (by decide +kernel)

end Parse
def OrderIntent.printed (o : OrderIntent) : List (List Char) :=
  [Nat.toDigits 10 o.requestId.toNat,Nat.toDigits 10 o.userId.toNat,
    Nat.toDigits 10 o.skuId.toNat,Nat.toDigits 10 o.qty.toNat]

section RoundTrip
variable {out o : OrderIntent}

theorem comma_not_mem (n : Nat) : ',' ∉ Nat.toDigits 10 n := by
  intro h
  exact absurd (isDigit_of_mem h) (by decide)

theorem numeral_toDigits (n : Nat) : Numeral (Nat.toDigits 10 n) :=
  ⟨Nat.toDigits_ne_nil,fun _ hc => isDigit_of_mem hc⟩

theorem splitOn_format (o : OrderIntent) (rest : List Char) :
    (o.format ++ ',' :: rest).splitOn ',' = o.printed ++ rest.splitOn ',' := by
  simp [OrderIntent.format,OrderIntent.printed,
    List.splitOn_append_cons_self_of_not_mem (comma_not_mem _)]

theorem splitOn_format_end (o : OrderIntent) : o.format.splitOn ',' = o.printed := by
  simp [OrderIntent.format,OrderIntent.printed,
    List.splitOn_append_cons_self_of_not_mem (comma_not_mem _),
    List.splitOn_eq_singleton (comma_not_mem _)]

theorem fits_toDigits (n : UInt32) : Numeral (Nat.toDigits 10 n.toNat) ∧
    value (Nat.toDigits 10 n.toNat)%2^64 < 2^32 := by
  have hlt := n.toNat_lt
  rw [value_toDigits]
  exact ⟨numeral_toDigits _,by omega⟩

theorem passing_printed (o : OrderIntent) {rest : List (List Char)}
    (h : ∀ ts ∈ rest.head?, ts = [] ∨ Numeral ts) : Passing (o.printed ++ rest) :=
  ⟨⟨numeral_toDigits _,numeral_toDigits _⟩,fits_toDigits _,fits_toDigits _,h⟩

theorem reading_printed (o : OrderIntent) (rest : List (List Char)) :
    reading (o.printed ++ rest) = { o with tsNs := .ofNat (value (rest.headD [])) } := by
  simp [reading,OrderIntent.printed,value_toDigits]

theorem parseIntent_format (o out : OrderIntent) :
    parseIntent o.format out = (true,{ o with tsNs := 0 }) := by
  have hfields : o.format.splitOn ',' = o.printed ++ [] := by
    rw [splitOn_format_end,List.append_nil]
  have hpass : Passing (o.format.splitOn ',') := hfields ▸ passing_printed o nofun
  rw [parseIntent_passing hpass,hfields,reading_printed]
  rfl

theorem parseIntent_formatTs (o out : OrderIntent) : parseIntent o.formatTs out = (true,o) := by
  have hfields : o.formatTs.splitOn ',' = o.printed ++ [Nat.toDigits 10 o.tsNs.toNat] := by
    rw [OrderIntent.formatTs,splitOn_format,List.splitOn_eq_singleton (comma_not_mem _)]
  have hpass : Passing (o.formatTs.splitOn ',') := by
    rw [hfields]
    refine passing_printed o fun ts h => ?_
    cases h
    exact .inr (numeral_toDigits _)
  rw [parseIntent_passing hpass,hfields,reading_printed,List.headD_cons,value_toDigits,
    UInt64.ofNat_toNat]

/-- An intent reads back from its text, with the time and without. -/
theorem intent_round_trip (o out : OrderIntent) : parseIntent o.formatTs out = (true,o) ∧
    parseIntent o.format out = (true,{ o with tsNs := 0 }) :=
  ⟨parseIntent_formatTs o out,parseIntent_format o out⟩

theorem fetchBatch_accepted (seq : UInt64) (maxMsgs : Nat) (out : OrderIntent) :
    (fetchBatch seq maxMsgs).1.map (parseIntent · out) =
      (List.range maxMsgs).map fun k => (true,mockIntent (seq + UInt64.ofNat k)) := by
  induction maxMsgs generalizing seq with
  | zero => rfl
  | succ maxMsgs ih =>
    have hshift : ∀ k, seq + 1 + UInt64.ofNat k = seq + UInt64.ofNat (k + 1) := fun k => by
      rw [UInt64.ofNat_add,UInt64.add_assoc,UInt64.add_comm 1]
      rfl
    simp [fetchBatch,List.range_succ_eq_map,parseIntent_formatTs,ih,hshift,Function.comp_def]

end RoundTrip
end Flashsale.CoreConsumer
