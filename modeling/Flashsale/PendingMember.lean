import Flashsale.Quantity
import Flashsale.Scan
set_option autoImplicit false

namespace Flashsale.Cache
open Strconv Fmt

/-- `fmt.Sscanf(member,"%d:%d:%d:%d",&sku,&user,&qty,&reqID)`; an `int` has 64 bits, and what
follows the last number is not looked at. -/
def scanMember (member : List Char) : Except ScanError Member := do
  let (sku,s) ← scanInt member
  let s ← literal ':' s
  let (user,s) ← scanUint s
  let s ← literal ':' s
  let (qty,s) ← scanInt s
  let s ← literal ':' s
  let (reqID,_) ← scanUint s
  return { skuId := sku, userId := user, qty := qty, reqId := reqID }

theorem scanMember_text (m : Member) : scanMember m.text = .ok m := by
  have hcolon : ∀ rest, Ends (':' :: rest) := fun rest => ends_cons rfl
  have hlast := scanUint_format m.reqId ends_nil
  rw [List.append_nil] at hlast
  simp only [scanMember,Member.text,scanInt_format _ (hcolon _),scanUint_format _ (hcolon _),
    literal_cons,hlast,bind,Except.bind,pure,Except.pure]

/-- A member is read back from its text, no two have one text, and the text of what the
sweeper reads is the member it found. -/
theorem member_lossless : (∀ m : Member, scanMember m.text = .ok m) ∧
    (∀ m m' : Member, m ≠ m' → m.text ≠ m'.text) ∧
    ∀ m m' : Member, scanMember m.text = .ok m' → m'.text = m.text := by
  refine ⟨scanMember_text,fun m m' hne heq => hne (Member.text_injective heq),fun m m' h => ?_⟩
  rw [scanMember_text] at h
  cases h
  rfl

def leastMember : Member := ⟨-9223372036854775808,18446744073709551615,-1,0⟩

theorem member_lossless_least : scanMember leastMember.text = .ok leastMember ∧
    leastMember.text ≠ Member.text { leastMember with qty := 1 } :=
  ⟨member_lossless.1 _,member_lossless.2.1 _ _ (by decide)⟩

end Flashsale.Cache
