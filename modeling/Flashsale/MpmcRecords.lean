import Flashsale.MpmcFrame
import Flashsale.MpmcSafety
set_option autoImplicit false

namespace Flashsale.MpmcQueue
open SizeT
variable {W T ι : Type} [SizeT W] {n : Nat} {q q' : State W T ι} {c : ι}

theorem Inv.enqueued_iff (h : Inv n q) :
    (q.pc c).enqueued.isSome ↔ ∃ data, (c,data) ∈ q.tickets := by
  constructor
  · intro hs
    obtain ⟨⟨pos,data⟩,hp⟩ := Option.isSome_iff_exists.mp hs
    exact ⟨data,List.mem_of_getElem? (h.recorded_enqueue hp)⟩
  · rintro ⟨data,hm⟩
    obtain ⟨t,ht⟩ := List.mem_iff_getElem?.mp hm
    obtain ⟨pos,hp,-⟩ := h.winner t c data ht
    simp [hp]

theorem Inv.mem_tickets_iff (h : Inv n q) :
    c ∈ q.tickets.map Prod.fst ↔ (q.pc c).enqueued.isSome := by
  rw [h.enqueued_iff]
  simp

theorem Inv.ticket_unique (h : Inv n q) {t u : Nat} {x y : T} (ht : q.tickets[t]? = some (c,x))
    (hu : q.tickets[u]? = some (c,y)) : t = u := by
  obtain ⟨pos,hp,rfl⟩ := h.winner t c x ht
  obtain ⟨pos',hp',rfl⟩ := h.winner u c y hu
  rw [hp] at hp'
  cases hp'
  rfl

theorem Inv.tickets_nodup (h : Inv n q) : (q.tickets.map Prod.fst).Nodup := by
  rw [List.Nodup,List.pairwise_map,List.pairwise_iff_getElem]
  intro t u ht hu hlt he
  have hx : q.tickets[t]? = some (q.tickets[t].1,q.tickets[t].2) := List.getElem?_eq_getElem ht
  have hy : q.tickets[u]? = some (q.tickets[t].1,q.tickets[u].2) := by
    rw [he]
    exact List.getElem?_eq_getElem hu
  have := h.ticket_unique hx hy
  omega

theorem Inv.fresh_of_won {data : T} (h : Inv n q') (ht : q'.tickets = q.tickets ++ [(c,data)]) :
    c ∉ q.tickets.map Prod.fst := by
  have hnodup := h.tickets_nodup
  rw [ht,List.map_append,List.nodup_append] at hnodup
  intro hc
  exact hnodup.2.2 c hc c (by simp) rfl

/-- The call that took a ticket holds it. -/
def Takers (q : State W T ι) : Prop :=
  ∀ t c, q.takers[t]? = some c → ∃ pos, (q.pc c).dequeued = some pos ∧ val pos = t

theorem Takers.unique (h : Takers q) {t u : Nat} (ht : q.takers[t]? = some c)
    (hu : q.takers[u]? = some c) : t = u := by
  obtain ⟨pos,hp,rfl⟩ := h t c ht
  obtain ⟨pos',hp',rfl⟩ := h u c hu
  rw [hp] at hp'
  cases hp'
  rfl

theorem Takers.nodup (h : Takers q) : q.takers.Nodup := by
  rw [List.Nodup,List.pairwise_iff_getElem]
  intro t u ht hu hlt he
  have := h.unique (List.getElem?_eq_getElem ht) (he ▸ List.getElem?_eq_getElem hu)
  omega

variable [DecidableEq ι] [DecidableEq W]

theorem Takers.next {a : Act T ι} (h : Takers q) (hi : Inv n q) (hn : q.next a = some q') :
    Takers q' := by
  intro t c' ht
  cases a with
  | enqueue c data | dequeue c =>
    obtain ⟨hidle,rfl⟩ := State.call_eq hn
    obtain ⟨pos,hp,he⟩ := h t c' ht
    have hne : c' ≠ c := by
      rintro rfl
      rw [hidle] at hp
      cases hp
    exact ⟨pos,by rw [State.goto_pc_of_ne hne]; exact hp,he⟩
  | step c spurious =>
    have hkeep : ∀ {t}, q.takers[t]? = some c' → ((q'.pc c).dequeued = (q.pc c).dequeued ∨ c' ≠ c) →
        ∃ pos, (q'.pc c').dequeued = some pos ∧ val pos = t := by
      intro t ht hc
      obtain ⟨pos,hp,he⟩ := h t c' ht
      refine ⟨pos,?_,he⟩
      by_cases hcc : c' = c
      · subst hcc
        exact (hc.resolve_right (fun hne => hne rfl)).trans hp
      · rw [State.step_pc_of_ne hn hcc]
        exact hp
    obtain ⟨-,-,heff⟩ := State.step_effect hn
    cases heff with
    | quiet htk htr hd => exact hkeep (htr ▸ ht) (.inl hd)
    | won data hitem htk htr =>
      refine hkeep (htr ▸ ht) (.inr ?_)
      rintro rfl
      obtain ⟨pos,hp,-⟩ := h t c' (htr ▸ ht)
      cases hpc : q.pc c' <;> simp_all [Pc.item,Pc.dequeued]
    | took hdeq hbefore hafter htk htr =>
      rw [htr] at ht
      rcases lt_or_ge t q.takers.length with hlt | hge
      · rw [List.getElem?_append_left hlt] at ht
        refine hkeep ht (.inr ?_)
        rintro rfl
        obtain ⟨pos,hp,-⟩ := h t c' ht
        rw [hbefore] at hp
        cases hp
      · obtain ⟨hlt,he⟩ := List.getElem?_eq_some_iff.mp ht
        simp only [List.length_append,List.length_singleton] at hlt
        obtain rfl : t = q.takers.length := by omega
        obtain rfl : c = c' := by simpa using he
        exact ⟨_,hafter,hi.dequeuePos⟩

end Flashsale.MpmcQueue
