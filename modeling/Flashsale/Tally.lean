import Flashsale.Sources
set_option autoImplicit false

namespace Flashsale.Engine
open Transition
variable {κ : Type}

def Won (e : State κ) (c : κ) (k : Nat) : Prop :=
  ∃ i, ((e.shards i).queue.pc (.client .once c k)).enqueued.isSome

instance (e : State κ) (c : κ) (k : Nat) : Decidable (Won e c k) :=
  inferInstanceAs (Decidable (∃ _, _))

/-- The tickets won by the first `m` attempts of call `c`. -/
def wins (e : State κ) (c : κ) (m : Nat) : Nat := (List.range m).countP fun k => Won e c k

def Untouched (e : State κ) (c : κ) (m : Nat) : Prop :=
  ∀ i k, m ≤ k → (e.shards i).queue.pc (.client .once c k) = .idle

/-- What a call has counted, at each of its program points. -/
def Tally (e : State κ) (c : κ) : Call → Prop
  | .enqueue p =>
      if p.purpose = .once then p.enqueued = wins e c p.tries ∧ Untouched e c p.tries
      else Untouched e c 0
  | .enqueuing p =>
      if p.purpose = .once then
        p.enqueued = wins e c p.tries ∧ Untouched e c (p.tries + 1) ∧
          ∀ x ∈ p.todo.head?, ∀ j, j ≠ x.1 →
            (e.shards j).queue.pc (.client .once c p.tries) = .idle
      else Untouched e c 0
  | .count p =>
      if p.purpose = .once then
        p.enqueued = wins e c p.tries ∧ Untouched e c (p.tries + 1) ∧ Won e c p.tries
      else Untouched e c 0
  | .ret n => ∃ m, Untouched e c m ∧ (n = wins e c m ∨ m = 0 ∧ n = 2)
  | _ => Untouched e c 0

section Attempts
variable {e e' : State κ} {c : κ} {m k : Nat} {p : Call}

theorem Untouched.not_won (h : Untouched e c m) (hk : m ≤ k) : ¬ Won e c k := by
  rintro ⟨i,hi⟩
  rw [h i k hk] at hi
  cases hi

theorem wins_zero : wins e c 0 = 0 := rfl

theorem wins_succ : wins e c (m + 1) = wins e c m + if Won e c m then 1 else 0 := by
  simp [wins,List.range_succ,List.countP_append,List.countP_singleton]

theorem wins_congr
    (h : ∀ i k, k < m → (e'.shards i).queue.pc (.client .once c k) =
      (e.shards i).queue.pc (.client .once c k)) : wins e' c m = wins e c m := by
  refine List.countP_congr fun k hk => ?_
  simp only [decide_eq_true_eq]
  exact exists_congr fun i => by rw [h i k (List.mem_range.mp hk)]

theorem Tally.congr (h : Tally e c p)
    (hpc : ∀ i k, (e'.shards i).queue.pc (.client .once c k) =
      (e.shards i).queue.pc (.client .once c k)) : Tally e' c p := by
  have hun : ∀ m, Untouched e' c m ↔ Untouched e c m := fun m => by simp only [Untouched,hpc]
  have hwins : ∀ m, wins e' c m = wins e c m := fun m => wins_congr fun i k _ => hpc i k
  have hwon : ∀ k, Won e' c k ↔ Won e c k := fun k => by simp only [Won,hpc]
  cases p <;> simpa only [Tally,hun,hwins,hwon,hpc] using h

theorem Tally.of_untouched {n : Nat} (h : Untouched e c 0) (hn : n = 0 ∨ n = 2) :
    Tally e c (.ret n) := by
  refine ⟨0,h,?_⟩
  rcases hn with rfl | rfl
  · exact .inl wins_zero.symm
  · exact .inr ⟨rfl,rfl⟩

theorem Tally.begin {q : Push} (h : Untouched e c 0) (hq : q.purpose = .once → q.tries = 0 ∧ q.enqueued = 0) :
    Tally e c (.enqueue q) := by
  by_cases hp : q.purpose = .once
  · obtain ⟨ht,hn⟩ := hq hp
    simp [Tally,hp,ht,hn,wins_zero,h]
  · simp [Tally,hp,h]

theorem pc_of_caller {i : ShardId} {p : Push} {q : MpmcQueue.State Nat Request (Caller κ)}
    (hq : ∀ c', c' ≠ p.caller c → q.pc c' = (e.shards i).queue.pc c') {j : ShardId} {k : Nat}
    (hne : p.purpose ≠ .once ∨ k ≠ p.tries ∨ j ≠ i) :
    ((e.setShard i { e.shards i with queue := q }).shards j).queue.pc (.client .once c k) =
      (e.shards j).queue.pc (.client .once c k) := by
  by_cases hj : j = i
  · subst hj
    rw [State.setShard_shards_self]
    refine hq _ fun he => ?_
    simp only [Push.caller,Caller.client.injEq] at he
    rcases hne with hne | hne | hne
    · exact hne he.1.symm
    · exact hne he.2.2
    · exact hne rfl
  · rw [State.setShard_shards_of_ne hj]

theorem Tally.attempt {i : ShardId} {req : Request} {rest : List (ShardId × Request)} {p : Push}
    {q : MpmcQueue.State Nat Request (Caller κ)} (htodo : p.todo = (i,req) :: rest)
    (hq : ∀ c', c' ≠ p.caller c → q.pc c' = (e.shards i).queue.pc c')
    (h : Tally e c (.enqueue p) ∨ Tally e c (.enqueuing p)) :
    Tally (e.setShard i { e.shards i with queue := q }) c (.enqueuing p) := by
  have hframe := fun {j k} => pc_of_caller (e := e) (c := c) hq (j := j) (k := k)
  by_cases hp : p.purpose = .once
  · have hbefore : p.enqueued = wins e c p.tries ∧ Untouched e c (p.tries + 1) ∧
        ∀ j, j ≠ i → (e.shards j).queue.pc (.client .once c p.tries) = .idle := by
      rcases h with h | h
      · simp only [Tally,hp,if_true] at h
        exact ⟨h.1,fun j k hk => h.2 j k (by omega),fun j _ => h.2 j _ (le_refl _)⟩
      · simp only [Tally,hp,if_true] at h
        exact ⟨h.1,h.2.1,h.2.2 (i,req) (by simp [htodo])⟩
    obtain ⟨hn,hun,hother⟩ := hbefore
    simp only [Tally,hp,if_true]
    refine ⟨hn.trans (wins_congr fun j k hk => hframe (.inr (.inl (by omega)))).symm,
      fun j k hk => ?_,fun x hx j hj => ?_⟩
    · rw [hframe (.inr (.inl (by omega)))]
      exact hun j k hk
    · obtain rfl : (i,req) = x := by simpa [htodo] using hx
      rw [hframe (.inr (.inr hj))]
      exact hother j hj
  · have hun : Untouched e c 0 := by
      rcases h with h | h <;> simpa [Tally,hp] using h
    simp only [Tally,hp,if_false]
    intro j k hk
    rw [hframe (.inl hp)]
    exact hun j k hk

end Attempts

section Steps
variable [DecidableEq κ] {e e' : State κ} {a : Act κ} {c : κ} {now : Int64} {spurious : Bool}

theorem ShardStep.other_pc {i : ShardId} {s' : Shard κ} (hs : ShardStep e i a s')
    (ha : ∀ now spurious, a ≠ .client c now spurious) (purpose : Purpose) (k : Nat) :
    s'.queue.pc (.client purpose c k) = (e.shards i).queue.pc (.client purpose c k) := by
  have hne : ∀ {c' : κ} {p : Push} {now : Int64} {spurious : Bool},
      a = .client c' now spurious → Caller.client purpose c k ≠ p.caller c' := by
    rintro c' p now spurious rfl he
    simp only [Push.caller,Caller.client.injEq] at he
    exact ha now spurious (by rw [he.2.1])
  cases hs with
  | enqueue _ _ hc' ht hn =>
    obtain ⟨-,rfl⟩ := MpmcQueue.State.call_eq hn
    exact MpmcQueue.State.goto_pc_of_ne (hne rfl)
  | attempt _ _ hc' ht hn => exact MpmcQueue.State.step_pc_of_ne hn (hne rfl)
  | call _ _ _ _ _ hn =>
    obtain ⟨-,rfl⟩ := MpmcQueue.State.call_eq hn
    exact MpmcQueue.State.goto_pc_of_ne (by simp)
  | dequeue _ _ _ _ hn => exact MpmcQueue.State.step_pc_of_ne hn (by simp)
  | _ => rfl

theorem State.next_other_pc (hn : e.next a = some e')
    (ha : ∀ now spurious, a ≠ .client c now spurious) (i : ShardId) (purpose : Purpose) (k : Nat) :
    (e'.shards i).queue.pc (.client purpose c k) = (e.shards i).queue.pc (.client purpose c k) := by
  rcases State.next_shard hn i with hs | hs
  · rw [hs]
  · exact hs.other_pc ha purpose k

theorem ClientStep.tally (h : ClientStep e c now spurious e') (ht : Tally e c (e.calls c)) :
    Tally e' c (e'.calls c) := by
  -- a step that only moves the call
  have hset : ∀ {x : State κ} {p : Call}, x.shards = e.shards → Tally e c p →
      Tally (x.setCall c p) c ((x.setCall c p).calls c) := by
    intro x p hx hp
    rw [State.setCall_calls_self]
    exact hp.congr fun i k => by simp [State.setCall,hx]
  cases h with
  | requestTest pc | batchTest pc | warmUpTest pc =>
    rw [pc] at ht
    refine hset rfl ?_
    split <;> first
      | exact ht
      | exact .begin ht (by simp)
      | exact .of_untouched ht (.inl rfl)
  | soldOut pc flag =>
    rw [pc] at ht
    exact hset rfl (.of_untouched ht (.inr rfl))
  | available pc flag =>
    rw [pc] at ht
    exact hset rfl (.begin ht (by simp))
  | @finish p pc todo =>
    rw [pc] at ht
    refine hset rfl ?_
    cases hp : p.purpose with
    | once =>
      simp only [Tally,hp,if_true] at ht
      simp only [Push.done,hp]
      exact ⟨p.tries,ht.2,.inl ht.1⟩
    | warmUp | barrier => simpa [Tally,hp,Push.done] using ht
  | @attempt p i req rest q pc todo next =>
    rw [pc] at ht
    obtain ⟨-,rfl⟩ := MpmcQueue.State.call_eq next
    rw [State.setCall_calls_self]
    exact (Tally.attempt todo (fun c' hc => MpmcQueue.State.goto_pc_of_ne hc) (.inl ht)).congr
      fun _ _ => rfl
  | @access p i req rest q pc todo next =>
    change Tally _ c (e.calls c)
    rw [pc] at ht ⊢
    exact Tally.attempt todo (fun c' hc => MpmcQueue.State.step_pc_of_ne next hc) (.inr ht)
  | @accepted p i req data rest t pc todo ret =>
    rw [pc] at ht
    refine hset rfl ?_
    by_cases hp : p.purpose = .once
    · simp only [Tally,hp,if_true] at ht ⊢
      refine ⟨ht.1,ht.2.1,i,?_⟩
      rw [Push.caller,hp] at ret
      rw [ret]
      rfl
    · simpa [Tally,hp,Push.after] using ht
  | @full p i req data rest pc todo ret =>
    rw [pc] at ht
    refine hset rfl ?_
    by_cases hp : p.purpose = .once
    · simp only [Tally,hp,if_true] at ht
      obtain ⟨hn,hun,hother⟩ := ht
      have hlost : ¬ Won e c p.tries := by
        rintro ⟨j,hj⟩
        by_cases hji : j = i
        · subst hji
          rw [Push.caller,hp] at ret
          rw [ret] at hj
          cases hj
        · rw [hother (i,req) (by simp [todo]) j hji] at hj
          cases hj
      simp only [Tally,Push.after,hp,if_true]
      exact ⟨by rw [wins_succ,if_neg hlost]; simpa using hn,hun⟩
    · simpa [Tally,hp,Push.after] using ht
  | @count p pc =>
    rw [pc] at ht
    refine hset rfl ?_
    by_cases hp : p.purpose = .once
    · simp only [Tally,hp,if_true] at ht
      obtain ⟨hn,hun,hwon⟩ := ht
      simp only [Tally,Push.after,hp,if_true]
      exact ⟨by rw [wins_succ,if_pos hwon,hn],hun⟩
    · simpa [Tally,hp,Push.after] using ht
  | reentered pc inside =>
    rw [pc] at ht
    exact hset rfl (.of_untouched ht (.inl rfl))
  | reset pc =>
    rw [pc] at ht
    exact hset rfl (.begin ht fun hp => by cases hp)
  | leave pc =>
    rw [pc] at ht
    exact hset rfl (.of_untouched ht (.inl rfl))
  | poll pc next => exact ht.congr fun _ _ => rfl
  | enter pc | reached pc | waiting pc | stillRunning pc | stopped pc | polled pc =>
    rw [pc] at ht
    exact hset rfl ht

theorem State.start_tally {f : Api} (hs : e.start c f = some e') (h : Untouched e' c 0) :
    Tally e' c (e'.calls c) := by
  unfold State.start at hs
  split at hs
  · cases f with
    | pollResult =>
      obtain ⟨q,-,rfl⟩ := Option.map_eq_some_iff.mp hs
      rw [State.setCall_calls_self]
      exact h
    | _ =>
      cases hs
      rw [State.setCall_calls_self]
      exact h
  · cases hs

theorem State.next_tally (h : Clients (fun _ => True) e) (ht : Tally e c (e.calls c))
    (hn : e.next a = some e') : Tally e' c (e'.calls c) := by
  by_cases hown : ∃ now spurious, a = .client c now spurious
  · obtain ⟨now,spurious,rfl⟩ := hown
    exact (State.client_cases hn).tally ht
  have hframe := State.next_other_pc hn fun now spurious ha => hown ⟨now,spurious,ha⟩
  rcases State.next_calls hn c with he | ⟨f,-,hidle,hs⟩ | ⟨now,spurious,ha,-⟩
  · rw [he]
    exact ht.congr fun i k => hframe i .once k
  · refine State.start_tally hs fun i k _ => ?_
    rw [hframe]
    exact h.fresh c hidle i .once k
  · exact absurd ⟨now,spurious,ha⟩ hown

theorem reachable_tally (h : system.Reachable e) (c : κ) : Tally e c (e.calls c) := by
  obtain ⟨s₀,as,hi,hr⟩ := h
  refine (hr.invariant (I := fun e => Clients (fun _ => True) e ∧ ∀ c, Tally e c (e.calls c))
    (fun e a e' h hn => ⟨h.1.next (fun _ _ => trivial) hn,fun c => State.next_tally h.1 (h.2 c) hn⟩)
    ?_).2 c
  obtain ⟨_,_,_,_,rfl⟩ := hi
  exact ⟨initEngine_clients _ _ _ _,fun c _ _ _ => rfl⟩

end Steps

section Single
variable {e : State κ} {B : κ → List Payload} {c : κ} {r : Payload} {k : Nat}

theorem Fifo.won_iff (hf : ∀ i, Fifo (e.shards i)) :
    Won e c k ↔ ∃ i req, (.client .once c k,req) ∈ (e.shards i).queue.tickets :=
  exists_congr fun i => (hf i).ingress.enqueued_iff

theorem Sourced.of_won (h : Sourced B e) (hw : Won e c k) : k < (B c).length := by
  obtain ⟨i,hi⟩ := hw
  obtain ⟨⟨pos,data⟩,hp⟩ := Option.isSome_iff_exists.mp hi
  exact (List.getElem?_eq_some_iff.mp
    (h.queues i _ _ (MpmcQueue.Pc.item_of_enqueued hp) c k rfl)).1

/-- `EnqueueRequest` returns 1 exactly if its request was accepted. -/
theorem Tally.single (h : Sourced B e) (hB : B c = [r]) {n : Nat} (ht : Tally e c (.ret n)) :
    n = 1 ↔ Won e c 0 := by
  obtain ⟨m,hun,hn⟩ := ht
  have honly : ∀ k, Won e c k → k = 0 := by
    intro k hw
    have := h.of_won hw
    rw [hB,List.length_singleton] at this
    omega
  rcases hn with hn | ⟨rfl,rfl⟩
  · cases m with
    | zero =>
      rw [hn,wins_zero]
      exact iff_of_false (by omega) (hun.not_won (le_refl 0))
    | succ m =>
      have hrest : ∀ m, wins e c (m + 1) = if Won e c 0 then 1 else 0 := by
        intro m
        induction m with
        | zero => rw [wins_succ,wins_zero,Nat.zero_add]
        | succ m ih =>
          have hno : ¬ Won e c (m + 1) := fun hw => absurd (honly _ hw) (by omega)
          rw [wins_succ,ih,if_neg hno,Nat.add_zero]
      rw [hn,hrest]
      split <;> simp_all
  · exact iff_of_false (by omega) (hun.not_won (le_refl 0))

end Single
end Flashsale.Engine
