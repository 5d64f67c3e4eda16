import Yaos.Timer.Lists

/-!
# The due timers

What `run_timer_softirq` takes off the list: the due timers, or the first
ten of them, in order. Their functions are in `funcarr` from the top down,
and `Frame.left` reads from it what is still to be called.
-/

namespace Yaos.Timer

open Yaos.Lib Function

variable {F : Type} {s t : State F} {held l f : List Nat}

/-- What the loop from `funcarr[i - 1]` down to `funcarr[callnr]` calls. -/
def collect (funcarr : Nat → Option (Reg F)) (callnr : Nat) : Nat → List (Reg F)
  | 0 => []
  | i + 1 =>
      if callnr ≤ i then
        match funcarr i with
        | none => []
        | some g => g :: collect funcarr callnr i
      else []

def Frame.left (r : Frame F) : List (Reg F) := collect r.funcarr r.callnr r.i

/-! ## Filling the array -/

/-- The loop over the timers behind `ptr`: `a` is taken, `b` stays. -/
structure Filled (s : State F) (n ptr : Nat) (arr : Nat → Option (Reg F)) (a b : List Nat)
    (c q : Nat) (arr' : Nat → Option (Reg F)) : Prop where
  slots : c + a.length = n
  last : ∃ z, ptr :: a = z ++ [q]
  due : ∀ i ∈ a, (s.node i).deadline ≤ s.msecCount
  stays : c ≠ 0 → ∀ i ∈ b.head?, ¬ (s.node i).deadline < s.msecCount + 1
  array : collect arr' c n = s.regs a
  above : ∀ j, n ≤ j → arr' j = arr j

theorem fill_spec {n ptr : Nat} (arr : Nat → Option (Reg F))
    (hc : Chain s.next (some ptr) (ptr :: l)) :
    ∃ a b, l = a ++ b ∧ Filled s n ptr arr a b (s.fill n ptr arr).1 (s.fill n ptr arr).2.1
      (s.fill n ptr arr).2.2 := by
  induction n generalizing ptr l arr with
  | zero =>
    exact ⟨[], l, rfl, rfl, ⟨[], rfl⟩, by simp, fun h => absurd rfl h, rfl, fun _ _ => rfl⟩
  | succ n ih =>
    rw [State.fill]
    cases l with
    | nil =>
      have hp : s.next ptr = none := hc.tail.nil_eq
      rw [hp]
      dsimp only
      refine ⟨[], [], rfl, rfl, ⟨[], rfl⟩, by simp, by simp, ?_, fun _ _ => rfl⟩
      rw [collect, if_neg (by omega)]
      rfl
    | cons q l =>
      have hp : s.next ptr = some q := hc.tail.head
      rw [hp]
      dsimp only
      by_cases hq : (s.node q).deadline ≤ s.msecCount
      · rw [if_pos hq]
        obtain ⟨a, b, rfl, h⟩ := ih (update arr n (some (s.node q).reg))
          (hp ▸ hc.tail)
        have hslots := h.slots
        obtain ⟨z, hz⟩ := h.last
        refine ⟨q :: a, b, rfl, ?_, ⟨ptr :: z, by rw [hz]; rfl⟩, ?_, h.stays, ?_, fun j hj => ?_⟩
        · rw [List.length_cons]
          omega
        · intro i hi
          rcases List.mem_cons.mp hi with rfl | hi
          · exact hq
          · exact h.due i hi
        · rw [collect, if_pos (by omega), h.above n (Nat.le_refl n), update_self]
          dsimp only
          rw [h.array]
          rfl
        · rw [h.above j (by omega), update_of_ne (by omega)]
      · rw [if_neg hq]
        refine ⟨[], q :: l, rfl, rfl, ⟨[], rfl⟩, by simp, fun _ i hi => ?_, ?_, fun _ _ => rfl⟩
        · cases hi
          omega
        · rw [collect, if_neg (by omega)]
          rfl

/-! ## Taking the batch -/

/-- The batch `a` is taken off the list and `b` stays. -/
structure Taking (s t : State F) (held a b f : List Nat) (r : Frame F) : Prop where
  run : t.run = some r
  lists : Lists t held b (a ++ f)
  relinked : Relinked s t
  left : r.left = s.regs a
  full : r.left.length = r.i - r.callnr
  due : ∀ x ∈ s.regs a, x.deadline ≤ s.msecCount
  stays : r.callnr ≠ 0 → ∀ i ∈ b.head?, ¬ (s.node i).deadline < s.msecCount + 1

/-- The nodes `p :: a`, up to `q`, become free. -/
theorem Lists.recycle {p q : Nat} {a b z : List Nat} (h : Lists s held (p :: a ++ b) f)
    (hz : p :: a = z ++ [q]) (ht : t.next = (s.upd q fun x => { x with pnext := s.pfree }).next)
    (htimer : t.ptimer = s.next q) (hfree : t.pfree = some p) :
    Lists t held b (p :: a ++ f) := by
  have htimer' := h.timer
  have hnodup : (held ++ (z ++ [q] ++ b ++ f)).Nodup := hz ▸ h.nodup
  have hnd := (List.nodup_append.mp hnodup).2.1
  rw [hz, List.append_assoc] at htimer'
  obtain ⟨hseg, hrest⟩ := htimer'.split_at
  have hq : q ∉ z ∧ q ∉ b ∧ q ∉ f := by
    have hperm : (z ++ [q] ++ b ++ f).Perm (q :: (z ++ (b ++ f))) := by
      simp only [List.append_assoc, List.singleton_append]
      exact List.perm_middle
    have hnot := (List.nodup_cons.mp (hperm.nodup_iff.mp hnd)).1
    simpa [not_or] using hnot
  have hother : ∀ i, i ≠ q → t.next i = s.next i := by
    intro i hi
    rw [ht, State.upd_next_ne _ hi]
  have hself : t.next q = s.pfree := by rw [ht, State.upd_next_self]
  refine ⟨?_, ?_, ?_⟩
  · rw [htimer]
    exact hrest.frame fun i hi => hother i (ne_of_mem_of_not_mem hi hq.2.1)
  · rw [hfree, hz, List.append_assoc]
    have hfirst : Seg t.next (some p) z (some q) := by
      have hp : s.ptimer = some p := h.timer.head
      rw [← hp]
      exact hseg.frame fun i hi => hother i (ne_of_mem_of_not_mem hi hq.1)
    refine hfirst.append (.cons ?_)
    rw [hself]
    exact h.pool.frame fun i hi => hother i (ne_of_mem_of_not_mem hi hq.2.2)
  · refine (List.Perm.nodup_iff ?_).mp h.nodup
    refine List.Perm.append_left held ?_
    rw [List.append_assoc, ← List.append_assoc b (p :: a) f]
    rw [← List.append_assoc (p :: a) b f]
    exact List.Perm.append_right f List.perm_append_comm

/-- **`run_timer_softirq`** up to its loop: nothing is due, or a batch is
taken. -/
theorem enter_spec (clock count : Nat) (called : List (Reg F)) (h : Lists s held l f) :
    (enter s clock count called = { s with run := none } ∧
        ∀ i ∈ l.head?, ¬ (s.node i).deadline < s.msecCount + 1) ∨
      ∃ a b r, l = a ++ b ∧ a ≠ [] ∧ Taking s (enter s clock count called) held a b f r ∧
        r.clock = clock ∧ r.count = count ∧ r.called = called := by
  rw [enter]
  cases l with
  | nil =>
    rw [h.timer.nil_eq]
    exact .inl ⟨rfl, by simp⟩
  | cons p l =>
    have hp : s.ptimer = some p := h.timer.head
    rw [hp]
    dsimp only
    split
    next hlt =>
      refine .inl ⟨rfl, fun i hi => ?_⟩
      cases hi
      omega
    next hge =>
      obtain ⟨a, b, rfl, hfill⟩ := fill_spec (s := s) (n := 9)
        (update (fun _ => none) 9 (some (s.node p).reg)) (hp ▸ h.timer)
      generalize s.fill 9 p (update (fun _ => none) 9 (some (s.node p).reg)) = out at hfill
      obtain ⟨c, q, arr⟩ := out
      dsimp only at hfill
      have hslots := hfill.slots
      obtain ⟨z, hz⟩ := hfill.last
      have hleft : collect arr c 10 = s.regs (p :: a) := by
        rw [collect, if_pos (by omega), hfill.above 9 (Nat.le_refl 9), update_self]
        dsimp only
        rw [hfill.array]
        rfl
      refine .inr ⟨p :: a, b, ⟨arr, c, 10, clock, count, called⟩, rfl, by simp, ?_, rfl, rfl, rfl⟩
      refine ⟨rfl, h.recycle hz rfl rfl rfl, ?_, hleft, ?_, ?_, hfill.stays⟩
      · exact ⟨fun j => s.upd_pnext_reg q j s.pfree, rfl, rfl, rfl⟩
      · have hlen : (collect arr c 10).length = (p :: a).length := by
          rw [hleft, State.regs, List.length_map]
        show (collect arr c 10).length = 10 - c
        rw [hlen, List.length_cons]
        omega
      · intro x hx
        rcases List.mem_cons.mp hx with rfl | hx
        · exact Nat.le_of_not_lt hge
        · obtain ⟨i, hi, rfl⟩ := List.mem_map.mp hx
          exact hfill.due i hi

end Yaos.Timer
