import Yaos.Virtio.Delivery
import Yaos.VirtioNet.Model

/-!
# The queues under the driver

`Vq` says what the driver relies on. A queue of `virtio.c` is one: as long as
its calls find a free descriptor (`Event.Admitted`), whatever happens to it is
what may happen to the `Vq` that its books stand for.
-/

namespace Yaos.VirtioNet

open Yaos.Lib Yaos.Virtio

/-- The books of a queue of the device stand for `q`; `ptr` is the address that
the driver submits for a packet. -/
structure Stands (ptr : Pkt → Nat) (b : Books) (q : Vq) : Prop where
  submitted : b.flight.map Prod.snd = q.submitted.map fun r => ptr r.cookie
  returned : b.unreturned.map Entry.answer = q.returned.map fun e => (ptr e.1, e.2)

/-- What an event at queue `k` does to the `Vq`. -/
def Vq.Moves (ptr : Pkt → Nat) (k : Nat) (q : Vq) (e : Virtio.Event) (q' : Vq) : Prop :=
  match e with
  | .submit j bufs data => if j = k then ∃ p, data = ptr p ∧ q' = q.toQueue bufs p else q' = q
  | .complete j _ _ _ => if j = k then q.Completes q' else q' = q
  | .poll j => if j = k then q' = q.fromQueue.elim q Prod.snd else q' = q

variable {ptr : Pkt → Nat} {w w' w₀ : Ledger} {k : Nat} {q : Vq} {b : Books}

theorem Stands.complete {head data : Nat} (h : Stands ptr b q) (len : Nat)
    (hle : b.returned.length ≤ b.published.length) (hmem : (head, data) ∈ b.flight) :
    ∃ q', q.Completes q' ∧ Stands ptr
      ⟨b.flight.erase (head, data), b.published ++ [⟨head, data, len⟩], b.returned⟩ q' := by
  obtain ⟨l, r, -, hflight, herase⟩ := List.exists_erase_eq hmem
  have hsub := h.submitted
  rw [hflight, List.map_append, List.map_cons] at hsub
  obtain ⟨a, c, hq, ha, hc⟩ := List.append_eq_map_iff.mp hsub
  obtain ⟨x, d, rfl, hx, hd⟩ := List.map_eq_cons_iff.mp hc
  refine ⟨_, ⟨a, x, d, len, hq, rfl⟩, ?_, ?_⟩
  · rw [herase, List.map_append, List.map_append, ha, hd]
  · rw [Books.unreturned_publish _ _ hle, List.map_append, List.map_append, h.returned]
    simp [Entry.answer, hx]

theorem Stands.poll (h : Stands ptr (w.books k) q) (hkept : Kept w) (hk : k < w.dev.numQueues)
    (ha : (Virtio.Event.poll k).Admitted w) :
    ∃ dev', virtioFromQueue w.dev k =
      .ok (q.fromQueue.map fun x => (ptr x.1.1, x.1.2), dev') := by
  obtain ⟨dev', hexact⟩ := (hkept.exact_iff hk).mpr ha
  refine ⟨dev', hexact.trans ?_⟩
  rw [← List.head?_map, h.returned, Vq.fromQueue]
  cases q.returned with
  | nil => rfl
  | cons e l => rfl

/-- **Every step of a queue** that is admitted is a step of the `Vq`. -/
theorem Stands.step {e : Virtio.Event} (h : Stands ptr (w.books k) q) (hkept : Kept w)
    (ha : e.Admitted w) (hs : Virtio.Happens w e w')
    (hptr : ∀ bufs data, e = .submit k bufs data → ∃ p, data = ptr p) :
    ∃ q', q.Moves ptr k e q' ∧ Stands ptr (w'.books k) q' := by
  have hother : ∀ {j : Nat} {b' : Books}, j ≠ k →
      Stands ptr (Function.update w.books j b' k) q := fun hj => by
    rw [Function.update_of_ne (Ne.symm hj)]
    exact h
  cases e with
  | submit j bufs data =>
    obtain ⟨-, -, -, dev', -, rfl⟩ := hs
    by_cases hj : j = k
    · subst hj
      obtain ⟨p, rfl⟩ := hptr bufs data rfl
      refine ⟨q.toQueue bufs p, (if_pos rfl).mpr ⟨p, rfl, rfl⟩, ?_⟩
      dsimp only
      rw [Function.update_self]
      exact ⟨by simp [Vq.toQueue, h.submitted], h.returned⟩
    · exact ⟨q, (if_neg hj).mpr rfl, hother hj⟩
  | complete j head data len =>
    obtain ⟨hk, hmem, rfl⟩ := hs
    by_cases hj : j = k
    · subst hj
      obtain ⟨q', hq', hstands⟩ :=
        h.complete len (Books.returned_le (hkept.agrees j hk).returned) hmem
      refine ⟨q', (if_pos rfl).mpr hq', ?_⟩
      dsimp only
      rw [Function.update_self]
      exact hstands
    · exact ⟨q, (if_neg hj).mpr rfl, hother hj⟩
  | poll j =>
    obtain ⟨hk, r, dev', hcall, rfl⟩ := hs
    by_cases hj : j = k
    · subst hj
      refine ⟨_, (if_pos rfl).mpr rfl, ?_⟩
      obtain ⟨_, hanswer⟩ := h.poll hkept hk ha
      cases hcall.symm.trans hanswer
      have hret := h.returned
      dsimp only
      rw [Function.update_self, Vq.fromQueue]
      cases hq : q.returned with
      | nil =>
        rw [hq] at hret
        exact ⟨h.submitted, by simpa [hq, Books.unreturned] using hret⟩
      | cons x l =>
        rw [hq] at hret
        refine ⟨h.submitted, ?_⟩
        dsimp only [Option.map_some, Option.toList_some, Option.elim_some]
        rw [Books.unreturned_return, List.map_tail, hret]
        rfl
    · exact ⟨q, (if_neg hj).mpr rfl, hother hj⟩

/-- **The queues of the device are queues as the driver relies on them**: along
every run in which only packets are submitted to queue `k` and calls find a
free descriptor, its books stand for a `Vq`. -/
theorem queue_stands {tr : List (Taken Ledger Virtio.Event)} (hf : Virtio.Fresh w₀)
    (h : Trace Virtio.Happens w₀ tr w) (hadm : ∀ x ∈ tr, x.label.Admitted x.pre)
    (hptr : ∀ x ∈ tr, ∀ bufs data, x.label = .submit k bufs data → ∃ p, data = ptr p) :
    ∃ q, Stands ptr (w.books k) q := by
  have h₀ : Kept w₀ ∧ ∃ q, Stands ptr (w₀.books k) q :=
    ⟨hf.kept, ⟨[], []⟩, by rw [hf.books k]; exact ⟨rfl, rfl⟩⟩
  exact (h.invariant (fun w => Kept w ∧ ∃ q, Stands ptr (w.books k) q)
    (fun w e => e.Admitted w ∧ ∀ bufs data, e = .submit k bufs data → ∃ p, data = ptr p)
    (fun hi hg hs => ⟨hi.1.step hg.1 hs, by
      obtain ⟨q, hq⟩ := hi.2
      obtain ⟨q', -, hq'⟩ := hq.step hi.1 hg.1 hs hg.2
      exact ⟨q', hq'⟩⟩) h₀ fun x hx => ⟨hadm x hx, hptr x hx⟩).1.2

end Yaos.VirtioNet
