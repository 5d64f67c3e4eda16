import Yaos.Virtio.History

/-!
# What polling returns

The books of a queue are kept from the outside: the requests offered to
the device with the caller's pointer, the used elements the device has
published, and what `virtio_from_queue` has returned.

`virtio_from_queue` compares ring positions, so a used ring that has been
filled once round looks empty to it. With `num` elements published and not
returned all descriptors are in flight; the condition for an exact answer
is the one on free descriptors, and it is needed at every poll that has
something to return.
-/

namespace Yaos.Virtio

open Yaos.Lib Function

/-- A published used element, with the pointer its request was submitted
with. -/
structure Entry where
  head : Nat
  data : Nat
  len : Nat

def Entry.answer (e : Entry) : Nat × Nat := (e.data, e.len)

/-- The books of a queue: requests in flight by head and pointer. -/
structure Books where
  flight : List (Nat × Nat)
  published : List Entry
  returned : List (Nat × Nat)

def Books.unreturned (b : Books) : List Entry := b.published.drop b.returned.length

structure Ledger where
  dev : Device
  books : Nat → Books

inductive Event where
  | submit (k : Nat) (bufs : List AddrSize) (data : Nat)
  | complete (k head data len : Nat)
  | poll (k : Nat)

/-- The head that a submission puts into the available ring. -/
def offered (dev dev' : Device) (k : Nat) : Nat :=
  (dev'.queues k).availRing ((dev.queues k).availIdx % (dev.queues k).num)

/-- One step: a call that returned, or the device publishes a request that
is in flight. -/
def Happens (w : Ledger) (e : Event) (w' : Ledger) : Prop :=
  match e with
  | .submit k bufs data => k < w.dev.numQueues ∧ bufs ≠ [] ∧ data ≠ 0 ∧
      ∃ dev', virtioToQueue w.dev k bufs data = .ok dev' ∧
        w' = ⟨dev', update w.books k { w.books k with
          flight := (w.books k).flight ++ [(offered w.dev dev' k, data)] }⟩
  | .complete k head data len => k < w.dev.numQueues ∧ (head, data) ∈ (w.books k).flight ∧
      w' = ⟨{ w.dev with
          queues := update w.dev.queues k ((w.dev.queues k).complete head len) },
        update w.books k { w.books k with
          flight := (w.books k).flight.erase (head, data)
          published := (w.books k).published ++ [⟨head, data, len⟩] }⟩
  | .poll k => k < w.dev.numQueues ∧ ∃ r dev', virtioFromQueue w.dev k = .ok (r, dev') ∧
      w' = ⟨dev', update w.books k { w.books k with
        returned := (w.books k).returned ++ r.toList }⟩

/-- What `virtio_from_queue` should do: return the first element that was
published and not returned, and `-1` only if there is none. -/
def Exact (w : Ledger) (k : Nat) : Prop :=
  ∃ dev', virtioFromQueue w.dev k = .ok ((w.books k).unreturned.head?.map Entry.answer, dev')

/-- There is a free descriptor whenever a request is submitted or returned. -/
def Event.Admitted (w : Ledger) : Event → Prop
  | .submit k bufs _ => (w.dev.queues k).Takes bufs
  | .complete _ _ _ _ => True
  | .poll k => (w.books k).unreturned = [] ∨ 0 < (w.dev.queues k).freeNum

/-! ## What the calls do to `data` and the used ring -/

section Frames

variable {dev dev' : Device} {k : Nat}

/-- A submission keeps the pointer under the head that it offers. -/
structure Submitted (q q' : Queue) (data : Nat) : Prop where
  data : q'.data = update q.data q.freeHead data
  offered : q'.availRing (q.availIdx % q.num) = q.freeHead
  usedRing : q'.usedRing = q.usedRing
  lastUsed : q'.lastUsed = q.lastUsed
  num : q'.num = q.num

/-- The fields that neither submitting nor walking changes. -/
structure SameBooks (q q' : Queue) : Prop where
  data : q'.data = q.data
  availRing : q'.availRing = q.availRing
  availIdx : q'.availIdx = q.availIdx
  usedRing : q'.usedRing = q.usedRing
  lastUsed : q'.lastUsed = q.lastUsed
  num : q'.num = q.num

theorem SameBooks.refl (q : Queue) : SameBooks q q := ⟨rfl, rfl, rfl, rfl, rfl, rfl⟩

theorem SameBooks.trans {q q' q'' : Queue} (h : SameBooks q q') (h' : SameBooks q' q'') :
    SameBooks q q'' :=
  ⟨h'.data.trans h.data, h'.availRing.trans h.availRing, h'.availIdx.trans h.availIdx,
    h'.usedRing.trans h.usedRing, h'.lastUsed.trans h.lastUsed, h'.num.trans h.num⟩

theorem sameBooks_upd (q : Queue) (i : Nat) (f : Desc → Desc) : SameBooks q (q.upd i f) :=
  ⟨rfl, rfl, rfl, rfl, rfl, rfl⟩

theorem useDirect_sameBooks {q q' : Queue} {i j : Nat} {bufs : List AddrSize}
    (h : useDirect q i bufs = .ok (q', j)) : SameBooks q q' := by
  fun_induction useDirect q i bufs with
  | case1 => cases h
  | case2 q i b =>
    obtain ⟨_, _, h⟩ := bind_eq_ok.mp h
    cases h
    exact sameBooks_upd _ _ _
  | case3 q i b bs _ ih =>
    obtain ⟨_, _, h⟩ := bind_eq_ok.mp h
    exact (sameBooks_upd _ _ _).trans (ih h)

theorem SameBooks.offer {q q' : Queue} (h : SameBooks q q') (data : Nat) :
    Submitted q (q'.offer q.freeHead data) data where
  data := by rw [Queue.offer, h.data]
  offered := by
    rw [Queue.offer, h.availIdx, h.num]
    exact update_self _ _ _
  usedRing := h.usedRing
  lastUsed := h.lastUsed
  num := h.num

theorem virtioToQueue_submitted {bufs : List AddrSize} {data : Nat}
    (h : virtioToQueue dev k bufs data = .ok dev') :
    ∃ q', Submitted (dev.queues k) q' data ∧
      dev'.queues = update dev.queues k q' ∧ dev'.numQueues = dev.numQueues := by
  obtain ⟨_, _, h⟩ := bind_eq_ok.mp h
  split at h
  · cases h
  · dsimp only at h
    split at h
    · obtain ⟨⟨ts, q'⟩, hset, h⟩ := bind_eq_ok.mp h
      cases h
      obtain ⟨_, _, hset⟩ := bind_eq_ok.mp hset
      obtain ⟨_, _, hset⟩ := bind_eq_ok.mp hset
      cases hset
      refine ⟨_, SameBooks.offer ?_ data, rfl, rfl⟩
      exact ⟨rfl, rfl, rfl, rfl, rfl, rfl⟩
    · obtain ⟨q₁, hset, h⟩ := bind_eq_ok.mp h
      cases h
      obtain ⟨⟨q₂, i⟩, huse, hset⟩ := bind_eq_ok.mp hset
      cases hset
      have hsame := useDirect_sameBooks huse
      refine ⟨_, SameBooks.offer ?_ data, rfl, rfl⟩
      exact ⟨hsame.data, hsame.availRing, hsame.availIdx, hsame.usedRing, hsame.lastUsed,
        hsame.num⟩

theorem clearIfIndirect_sameBooks {ts ts' : List Table} {q q' : Queue} {i : Nat}
    (h : clearIfIndirect ts q i = .ok (ts', q')) : SameBooks q q' := by
  rw [clearIfIndirect] at h
  split at h
  · obtain ⟨_, _, h⟩ := bind_eq_ok.mp h
    obtain ⟨_, _, h⟩ := bind_eq_ok.mp h
    obtain ⟨_, _, h⟩ := bind_eq_ok.mp h
    cases h
    exact sameBooks_upd _ _ _
  · cases h
    exact SameBooks.refl q

theorem walk_sameBooks {n : Nat} {ts ts' : List Table} {q q' : Queue} {i j c c' : Nat}
    (h : walk n ts q i c = .ok (ts', q', j, c')) : SameBooks q q' := by
  induction n generalizing ts q i c with
  | zero => cases h
  | succ n ih =>
    obtain ⟨⟨ts₁, q₁⟩, hclear, h⟩ := bind_eq_ok.mp h
    have hsame := clearIfIndirect_sameBooks hclear
    dsimp only at h
    split at h
    · exact hsame.trans (ih h)
    · cases h
      exact hsame

/-- A poll that returns a request: the element at `last_used`, whose pointer
is then forgotten. -/
structure Polled (q q' : Queue) (x : Nat × Nat) : Prop where
  answer : x = (q.data (q.usedRing q.lastUsed).id, (q.usedRing q.lastUsed).len)
  data : q'.data = update q.data (q.usedRing q.lastUsed).id 0
  usedRing : q'.usedRing = q.usedRing
  lastUsed : q'.lastUsed = (q.lastUsed + 1) % q.num
  num : q'.num = q.num

theorem virtioFromQueue_polled {x : Nat × Nat} (h : virtioFromQueue dev k = .ok (some x, dev')) :
    (dev.queues k).Visible ∧ ∃ q', Polled (dev.queues k) q' x ∧
      dev'.queues = update dev.queues k q' ∧ dev'.numQueues = dev.numQueues := by
  obtain ⟨_, _, h⟩ := bind_eq_ok.mp h
  dsimp only at h
  split at h
  · cases h
  next hv =>
    obtain ⟨_, _, h⟩ := bind_eq_ok.mp h
    obtain ⟨_, _, h⟩ := bind_eq_ok.mp h
    obtain ⟨⟨ts, q₁, j, c⟩, hwalk, h⟩ := bind_eq_ok.mp h
    obtain ⟨_, _, h⟩ := bind_eq_ok.mp h
    obtain ⟨_, _, h⟩ := bind_eq_ok.mp h
    cases h
    have hsame := walk_sameBooks hwalk
    have hdata : q₁.data = (dev.queues k).data := hsame.data
    refine ⟨hv, _, ?_, rfl, rfl⟩
    refine ⟨?_, ?_, hsame.usedRing, hsame.lastUsed, hsame.num⟩
    · dsimp only [Queue.append, Queue.upd]
      rw [hdata]
    · dsimp only [Queue.append, Queue.upd]
      rw [hdata]

end Frames

/-! ## The books -/

/-- The books of one queue agree with it: what is in flight has its pointer
kept under its head, and the used ring holds what was not returned. -/
structure Agrees (q : Queue) (b : Books) : Prop where
  heads : (b.flight.map Prod.fst ++ b.unreturned.map Entry.head).Nodup
  flight : ∀ x ∈ b.flight, q.data x.1 = x.2 ∧ x.2 ≠ 0
  unreturned : ∀ e ∈ b.unreturned, q.data e.head = e.data
  lens : ∀ i e, b.unreturned[i]? = some e → (q.usedRing ((q.lastUsed + i) % q.num)).len = e.len
  returned : b.published.map Entry.answer = b.returned ++ b.unreturned.map Entry.answer

/-- The device as the runs of `Step` see it. -/
def Ledger.world (w : Ledger) : World :=
  ⟨w.dev, fun k => (w.books k).unreturned.map Entry.head⟩

structure Kept (w : Ledger) : Prop where
  good : ∃ F C, Good w.world F C
  agrees : ∀ k < w.dev.numQueues, Agrees (w.dev.queues k) (w.books k)

section Books

variable {q q' : Queue} {b : Books} {P F : List Nat} {C : List (List Nat)}

theorem Books.returned_le (h : b.published.map Entry.answer =
    b.returned ++ b.unreturned.map Entry.answer) : b.returned.length ≤ b.published.length := by
  have := congrArg List.length h
  rw [List.length_map, List.length_append] at this
  omega

theorem Books.unreturned_publish (fl : List (Nat × Nat)) (e : Entry)
    (h : b.returned.length ≤ b.published.length) :
    (⟨fl, b.published ++ [e], b.returned⟩ : Books).unreturned = b.unreturned ++ [e] :=
  List.drop_append_of_le_length h

theorem Books.unreturned_return (b : Books) (x : Nat × Nat) :
    (⟨b.flight, b.published, b.returned ++ [x]⟩ : Books).unreturned = b.unreturned.tail := by
  rw [Books.unreturned, Books.unreturned, List.tail_drop, List.length_append, List.length_singleton]

theorem Ring.data_freeHead (h : Ring q F C) (hpos : 0 < q.freeNum) : q.data q.freeHead = 0 := by
  by_contra hne
  obtain ⟨r, hr⟩ := h.heads _ hne
  obtain ⟨x, hseg⟩ := h.free
  cases F with
  | nil =>
    have := h.count
    rw [List.length_nil] at this
    omega
  | cons y F =>
    cases hseg.head
    exact List.disjoint_of_nodup_append h.nodup List.mem_cons_self
      (List.mem_flatten.mpr ⟨_, hr, List.mem_cons_self⟩)

/-- With a free descriptor, fewer than `num` requests wait to be returned. -/
theorem Pending.length_lt_num (h : Ring q F C) (hp : Pending q P) (hpos : 0 < q.freeNum) :
    P.length < q.num := by
  have hsub : P ⊆ C.flatten := by
    intro i hi
    obtain ⟨r, hr⟩ := h.heads i (hp.flight i hi)
    exact List.mem_flatten.mpr ⟨_, hr, List.mem_cons_self⟩
  have hle := (List.subperm_of_subset hp.nodup hsub).length_le
  have hlen := h.cover.length_eq
  rw [List.length_append, List.length_range, h.count] at hlen
  omega

theorem Pending.visible_of_lt (hp : Pending q P) (hne : P ≠ []) (hlt : P.length < q.num) :
    q.Visible := by
  have hslot := slot_ne (l := q.lastUsed) (List.length_pos_iff.mpr hne) hlt
  rw [Nat.add_zero, Nat.mod_eq_of_lt hp.last] at hslot
  rw [Queue.Visible, hp.idx]
  exact hslot

theorem Agrees.submit {data : Nat} (h : Agrees q b) (hs : Submitted q q' data)
    (hfree : q.data q.freeHead = 0) (hdata : data ≠ 0)
    (hpend : ∀ e ∈ b.unreturned, q.data e.head ≠ 0) :
    Agrees q' { b with flight := b.flight ++ [(q.freeHead, data)] } := by
  have hother : ∀ i, q.data i ≠ 0 → q'.data i = q.data i := by
    intro i hi
    rw [hs.data, update_of_ne]
    rintro rfl
    exact hi hfree
  refine ⟨?_, ?_, ?_, ?_, h.returned⟩
  · have hnew : q.freeHead ∉ b.flight.map Prod.fst ++ b.unreturned.map Entry.head := by
      intro hmem
      rcases List.mem_append.mp hmem with hmem | hmem
      · obtain ⟨x, hx, heq⟩ := List.mem_map.mp hmem
        have hx' := h.flight x hx
        rw [heq, hfree] at hx'
        exact hx'.2 hx'.1.symm
      · obtain ⟨e, he, heq⟩ := List.mem_map.mp hmem
        exact hpend e he (heq ▸ hfree)
    have hperm : (q.freeHead :: (b.flight.map Prod.fst ++ b.unreturned.map Entry.head)).Perm
        ((b.flight ++ [(q.freeHead, data)]).map Prod.fst ++ b.unreturned.map Entry.head) := by
      rw [List.map_append, List.append_assoc]
      exact List.perm_middle.symm
    exact hperm.nodup_iff.mp (List.nodup_cons.mpr ⟨hnew, h.heads⟩)
  · intro x hx
    rcases List.mem_append.mp hx with hx | hx
    · obtain ⟨hx₁, hx₂⟩ := h.flight x hx
      rw [hother x.1 (by rw [hx₁]; exact hx₂)]
      exact ⟨hx₁, hx₂⟩
    · obtain rfl := List.mem_singleton.mp hx
      rw [hs.data, update_self]
      exact ⟨rfl, hdata⟩
  · intro e he
    rw [hother e.head (hpend e he)]
    exact h.unreturned e he
  · rw [hs.usedRing, hs.lastUsed, hs.num]
    exact h.lens

theorem Agrees.complete {head data len : Nat} (h : Agrees q b)
    (hp : Pending q (b.unreturned.map Entry.head)) (hlt : b.unreturned.length < q.num)
    (hmem : (head, data) ∈ b.flight) :
    Agrees (q.complete head len) { b with
      flight := b.flight.erase (head, data)
      published := b.published ++ [⟨head, data, len⟩] } := by
  have hun := Books.unreturned_publish (b.flight.erase (head, data)) ⟨head, data, len⟩
    (Books.returned_le h.returned)
  refine ⟨?_, fun x hx => h.flight x (List.mem_of_mem_erase hx), ?_, ?_, ?_⟩
  · rw [hun, List.map_append]
    refine (List.Perm.nodup_iff ?_).mp h.heads
    have hsplit : (b.flight.map Prod.fst).Perm
        (head :: (b.flight.erase (head, data)).map Prod.fst) :=
      (List.perm_cons_erase hmem).map Prod.fst
    refine (hsplit.append_right _).trans ?_
    rw [List.cons_append, ← List.append_assoc]
    exact (List.perm_append_singleton head _).symm
  · intro e he
    rw [hun] at he
    rcases List.mem_append.mp he with he | he
    · exact h.unreturned e he
    · obtain rfl := List.mem_singleton.mp he
      exact (h.flight _ hmem).1
  · intro i e hi
    rw [hun] at hi
    have hidx := hp.idx
    rw [List.length_map] at hidx
    simp only [Queue.complete]
    by_cases hilt : i < b.unreturned.length
    · rw [List.getElem?_append_left hilt] at hi
      rw [update_of_ne]
      · exact h.lens i e hi
      · rw [hidx]
        exact slot_ne hilt hlt
    · rw [List.getElem?_append_right (by omega)] at hi
      obtain ⟨hz, rfl⟩ : i - b.unreturned.length = 0 ∧ ⟨head, data, len⟩ = e := by
        rw [List.getElem?_singleton] at hi
        split at hi
        · exact ⟨by omega, Option.some.inj hi⟩
        · cases hi
      obtain rfl : i = b.unreturned.length := by omega
      rw [hidx, update_self]
  · rw [hun, List.map_append, List.map_append, h.returned, List.append_assoc]

theorem Agrees.poll {e : Entry} {r : List Entry} (h : Agrees q b)
    (hp : Pending q (b.unreturned.map Entry.head)) (hun : b.unreturned = e :: r)
    {x : Nat × Nat} (hq : Polled q q' x) :
    x = e.answer ∧ Agrees q' { b with returned := b.returned ++ [x] } := by
  have hlast := hp.last
  have hid : (q.usedRing q.lastUsed).id = e.head := by
    have := hp.entries 0 e.head (by rw [hun]; rfl)
    rwa [Nat.add_zero, Nat.mod_eq_of_lt hlast] at this
  have hlen : (q.usedRing q.lastUsed).len = e.len := by
    have := h.lens 0 e (by rw [hun]; rfl)
    rwa [Nat.add_zero, Nat.mod_eq_of_lt hlast] at this
  have hx : x = e.answer := by
    rw [hq.answer, hid, hlen, h.unreturned e (by rw [hun]; exact List.mem_cons_self)]
    rfl
  have hrest : ({ b with returned := b.returned ++ [x] } : Books).unreturned = r := by
    rw [b.unreturned_return x, hun]
    rfl
  have hnodup := h.heads
  rw [hun, List.map_cons] at hnodup
  have hperm := List.nodup_cons.mp (List.perm_middle.nodup_iff.mp hnodup)
  have hdata : ∀ i, i ≠ e.head → q'.data i = q.data i := by
    intro i hi
    rw [hq.data, hid, update_of_ne hi]
  refine ⟨hx, ?_, ?_, ?_, ?_, ?_⟩
  · rw [hrest]
    exact hperm.2
  · intro y hy
    have hne : y.1 ≠ e.head := by
      rintro heq
      exact hperm.1 (List.mem_append_left _ (heq ▸ List.mem_map_of_mem hy))
    rw [hdata _ hne]
    exact h.flight y hy
  · rw [hrest]
    intro y hy
    have hne : y.head ≠ e.head := by
      rintro heq
      exact hperm.1 (List.mem_append_right _ (heq ▸ List.mem_map_of_mem hy))
    rw [hdata _ hne]
    exact h.unreturned y (by rw [hun]; exact List.mem_cons_of_mem e hy)
  · rw [hrest]
    intro i y hi
    rw [hq.usedRing, hq.lastUsed, hq.num, Nat.mod_add_mod, Nat.add_assoc, Nat.add_comm 1]
    exact h.lens (i + 1) y (by rw [hun]; exact hi)
  · rw [hrest, h.returned, hun, hx, List.map_cons, List.append_assoc]
    rfl

end Books

/-! ## Steps -/

section Steps

variable {w w' : Ledger} {k : Nat}

theorem Kept.setQueue (h : Kept w) {dev' : Device} {q' : Queue} {b' : Books}
    (hnum : dev'.numQueues = w.dev.numQueues)
    (hq : dev'.queues = update w.dev.queues k q')
    (hgood : ∃ F C, Good ⟨dev', update w.world.pending k (b'.unreturned.map Entry.head)⟩ F C)
    (hb : Agrees q' b') : Kept ⟨dev', update w.books k b'⟩ := by
  refine ⟨?_, fun i hi => ?_⟩
  · have hworld : (⟨dev', update w.books k b'⟩ : Ledger).world =
        ⟨dev', update w.world.pending k (b'.unreturned.map Entry.head)⟩ := by
      rw [Ledger.world, World.mk.injEq]
      refine ⟨rfl, funext fun i => ?_⟩
      by_cases hik : i = k
      · subst hik
        simp
      · simp [hik, Ledger.world]
    rw [hworld]
    exact hgood
  · dsimp only at hi ⊢
    rw [hq]
    by_cases hik : i = k
    · subst hik
      simpa using hb
    · simpa [hik] using h.agrees i (hnum ▸ hi)

theorem Kept.submit {bufs : List AddrSize} {data : Nat} (h : Kept w)
    (hs : Happens w (.submit k bufs data) w') (ha : (Event.submit k bufs data).Admitted w) :
    Kept w' := by
  obtain ⟨hk, hne, hdata, dev', hcall, rfl⟩ := hs
  obtain ⟨F, C, hgood⟩ := h.good
  obtain ⟨q', hsub, hq, hnum⟩ := virtioToQueue_submitted hcall
  have hhead : offered w.dev dev' k = (w.dev.queues k).freeHead := by
    rw [offered, hq, update_self]
    exact hsub.offered
  have hring := hgood.rings k hk
  have hpend := hgood.pending k hk
  rw [hhead]
  refine h.setQueue hnum hq ?_ ((h.agrees k hk).submit hsub (hring.data_freeHead ha.1) hdata ?_)
  · rcases hgood.submit hk hne hdata ha.1 ha.2 with ⟨herr, -⟩ | ⟨_, F', C', hok, hgood'⟩
    · cases hcall.symm.trans herr
    · cases hcall.symm.trans hok
      refine ⟨F', C', ?_⟩
      have hsame : update w.world.pending k ((w.books k).unreturned.map Entry.head) =
          w.world.pending := update_eq_self k w.world.pending
      exact hsame.symm ▸ hgood'
  · exact fun e he => hpend.flight e.head (List.mem_map_of_mem he)

theorem Kept.complete {head data len : Nat} (h : Kept w)
    (hs : Happens w (.complete k head data len) w') : Kept w' := by
  obtain ⟨hk, hmem, rfl⟩ := hs
  obtain ⟨F, C, hgood⟩ := h.good
  have hag := h.agrees k hk
  have hring := hgood.rings k hk
  have hpend : Pending (w.dev.queues k) ((w.books k).unreturned.map Entry.head) :=
    hgood.pending k hk
  have hflight : (w.dev.queues k).data head ≠ 0 := by
    obtain ⟨h₁, h₂⟩ := hag.flight _ hmem
    rw [h₁]
    exact h₂
  have hnew : head ∉ (w.books k).unreturned.map Entry.head := fun hin =>
    List.disjoint_of_nodup_append hag.heads (List.mem_map_of_mem (f := Prod.fst) hmem) hin
  have hlt := hpend.length_lt hring hflight hnew
  rw [List.length_map] at hlt
  refine h.setQueue rfl rfl ⟨F, C, ?_⟩ (hag.complete hpend hlt hmem)
  rw [Books.unreturned_publish _ _ (Books.returned_le hag.returned), List.map_append]
  exact hgood.complete hk hflight hnew

theorem Kept.poll_nil (h : Kept w) (hk : k < w.dev.numQueues)
    (hun : (w.books k).unreturned = []) : virtioFromQueue w.dev k = .ok (none, w.dev) := by
  obtain ⟨F, C, hgood⟩ := h.good
  have hpend : Pending (w.dev.queues k) ((w.books k).unreturned.map Entry.head) :=
    hgood.pending k hk
  refine virtioFromQueue_none hk fun hv => ?_
  obtain ⟨_, _, hcons, -⟩ := hpend.visible hv
  rw [hun] at hcons
  cases hcons

/-- **A poll is exact** exactly if there is nothing to return or a free
descriptor. -/
theorem Kept.exact_iff (h : Kept w) (hk : k < w.dev.numQueues) :
    Exact w k ↔ (w.books k).unreturned = [] ∨ 0 < (w.dev.queues k).freeNum := by
  obtain ⟨F, C, hgood⟩ := h.good
  have hag := h.agrees k hk
  have hring := hgood.rings k hk
  have hpend : Pending (w.dev.queues k) ((w.books k).unreturned.map Entry.head) :=
    hgood.pending k hk
  cases hun : (w.books k).unreturned with
  | nil =>
    refine iff_of_true ⟨w.dev, ?_⟩ (.inl rfl)
    rw [hun]
    exact h.poll_nil hk hun
  | cons e r =>
    have hne : (w.books k).unreturned.map Entry.head ≠ [] := by simp [hun]
    constructor
    · rintro ⟨dev', hcall⟩
      refine .inr (Nat.pos_of_ne_zero fun hzero => ?_)
      rw [hun] at hcall
      have hbad : ¬ (Op.collect k).Admitted w.world := by
        intro hadm
        have := hadm (virtioFromQueue_polled hcall).1
        exact absurd hzero (Nat.pos_iff_ne_zero.mp this)
      have hbreaks : (Op.collect k).Breaks w.world := hgood.breaks hk trivial hbad
      cases hcall.symm.trans hbreaks
    · rintro (hnil | hpos)
      · cases hnil
      · have hv := hpend.visible_of_lt hne (hpend.length_lt_num hring hpos)
        obtain ⟨x, dev', _, _, hcall, -⟩ := hgood.collect hk hv hpos
        obtain ⟨-, q', hq, -⟩ := virtioFromQueue_polled hcall
        obtain ⟨rfl, -⟩ := hag.poll hpend hun hq
        exact ⟨dev', by rw [hun]; exact hcall⟩

theorem Kept.poll (h : Kept w) (hs : Happens w (.poll k) w')
    (ha : (Event.poll k).Admitted w) : Kept w' := by
  obtain ⟨hk, r, dev', hcall, rfl⟩ := hs
  obtain ⟨F, C, hgood⟩ := h.good
  have hpend : Pending (w.dev.queues k) ((w.books k).unreturned.map Entry.head) :=
    hgood.pending k hk
  obtain ⟨dev'', hexact⟩ := (h.exact_iff hk).mpr ha
  cases hcall.symm.trans hexact
  cases hun : (w.books k).unreturned with
  | nil =>
    rw [hun] at hcall
    cases hcall.symm.trans (h.poll_nil hk hun)
    rw [List.head?_nil, Option.map_none, Option.toList_none, List.append_nil]
    rw [update_eq_self]
    exact h
  | cons e r =>
    rw [hun] at hcall
    obtain ⟨hv, q', hq, hqueues, hnum⟩ := virtioFromQueue_polled hcall
    have hpos : 0 < (w.dev.queues k).freeNum := ha.resolve_left (by rw [hun]; simp)
    obtain ⟨-, hag⟩ := (h.agrees k hk).poll hpend hun hq
    obtain ⟨x, _, F', C', hok, hgood'⟩ := hgood.collect hk hv hpos
    cases hcall.symm.trans hok
    refine h.setQueue hnum hqueues ⟨F', C', ?_⟩ hag
    have htail : w.world.pending k = (w.books k).unreturned.map Entry.head := rfl
    rw [htail, ← List.map_tail, ← (w.books k).unreturned_return e.answer] at hgood'
    exact hgood'

theorem Kept.step {e : Event} (h : Kept w) (ha : e.Admitted w) (hs : Happens w e w') : Kept w' := by
  cases e with
  | submit k bufs data => exact h.submit hs ha
  | complete k head data len => exact h.complete hs
  | poll k => exact h.poll hs ha

end Steps

/-! ## Runs -/

/-- The state after `virtio_setup_device`, with empty books. -/
structure Fresh (w : Ledger) : Prop where
  boot : Boot w.world
  books : ∀ k, w.books k = ⟨[], [], []⟩

theorem Fresh.kept {w : Ledger} (h : Fresh w) : Kept w := by
  refine ⟨h.boot.good, fun k _ => ?_⟩
  rw [h.books k]
  exact ⟨List.nodup_nil, by simp, by simp [Books.unreturned], by simp [Books.unreturned], rfl⟩

/-- **Every request is returned once and in order** along a run with a free
descriptor at every submission, and at every poll that has something to
return: every poll is exact, and what was returned is a first part of what
was published. In every state reached, a poll is exact only under that
condition. -/
theorem polls_exact_while_free {w₀ w : Ledger} {tr : List (Taken Ledger Event)} (hf : Fresh w₀)
    (h : Trace Happens w₀ tr w) (hadm : ∀ x ∈ tr, x.label.Admitted x.pre) :
    (∀ x ∈ tr, ∀ k, x.label = .poll k → Exact x.pre k) ∧
      ∀ k < w.dev.numQueues,
        (w.books k).published.map Entry.answer =
          (w.books k).returned ++ (w.books k).unreturned.map Entry.answer ∧
        (Exact w k ↔ (w.books k).unreturned = [] ∨ 0 < (w.dev.queues k).freeNum) := by
  obtain ⟨hkept, hall⟩ := h.invariant Kept (fun w e => e.Admitted w)
    (fun hk ha hs => hk.step ha hs) hf.kept hadm
  refine ⟨fun x hx k hlabel => ?_, fun k hk => ⟨(hkept.agrees k hk).returned, hkept.exact_iff hk⟩⟩
  have hstep := h.taken x hx
  have ha := hadm x hx
  rw [hlabel] at hstep ha
  exact ((hall x hx).1.exact_iff hstep.1).mpr ha

/-- The device with one queue of two descriptors. -/
def smallLedger : Ledger := ⟨smallDevice.dev, fun _ => ⟨[], [], []⟩⟩

theorem smallLedger_fresh : Fresh smallLedger :=
  ⟨smallDevice_boot, fun _ => rfl⟩

/-- A request is submitted, published and returned. -/
theorem polls_exact_one_request : ∃ tr w, Trace Happens smallLedger tr w ∧
    (w.books 0).returned = [(7, 64)] ∧ ∀ x ∈ tr, ∀ k, x.label = .poll k → Exact x.pre k := by
  obtain ⟨tr, w, h, hret, hadm⟩ : ∃ tr w, Trace Happens smallLedger tr w ∧
      (w.books 0).returned = [(7, 64)] ∧ ∀ x ∈ tr, x.label.Admitted x.pre := by
    refine ⟨_, _,
      .step (a := Event.submit 0 [⟨0x5000, 64⟩] 7)
        ⟨Nat.zero_lt_one, by simp, by decide, _, rfl, rfl⟩
      (.step (a := Event.complete 0 0 7 64) ⟨Nat.zero_lt_one, by decide, rfl⟩
      (.step (a := Event.poll 0) ⟨Nat.zero_lt_one, _, _, rfl, rfl⟩ (.done _))), rfl, ?_⟩
    simp only [List.forall_mem_cons, List.not_mem_nil, false_imp_iff, implies_true, and_true]
    exact ⟨⟨by decide, by decide⟩, trivial, .inr (by decide)⟩
  exact ⟨tr, w, h, hret, (polls_exact_while_free smallLedger_fresh h hadm).1⟩

/-- Two requests fill the ring and are published: a poll returns `-1` and
none of them. -/
theorem polls_exact_full_round : ∃ tr w, Trace Happens smallLedger tr w ∧
    (w.books 0).unreturned.map Entry.answer = [(7, 64), (8, 64)] ∧
    virtioFromQueue w.dev 0 = .ok (none, w.dev) ∧ ¬ Exact w 0 := by
  refine ⟨_, _,
    .step (a := Event.submit 0 [⟨0x5000, 64⟩] 7)
      ⟨Nat.zero_lt_one, by simp, by decide, _, rfl, rfl⟩
    (.step (a := Event.submit 0 [⟨0x6000, 64⟩] 8)
      ⟨Nat.zero_lt_one, by simp, by decide, _, rfl, rfl⟩
    (.step (a := Event.complete 0 0 7 64) ⟨Nat.zero_lt_one, by decide, rfl⟩
    (.step (a := Event.complete 0 1 8 64) ⟨Nat.zero_lt_one, by decide, rfl⟩
      (.done _)))), rfl, rfl, ?_⟩
  rintro ⟨dev', hcall⟩
  cases hcall

end Yaos.Virtio
