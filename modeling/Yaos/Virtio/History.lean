import Mathlib.Tactic.Choose
import Yaos.Lib.Run
import Yaos.Virtio.Device

/-!
# Any interleaving of requests, returns and collections

The world is the driver's device record and, for each queue, the requests
the device has returned and the driver has not collected.

`virtio_setup_device` leaves `threads` at 0, so a request may take the last
free descriptor. After that neither `free_head` nor `free_tail` is a free
descriptor, and both entry points rely on one of them. `Op.Admitted`
excludes just that.
-/

namespace Yaos.Virtio

open Yaos.Lib Function

/-- The device record and the requests returned but not collected. -/
structure World where
  dev : Device
  pending : Nat → List Nat

inductive Op where
  | submit (k : Nat) (bufs : List AddrSize) (data : Nat)
  | complete (k head len : Nat)
  | collect (k : Nat)

/-- The state after `virtio_setup_device`. -/
structure Boot (w : World) : Prop where
  threads : w.dev.threads = 0
  queues : ∀ k < w.dev.numQueues, ∃ e ≤ 15, w.dev.queues k = initPhysQueue (2 ^ e)
  tables : w.dev.indirect ≠ []
  paddrs : (w.dev.indirect.map Table.paddr).Nodup
  unused : ∀ t ∈ w.dev.indirect, t.inUse = false ∧ t.descs.length = tableSize
  pending : ∀ k, w.pending k = []

/-- The queue has a returned request that the driver can see. -/
def Queue.Visible (q : Queue) : Prop := q.lastUsed ≠ q.usedIdx % q.num

/-- A request has a buffer and a pointer to remember, and the device only
returns what is in flight, once. -/
def Op.Legal (w : World) : Op → Prop
  | .submit k bufs data => k < w.dev.numQueues ∧ bufs ≠ [] ∧ data ≠ 0
  | .complete k head _ =>
      k < w.dev.numQueues ∧ (w.dev.queues k).data head ≠ 0 ∧ head ∉ w.pending k
  | .collect k => k < w.dev.numQueues

/-- One step: a legal event, and a call that returned. -/
def Step (w : World) (op : Op) (w' : World) : Prop :=
  op.Legal w ∧
  match op with
  | .submit k bufs data =>
      virtioToQueue w.dev k bufs data = .ok w'.dev ∧ w'.pending = w.pending
  | .complete k head len =>
      w'.dev = { w.dev with
        queues := update w.dev.queues k ((w.dev.queues k).complete head len) } ∧
      w'.pending = update w.pending k (w.pending k ++ [head])
  | .collect k =>
      ∃ r, virtioFromQueue w.dev k = .ok (r, w'.dev) ∧
        w'.pending = match r with
          | none => w.pending
          | some _ => update w.pending k (w.pending k).tail

/-- There is a free descriptor for the request, and its buffers fit into the
ring or into a table. -/
def Queue.Takes (q : Queue) (bufs : List AddrSize) : Prop :=
  0 < q.freeNum ∧ (bufs.length ≤ q.freeNum ∨ bufs.length ≤ tableSize)

/-- There is a free descriptor whenever a call uses `free_head` or
`free_tail`. -/
def Op.Admitted (w : World) : Op → Prop
  | .submit k bufs _ => (w.dev.queues k).Takes bufs
  | .complete _ _ _ => True
  | .collect k => (w.dev.queues k).Visible → 0 < (w.dev.queues k).freeNum

/-- Descriptor `d` is in flight and points at the table of address `a`. -/
def InFlight (q : Queue) (C : List (List Nat)) (d a : Nat) : Prop :=
  d ∈ C.flatten ∧ points q.desc d = some a

/-- The device between calls: `F k` are the free descriptors of queue `k`
in order, `C k` its chains in flight. -/
structure Good (w : World) (F : Nat → List Nat) (C : Nat → List (List Nat)) : Prop where
  threads : w.dev.threads = 0
  rings : ∀ k < w.dev.numQueues, Ring (w.dev.queues k) (F k) (C k)
  pending : ∀ k < w.dev.numQueues, Pending (w.dev.queues k) (w.pending k)
  tables : Tables w.dev.indirect fun k d a =>
    k < w.dev.numQueues ∧ InFlight (w.dev.queues k) (C k) d a
  lens : ∀ k < w.dev.numQueues, ∀ d a,
    InFlight (w.dev.queues k) (C k) d a → 0 < ((w.dev.queues k).desc d).len

/-! ## Steps -/

variable {w : World} {F : Nat → List Nat} {C : Nat → List (List Nat)} {k : Nat}

theorem Good.setQueue (h : Good w F C) (k : Nat) {q' : Queue} {F' P' : List Nat}
    {C' : List (List Nat)} {ts' : List Table} (hring : Ring q' F' C') (hp : Pending q' P')
    (hts : Tables ts' fun i d a => i < w.dev.numQueues ∧
      if i = k then InFlight q' C' d a else InFlight (w.dev.queues i) (C i) d a)
    (hlen : ∀ d a, InFlight q' C' d a → 0 < (q'.desc d).len) :
    Good ⟨{ w.dev with indirect := ts', queues := update w.dev.queues k q' },
      update w.pending k P'⟩ (update F k F') (update C k C') where
  threads := h.threads
  rings i hi := by
    by_cases hik : i = k
    · subst hik
      simpa using hring
    · simpa [hik] using h.rings i hi
  pending i hi := by
    by_cases hik : i = k
    · subst hik
      simpa using hp
    · simpa [hik] using h.pending i hi
  tables := by
    convert hts using 5 with i d a
    by_cases hik : i = k
    · subst hik
      simp
    · simp [hik]
  lens i hi d a := by
    by_cases hik : i = k
    · subst hik
      simpa using hlen d a
    · simpa [hik] using h.lens i hi d a

theorem bmod_count {n : Nat} (h : n < 2 ^ 31) : Int.bmod n (2 ^ 32) = n := by
  rw [Int.bmod_def]
  split <;> omega

theorem virtioToQueue_direct {dev : Device} {bufs : List AddrSize} {data : Nat} {q' : Queue}
    (hk : k ≤ dev.numQueues) (hdata : data ≠ 0) (ht : dev.threads = 0)
    (hlt : bufs.length < 2 ^ 31) (hle : bufs.length ≤ (dev.queues k).freeNum)
    (hq : setDirectDescriptors (dev.queues k) bufs = .ok q') :
    virtioToQueue dev k bufs data = .ok { dev with
      indirect := dev.indirect
      queues := update dev.queues k (q'.offer (dev.queues k).freeHead data) } := by
  have hleft : ¬ ((dev.queues k).freeNum : Int) - Int.bmod bufs.length (2 ^ 32) < 0 := by
    rw [bmod_count hlt]
    omega
  simp only [virtioToQueue, hk, decide_true, check, if_true, ok_bind, hdata, if_false, ht, hleft,
    hq]

theorem virtioToQueue_indirect {dev : Device} {bufs : List AddrSize} {data : Nat}
    (hk : k ≤ dev.numQueues) (hdata : data ≠ 0) (ht : dev.threads = 0)
    (hlt : bufs.length < 2 ^ 31) (hle : (dev.queues k).freeNum < bufs.length)
    (hts : dev.indirect ≠ []) :
    virtioToQueue dev k bufs data = takeTable bufs dev.indirect >>= fun x => .ok { dev with
      indirect := x.2
      queues := update dev.queues k
        (((dev.queues k).useIndirect x.1 bufs.length).offer (dev.queues k).freeHead data) } := by
  have hleft : ((dev.queues k).freeNum : Int) - Int.bmod bufs.length (2 ^ 32) < 0 := by
    rw [bmod_count hlt]
    omega
  simp only [virtioToQueue, hk, decide_true, check, if_true, ok_bind, hdata, if_false, ht, hleft,
    setIndirectDescriptors, List.isEmpty_eq_false_iff.mpr hts, Bool.not_false]
  cases takeTable bufs dev.indirect with
  | error e => rfl
  | ok x => rfl

theorem Good.submit_direct (h : Good w F C) {bufs : List AddrSize} {data : Nat}
    (hk : k < w.dev.numQueues) (hne : bufs ≠ []) (hdata : data ≠ 0)
    (hle : bufs.length ≤ (w.dev.queues k).freeNum) :
    ∃ dev' F' C', virtioToQueue w.dev k bufs data = .ok dev' ∧ Good ⟨dev', w.pending⟩ F' C' := by
  have hring := h.rings k hk
  have hnum := hring.num_lt
  have hnle := hring.freeNum_le
  obtain ⟨q', A, B, hAB, hq', hring', hframe, hnone⟩ := hring.direct hne hle hdata
  -- what is in flight and points at a table is what it was
  have hsame : ∀ d a, InFlight (q'.offer (w.dev.queues k).freeHead data) (A :: C k) d a ↔
      InFlight (w.dev.queues k) (C k) d a := by
    intro d a
    constructor
    · rintro ⟨hd, ha⟩
      rcases List.mem_append.mp hd with hdA | hdC
      · have hn : points (q'.offer (w.dev.queues k).freeHead data).desc d = none := hnone d hdA
        rw [hn] at ha
        cases ha
      · refine ⟨hdC, ?_⟩
        rwa [points, hframe.desc d hdC] at ha
    · rintro ⟨hd, ha⟩
      refine ⟨List.mem_append_right A hd, ?_⟩
      rwa [points, hframe.desc d hd]
  have htab : Tables w.dev.indirect fun i d a => i < w.dev.numQueues ∧
      if i = k then InFlight (q'.offer (w.dev.queues k).freeHead data) (A :: C k) d a
      else InFlight (w.dev.queues i) (C i) d a := by
    convert h.tables using 4 with i d a
    by_cases hik : i = k
    · subst hik
      simp [hsame]
    · simp [hik]
  have hgood := h.setQueue k hring' ((h.pending k hk).submit hframe) htab (by
    intro d a hd
    have hd' := (hsame d a).mp hd
    rw [hframe.desc d hd'.1]
    exact h.lens k hk d a hd')
  rw [update_eq_self] at hgood
  exact ⟨_, _, _, virtioToQueue_direct (Nat.le_of_lt hk) hdata h.threads (by omega) hle hq', hgood⟩

theorem Good.submit_indirect (h : Good w F C) {bufs : List AddrSize} {data : Nat}
    (hk : k < w.dev.numQueues) (hne : bufs ≠ []) (hdata : data ≠ 0)
    (hfree : 0 < (w.dev.queues k).freeNum) (hlt : (w.dev.queues k).freeNum < bufs.length)
    (hsize : bufs.length ≤ tableSize) :
    (virtioToQueue w.dev k bufs data = .error .panic ∧ ∀ t ∈ w.dev.indirect, t.inUse = true) ∨
    ∃ dev' F' C', virtioToQueue w.dev k bufs data = .ok dev' ∧ Good ⟨dev', w.pending⟩ F' C' := by
  have hring := h.rings k hk
  have hsize' : bufs.length ≤ 256 := hsize
  have hcall := virtioToQueue_indirect (Nat.le_of_lt hk) hdata h.threads (by omega) hlt
    h.tables.nonempty
  rcases takeTable_cases hne fun t ht => (h.tables.pages t ht).symm ▸ hsize with
    ⟨herr, hall⟩ | ⟨l, t, r, ds, hts, hunused, hds, hok⟩
  · exact .inl ⟨by rw [hcall, herr, error_bind], hall⟩
  rw [hok, ok_bind] at hcall
  obtain ⟨B, hB, hring', hframe⟩ := hring.indirect t.paddr bufs.length hfree hdata
  -- one more descriptor is in flight, and it points at the table
  have hmore : ∀ d a, InFlight (((w.dev.queues k).useIndirect t.paddr bufs.length).offer
      (w.dev.queues k).freeHead data) ([(w.dev.queues k).freeHead] :: C k) d a ↔
      InFlight (w.dev.queues k) (C k) d a ∨ (d = (w.dev.queues k).freeHead ∧ a = t.paddr) := by
    intro d a
    have hhead : points (((w.dev.queues k).useIndirect t.paddr bufs.length).offer
        (w.dev.queues k).freeHead data).desc (w.dev.queues k).freeHead = some t.paddr := by
      simp [points, Queue.offer, Queue.useIndirect, Desc.toTable, Flags.onlyIndirect]
    have hnd := hring.nodup
    rw [hB, List.cons_append, List.nodup_cons, List.mem_append, not_or] at hnd
    by_cases hd : d = (w.dev.queues k).freeHead
    · subst hd
      simp [InFlight, hhead, hnd.1.2, eq_comm]
    · have hpts : d ∈ (C k).flatten → points (((w.dev.queues k).useIndirect t.paddr
          bufs.length).offer (w.dev.queues k).freeHead data).desc d =
          points (w.dev.queues k).desc d := by
        intro hdC
        rw [points, hframe.desc d hdC, points]
      simp only [InFlight, List.flatten_cons, List.singleton_append, List.mem_cons, hd, false_or,
        false_and, or_false]
      exact and_congr_right fun hdC => by rw [hpts hdC]
  have htab : Tables (l ++ { t with inUse := true, descs := ds } :: r)
      fun i d a => i < w.dev.numQueues ∧
        if i = k then InFlight (((w.dev.queues k).useIndirect t.paddr bufs.length).offer
          (w.dev.queues k).freeHead data) ([(w.dev.queues k).freeHead] :: C k) d a
        else InFlight (w.dev.queues i) (C i) d a := by
    have htables := h.tables
    rw [hts] at htables
    convert htables.take { t with inUse := true, descs := ds } hunused rfl hds rfl k
      (w.dev.queues k).freeHead using 4 with i d a
    by_cases hik : i = k
    · subst hik
      simp [hmore, hk]
    · simp [hik]
  have hgood := h.setQueue k hring' ((h.pending k hk).submit hframe) htab (by
    intro d a hd
    rcases (hmore d a).mp hd with hd' | ⟨rfl, rfl⟩
    · rw [hframe.desc d hd'.1]
      exact h.lens k hk d a hd'
    · have : 0 < bufs.length := List.length_pos_iff.mpr hne
      simp only [Queue.offer, Queue.useIndirect, Queue.upd_self, Desc.toTable]
      omega)
  rw [update_eq_self] at hgood
  exact .inr ⟨_, _, _, hcall, hgood⟩

/-- **Submitting**, with a free descriptor: the request is taken, or all
tables are in use. -/
theorem Good.submit (h : Good w F C) {bufs : List AddrSize} {data : Nat}
    (hk : k < w.dev.numQueues) (hne : bufs ≠ []) (hdata : data ≠ 0)
    (hfree : 0 < (w.dev.queues k).freeNum)
    (hfit : bufs.length ≤ (w.dev.queues k).freeNum ∨ bufs.length ≤ tableSize) :
    (virtioToQueue w.dev k bufs data = .error .panic ∧ ∀ t ∈ w.dev.indirect, t.inUse = true) ∨
    ∃ dev' F' C', virtioToQueue w.dev k bufs data = .ok dev' ∧ Good ⟨dev', w.pending⟩ F' C' := by
  by_cases hle : bufs.length ≤ (w.dev.queues k).freeNum
  · exact .inr (h.submit_direct hk hne hdata hle)
  · exact h.submit_indirect hk hne hdata hfree (Nat.lt_of_not_le hle) (hfit.resolve_left hle)

theorem Good.complete (h : Good w F C) {i len : Nat} (hk : k < w.dev.numQueues)
    (hi : (w.dev.queues k).data i ≠ 0) (hnew : i ∉ w.pending k) :
    Good ⟨{ w.dev with
        queues := update w.dev.queues k ((w.dev.queues k).complete i len) },
      update w.pending k (w.pending k ++ [i])⟩ F C := by
  have hring := h.rings k hk
  have hgood := h.setQueue k (hring.complete i len) ((h.pending k hk).complete hring hi hnew) (by
    convert h.tables using 4 with j d a
    by_cases hjk : j = k
    · subst hjk
      simp [InFlight, Queue.complete]
    · simp [hjk]) (h.lens k hk)
  rwa [update_eq_self, update_eq_self] at hgood

/-- The queue while `virtio_from_queue` looks for the end of the chain at
`i`: the tail of the free list already points at it. -/
def Queue.tailTo (q : Queue) (i : Nat) : Queue :=
  ({ q with lastUsed := (q.lastUsed + 1) % q.num } : Queue).upd q.freeTail
    fun d => { d with next := i }

/-- The queue when a chain of `n` descriptors that ends in `z` is free again
and the pointer at `i` is cleared; `D` are the descriptors after the walk. -/
def Queue.reclaimed (q : Queue) (D : Nat → Desc) (i z n : Nat) : Queue :=
  { q with
    desc := update D z { D z with next := q.freeHead, flags := .onlyNext }
    freeTail := z
    freeNum := u16 (q.freeNum + n)
    lastUsed := (q.lastUsed + 1) % q.num
    data := update q.data i 0 }

theorem Queue.reclaimed_ne (q : Queue) (D : Nat → Desc) (i z n : Nat) {j : Nat} (h : j ≠ z) :
    (q.reclaimed D i z n).desc j = D j :=
  update_of_ne h _ _

theorem virtioFromQueue_eq {dev : Device} {u i : Nat} (hk : k < dev.numQueues)
    (hv : (dev.queues k).Visible)
    (hid : ((dev.queues k).usedRing (dev.queues k).lastUsed).id = u)
    (hi : u % (dev.queues k).num = i) (hdata : (dev.queues k).data i ≠ 0)
    (htail : ((dev.queues k).desc (dev.queues k).freeTail).flags.next = true)
    {ts : List Table} {D : Nat → Desc} {z n : Nat}
    (hwalk : walk ((dev.queues k).tailTo i).num dev.indirect ((dev.queues k).tailTo i) i 0 =
      .ok (ts, { (dev.queues k).tailTo i with desc := D }, z, n))
    (hz : (D z).flags.next = false)
    (hn : u16 ((dev.queues k).freeNum + n) ≤ (dev.queues k).num) :
    virtioFromQueue dev k = .ok (some ((dev.queues k).data u,
      ((dev.queues k).usedRing (dev.queues k).lastUsed).len), { dev with
      indirect := ts
      queues := update dev.queues k ((dev.queues k).reclaimed D u z n) }) := by
  have hv' : ¬ (dev.queues k).lastUsed = (dev.queues k).usedIdx % (dev.queues k).num := hv
  unfold Queue.tailTo at hwalk
  simp only [virtioFromQueue, hk, decide_true, check, if_true, ok_bind, hv', if_false, hid, hi,
    hdata, ne_eq, not_false_eq_true, htail]
  rw [hwalk, ok_bind]
  simp only [hz, Bool.not_false, if_true, ok_bind, Queue.append, Queue.upd, hn, decide_true]
  rfl

theorem virtioFromQueue_none {dev : Device} (hk : k < dev.numQueues)
    (hv : ¬ (dev.queues k).Visible) : virtioFromQueue dev k = .ok (none, dev) := by
  have hv' : (dev.queues k).lastUsed = (dev.queues k).usedIdx % (dev.queues k).num :=
    not_not.mp hv
  simp [virtioFromQueue, hk, check, ← hv']

/-- With the chain at `i` given back, what points at a table is what did
before, the chain's own table apart. -/
theorem Ring.inFlight_reclaim {q q' : Queue} {F c : List Nat} {C C' : List (List Nat)} {i : Nat}
    (h : Ring q F C) (hC : C.Perm (c :: C')) (hi : i ∈ c)
    (hsame : ∀ d ∈ C'.flatten, q'.desc d = q.desc d)
    (huniq : ∀ {d d' a}, InFlight q C d a → InFlight q C d' a → d = d') (d a : Nat) :
    InFlight q' C' d a ↔ InFlight q C d a ∧ points q.desc i ≠ some a := by
  have hflat : C.flatten.Perm (c ++ C'.flatten) := by simpa using hC.flatten
  have hnd : (c ++ C'.flatten).Nodup := hflat.nodup_iff.mp (List.nodup_append.mp h.nodup).2.1
  have hiC : i ∈ C.flatten := hflat.mem_iff.mpr (List.mem_append_left _ hi)
  constructor
  · rintro ⟨hd, ha⟩
    rw [points, hsame d hd] at ha
    have hfl : InFlight q C d a := ⟨hflat.mem_iff.mpr (List.mem_append_right _ hd), ha⟩
    refine ⟨hfl, fun hia => ?_⟩
    have hdi : d = i := huniq hfl ⟨hiC, hia⟩
    subst hdi
    exact List.disjoint_of_nodup_append hnd hi hd
  · rintro ⟨⟨hd, ha⟩, hne⟩
    rcases List.mem_append.mp (hflat.mem_iff.mp hd) with hdc | hdC
    · -- in the chain itself only `i` could point at a table
      rcases h.kinds c (hC.mem_iff.mpr List.mem_cons_self) with ⟨x, rfl, _⟩ | hall
      · rw [List.mem_singleton] at hi hdc
        subst hi
        subst hdc
        exact absurd ha hne
      · simp [points, hall d hdc] at ha
    · exact ⟨hdC, by rwa [points, hsame d hdC]⟩

/-- The queues and the tables between calls, whatever the device has written
to the used rings. -/
structure Orderly (dev : Device) (F : Nat → List Nat) (C : Nat → List (List Nat)) : Prop where
  rings : ∀ k < dev.numQueues, Ring (dev.queues k) (F k) (C k)
  tables : Tables dev.indirect fun k d a =>
    k < dev.numQueues ∧ InFlight (dev.queues k) (C k) d a
  lens : ∀ k < dev.numQueues, ∀ d a,
    InFlight (dev.queues k) (C k) d a → 0 < ((dev.queues k).desc d).len

theorem Good.orderly (h : Good w F C) : Orderly w.dev F C := ⟨h.rings, h.tables, h.lens⟩

/-- What the walk from the head `i` of the chain `i :: r` does. -/
structure Released (dev : Device) (F : Nat → List Nat) (C : Nat → List (List Nat)) (k i : Nat)
    (r : List Nat) (ts : List Table) (D : Nat → Desc) (z : Nat) : Prop where
  tail : ((dev.queues k).desc (dev.queues k).freeTail).flags.next = true
  chain : Chain (cont ((dev.queues k).tailTo i).desc) (some i) (i :: r)
  walk : walk ((dev.queues k).tailTo i).num dev.indirect ((dev.queues k).tailTo i) i 0 =
    .ok (ts, { (dev.queues k).tailTo i with desc := D }, z, (i :: r).length)
  last : (D z).flags.next = false
  count : u16 ((dev.queues k).freeNum + (i :: r).length) ≤ (dev.queues k).num
  ring : Ring ((dev.queues k).reclaimed D i z (i :: r).length) (F k ++ i :: r)
    ((C k).erase (i :: r))
  rest : ∀ d ∈ ((C k).erase (i :: r)).flatten,
    ((dev.queues k).reclaimed D i z (i :: r).length).desc d = (dev.queues k).desc d
  tables : Tables ts fun j d b => (j < dev.numQueues ∧ InFlight (dev.queues j) (C j) d b) ∧
    points (dev.queues k).desc i ≠ some b

/-- **Releasing** the chain at a head in flight, with a free descriptor. -/
theorem Orderly.release {dev : Device} {i : Nat} (h : Orderly dev F C) (hk : k < dev.numQueues)
    (hdata : (dev.queues k).data i ≠ 0) (hfree : 0 < (dev.queues k).freeNum) :
    ∃ r ts D z, i :: r ∈ C k ∧ Released dev F C k i r ts D z := by
  have hring := h.rings k hk
  obtain ⟨r, hr⟩ := hring.heads i hdata
  have hF : F k ≠ [] := by
    intro hnil
    have hcount := hring.count
    simp [hnil] at hcount
    omega
  have htF := hring.tail_mem hF
  -- linking the tail leaves the chain alone
  have hsame : ∀ d ∈ i :: r, ((dev.queues k).tailTo i).desc d = (dev.queues k).desc d := by
    intro d hd
    refine Queue.upd_ne _ ?_ _
    rintro rfl
    exact List.disjoint_of_nodup_append hring.nodup htF (List.mem_flatten.mpr ⟨_, hr, hd⟩)
  have hi := hsame i List.mem_cons_self
  obtain ⟨_, _, heq, hchain, _⟩ := hring.chains _ hr
  cases heq
  have hlen := hring.chain_length hr
  have hnum := hring.num_lt
  have hchain' := hchain.frame (cont_congr hsame)
  obtain ⟨ts', D, z, hwalk, hz, hDz, hD, hts'⟩ := walk_spec (q := (dev.queues k).tailTo i)
    (k := k) h.tables hchain' (Nat.le_of_add_left_le hlen) (by
      rcases hring.kinds _ hr with ⟨d, hd, hind⟩ | hall
      · exact .inl ⟨d, hd, by rw [hsame d (by simp [hd])]; exact hind⟩
      · exact .inr fun d hd => by rw [hsame d hd]; exact hall d hd) (by
      intro a ha
      rw [points, hi] at ha
      have hfl : InFlight (dev.queues k) (C k) i a :=
        ⟨List.mem_flatten.mpr ⟨_, hr, List.mem_cons_self⟩, ha⟩
      exact ⟨⟨hk, hfl⟩, by rw [hi]; exact h.lens k hk i a hfl⟩)
  have hcount : u16 ((dev.queues k).freeNum + (i :: r).length) =
      (dev.queues k).freeNum + (i :: r).length := Nat.mod_eq_of_lt (by omega)
  have hC : (C k).Perm ((i :: r) :: (C k).erase (i :: r)) := List.perm_cons_erase hr
  have hzF : z ∈ i :: r := List.mem_of_getLast? hz
  have hzt : (dev.queues k).freeTail ≠ z := by
    rintro htz
    exact List.disjoint_of_nodup_append hring.nodup htF
      (List.mem_flatten.mpr ⟨_, hr, htz ▸ hzF⟩)
  have hDt : D (dev.queues k).freeTail =
      { (dev.queues k).desc (dev.queues k).freeTail with next := i } := by
    rw [hD _ hzt]
    exact Queue.upd_self _ _ _
  -- the written descriptors are the tail and the end of the chain
  have hframe : ∀ j, j ≠ (dev.queues k).freeTail → j ≠ z →
      ((dev.queues k).reclaimed D i z (i :: r).length).desc j = (dev.queues k).desc j := by
    intro j hjt hjz
    rw [Queue.reclaimed_ne _ _ _ _ _ hjz, hD j hjz]
    exact Queue.upd_ne _ hjt _
  refine ⟨r, ts', D, z, hr, hring.free_next _ htF, hchain', hwalk, hDz, by rw [hcount]; exact hlen, ?_, ?_,
    ?_⟩
  · exact hring.reclaim hC ⟨r, rfl⟩ hz hF (by
      rw [update_of_ne hzt, hDt]
      exact ⟨hring.free_next _ htF, rfl⟩) (by simp) hframe hcount
  · intro d hd
    have hnd := (hC.flatten.append_left (F k)).nodup_iff.mp hring.nodup
    rw [List.flatten_cons] at hnd
    refine hframe d ?_ ?_
    · rintro rfl
      exact List.disjoint_of_nodup_append hnd htF (List.mem_append_right _ hd)
    · rintro rfl
      exact List.disjoint_of_nodup_append (List.nodup_append.mp hnd).2.1 hzF hd
  · rwa [points, hi, ← points] at hts'

/-- **Collecting** a returned request, with a free descriptor. -/
theorem Good.collect (h : Good w F C) (hk : k < w.dev.numQueues)
    (hv : (w.dev.queues k).Visible) (hfree : 0 < (w.dev.queues k).freeNum) :
    ∃ x dev' F' C', virtioFromQueue w.dev k = .ok (some x, dev') ∧
      Good ⟨dev', update w.pending k (w.pending k).tail⟩ F' C' := by
  have hring := h.rings k hk
  have hpend := h.pending k hk
  obtain ⟨i, P, hP, hid⟩ := hpend.visible hv
  rw [hP] at hpend
  have hdata := hpend.flight i List.mem_cons_self
  obtain ⟨r, ts', D, z, hr, hrel⟩ := h.orderly.release hk hdata hfree
  have hcall := virtioFromQueue_eq hk hv hid (Nat.mod_eq_of_lt (hring.head_lt hdata)) hdata
    hrel.tail hrel.walk hrel.last hrel.count
  have hC : (C k).Perm ((i :: r) :: (C k).erase (i :: r)) := List.perm_cons_erase hr
  have hpend' : Pending ((w.dev.queues k).reclaimed D i z (i :: r).length) P :=
    hpend.collect rfl rfl rfl rfl fun j hj => update_of_ne hj _ _
  have hfl := hring.inFlight_reclaim hC (List.mem_cons_self (a := i)) hrel.rest
    fun h₁ h₂ => (h.tables.unique ⟨hk, h₁⟩ ⟨hk, h₂⟩).2
  have hgood := h.setQueue k hrel.ring hpend' (by
    convert hrel.tables using 4 with j d a
    by_cases hjk : j = k
    · subst hjk
      rw [if_pos rfl, hfl, and_assoc]
    · simp only [hjk, if_false]
      refine ⟨fun hj => ⟨hj, fun hia => hjk ?_⟩, fun hj => hj.1⟩
      exact (h.tables.unique hj
        ⟨hk, List.mem_flatten.mpr ⟨_, hr, List.mem_cons_self⟩, hia⟩).1) (by
    intro d a hd
    rw [hrel.rest d hd.1]
    exact h.lens k hk d a ((hfl d a).mp hd).1)
  rw [hP]
  exact ⟨_, _, _, _, hcall, hgood⟩

/-- **Any admitted step** keeps the device in order. -/
theorem Good.step (h : Good w F C) {op : Op} {w' : World} (hs : Step w op w')
    (ha : op.Admitted w) : ∃ F' C', Good w' F' C' := by
  obtain ⟨dev', pending'⟩ := w'
  obtain ⟨hl, hs⟩ := hs
  cases op with
  | submit k bufs data =>
    obtain ⟨hk, hne, hdata⟩ := hl
    obtain ⟨hcall, hp⟩ := hs
    obtain rfl : pending' = w.pending := hp
    rcases h.submit hk hne hdata ha.1 ha.2 with ⟨herr, -⟩ | ⟨_, F', C', hok, hgood⟩
    · cases hcall.symm.trans herr
    · cases hcall.symm.trans hok
      exact ⟨F', C', hgood⟩
  | complete k head len =>
    obtain ⟨hk, hi, hnew⟩ := hl
    obtain ⟨rfl, rfl⟩ := hs
    exact ⟨F, C, h.complete hk hi hnew⟩
  | collect k =>
    obtain ⟨r, hcall, hp⟩ := hs
    by_cases hv : (w.dev.queues k).Visible
    · obtain ⟨x, _, F', C', hok, hgood⟩ := h.collect hl hv (ha hv)
      cases hcall.symm.trans hok
      obtain rfl : pending' = _ := hp
      exact ⟨F', C', hgood⟩
    · cases hcall.symm.trans (virtioFromQueue_none hl hv)
      obtain rfl : pending' = w.pending := hp
      exact ⟨F, C, h⟩

theorem Boot.good (h : Boot w) : ∃ F C, Good w F C := by
  have hring : ∀ k, ∃ l, k < w.dev.numQueues → Ring (w.dev.queues k) l [] := by
    intro k
    by_cases hk : k < w.dev.numQueues
    · obtain ⟨e, he, hq⟩ := h.queues k hk
      exact ⟨_, fun _ => hq ▸ initPhysQueue_ring he⟩
    · exact ⟨[], fun hk' => absurd hk' hk⟩
  choose F hF using hring
  refine ⟨F, fun _ => [], h.threads, hF, ?_, ?_, ?_⟩
  · intro k hk
    obtain ⟨e, -, hq⟩ := h.queues k hk
    rw [hq, h.pending k]
    exact initPhysQueue_pending e
  · refine ⟨h.tables, fun t ht => (h.unused t ht).2, h.paddrs, ?_, ?_, ?_⟩
    · intro t ht
      simp [(h.unused t ht).1, InFlight]
    · simp [InFlight]
    · simp [InFlight]
  · simp [InFlight]

/-- A device with one queue of two descriptors and one table, as
`virtio_setup_device` leaves it. -/
def smallDevice : World where
  dev := {
    queues := fun _ => initPhysQueue 2
    numQueues := 1
    threads := 0
    indirect := [⟨false, List.replicate tableSize ⟨0, 0, ⟨false, false, false⟩, 0⟩, 0x1000⟩] }
  pending := fun _ => []

theorem smallDevice_boot : Boot smallDevice where
  threads := rfl
  queues _ _ := ⟨1, by decide, rfl⟩
  tables := by simp [smallDevice]
  paddrs := by simp [smallDevice]
  unused := by simp [smallDevice]
  pending _ := rfl

/-! ## Runs -/

/-- The call returns, or panics because every table is in use; no
assertion fails. -/
def Op.Answered (w : World) : Op → Prop
  | .submit k bufs data => (∃ dev', virtioToQueue w.dev k bufs data = .ok dev') ∨
      (virtioToQueue w.dev k bufs data = .error .panic ∧ ∀ t ∈ w.dev.indirect, t.inUse = true)
  | .complete _ _ _ => True
  | .collect k => ∃ x, virtioFromQueue w.dev k = .ok x

/-- The call fails an assertion, or if it returns `free_num` has wrapped. -/
def Op.Breaks (w : World) : Op → Prop
  | .submit k bufs data => ∀ dev', virtioToQueue w.dev k bufs data = .ok dev' →
      (dev'.queues k).freeNum = 2 ^ 16 - 1
  | .complete _ _ _ => False
  | .collect k => virtioFromQueue w.dev k = .error .assert

/-- The number of buffers is an `int`. -/
def Op.Counted : Op → Prop
  | .submit _ bufs _ => bufs.length < 2 ^ 31
  | _ => True

theorem Good.answered (h : Good w F C) {op : Op} (hl : op.Legal w) (ha : op.Admitted w) :
    op.Answered w := by
  cases op with
  | submit k bufs data =>
    obtain ⟨hk, hne, hdata⟩ := hl
    rcases h.submit hk hne hdata ha.1 ha.2 with hfull | ⟨dev', _, _, hok, -⟩
    · exact .inr hfull
    · exact .inl ⟨dev', hok⟩
  | complete k head len => trivial
  | collect k =>
    by_cases hv : (w.dev.queues k).Visible
    · obtain ⟨x, dev', _, _, hok, -⟩ := h.collect hl hv (ha hv)
      exact ⟨_, hok⟩
    · exact ⟨_, virtioFromQueue_none hl hv⟩

theorem Ring.full {q : Queue} {F : List Nat} {C : List (List Nat)} (h : Ring q F C)
    (hn : q.freeNum = 0) : (q.desc q.freeTail).flags.next = false :=
  h.tailOff (List.length_eq_zero_iff.mp (h.count.trans hn))

theorem Good.breaks (h : Good w F C) {op : Op} (hl : op.Legal w) (hc : op.Counted)
    (ha : ¬ op.Admitted w) : op.Breaks w := by
  cases op with
  | submit k bufs data =>
    obtain ⟨hk, hne, hdata⟩ := hl
    intro dev' hcall
    have hring := h.rings k hk
    have hlen : 0 < bufs.length := List.length_pos_iff.mpr hne
    have hlt : (w.dev.queues k).freeNum < bufs.length := by
      by_contra hle
      exact ha ⟨by omega, .inl (Nat.le_of_not_lt hle)⟩
    rw [virtioToQueue_indirect (Nat.le_of_lt hk) hdata h.threads hc hlt h.tables.nonempty] at hcall
    obtain ⟨⟨a, ts'⟩, htake, hret⟩ := bind_eq_ok.mp hcall
    cases hret
    -- the table was large enough, so there was no free descriptor
    have hsize := takeTable_le h.tables.pages htake
    have hzero : (w.dev.queues k).freeNum = 0 := by
      by_contra hne
      exact ha ⟨Nat.pos_of_ne_zero hne, .inr hsize⟩
    simp [Queue.offer, Queue.useIndirect, hzero, u16]
  | complete k head len => exact ha trivial
  | collect k =>
    have hv : (w.dev.queues k).Visible ∧ (w.dev.queues k).freeNum = 0 := by
      simpa [Op.Admitted] using ha
    have hoff := (h.rings k hl).full hv.2
    have hv' : ¬ (w.dev.queues k).lastUsed = (w.dev.queues k).usedIdx % (w.dev.queues k).num := hv.1
    have hk : k < w.dev.numQueues := hl
    by_cases hdata : (w.dev.queues k).data
        (((w.dev.queues k).usedRing (w.dev.queues k).lastUsed).id % (w.dev.queues k).num) = 0
    · simp [Op.Breaks, virtioFromQueue, hk, check, hv', hdata]
    · simp [Op.Breaks, virtioFromQueue, hk, check, hv', hdata, hoff]

/-- **Queues stay in order exactly as long as every call that uses the free
list finds a free descriptor.** Along a run whose steps are admitted, every
state is `Good`; from there an admitted call is answered, and one that is
not admitted breaks the queue. -/
theorem queues_good_while_free {w₀ w : World} {tr : List (Taken World Op)} (hb : Boot w₀)
    (h : Trace Step w₀ tr w) (hadm : ∀ x ∈ tr, x.label.Admitted x.pre) :
    (∀ x ∈ tr, (∃ F C, Good x.pre F C) ∧ ∃ F C, Good x.post F C) ∧ (∃ F C, Good w F C) ∧
    ∀ op : Op, op.Legal w →
      (op.Admitted w → op.Answered w) ∧ (op.Counted → ¬ op.Admitted w → op.Breaks w) := by
  obtain ⟨⟨F, C, hgood⟩, hall⟩ := h.invariant (fun w => ∃ F C, Good w F C)
    (fun w op => op.Admitted w) (fun ⟨_, _, hg⟩ ha hs => hg.step hs ha) hb.good hadm
  exact ⟨hall, ⟨F, C, hgood⟩, fun op hl => ⟨hgood.answered hl, hgood.breaks hl⟩⟩

/-- A request of one buffer is submitted, returned and collected. -/
theorem queues_good_one_request :
    ∃ tr w, Trace Step smallDevice tr w ∧ tr.map Taken.label =
      [.submit 0 [⟨0x5000, 64⟩] 7, .complete 0 0 64, .collect 0] ∧ ∃ F C, Good w F C := by
  obtain ⟨tr, w, h, hlabels, hadm⟩ : ∃ tr w, Trace Step smallDevice tr w ∧
      tr.map Taken.label = [.submit 0 [⟨0x5000, 64⟩] 7, .complete 0 0 64, .collect 0] ∧
      ∀ x ∈ tr, x.label.Admitted x.pre := by
    refine ⟨_, ⟨_, _⟩,
      .step (a := Op.submit 0 [⟨0x5000, 64⟩] 7) (t := ⟨_, _⟩)
        ⟨⟨by decide, by simp, by decide⟩, rfl, rfl⟩
      (.step (a := Op.complete 0 0 64) (t := ⟨_, _⟩)
        ⟨⟨by decide, by decide, by decide⟩, rfl, rfl⟩
      (.step (a := Op.collect 0) (t := ⟨_, _⟩) ⟨by exact Nat.zero_lt_one, _, rfl, rfl⟩ (.done _))), rfl, ?_⟩
    simp only [List.forall_mem_cons, List.not_mem_nil, false_imp_iff, implies_true, and_true]
    exact ⟨⟨by decide, by decide⟩, trivial, fun _ => by decide⟩
  exact ⟨tr, w, h, hlabels, (queues_good_while_free smallDevice_boot h hadm).2.1⟩

/-- A request that takes the last free descriptors is admitted by the code.
When it is returned, collecting it fails the assertion on `free_tail`, and
another request wraps `free_num`. -/
theorem full_ring_breaks :
    ∃ tr w, Trace Step smallDevice tr w ∧ tr.map Taken.label =
      [.submit 0 [⟨0x5000, 64⟩, ⟨0x6000, 64⟩] 7, .complete 0 0 64] ∧
      virtioFromQueue w.dev 0 = .error .assert ∧
      ∃ dev', virtioToQueue w.dev 0 [⟨0x7000, 64⟩] 8 = .ok dev' ∧
        (dev'.queues 0).freeNum = 65535 := by
  refine ⟨_, ⟨_, _⟩,
    .step (a := Op.submit 0 [⟨0x5000, 64⟩, ⟨0x6000, 64⟩] 7) (t := ⟨_, _⟩)
      ⟨⟨by decide, by simp, by decide⟩, rfl, rfl⟩
    (.step (a := Op.complete 0 0 64) (t := ⟨_, _⟩)
      ⟨⟨by decide, by decide, by decide⟩, rfl, rfl⟩ (.done _)), rfl, rfl, ?_⟩
  exact ⟨_, rfl, rfl⟩

end Yaos.Virtio
