import Yaos.VirtioNet.Model

/-!
# No packet is lost

Every round of a loop moves one packet from one place to another, and a
completion moves it inside its queue. So in every state each packet is at one
place, `in_rx` is the number of packets in the RX queue, and what the device
has been given are the packet's own header and data, to write to.
-/

namespace Yaos.VirtioNet

open Yaos.Lib Yaos.Virtio Function

/-- The descriptors that the buffers become: the packet's header and its data,
each one writable. -/
def Writable (p : Packet) (bufs : List AddrSize) : Prop :=
  ∀ v : Desc, bufs.map (useVringDesc v) =
    [⟨p.phdr, hdrSize, ⟨true, true, false⟩, v.next⟩,
      ⟨p.pdata, maxPackSize, ⟨true, true, false⟩, v.next⟩]

/-- The packet has the header and the data of its index. -/
structure Buffers.Own (b : Buffers) (i : Pkt) (p : Packet) : Prop where
  idx : p.idx = i
  vhdr : p.vhdr = (b.hdrsVir + i * hdrSize) % 2 ^ 64
  phdr : p.phdr = (b.hdrsPhys + i * hdrSize) % 2 ^ 64
  vdata : p.vdata = (b.dataVir + i * maxPackSize) % 2 ^ 64
  pdata : p.pdata = (b.dataPhys + i * maxPackSize) % 2 ^ 64

/-- The two lists are `F` and `R`, and every packet is at one place. -/
structure Placed (s : State) (F R : List Pkt) : Prop where
  free : TailQueue.Holds s.next s.freeList F
  recv : TailQueue.Holds s.next s.recvList R
  once : ∀ p, F.count p + R.count p + s.rx.cookies.count p + s.tx.cookies.count p = 1

structure Accounted (b : Buffers) (s : State) : Prop where
  placed : ∃ F R, Placed s F R
  counted : s.inRx = s.rx.cookies.length
  bounds : 0 ≤ s.inRx ∧ s.inRx ≤ bufPackets / 2
  writable : ∀ r ∈ s.rx.submitted, Writable (s.packets r.cookie) r.bufs
  own : ∀ i, b.Own i (s.packets i)

variable {b : Buffers} {s t : State} {q q' : Vq} {p : Pkt} {len : Nat} {F R : List Pkt}

/-! ## Queues -/

theorem Vq.fromQueue_eq_some (h : q.fromQueue = some ((p, len), q')) :
    q'.submitted = q.submitted ∧ q.cookies.Perm (p :: q'.cookies) := by
  rw [Vq.fromQueue] at h
  split at h
  · cases h
  next e rest hq =>
    cases h
    refine ⟨rfl, ?_⟩
    rw [Vq.cookies, hq, List.map_cons]
    exact List.perm_middle

theorem Vq.Completes.cookies_perm (h : q.Completes q') : q'.cookies.Perm q.cookies := by
  obtain ⟨a, r, b, len, hq, rfl⟩ := h
  rw [List.perm_iff_count]
  intro x
  simp only [Vq.cookies, hq, List.map_append, List.map_cons, List.map_nil, List.count_append,
    List.count_cons, List.count_nil]
  omega

theorem Vq.Completes.submitted_subset (h : q.Completes q') : q'.submitted ⊆ q.submitted := by
  obtain ⟨a, r, b, len, hq, rfl⟩ := h
  rw [hq]
  intro x hx
  rcases List.mem_append.mp hx with hx | hx
  · exact List.mem_append_left _ hx
  · exact List.mem_append_right _ (List.mem_cons_of_mem r hx)

theorem Vq.toQueue_cookies_perm (q : Vq) (bufs : List AddrSize) (p : Pkt) :
    (q.toQueue bufs p).cookies.Perm (p :: q.cookies) := by
  rw [Vq.cookies, Vq.toQueue, List.map_append, List.append_assoc]
  exact List.perm_middle

/-! ## Buffers -/

theorem or_one {n : Nat} (h : n % 2 = 0) : n ||| 1 = n + 1 := by
  obtain ⟨k, rfl⟩ := Nat.dvd_of_mod_eq_zero h
  exact (Nat.two_pow_add_eq_or_of_lt (i := 1) (by decide) k).symm

theorem Packet.bufs_writable (x : Packet) (hh : x.phdr % 2 = 0) (hd : x.pdata % 2 = 0) :
    Writable x x.bufs := by
  intro v
  have haddr : ∀ n, n % 2 = 0 → (n + 1) / 2 * 2 = n ∧ (n + 1) % 2 = 1 := by omega
  simp only [Packet.bufs, List.map_cons, List.map_nil, useVringDesc, or_one hh, or_one hd,
    haddr _ hh, haddr _ hd]
  rfl

/-! ## Rounds -/

theorem Placed.not_mem_of_rx (h : Placed s F R) (hp : p ∈ s.rx.cookies) : p ∉ F ∧ p ∉ R := by
  have honce := h.once p
  have hpos := List.count_pos_iff.mpr hp
  exact ⟨List.count_eq_zero.mp (by omega), List.count_eq_zero.mp (by omega)⟩

theorem Placed.not_mem_of_tx (h : Placed s F R) (hp : p ∈ s.tx.cookies) : p ∉ F ∧ p ∉ R := by
  have honce := h.once p
  have hpos := List.count_pos_iff.mpr hp
  exact ⟨List.count_eq_zero.mp (by omega), List.count_eq_zero.mp (by omega)⟩

theorem Placed.disjoint (h : Placed s F R) (hF : p ∈ F) : p ∉ R := by
  have honce := h.once p
  have hpos := List.count_pos_iff.mpr hF
  exact List.count_eq_zero.mp (by omega)

theorem Accounted.goto (h : Accounted b s) (pc : Pc) : Accounted b { s with pc := pc } := by
  obtain ⟨F, R, hpl⟩ := h.placed
  exact { h with placed := ⟨F, R, hpl.free, hpl.recv, hpl.once⟩ }

theorem Accounted.checkRxOne (h : Accounted b s) : Accounted b (checkRxOne s) := by
  obtain ⟨F, R, hpl⟩ := h.placed
  rw [VirtioNet.checkRxOne]
  split
  · exact h.goto _
  next p len rx hq =>
    obtain ⟨hsub, hperm⟩ := Vq.fromQueue_eq_some hq
    have hp : p ∈ s.rx.cookies := hperm.mem_iff.mpr List.mem_cons_self
    obtain ⟨hpF, hpR⟩ := hpl.not_mem_of_rx hp
    obtain ⟨hrecv, hframe⟩ := hpl.recv.append hpR
    have hlen := hperm.length_eq
    rw [List.length_cons] at hlen
    -- only the length of the packet is written
    have hpacket : ∀ i, update s.packets p { s.packets p with len := len } i =
        { s.packets i with
          len := (update s.packets p { s.packets p with len := len } i).len } := by
      intro i
      by_cases hi : i = p
      · subst hi
        rw [update_self]
      · rw [update_of_ne hi]
    refine ⟨⟨F, R ++ [p], ?_, hrecv, fun x => ?_⟩, ?_, ?_, ?_, fun i => ?_⟩
    · exact hpl.free.frame fun y hy => hframe y (ne_of_mem_of_not_mem hy hpF) (hpl.disjoint hy)
    · have honce := hpl.once x
      have hcount := hperm.count_eq x
      rw [List.count_cons] at hcount
      rw [List.count_append, List.count_singleton]
      dsimp only
      omega
    · have := h.counted
      dsimp only
      omega
    · have := h.counted
      have := h.bounds
      dsimp only
      omega
    · intro r hr
      dsimp only at hr ⊢
      rw [hsub] at hr
      rw [hpacket]
      exact h.writable r hr
    · dsimp only
      rw [hpacket]
      obtain ⟨h₁, h₂, h₃, h₄, h₅⟩ := h.own i
      exact ⟨h₁, h₂, h₃, h₄, h₅⟩

theorem Accounted.checkTxOne (h : Accounted b s) : Accounted b (checkTxOne s) := by
  obtain ⟨F, R, hpl⟩ := h.placed
  rw [VirtioNet.checkTxOne]
  split
  · exact h.goto _
  next p len tx hq =>
    obtain ⟨-, hperm⟩ := Vq.fromQueue_eq_some hq
    have hp : p ∈ s.tx.cookies := hperm.mem_iff.mpr List.mem_cons_self
    obtain ⟨hpF, hpR⟩ := hpl.not_mem_of_tx hp
    refine { h with placed := ⟨p :: F, R, hpl.free.insertHead hpF, ?_, fun x => ?_⟩ }
    · exact hpl.recv.frame fun y hy => update_of_ne (ne_of_mem_of_not_mem hy hpR) _ _
    · have honce := hpl.once x
      have hcount := hperm.count_eq x
      rw [List.count_cons] at hcount
      rw [List.count_cons]
      dsimp only
      omega

theorem Accounted.refillOne (h : Accounted b s) (hrun : refillOne s = .ok t) : Accounted b t := by
  obtain ⟨F, R, hpl⟩ := h.placed
  have hstay := h.goto .idle
  rw [VirtioNet.refillOne] at hrun
  split at hrun
  case isFalse =>
    cases hrun
    exact hstay
  case isTrue hfew =>
    split at hrun
    · cases hrun
      exact hstay
    next p hhead =>
      obtain ⟨_, hh, hrun⟩ := bind_eq_ok.mp hrun
      obtain ⟨_, hd, hrun⟩ := bind_eq_ok.mp hrun
      rw [check_eq_ok, decide_eq_true_eq] at hh hd
      cases hrun
      have hchain := hpl.free.chain
      rw [hhead] at hchain
      obtain ⟨F', rfl, -⟩ := Chain.eq_cons hchain
      have hperm := s.rx.toQueue_cookies_perm (s.packets p).bufs p
      have hlen := hperm.length_eq
      rw [List.length_cons] at hlen
      refine ⟨⟨F', R, hpl.free.removeHead, hpl.recv, fun x => ?_⟩, ?_, ?_, ?_, h.own⟩
      · have honce := hpl.once x
        have hcount := hperm.count_eq x
        rw [List.count_cons] at honce hcount
        dsimp only
        omega
      · have := h.counted
        dsimp only
        omega
      · have := h.bounds
        dsimp only
        omega
      · intro r hr
        rcases List.mem_append.mp hr with hr | hr
        · exact h.writable r hr
        · rw [List.mem_singleton.mp hr]
          exact (s.packets p).bufs_writable hh hd

theorem Accounted.rxDone {rx : Vq} (h : Accounted b s) (hq : s.rx.Completes rx) :
    Accounted b { s with rx := rx } := by
  obtain ⟨F, R, hpl⟩ := h.placed
  have hperm := hq.cookies_perm
  refine ⟨⟨F, R, hpl.free, hpl.recv, fun x => ?_⟩, ?_, h.bounds,
    fun r hr => h.writable r (hq.submitted_subset hr), h.own⟩
  · rw [hperm.count_eq x]
    exact hpl.once x
  · rw [hperm.length_eq]
    exact h.counted

theorem Accounted.txDone {tx : Vq} (h : Accounted b s) (hq : s.tx.Completes tx) :
    Accounted b { s with tx := tx } := by
  obtain ⟨F, R, hpl⟩ := h.placed
  refine { h with placed := ⟨F, R, hpl.free, hpl.recv, fun x => ?_⟩ }
  rw [hq.cookies_perm.count_eq x]
  exact hpl.once x

theorem Accounted.step {e : Event} (h : Accounted b s) (hs : Step s e t) : Accounted b t := by
  cases e with
  | check =>
    obtain ⟨-, rfl⟩ := hs
    exact h.goto _
  | refill =>
    obtain ⟨-, rfl⟩ := hs
    exact h.goto _
  | round =>
    have hrun : advance s = .ok t := hs
    rw [advance] at hrun
    split at hrun
    · cases hrun
      exact h
    · cases hrun
      exact h.checkRxOne
    · cases hrun
      exact h.checkTxOne
    · exact h.refillOne hrun
  | rxDone =>
    obtain ⟨rx, hq, rfl⟩ := hs
    exact h.rxDone hq
  | txDone =>
    obtain ⟨tx, hq, rfl⟩ := hs
    exact h.txDone hq

/-! ## Initialisation and runs -/

/-- The driver before its queues are initialised: nothing was submitted. -/
structure Fresh (s : State) : Prop where
  inRx : s.inRx = 0
  rx : s.rx = ⟨[], []⟩
  tx : s.tx = ⟨[], []⟩
  pc : s.pc = .idle

/-- Packets that are not on `free_list` are put there, the last one first. -/
theorem foldl_initOne (l : List Pkt) (hl : l.Nodup) (hF : TailQueue.Holds s.next s.freeList F)
    (hlF : ∀ p ∈ l, p ∉ F) :
    ∃ packets next free, l.foldl (initOne b) s =
        { s with packets := packets, next := next, freeList := free } ∧
      TailQueue.Holds next free (l.reverse ++ F) ∧
      (∀ i ∈ l, b.Own i (packets i)) ∧ ∀ i, i ∉ l → packets i = s.packets i := by
  induction l generalizing s F with
  | nil => exact ⟨_, _, _, rfl, hF, by simp, fun _ _ => rfl⟩
  | cons x l ih =>
    obtain ⟨hx, hl'⟩ := List.nodup_cons.mp hl
    have hins : TailQueue.Holds (initOne b s x).next (initOne b s x).freeList (x :: F) :=
      hF.insertHead (hlF x List.mem_cons_self)
    have hlF' : ∀ p ∈ l, p ∉ x :: F := by
      intro p hp hmem
      rcases List.mem_cons.mp hmem with rfl | hmem
      · exact hx hp
      · exact hlF p (List.mem_cons_of_mem x hp) hmem
    obtain ⟨packets, next, free, heq, hholds, hown, hkeep⟩ := ih hl' hins hlF'
    refine ⟨packets, next, free, heq, ?_, fun i hi => ?_, fun i hi => ?_⟩
    · rw [List.reverse_cons, List.append_assoc]
      exact hholds
    · rcases List.mem_cons.mp hi with rfl | hi
      · rw [hkeep i hx]
        show b.Own i (update s.packets i _ i)
        rw [update_self]
        exact ⟨rfl, rfl, rfl, rfl, rfl⟩
      · exact hown i hi
    · obtain ⟨hne, hil⟩ := not_or.mp (mt List.mem_cons.mpr hi)
      rw [hkeep i hil]
      exact update_of_ne hne _ _

theorem Fresh.accounted (h : Fresh s) : Accounted b (virtioNetInitQueues b s) := by
  obtain ⟨packets, next, free, heq, hholds, hown, -⟩ :=
    foldl_initOne (b := b) (s := { s with freeList := .empty, recvList := .empty })
      (List.finRange bufPackets) (List.nodup_finRange _) (TailQueue.holds_empty _) (by simp)
  rw [virtioNetInitQueues, heq, h.inRx, h.rx, h.tx]
  have hbounds : (0 : Int) ≤ 0 ∧ (0 : Int) ≤ bufPackets / 2 := by decide
  refine ⟨⟨_, [], hholds, TailQueue.holds_empty _, fun p => ?_⟩, rfl, hbounds, by simp,
    fun i => hown i (List.mem_finRange i)⟩
  have hone : (List.finRange bufPackets).count p = 1 :=
    List.count_eq_one_of_mem (List.nodup_finRange _) (List.mem_finRange p)
  simp [Vq.cookies, hone]

theorem Accounted.advance_returns (h : Accounted b s) (hh : b.hdrsPhys % 2 = 0)
    (hd : b.dataPhys % 2 = 0) : ∃ t, advance s = .ok t := by
  -- the addresses of every packet are even
  have heven : ∀ p, (s.packets p).phdr % 2 = 0 ∧ (s.packets p).pdata % 2 = 0 := by
    intro p
    rw [(h.own p).phdr, (h.own p).pdata]
    simp only [hdrSize, maxPackSize]
    omega
  rw [advance]
  split
  · exact ⟨_, rfl⟩
  · exact ⟨_, rfl⟩
  · exact ⟨_, rfl⟩
  · rw [VirtioNet.refillOne]
    split
    · split
      · exact ⟨_, rfl⟩
      next p _ =>
        obtain ⟨hp, hp'⟩ := heven p
        simp only [check, hp, hp', decide_true, if_true, ok_bind]
        exact ⟨_, rfl⟩
    · exact ⟨_, rfl⟩

/-- **No packet is lost or doubled**, whatever the order of calls, rounds and
completions. If the memory for headers and data begins at even addresses, as
memory from `yaos_malloc` does, no assertion fails. -/
theorem packets_accounted {tr : List (Taken State Event)} (hfresh : Fresh s)
    (h : Trace Step (virtioNetInitQueues b s) tr t) :
    (Accounted b t ∧ ∀ x ∈ tr, Accounted b x.pre ∧ Accounted b x.post) ∧
      (b.hdrsPhys % 2 = 0 → b.dataPhys % 2 = 0 → ∃ u, advance t = .ok u) := by
  have hrun := h.always (Accounted b) (fun hs hstep => hs.step hstep) hfresh.accounted
  exact ⟨hrun, hrun.1.advance_returns⟩

def bootState : State where
  packets _ := ⟨0, 0, 0, 0, 0, 0⟩
  next _ := none
  freeList := .empty
  recvList := .empty
  inRx := 0
  rx := ⟨[], []⟩
  tx := ⟨[], []⟩
  pc := .idle

/-- One packet is given to the device and comes back while the loop runs. -/
theorem packets_accounted_one :
    ∃ tr t, Trace Step (virtioNetInitQueues ⟨0x1000, 0x1000, 0x2000, 0x2000⟩ bootState) tr t ∧
      tr.length = 3 ∧ t.inRx = 1 ∧ t.rx.returned = [(⟨63, by decide⟩, 60)] ∧
      Accounted ⟨0x1000, 0x1000, 0x2000, 0x2000⟩ t := by
  have htr : Trace Step (virtioNetInitQueues ⟨0x1000, 0x1000, 0x2000, 0x2000⟩ bootState)
      [⟨_, .refill, _⟩, ⟨_, .round, _⟩, ⟨_, .rxDone, _⟩] _ :=
    .step ⟨rfl, rfl⟩ (.step rfl (.step ⟨_, ⟨[], _, [], 60, rfl, rfl⟩, rfl⟩ (.done _)))
  exact ⟨_, _, htr, rfl, rfl, rfl, (packets_accounted ⟨rfl, rfl, rfl, rfl⟩ htr).1.1⟩

end Yaos.VirtioNet
