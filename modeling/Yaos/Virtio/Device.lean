import Mathlib.Data.List.Perm.Subperm
import Mathlib.Data.Nat.ModEq
import Yaos.Virtio.Ring

/-!
# Returned requests and indirect tables

What the queues of a device need besides their descriptors: the part of
the used ring the driver has not read (`Pending`), and the indirect tables
that all queues share. `Tables` speaks of every queue at once: a table is
in use exactly while one descriptor in flight points at it.
-/

namespace Yaos.Virtio

open Yaos.Lib

/-! ## Returned requests -/

/-- `P` are the returned requests not yet collected, oldest first. -/
structure Pending (q : Queue) (P : List Nat) : Prop where
  last : q.lastUsed < q.num
  idx : q.usedIdx % q.num = (q.lastUsed + P.length) % q.num
  entries : ∀ i h, P[i]? = some h → (q.usedRing ((q.lastUsed + i) % q.num)).id = h
  nodup : P.Nodup
  flight : ∀ h ∈ P, q.data h ≠ 0

section Queue

variable {q : Queue} {F P : List Nat} {C : List (List Nat)}

theorem slot_ne {l i j n : Nat} (hij : i < j) (hj : j < n) : (l + i) % n ≠ (l + j) % n := by
  intro heq
  have hcong : i % n = j % n := Nat.ModEq.add_left_cancel' l heq
  rw [Nat.mod_eq_of_lt (Nat.lt_trans hij hj), Nat.mod_eq_of_lt hj] at hcong
  omega

theorem Ring.head_lt (h : Ring q F C) {i : Nat} (hi : q.data i ≠ 0) : i < q.num := by
  obtain ⟨r, hr⟩ := h.heads i hi
  exact h.mem_lt (List.mem_append_right _ (List.mem_flatten.mpr ⟨_, hr, List.mem_cons_self⟩))

theorem Pending.length_lt (h : Ring q F C) (hp : Pending q P) {i : Nat} (hi : q.data i ≠ 0)
    (hnew : i ∉ P) : P.length < q.num := by
  have hsub : i :: P ⊆ List.range q.num := by
    intro j hj
    rcases List.mem_cons.mp hj with rfl | hj
    · exact List.mem_range.mpr (h.head_lt hi)
    · exact List.mem_range.mpr (h.head_lt (hp.flight j hj))
  have hlen := (List.subperm_of_subset (List.nodup_cons.mpr ⟨hnew, hp.nodup⟩) hsub).length_le
  rw [List.length_cons, List.length_range] at hlen
  exact hlen

/-- `u16` counters agree with the ring size, which divides `2 ^ 16`. -/
theorem Ring.u16_mod (h : Ring q F C) (n : Nat) : u16 n % q.num = n % q.num := by
  obtain ⟨e, he, hn⟩ := h.pow
  rw [hn, u16]
  exact Nat.mod_mod_of_dvd n (Nat.pow_dvd_pow 2 (by omega))

theorem Pending.complete (h : Ring q F C) (hp : Pending q P) {i len : Nat} (hi : q.data i ≠ 0)
    (hnew : i ∉ P) : Pending (q.complete i len) (P ++ [i]) := by
  have hlt := hp.length_lt h hi hnew
  have hpos := h.num_lt.1
  refine ⟨hp.last, ?_, ?_, ?_, ?_⟩
  · show u16 (q.usedIdx + 1) % q.num = _
    rw [h.u16_mod, Nat.add_mod, hp.idx, ← Nat.add_mod, List.length_append]
    rfl
  · intro j x hj
    rw [List.getElem?_append] at hj
    simp only [Queue.complete]
    split at hj
    next hjlt =>
      -- an older entry is not the one just written
      have hne : (q.lastUsed + j) % q.num ≠ q.usedIdx % q.num := by
        rw [hp.idx]
        exact slot_ne hjlt hlt
      rw [Function.update_of_ne hne]
      exact hp.entries j x hj
    next hjge =>
      have hj0 : j - P.length = 0 := by
        by_contra hne
        rw [List.getElem?_eq_none (by simp; omega)] at hj
        cases hj
      have hjP : j = P.length := by omega
      subst hjP
      simp at hj
      rw [← hp.idx, Function.update_self]
      exact hj
  · exact List.nodup_append.mpr ⟨hp.nodup, List.nodup_singleton i, by
      intro a ha b hb
      rw [List.mem_singleton.mp hb]
      rintro rfl
      exact hnew ha⟩
  · intro j hj
    rcases List.mem_append.mp hj with hj | hj
    · exact hp.flight j hj
    · rw [List.mem_singleton.mp hj]
      exact hi

theorem Ring.complete (h : Ring q F C) (i len : Nat) : Ring (q.complete i len) F C :=
  ⟨h.pow, h.free, h.count, h.tail, h.tailOff, h.chains, h.heads, h.cover, h.kinds⟩

theorem Pending.submit {q' : Queue} (hp : Pending q P) (hf : SubmitFrame q q' C) :
    Pending q' P where
  last := by
    rw [hf.lastUsed, hf.num]
    exact hp.last
  idx := by
    rw [hf.usedIdx, hf.lastUsed, hf.num]
    exact hp.idx
  entries := by
    rw [hf.usedRing, hf.lastUsed, hf.num]
    exact hp.entries
  nodup := hp.nodup
  flight h hh := hf.data h (hp.flight h hh)

theorem Pending.visible (hp : Pending q P) (hv : q.lastUsed ≠ q.usedIdx % q.num) :
    ∃ h P', P = h :: P' ∧ (q.usedRing q.lastUsed).id = h := by
  cases P with
  | nil =>
    refine absurd ?_ hv
    rw [hp.idx, List.length_nil, Nat.add_zero, Nat.mod_eq_of_lt hp.last]
  | cons h P' =>
    refine ⟨h, P', rfl, ?_⟩
    have := hp.entries 0 h rfl
    rwa [Nat.add_zero, Nat.mod_eq_of_lt hp.last] at this

theorem Pending.collect {q' : Queue} {h : Nat} (hp : Pending q (h :: P)) (hnum : q'.num = q.num)
    (hlast : q'.lastUsed = (q.lastUsed + 1) % q.num) (hidx : q'.usedIdx = q.usedIdx)
    (hring : q'.usedRing = q.usedRing) (hdata : ∀ i, i ≠ h → q'.data i = q.data i) :
    Pending q' P := by
  have hpos : 0 < q.num := Nat.lt_of_le_of_lt (Nat.zero_le _) hp.last
  obtain ⟨hh, hnd⟩ := List.nodup_cons.mp hp.nodup
  refine ⟨?_, ?_, ?_, hnd, ?_⟩
  · rw [hlast, hnum]
    exact Nat.mod_lt _ hpos
  · rw [hidx, hlast, hnum, hp.idx, Nat.mod_add_mod, List.length_cons]
    congr 1
    omega
  · intro i x hi
    have := hp.entries (i + 1) x (by simpa using hi)
    rw [hring, hlast, hnum, Nat.mod_add_mod, Nat.add_assoc, Nat.add_comm 1]
    exact this
  · intro i hi
    rw [hdata i (fun he => hh (he ▸ hi))]
    exact hp.flight i (List.mem_cons_of_mem h hi)

theorem initPhysQueue_ring {e : Nat} (he : e ≤ 15) :
    Ring (initPhysQueue (2 ^ e)) (List.range (2 ^ e)) [] where
  pow := ⟨e, he, rfl⟩
  free := by
    refine ⟨0, ?_⟩
    have hpos := Nat.two_pow_pos e
    -- the path from descriptor `k` on
    suffices ∀ d k, k + d + 1 = 2 ^ e →
        Seg (cont (initPhysQueue (2 ^ e)).desc) (some k) (List.range' k (d + 1)) (some 0) by
      have := this (2 ^ e - 1) 0 (by omega)
      rwa [Nat.sub_add_cancel hpos, ← List.range_eq_range'] at this
    have hcont : ∀ k, cont (initPhysQueue (2 ^ e)).desc k = some ((k + 1) % 2 ^ e) := by
      intro k
      simp [cont, initPhysQueue, Flags.onlyNext, Nat.and_two_pow_sub_one_eq_mod]
    intro d
    induction d with
    | zero =>
      intro k hk
      refine .cons ?_
      rw [hcont, show k + 1 = 2 ^ e by omega, Nat.mod_self]
      exact .nil _
    | succ d ih =>
      intro k hk
      rw [List.range'_succ]
      refine .cons ?_
      rw [hcont, Nat.mod_eq_of_lt (by omega)]
      exact ih (k + 1) (by omega)
  count := List.length_range
  tail y hy := by
    rw [List.getLast?_range] at hy
    split at hy
    · cases hy
    · simpa [initPhysQueue] using hy
  tailOff hnil := by
    have := congrArg List.length hnil
    simp at this
  chains := by simp
  heads h hh := by simp [initPhysQueue] at hh
  cover := by simp [initPhysQueue]
  kinds := by simp

theorem initPhysQueue_pending (e : Nat) : Pending (initPhysQueue (2 ^ e)) [] where
  last := Nat.two_pow_pos e
  idx := rfl
  entries := by simp
  nodup := List.nodup_nil
  flight := by simp

end Queue

/-! ## Indirect tables -/

/-- The descriptors that fit into the 4K page of a table. -/
def tableSize : Nat := 256

/-- The tables against what points at them: `R k d a` is descriptor `d` of
queue `k`, in flight, with the address `a` of a table. -/
structure Tables (ts : List Table) (R : Nat → Nat → Nat → Prop) : Prop where
  nonempty : ts ≠ []
  pages : ∀ t ∈ ts, t.descs.length = tableSize
  paddrs : (ts.map Table.paddr).Nodup
  used : ∀ t ∈ ts, t.inUse = true ↔ ∃ k d, R k d t.paddr
  unique : ∀ {k d k' d' a}, R k d a → R k' d' a → k = k' ∧ d = d'
  valid : ∀ {k d a}, R k d a → ∃ t ∈ ts, t.paddr = a

section Tables

variable {ts : List Table} {R R' : Nat → Nat → Nat → Prop}

theorem Tables.set {l r : List Table} {t t' : Table} (h : Tables (l ++ t :: r) R)
    (hp : t'.paddr = t.paddr) (hl : t'.descs.length = t.descs.length)
    (hused : t'.inUse = true ↔ ∃ k d, R' k d t.paddr)
    (hother : ∀ k d a, a ≠ t.paddr → (R' k d a ↔ R k d a))
    (huniq : ∀ {k d k' d'}, R' k d t.paddr → R' k' d' t.paddr → k = k' ∧ d = d') :
    Tables (l ++ t' :: r) R' := by
  have hmap : (l ++ t' :: r).map Table.paddr = (l ++ t :: r).map Table.paddr := by simp [hp]
  have hnd := h.paddrs
  refine ⟨by simp, ?_, hmap ▸ hnd, ?_, ?_, ?_⟩
  · intro u hu
    rw [List.mem_append, List.mem_cons] at hu
    rcases hu with hu | rfl | hu
    · exact h.pages u (by simp [hu])
    · rw [hl]
      exact h.pages t (by simp)
    · exact h.pages u (by simp [hu])
  · intro u hu
    rcases List.mem_append.mp hu with hl | hr
    · have hne : u.paddr ≠ t.paddr := by
        rw [List.map_append] at hnd
        exact fun heq => List.disjoint_of_nodup_append hnd (List.mem_map_of_mem hl)
          (by simp [heq])
      simp only [hother _ _ _ hne]
      exact h.used u (List.mem_append_left _ hl)
    · rcases List.mem_cons.mp hr with rfl | hr
      · rw [hp]
        exact hused
      · have hne : u.paddr ≠ t.paddr := by
          rw [List.map_append, List.map_cons] at hnd
          intro heq
          refine (List.nodup_cons.mp (List.nodup_append.mp hnd).2.1).1 ?_
          rw [← heq]
          exact List.mem_map_of_mem hr
        simp only [hother _ _ _ hne]
        exact h.used u (List.mem_append_right _ (List.mem_cons_of_mem _ hr))
  · intro k d k' d' a h₁ h₂
    by_cases ha : a = t.paddr
    · subst ha
      exact huniq h₁ h₂
    · exact h.unique ((hother _ _ _ ha).mp h₁) ((hother _ _ _ ha).mp h₂)
  · intro k d a hR
    suffices a ∈ (l ++ t' :: r).map Table.paddr from List.mem_map.mp this
    rw [hmap]
    by_cases ha : a = t.paddr
    · simp [ha]
    · obtain ⟨u, hu, rfl⟩ := h.valid ((hother _ _ _ ha).mp hR)
      exact List.mem_map_of_mem hu

theorem fillTable_ok {bufs : List AddrSize} {ds : List Desc} {i : Nat} (hne : bufs ≠ [])
    (hle : bufs.length ≤ ds.length) :
    ∃ ds', fillTable ds i bufs = .ok ds' ∧ ds'.length = ds.length := by
  induction bufs generalizing ds i with
  | nil => exact absurd rfl hne
  | cons b bs ih =>
    cases ds with
    | nil => simp at hle
    | cons d ds =>
      cases bs with
      | nil => exact ⟨_, rfl, rfl⟩
      | cons b' bs =>
        have hle' : (b' :: bs).length ≤ ds.length := by simpa using hle
        obtain ⟨ds', hds, hlen⟩ := ih (i := i + 1) (by simp) hle'
        refine ⟨{ useVringDesc d b with next := u16 (i + 1) } :: ds', ?_, by simp [hlen]⟩
        rw [fillTable, hds]
        · rfl
        · simp

theorem fillTable_le {bufs : List AddrSize} {ds ds' : List Desc} {i : Nat}
    (h : fillTable ds i bufs = .ok ds') : bufs.length ≤ ds.length := by
  fun_induction fillTable ds i bufs generalizing ds' with
  | case1 => cases h
  | case2 => cases h
  | case3 => simp
  | case4 d ds i b bs hbs ih =>
    obtain ⟨ds'', hds, -⟩ := bind_eq_ok.mp h
    simpa using ih hds

theorem takeTable_cases {bufs : List AddrSize} (hne : bufs ≠ [])
    (hlen : ∀ t ∈ ts, bufs.length ≤ t.descs.length) :
    (takeTable bufs ts = .error .panic ∧ ∀ t ∈ ts, t.inUse = true) ∨
    ∃ l t r ds, ts = l ++ t :: r ∧ t.inUse = false ∧ ds.length = t.descs.length ∧
      takeTable bufs ts =
        .ok (t.paddr, l ++ { t with inUse := true, descs := ds } :: r) := by
  induction ts with
  | nil => exact .inl ⟨rfl, by simp⟩
  | cons t ts ih =>
    cases hu : t.inUse with
    | false =>
      obtain ⟨ds, hds, hl⟩ := fillTable_ok (i := 0) hne (hlen t List.mem_cons_self)
      refine .inr ⟨[], t, ts, ds, rfl, hu, hl, ?_⟩
      simp [takeTable, hu, hds]
    | true =>
      rcases ih fun u hu => hlen u (List.mem_cons_of_mem t hu) with
        ⟨herr, hall⟩ | ⟨l, u, r, ds, rfl, huu, hl, hok⟩
      · exact .inl ⟨by simp [takeTable, hu, herr], by simpa [hu] using hall⟩
      · exact .inr ⟨t :: l, u, r, ds, rfl, huu, hl, by simp [takeTable, hu, hok]⟩

theorem takeTable_le {bufs : List AddrSize} {a n : Nat} {ts' : List Table}
    (hlen : ∀ t ∈ ts, t.descs.length = n) (h : takeTable bufs ts = .ok (a, ts')) :
    bufs.length ≤ n := by
  induction ts generalizing ts' with
  | nil => cases h
  | cons t ts ih =>
    cases hu : t.inUse with
    | false =>
      simp only [takeTable, hu, Bool.false_eq_true, if_false] at h
      obtain ⟨ds, hds, -⟩ := bind_eq_ok.mp h
      rw [← hlen t List.mem_cons_self]
      exact fillTable_le hds
    | true =>
      simp only [takeTable, hu, if_true] at h
      obtain ⟨⟨_, ts''⟩, hts, hret⟩ := bind_eq_ok.mp h
      cases hret
      exact ih (fun u hu => hlen u (List.mem_cons_of_mem t hu)) hts

theorem clearTable_ok {a : Nat} (hnd : (ts.map Table.paddr).Nodup) {t : Table} (ht : t ∈ ts)
    (ha : t.paddr = a) (hu : t.inUse = true) :
    ∃ l r, ts = l ++ t :: r ∧ clearTable a ts = .ok (l ++ { t with inUse := false } :: r) := by
  induction ts with
  | nil => cases ht
  | cons u ts ih =>
    rw [List.map_cons, List.nodup_cons] at hnd
    rcases List.mem_cons.mp ht with rfl | ht
    · exact ⟨[], ts, rfl, by simp [clearTable, ha, hu, check]⟩
    · have hne : u.paddr ≠ a := by
        rintro rfl
        exact hnd.1 (ha ▸ List.mem_map_of_mem ht)
      obtain ⟨l, r, rfl, hok⟩ := ih hnd.2 ht
      exact ⟨u :: l, r, rfl, by simp [clearTable, hne, hok]⟩

/-- An unused table is taken for descriptor `d` of queue `k`. -/
theorem Tables.take {l r : List Table} {t : Table} (h : Tables (l ++ t :: r) R) (t' : Table)
    (hu : t.inUse = false) (hp : t'.paddr = t.paddr) (hl : t'.descs.length = t.descs.length)
    (hu' : t'.inUse = true) (k d : Nat) :
    Tables (l ++ t' :: r) fun k' d' a => R k' d' a ∨ (k' = k ∧ d' = d ∧ a = t.paddr) := by
  have hnone : ∀ k' d', ¬ R k' d' t.paddr := by
    intro k' d' hR
    have := (h.used t (by simp)).mpr ⟨k', d', hR⟩
    simp [hu] at this
  refine h.set hp hl ?_ ?_ ?_
  · exact ⟨fun _ => ⟨k, d, .inr ⟨rfl, rfl, rfl⟩⟩, fun _ => hu'⟩
  · intro k' d' a ha
    simp [ha]
  · intro k₁ d₁ k₂ d₂ h₁ h₂
    simp only [hnone, false_or, and_true] at h₁ h₂
    exact ⟨h₁.1.trans h₂.1.symm, h₁.2.trans h₂.2.symm⟩

theorem Tables.clear (h : Tables ts R) {k d a : Nat} (hR : R k d a) :
    ∃ ts', clearTable a ts = .ok ts' ∧ Tables ts' fun k' d' b => R k' d' b ∧ b ≠ a := by
  obtain ⟨t, ht, rfl⟩ := h.valid hR
  obtain ⟨l, r, rfl, hok⟩ := clearTable_ok h.paddrs ht rfl ((h.used t ht).mpr ⟨k, d, hR⟩)
  refine ⟨_, hok, h.set rfl rfl (by simp) ?_ (by simp)⟩
  intro k' d' b hb
  simp [hb]

/-- The walk over a chain in flight ends in its last descriptor `z`, writes
no other one, and gives the table back that the chain points at. -/
theorem walk_spec {q : Queue} {c : List Nat} {k h n : Nat} (hts : Tables ts R)
    (hchain : Chain (cont q.desc) (some h) c) (hn : c.length ≤ n)
    (hkind : (∃ d, c = [d] ∧ (q.desc d).flags.indirect = true) ∨
      ∀ d ∈ c, (q.desc d).flags.indirect = false)
    (hR : ∀ a, points q.desc h = some a → R k h a ∧ 0 < (q.desc h).len) :
    ∃ ts' D z, walk n ts q h 0 = .ok (ts', { q with desc := D }, z, c.length) ∧
      c.getLast? = some z ∧ (D z).flags.next = false ∧ (∀ i, i ≠ z → D i = q.desc i) ∧
      Tables ts' fun k' d b => R k' d b ∧ points q.desc h ≠ some b := by
  obtain ⟨r, rfl, hr⟩ := Chain.eq_cons hchain
  rcases hkind with ⟨d, heq, hd⟩ | hall
  · -- an indirect request is a single descriptor
    obtain ⟨rfl, rfl⟩ : h = d ∧ r = [] := by simpa using heq
    have hp : points q.desc h = some (q.desc h).addr := by simp [points, hd]
    obtain ⟨hRk, hlen⟩ := hR _ hp
    obtain ⟨ts', hclear, htables⟩ := hts.clear hRk
    have hnext : (q.desc h).flags.next = false := next_false_of_cont (hchain.next_last rfl)
    obtain ⟨m, rfl⟩ : ∃ m, n = m + 1 := ⟨n - 1, by simp at hn; omega⟩
    refine ⟨ts', (q.upd h fun d =>
      { d with flags := { d.flags with indirect := false }, len := 0 }).desc, h, ?_, rfl, ?_, ?_, ?_⟩
    · simp only [walk, clearIfIndirect, hd, if_true, clearIndirectTable, hlen, decide_true, check,
        ok_bind, hclear, hnext]
      rfl
    · simpa using hnext
    · intro i hi
      exact q.upd_ne hi _
    · simpa only [hp, ne_eq, Option.some.injEq, eq_comm] using htables
  · obtain ⟨z, hz, hw⟩ := walk_direct ts (n := 0) hchain hn hall
    have hp : points q.desc h = none := by simp [points, hall h List.mem_cons_self]
    refine ⟨ts, q.desc, z, by simpa using hw, hz, next_false_of_cont (hchain.next_last hz),
      fun _ _ => rfl, ?_⟩
    simpa [hp] using hts

end Tables

end Yaos.Virtio
