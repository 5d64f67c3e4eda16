import Mathlib.Data.List.Perm.Basic
import Yaos.Lib.Seg
import Yaos.Virtio.Model

/-!
# The descriptors of one queue

`cont` follows `next` as long as the `NEXT` flag is set. The free
descriptors are a segment of `cont` from `free_head` that does not end;
the request submitted at `h` is the complete list of `cont` from `h`.
`Ring q F C` says that `F` and the chains `C` are these lists and that
together they are the ring.

Each operation has one lemma: a direct request takes a front of `F`, an
indirect one its first descriptor, and a returned chain goes to the end
of `F`. The last needs `F` to have an end: with no free descriptor left,
`free_tail` is a descriptor of a request in flight (`tailOff`).
-/

namespace Yaos.Virtio

open Yaos.Lib

variable {q : Queue} {F : List Nat} {C : List (List Nat)}

/-- The descriptor after `i`, if the `NEXT` flag says there is one. -/
def cont (desc : Nat → Desc) (i : Nat) : Option Nat :=
  if (desc i).flags.next then some (desc i).next else none

/-- The address of the indirect table that descriptor `i` points at. -/
def points (desc : Nat → Desc) (i : Nat) : Option Nat :=
  if (desc i).flags.indirect then some (desc i).addr else none

/-- The queue between calls: `F` is the free list and `C` are the chains in
flight. -/
structure Ring (q : Queue) (F : List Nat) (C : List (List Nat)) : Prop where
  pow : ∃ e ≤ 15, q.num = 2 ^ e
  free : ∃ x, Seg (cont q.desc) (some q.freeHead) F (some x)
  count : F.length = q.freeNum
  tail : ∀ y, F.getLast? = some y → q.freeTail = y
  tailOff : F = [] → (q.desc q.freeTail).flags.next = false
  chains : ∀ c ∈ C, ∃ h r, c = h :: r ∧ Chain (cont q.desc) (some h) c ∧ q.data h ≠ 0
  heads : ∀ h, q.data h ≠ 0 → ∃ r, h :: r ∈ C
  cover : (F ++ C.flatten).Perm (List.range q.num)
  kinds : ∀ c ∈ C, (∃ d, c = [d] ∧ (q.desc d).flags.indirect = true) ∨
    ∀ d ∈ c, (q.desc d).flags.indirect = false

/-! ## Consequences -/

theorem Ring.num_lt (h : Ring q F C) : 0 < q.num ∧ q.num < 2 ^ 16 := by
  obtain ⟨e, he, hn⟩ := h.pow
  rw [hn]
  exact ⟨Nat.two_pow_pos e, Nat.pow_lt_pow_right (by decide) (by omega)⟩

theorem Ring.nodup (h : Ring q F C) : (F ++ C.flatten).Nodup :=
  h.cover.nodup_iff.mpr List.nodup_range

theorem Ring.mem_lt (h : Ring q F C) {i : Nat} (hi : i ∈ F ++ C.flatten) : i < q.num :=
  List.mem_range.mp (h.cover.mem_iff.mp hi)

theorem Ring.freeNum_le (h : Ring q F C) : q.freeNum ≤ q.num := by
  have hlen := h.cover.length_eq
  rw [List.length_append, List.length_range, h.count] at hlen
  omega

theorem Ring.free_next (h : Ring q F C) : ∀ i ∈ F, (q.desc i).flags.next = true := by
  obtain ⟨x, hseg⟩ := h.free
  intro i hi
  obtain ⟨a, b, rfl⟩ := List.append_of_mem hi
  have hb := hseg.split_at.2
  by_contra hn
  have hc : cont q.desc i = none := by simp [cont, hn]
  rw [hc] at hb
  cases hb

theorem Ring.tail_mem (h : Ring q F C) (hF : F ≠ []) : q.freeTail ∈ F := by
  rw [h.tail _ (List.getLast?_eq_some_getLast hF)]
  exact List.getLast_mem hF

/-- A chain is no longer than what the ring has besides the free list. -/
theorem Ring.chain_length (h : Ring q F C) {c : List Nat} (hc : c ∈ C) :
    q.freeNum + c.length ≤ q.num := by
  have hlen := h.cover.length_eq
  rw [List.length_append, List.length_range, h.count] at hlen
  have hle := (List.sublist_flatten_of_mem hc).length_le
  omega

theorem cont_congr {D D' : Nat → Desc} {l : List Nat} (h : ∀ i ∈ l, D' i = D i) :
    ∀ i ∈ l, cont D' i = cont D i := fun i hi => by simp only [cont, h i hi]

/-! ## Submitting -/

/-- The direct loop over a path `A` of `NEXT` descriptors turns it into a
chain, and stops behind it. -/
theorem useDirect_spec {bufs : List AddrSize} {i x : Nat} {A : List Nat}
    (hseg : Seg (cont q.desc) (some i) A (some x)) (hnd : A.Nodup) (hlen : A.length = bufs.length)
    (hne : bufs ≠ []) :
    ∃ D, useDirect q i bufs = .ok ({ q with desc := D }, x) ∧ Chain (cont D) (some i) A ∧
      (∀ k ∈ A, (D k).flags.indirect = false) ∧ ∀ k, k ∉ A → D k = q.desc k := by
  induction bufs generalizing q i A with
  | nil => exact absurd rfl hne
  | cons b bs ih =>
    cases A with
    | nil => simp at hlen
    | cons j A =>
      have hij : some i = some j := hseg.head
      cases hij
      have htail := hseg.tail
      have hnext : (q.desc i).flags.next = true := by
        by_contra hn
        have hc : cont q.desc i = none := by simp [cont, hn]
        rw [hc] at htail
        cases htail
      have hcont : cont q.desc i = some (q.desc i).next := by simp [cont, hnext]
      rw [hcont] at htail
      cases bs with
      | nil =>
        have hA : A = [] := by simpa using hlen
        subst hA
        have hx : some (q.desc i).next = some x := htail.nil_eq
        cases hx
        refine ⟨(q.upd i fun d => (useVringDesc d b).last).desc, ?_, .cons ?_, ?_, ?_⟩
        · simp only [useDirect, hnext, check, if_true, ok_bind]
          rfl
        · have hlast : cont (q.upd i fun d => (useVringDesc d b).last).desc i = none := by
            simp [cont, Desc.last]
          rw [hlast]
          exact .nil none
        · simp [Desc.last, useVringDesc]
        · intro k hk
          exact q.upd_ne (by simpa using hk) _
      | cons b' bs =>
        -- the write leaves `cont` as it was, so the rest of the path is still there
        have hsame : cont (q.upd i fun d => useVringDesc d b).desc = cont q.desc := by
          funext k
          by_cases hk : k = i
          · subst hk
            simp [cont, useVringDesc, hnext]
          · simp only [cont, q.upd_ne hk]
        have hi : i ∉ A := (List.nodup_cons.mp hnd).1
        obtain ⟨D, hD, hchain, hind, hframe⟩ := ih (q := q.upd i fun d => useVringDesc d b)
          (hsame ▸ htail) (List.nodup_cons.mp hnd).2 (by simpa using hlen) (by simp)
        have hDi : D i = useVringDesc (q.desc i) b := by
          rw [hframe i hi, q.upd_self]
        refine ⟨D, ?_, .cons ?_, ?_, ?_⟩
        · rw [useDirect]
          · simp only [hnext, check, if_true, ok_bind]
            exact hD
          · simp
        · have hc : cont D i = some (q.desc i).next := by
            simp [cont, hDi, useVringDesc]
          rw [hc]
          exact hchain
        · intro k hk
          rcases List.mem_cons.mp hk with rfl | hk
          · simp [hDi, useVringDesc]
          · exact hind k hk
        · intro k hk
          rw [List.mem_cons, not_or] at hk
          rw [hframe k hk.2, q.upd_ne hk.1]

theorem next_false_of_cont {D : Nat → Desc} {i : Nat} (h : cont D i = none) :
    (D i).flags.next = false := by
  by_contra hn
  simp [cont, hn] at h

/-- A front `A` of the free list becomes a chain in flight. -/
theorem Ring.submit {A B : List Nat} (h : Ring q (A ++ B) C) {D : Nat → Desc} {x data n : Nat}
    (hA : ∃ r, A = q.freeHead :: r) (hx : Seg (cont q.desc) (some q.freeHead) A (some x))
    (hchain : Chain (cont D) (some q.freeHead) A) (hframe : ∀ k, k ∉ A → D k = q.desc k)
    (hkind : (∃ d, A = [d] ∧ (D d).flags.indirect = true) ∨
      ∀ d ∈ A, (D d).flags.indirect = false)
    (hdata : data ≠ 0) (hn : n = B.length) :
    Ring (({ q with desc := D, freeNum := n, freeHead := x } : Queue).offer q.freeHead data)
      B (A :: C) := by
  have hnd := h.nodup
  rw [List.append_assoc] at hnd
  have hAB : ∀ i ∈ B, i ∉ A := fun i hi hiA =>
    List.disjoint_of_nodup_append hnd hiA (List.mem_append_left _ hi)
  have hAC : ∀ i ∈ C.flatten, i ∉ A := fun i hi hiA =>
    List.disjoint_of_nodup_append hnd hiA (List.mem_append_right _ hi)
  have hCc : ∀ c ∈ C, ∀ i ∈ c, i ∉ A := fun c hc i hi => hAC i (List.mem_flatten.mpr ⟨c, hc, hi⟩)
  obtain ⟨r, hr⟩ := hA
  have hfirst : q.freeHead ∈ A := by simp [hr]
  refine ⟨h.pow, ?_, hn.symm, ?_, ?_, ?_, ?_, ?_, ?_⟩
  · obtain ⟨y, hseg⟩ := h.free
    obtain ⟨z, hz, hB⟩ := hseg.split
    rw [hz.end_unique hx] at hB
    exact ⟨y, hB.frame (cont_congr fun i hi => hframe i (hAB i hi))⟩
  · intro y hy
    refine h.tail y ?_
    rw [List.getLast?_append, hy]
    rfl
  · -- nothing is left: the tail is the last descriptor of the chain
    rintro rfl
    have hlast : A.getLast? = some q.freeTail := by
      cases hl : A.getLast? with
      | none => simp [hr] at hl
      | some y => rw [h.tail y (by simpa using hl)]
    exact next_false_of_cont (hchain.next_last hlast)
  · intro c hc
    rcases List.mem_cons.mp hc with rfl | hc
    · exact ⟨q.freeHead, r, hr, hchain, by simpa [Queue.offer] using hdata⟩
    · obtain ⟨i, r', rfl, hi, hdi⟩ := h.chains c hc
      refine ⟨i, r', rfl, hi.frame (cont_congr fun k hk => hframe k (hCc _ hc k hk)), ?_⟩
      have hne : i ≠ q.freeHead := by
        rintro rfl
        exact hCc _ hc _ List.mem_cons_self hfirst
      simpa [Queue.offer, hne] using hdi
  · intro i hi
    by_cases hif : i = q.freeHead
    · exact ⟨r, by simp [hif, hr]⟩
    · obtain ⟨r', hr'⟩ := h.heads i (by simpa [Queue.offer, hif] using hi)
      exact ⟨r', List.mem_cons_of_mem _ hr'⟩
  · have hperm : (B ++ (A :: C).flatten).Perm (A ++ B ++ C.flatten) := by
      rw [List.flatten_cons, ← List.append_assoc]
      exact (List.perm_append_comm).append_right C.flatten
    exact hperm.trans h.cover
  · intro c hc
    rcases List.mem_cons.mp hc with rfl | hc
    · exact hkind
    · have hsame : ∀ d ∈ c, D d = q.desc d := fun d hd => hframe d (hCc c hc d hd)
      rcases h.kinds c hc with ⟨d, rfl, hd⟩ | hall
      · refine .inl ⟨d, rfl, ?_⟩
        change (D d).flags.indirect = true
        rw [hsame d List.mem_cons_self]
        exact hd
      · refine .inr fun d hd => ?_
        change (D d).flags.indirect = false
        rw [hsame d hd]
        exact hall d hd

/-- What a submission leaves alone: the used ring, and the descriptors in
flight. -/
structure SubmitFrame (q q' : Queue) (C : List (List Nat)) : Prop where
  num : q'.num = q.num
  lastUsed : q'.lastUsed = q.lastUsed
  usedIdx : q'.usedIdx = q.usedIdx
  usedRing : q'.usedRing = q.usedRing
  desc : ∀ d ∈ C.flatten, q'.desc d = q.desc d
  data : ∀ i, q.data i ≠ 0 → q'.data i ≠ 0

theorem Ring.submit_frame {A B : List Nat} (h : Ring q (A ++ B) C) {D : Nat → Desc}
    {x data n : Nat} (hframe : ∀ k, k ∉ A → D k = q.desc k) (hdata : data ≠ 0) :
    SubmitFrame q
      (({ q with desc := D, freeNum := n, freeHead := x } : Queue).offer q.freeHead data) C where
  num := rfl
  lastUsed := rfl
  usedIdx := rfl
  usedRing := rfl
  desc d hd := hframe d fun hdA => by
    have hnd := h.nodup
    rw [List.append_assoc] at hnd
    exact List.disjoint_of_nodup_append hnd hdA (List.mem_append_right _ hd)
  data i hi := by
    by_cases hif : i = q.freeHead
    · simpa [Queue.offer, hif] using hdata
    · simpa [Queue.offer, hif] using hi

/-- **A direct request** takes one free descriptor for each buffer. -/
theorem Ring.direct (h : Ring q F C) {bufs : List AddrSize} (hne : bufs ≠ [])
    (hle : bufs.length ≤ q.freeNum) {data : Nat} (hdata : data ≠ 0) :
    ∃ q' A B, F = A ++ B ∧ setDirectDescriptors q bufs = .ok q' ∧
      Ring (q'.offer q.freeHead data) B (A :: C) ∧
      SubmitFrame q (q'.offer q.freeHead data) C ∧
      ∀ d ∈ A, points q'.desc d = none := by
  obtain ⟨A, B, rfl, hA⟩ : ∃ A B, F = A ++ B ∧ A.length = bufs.length :=
    ⟨F.take bufs.length, F.drop bufs.length, (List.take_append_drop _ _).symm, by
      rw [List.length_take, h.count]
      omega⟩
  obtain ⟨y, hseg⟩ := h.free
  obtain ⟨z, hz, hB⟩ := hseg.split
  have hAne : A ≠ [] := by
    rintro rfl
    exact hne (List.length_eq_zero_iff.mp hA.symm)
  obtain ⟨a, r, rfl⟩ := List.exists_cons_of_ne_nil hAne
  have ha : some q.freeHead = some a := hz.head
  cases ha
  -- the path goes on behind `A`
  obtain ⟨x, rfl⟩ : ∃ x, z = some x := by
    cases z with
    | none =>
      cases hB
    | some x => exact ⟨x, rfl⟩
  have hnd := (List.nodup_append.mp (List.nodup_append.mp h.nodup).1).1
  obtain ⟨D, hD, hchain, hind, hframe⟩ := useDirect_spec hz hnd hA hne
  have hnum := h.num_lt
  have hfree := h.freeNum_le
  have hcount := h.count
  rw [List.length_append] at hcount
  have hsub : u16 (q.freeNum + (2 ^ 16 - u16 bufs.length)) = B.length := by
    simp only [u16]
    omega
  refine ⟨{ q with desc := D, freeNum := B.length, freeHead := x }, _, B, rfl, ?_,
    h.submit ⟨r, rfl⟩ hz hchain hframe (.inr hind) hdata rfl, h.submit_frame hframe hdata, ?_⟩
  · simp only [setDirectDescriptors, hD, ok_bind, hsub]
  · intro d hd
    simp [points, hind d hd]

/-- **An indirect request** takes one free descriptor. -/
theorem Ring.indirect (h : Ring q F C) (paddr num : Nat) {data : Nat} (hpos : 0 < q.freeNum)
    (hdata : data ≠ 0) :
    ∃ B, F = q.freeHead :: B ∧
      Ring ((q.useIndirect paddr num).offer q.freeHead data) B ([q.freeHead] :: C) ∧
      SubmitFrame q ((q.useIndirect paddr num).offer q.freeHead data) C := by
  obtain ⟨y, hseg⟩ := h.free
  cases F with
  | nil =>
    have := h.count
    simp at this
    omega
  | cons a B =>
    have ha : some q.freeHead = some a := hseg.head
    cases ha
    have hnext := h.free_next q.freeHead List.mem_cons_self
    have hx : Seg (cont q.desc) (some q.freeHead) [q.freeHead]
        (some (q.desc q.freeHead).next) := by
      refine .cons ?_
      have hc : cont q.desc q.freeHead = some (q.desc q.freeHead).next := by simp [cont, hnext]
      rw [hc]
      exact .nil _
    have hframe : ∀ k, k ∉ [q.freeHead] →
        (q.upd q.freeHead fun d => d.toTable paddr num).desc k = q.desc k :=
      fun k hk => q.upd_ne (by simpa using hk) _
    have hchain : Chain (cont (q.upd q.freeHead fun d => d.toTable paddr num).desc)
        (some q.freeHead) [q.freeHead] := by
      refine .cons ?_
      have hc : cont (q.upd q.freeHead fun d => d.toTable paddr num).desc q.freeHead = none := by
        simp [cont, Desc.toTable, Flags.onlyIndirect]
      rw [hc]
      exact .nil none
    have hcount := h.count
    have hnum := h.num_lt
    have hfree := h.freeNum_le
    have hsub : u16 (q.freeNum + (2 ^ 16 - 1)) = B.length := by
      simp only [u16, List.length_cons] at *
      omega
    have h' : Ring q ([q.freeHead] ++ B) C := h
    exact ⟨B, rfl, h'.submit ⟨[], rfl⟩ hx hchain hframe
      (.inl ⟨q.freeHead, rfl, by simp [Desc.toTable, Flags.onlyIndirect]⟩) hdata hsub,
      h'.submit_frame hframe hdata⟩

/-! ## Completing -/

theorem walk_direct (ts : List Table) {fuel i n : Nat} {c : List Nat}
    (hchain : Chain (cont q.desc) (some i) c) (hfuel : c.length ≤ fuel)
    (hind : ∀ d ∈ c, (q.desc d).flags.indirect = false) :
    ∃ z, c.getLast? = some z ∧ walk fuel ts q i n = .ok (ts, q, z, n + c.length) := by
  induction fuel generalizing i n c with
  | zero =>
    obtain ⟨r, rfl, _⟩ := Chain.eq_cons hchain
    simp at hfuel
  | succ fuel ih =>
    obtain ⟨r, rfl, hr⟩ := Chain.eq_cons hchain
    have hi := hind i List.mem_cons_self
    simp only [walk, clearIfIndirect, hi, Bool.false_eq_true, if_false, ok_bind]
    cases hnext : (q.desc i).flags.next with
    | false =>
      have hc : cont q.desc i = none := by simp [cont, hnext]
      rw [hc] at hr
      have hnil := Chain.nil_of_none hr
      subst hnil
      exact ⟨i, rfl, by simp⟩
    | true =>
      have hc : cont q.desc i = some (q.desc i).next := by simp [cont, hnext]
      rw [hc] at hr
      obtain ⟨z, hz, hw⟩ := ih (n := n + 1) hr (by simpa using hfuel)
        fun d hd => hind d (List.mem_cons_of_mem i hd)
      refine ⟨z, ?_, ?_⟩
      · rw [List.getLast?_cons, hz]
        rfl
      · simp only [if_true, hw, List.length_cons]
        rw [Nat.add_assoc, Nat.add_comm 1]

section Reclaim

variable {c : List Nat} {C' : List (List Nat)} {D : Nat → Desc} {h z : Nat}

theorem Ring.nodup_returned (hq : Ring q F C) (hC : C.Perm (c :: C')) :
    (F ++ (c ++ C'.flatten)).Nodup := by
  have hflat : C.flatten.Perm (c ++ C'.flatten) := by simpa using hC.flatten
  exact (hflat.append_left F).nodup_iff.mp hq.nodup

theorem Ring.tail_last (hq : Ring q F C) (hF : F ≠ []) : ∃ A, F = A ++ [q.freeTail] := by
  have hlast := List.getLast?_eq_some_getLast hF
  obtain ⟨A, hA⟩ := List.getLast?_eq_some_iff.mp hlast
  exact ⟨A, hq.tail _ hlast ▸ hA⟩

/-- The tail is free and `z` is in the chain, so the other chains stay. -/
theorem Ring.desc_others (hq : Ring q F C) (hC : C.Perm (c :: C')) (hF : F ≠ []) (hz : z ∈ c)
    (hframe : ∀ k, k ≠ q.freeTail → k ≠ z → D k = q.desc k) :
    ∀ c' ∈ C', ∀ i ∈ c', D i = q.desc i := by
  intro c' hc' i hi
  have hi' : i ∈ C'.flatten := List.mem_flatten.mpr ⟨c', hc', hi⟩
  have hnd := hq.nodup_returned hC
  obtain ⟨A, hA⟩ := hq.tail_last hF
  refine hframe i ?_ ?_
  · rintro rfl
    exact List.disjoint_of_nodup_append hnd (by simp [hA]) (List.mem_append_right _ hi')
  · rintro rfl
    exact List.disjoint_of_nodup_append (List.nodup_append.mp hnd).2.1 hz hi'

/-- Along the old list to its tail, then along the chain, then back to the
head. -/
theorem Ring.free_append (hq : Ring q F C) (hnd : (F ++ c).Nodup) (hF : F ≠ [])
    (hchain : Chain (cont q.desc) (some h) c) (hz : c.getLast? = some z)
    (hy : (D q.freeTail).flags.next = true ∧ (D q.freeTail).next = h)
    (hDz : (D z).flags = .onlyNext ∧ (D z).next = q.freeHead)
    (hframe : ∀ k, k ≠ q.freeTail → k ≠ z → D k = q.desc k) :
    Seg (cont D) (some q.freeHead) (F ++ c) (some q.freeHead) := by
  obtain ⟨x, hx⟩ := hq.free
  obtain ⟨A, hA⟩ := hq.tail_last hF
  obtain ⟨B, hB⟩ := List.getLast?_eq_some_iff.mp hz
  have hct : cont D q.freeTail = some h := by simp [cont, hy.1, hy.2]
  have hcz : cont D z = some q.freeHead := by simp [cont, hDz.1, hDz.2, Flags.onlyNext]
  rw [hB] at hchain
  rw [hA] at hx
  rw [hA, hB] at hnd ⊢
  refine hx.join hchain (cont_congr fun i hi => hframe i ?_ ?_) hct hcz
  · rintro rfl
    simp only [List.nodup_append, List.mem_append, List.mem_singleton] at hnd hi
    grind
  · rintro rfl
    simp only [List.nodup_append, List.mem_append, List.mem_singleton] at hnd hi
    grind

/-- **A returned chain** becomes the end of the free list. -/
theorem Ring.reclaim {y l : Nat} (hq : Ring q F C) (hC : C.Perm (c :: C')) (hc : ∃ r, c = h :: r)
    (hz : c.getLast? = some z) (hF : F ≠ [])
    (hy : (D q.freeTail).flags.next = true ∧ (D q.freeTail).next = h)
    (hDz : (D z).flags = .onlyNext ∧ (D z).next = q.freeHead)
    (hframe : ∀ k, k ≠ q.freeTail → k ≠ z → D k = q.desc k) (hn : y = q.freeNum + c.length) :
    Ring { q with
      desc := D, freeTail := z, freeNum := y, lastUsed := l
      data := Function.update q.data h 0 } (F ++ c) C' := by
  have hnd := hq.nodup_returned hC
  have hC'C : ∀ c' ∈ C', c' ∈ C := fun c' hc' => hC.mem_iff.mpr (List.mem_cons_of_mem c hc')
  have hoff := hq.desc_others hC hF (List.mem_of_getLast? hz) hframe
  obtain ⟨r, rfl⟩ := hc
  -- no other chain begins with `h`
  have hother : ∀ r', h :: r' ∉ C' := fun r' hr' =>
    List.disjoint_of_nodup_append (List.nodup_append.mp hnd).2.1 List.mem_cons_self
      (List.mem_flatten.mpr ⟨_, hr', List.mem_cons_self⟩)
  refine ⟨hq.pow, ⟨q.freeHead, ?_⟩, ?_, ?_, ?_, ?_, ?_, ?_, ?_⟩
  · obtain ⟨_, _, heq, hchain, _⟩ := hq.chains _ (hC.mem_iff.mpr List.mem_cons_self)
    cases heq
    have hndc : (F ++ h :: r).Nodup := by
      rw [← List.append_assoc] at hnd
      exact (List.nodup_append.mp hnd).1
    exact hq.free_append hndc hF hchain hz hy hDz hframe
  · rw [List.length_append, hq.count, hn]
  · intro x hx
    rw [List.getLast?_append, hz] at hx
    simpa using hx
  · intro hnil
    simp [hF] at hnil
  · intro c' hc'
    obtain ⟨i, r', rfl, hi, hdi⟩ := hq.chains c' (hC'C c' hc')
    refine ⟨i, r', rfl, hi.frame (cont_congr (hoff _ hc')), ?_⟩
    have hih : i ≠ h := by
      rintro rfl
      exact hother r' hc'
    simpa [hih] using hdi
  · intro i hi
    have hih : i ≠ h := by
      rintro rfl
      simp at hi
    obtain ⟨r', hr'⟩ := hq.heads i (by simpa [hih] using hi)
    rcases List.mem_cons.mp (hC.mem_iff.mp hr') with heq | hmem
    · cases heq
      exact absurd rfl hih
    · exact ⟨r', hmem⟩
  · rw [List.append_assoc]
    have hflat : C.flatten.Perm (h :: r ++ C'.flatten) := by simpa using hC.flatten
    exact (hflat.append_left F).symm.trans hq.cover
  · intro c' hc'
    rcases hq.kinds c' (hC'C c' hc') with ⟨d, rfl, hd⟩ | hall
    · refine .inl ⟨d, rfl, ?_⟩
      change (D d).flags.indirect = true
      rw [hoff _ hc' d List.mem_cons_self]
      exact hd
    · refine .inr fun d hd => ?_
      change (D d).flags.indirect = false
      rw [hoff c' hc' d hd]
      exact hall d hd

end Reclaim

end Yaos.Virtio
