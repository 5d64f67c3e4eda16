import Mathlib.Data.List.Perm.Subperm
import Mathlib.Data.List.Range
import Yaos.Kheap.History
import Yaos.Smp.Model

/-!
# Which area a processor starts on

`cpu_base` is filled in the order of the MADT and read at the APIC id. So
each processor finds its own area exactly if the enabled local APICs are
listed as 0, 1, 2 and so on.
-/

namespace Yaos.Smp

open Yaos.Lib Function

variable {fuel size : Nat} {s t : State} {m : Madt} {ids bases : List Nat}

/-- The entries of the table: where each is and how long. -/
def Madt.entries (m : Madt) : Nat → Nat → Outcome (List (Nat × Nat))
  | 0, _ => .error .spin
  | n + 1, p =>
      if p < m.size then
        if m.size - p < 2 then .ok []
        else
          let len := m.u8 (p + 1)
          if m.size - p < len then .ok []
          else do
            let es ← m.entries n (p + len)
            .ok ((p, len) :: es)
      else .ok []

/-- The APIC id in an entry, if it is an enabled local APIC. -/
def Madt.enabled (m : Madt) (e : Nat × Nat) : Option Nat :=
  if m.u8 e.1 = 0 then m.lapic e.1 e.2 else none

/-- The areas `bases` were made for the APIC ids `ids`, in this order. -/
structure Areas (size : Nat) (s : State) (ids bases : List Nat) : Prop where
  nrCpu : s.nrCpu = ids.length
  cpuBase : ∀ i, s.cpuBase i = bases[i]?
  apicId : bases.map (fun b => (s.cpu b).apicId) = ids
  based : ∀ b ∈ bases, (s.cpu b).percpuBase ≠ 0
  nodup : bases.Nodup
  heap : ∃ live L M, Kheap.Inv s.heap live L M ∧ ∀ b ∈ bases, ∃ n, size ≤ n ∧ ⟨b, n⟩ ∈ live

/-! ## Filling the table -/

theorem initCpu_spec {a : Nat} (hrun : Smp.initCpu fuel size s a = .ok t) :
    ∃ b heap, Kheap.kalloc fuel s.heap size = .ok (some b, heap) ∧ b ≠ 0 ∧
      t = { s with
        heap := heap
        cpuBase := update s.cpuBase s.nrCpu (some b)
        cpu := update s.cpu b
          { s.image with percpuBase := b, apicId := a, cpu := s.nrCpu }
        nrCpu := s.nrCpu + 1 } := by
  obtain ⟨⟨block, heap⟩, halloc, hrun⟩ := bind_eq_ok.mp hrun
  dsimp only at hrun
  split at hrun
  · cases hrun
  next hok =>
    split at hrun
    · cases hrun
    · cases hrun
      cases block with
      | none => exact absurd (.inr rfl) hok
      | some b => exact ⟨b, heap, halloc, fun h0 => hok (.inr h0), rfl⟩

/-- A new block is none of the areas: the heap hands out no byte twice, and areas are
not empty. -/
theorem Areas.kalloc {b : Nat} {heap : Kheap.State} (h : Areas size s ids bases) (hsize : 0 < size)
    (hw : size + 0xfff < 2 ^ 64) (halloc : Kheap.kalloc fuel s.heap size = .ok (some b, heap)) :
    b ∉ bases ∧ ∃ live L M, Kheap.Inv heap live L M ∧
      ∀ c ∈ bases ++ [b], ∃ n, size ≤ n ∧ ⟨c, n⟩ ∈ live := by
  obtain ⟨live, L, M, hi, hlive⟩ := h.heap
  have hstep : Kheap.Step ⟨s.heap, live⟩ ⟨.kalloc size, some b⟩ ⟨heap, _⟩ :=
    ⟨hw, ⟨fuel, halloc⟩, rfl⟩
  obtain ⟨⟨L', M', hi'⟩, hserved⟩ := Kheap.Inv.step ⟨L, M, hi⟩ hstep
  obtain ⟨⟨n, hn, hcons⟩, -⟩ := hserved b rfl
  replace hn : size ≤ n := hn
  dsimp only at hcons hi'
  rw [hcons] at hi'
  refine ⟨fun hmem => ?_, _, L', M', hi', fun c hc => ?_⟩
  · obtain ⟨k, hk, hin⟩ := hlive b hmem
    have honce := hi'.once b
    have hself : Range.has ⟨b, n⟩ b = 1 := if_pos (by rw [Range.mem_def]; dsimp only; omega)
    have hother : 0 < cover live b :=
      cover_pos.mpr ⟨_, hin, by rw [Range.mem_def]; dsimp only; omega⟩
    rw [cover_cons, hself] at honce
    omega
  · rcases List.mem_append.mp hc with hc | hc
    · obtain ⟨k, hk, hin⟩ := hlive c hc
      exact ⟨k, hk, List.mem_cons_of_mem _ hin⟩
    · obtain rfl := List.mem_singleton.mp hc
      exact ⟨n, hn, List.mem_cons_self⟩

theorem Areas.initCpu {a : Nat} (h : Areas size s ids bases) (hsize : 0 < size)
    (hw : size + 0xfff < 2 ^ 64) (hrun : Smp.initCpu fuel size s a = .ok t) :
    ∃ b, Areas size t (ids ++ [a]) (bases ++ [b]) := by
  obtain ⟨b, heap, halloc, hb, rfl⟩ := initCpu_spec hrun
  obtain ⟨hnew, hheap⟩ := h.kalloc hsize hw halloc
  have hsame : ∀ c ∈ bases, update s.cpu b
      { s.image with percpuBase := b, apicId := a, cpu := s.nrCpu } c = s.cpu c :=
    fun c hc => update_of_ne (ne_of_mem_of_not_mem hc hnew) _ _
  have hlen : bases.length = s.nrCpu := by
    rw [h.nrCpu, ← h.apicId, List.length_map]
  refine ⟨b, ?_, fun i => ?_, ?_, ?_, ?_, hheap⟩
  · simp [h.nrCpu]
  · by_cases hi : i = s.nrCpu
    · subst hi
      simp [hlen.symm]
    · simp only [update_of_ne hi, h.cpuBase]
      by_cases hlt : i < bases.length
      · rw [List.getElem?_append_left hlt]
      · rw [List.getElem?_eq_none (by omega), List.getElem?_eq_none (by simp; omega)]
  · simp only [List.map_append, List.map_cons, List.map_nil, update_self]
    congr 1
    rw [← h.apicId]
    exact List.map_congr_left fun c hc => congrArg Cpu.apicId (hsame c hc)
  · intro c hc
    rcases List.mem_append.mp hc with hc | hc
    · dsimp only
      rw [hsame c hc]
      exact h.based c hc
    · obtain rfl := List.mem_singleton.mp hc
      simpa using hb
  · refine List.nodup_append.mpr ⟨h.nodup, List.nodup_singleton b, ?_⟩
    rintro c hc d hd rfl
    exact hnew (List.mem_singleton.mp hd ▸ hc)

theorem Areas.entry {p len k k' : Nat} (h : Areas size s ids bases) (hsize : 0 < size)
    (hw : size + 0xfff < 2 ^ 64) (hrun : Smp.entry fuel size m p len k s = .ok (k', t)) :
    ∃ bases', Areas size t (ids ++ (m.enabled (p, len)).toList) bases' := by
  unfold Smp.entry at hrun
  rw [Madt.enabled]
  split at hrun
  next htype =>
    rw [if_pos htype]
    dsimp only
    split at hrun
    next hnone =>
      cases hrun
      rw [hnone, Option.toList_none, List.append_nil]
      exact ⟨bases, h⟩
    next a hsome =>
      obtain ⟨u, hinit, hrun⟩ := bind_eq_ok.mp hrun
      cases hrun
      rw [hsome, Option.toList_some]
      obtain ⟨b, h'⟩ := h.initCpu hsize hw hinit
      exact ⟨_, h'⟩
  next htype =>
    have hsame : ∀ u : State, u.heap = s.heap → u.nrCpu = s.nrCpu → u.cpuBase = s.cpuBase →
        u.cpu = s.cpu → Areas size u ids bases := by
      intro u hheap hnr hbase hcpu
      exact ⟨by rw [hnr]; exact h.nrCpu, by rw [hbase]; exact h.cpuBase,
        by rw [hcpu]; exact h.apicId, by rw [hcpu]; exact h.based, h.nodup,
        by rw [hheap]; exact h.heap⟩
    rw [if_neg (by rw [htype]; decide), Option.toList_none, List.append_nil]
    refine ⟨bases, ?_⟩
    split at hrun
    · cases hrun
      exact h
    · split at hrun
      · cases hrun
        exact hsame _ rfl rfl rfl rfl
      · cases hrun
        exact h
  next htype _ =>
    cases hrun
    rw [if_neg htype, Option.toList_none, List.append_nil]
    exact ⟨bases, h⟩

theorem Areas.scan {n p k : Nat} {es : List (Nat × Nat)} (h : Areas size s ids bases)
    (hsize : 0 < size) (hw : size + 0xfff < 2 ^ 64)
    (hrun : Smp.scan fuel size m n p k s = .ok t) (hes : m.entries n p = .ok es) :
    ∃ bases', Areas size t (ids ++ es.filterMap m.enabled) bases' := by
  induction n generalizing p k s ids bases es with
  | zero => cases hrun
  | succ n ih =>
    rw [Smp.scan] at hrun
    rw [Madt.entries] at hes
    dsimp only at hrun hes
    split at hrun
    next hp =>
      rw [if_pos hp] at hes
      split at hrun
      next hshort =>
        rw [if_pos hshort] at hes
        cases hrun
        cases hes
        exact ⟨bases, by simpa using h⟩
      next hshort =>
        rw [if_neg hshort] at hes
        split at hrun
        next hlong =>
          rw [if_pos hlong] at hes
          cases hrun
          cases hes
          exact ⟨bases, by simpa using h⟩
        next hlong =>
          rw [if_neg hlong] at hes
          obtain ⟨⟨k', u⟩, hentry, hrun⟩ := bind_eq_ok.mp hrun
          obtain ⟨es', hes', hes⟩ := bind_eq_ok.mp hes
          cases hes
          obtain ⟨bases₁, h₁⟩ := h.entry hsize hw hentry
          obtain ⟨bases₂, h₂⟩ := ih h₁ hrun hes'
          refine ⟨bases₂, ?_⟩
          rw [List.append_assoc] at h₂
          rw [List.filterMap_cons]
          cases hx : m.enabled (p, m.u8 (p + 1)) with
          | none =>
            rw [hx] at h₂
            exact h₂
          | some a =>
            rw [hx] at h₂
            exact h₂
    next hp =>
      rw [if_neg hp] at hes
      cases hrun
      cases hes
      exact ⟨bases, by simpa using h⟩

/-- **`acpi_config_smp`** makes one area for each enabled local APIC, in the
order of the table. -/
theorem acpiConfigSmp_areas {r : Int} {es : List (Nat × Nat)} {live L M : List Range}
    (hsize : 0 < size) (hw : size + 0xfff < 2 ^ 64) (hheap : Kheap.Inv s.heap live L M)
    (hnr : s.nrCpu = 0) (hbase : ∀ i, s.cpuBase i = none)
    (hrun : acpiConfigSmp fuel size s (some m) = .ok (r, t)) (hes : m.entries fuel 0 = .ok es) :
    ∃ bases, Areas size t (es.filterMap m.enabled) bases := by
  have h₀ : Areas size s [] [] :=
    ⟨hnr, hbase, rfl, by simp, List.nodup_nil, live, L, M, hheap, by simp⟩
  rw [acpiConfigSmp] at hrun
  split at hrun
  next hshort =>
    cases hrun
    have hnil : es = [] := by
      have h0 : ¬ 0 < m.size := by
        rw [Madt.size]
        omega
      cases fuel with
      | zero => cases hes
      | succ n =>
        rw [Madt.entries, if_neg h0] at hes
        cases hes
        rfl
    subst hnil
    exact ⟨[], h₀⟩
  next =>
    obtain ⟨u, hscan, hrun⟩ := bind_eq_ok.mp hrun
    obtain ⟨bases, h⟩ := h₀.scan hsize hw hscan hes
    rw [List.nil_append] at h
    split at hrun
    · cases hrun
      exact ⟨bases, h⟩
    · cases hrun
      exact ⟨bases, h.nrCpu, h.cpuBase, h.apicId, h.based, h.nodup, h.heap⟩

/-! ## Reading the table -/

@[simp] theorem setStatus_apicId (s : State) (b v c : Nat) :
    ((s.setStatus b v).cpu c).apicId = (s.cpu c).apicId := by
  by_cases hc : c = b
  · subst hc
    simp [State.setStatus]
  · simp [State.setStatus, hc]

@[simp] theorem setStatus_percpuBase (s : State) (b v c : Nat) :
    ((s.setStatus b v).cpu c).percpuBase = (s.cpu c).percpuBase := by
  by_cases hc : c = b
  · subst hc
    simp [State.setStatus]
  · simp [State.setStatus, hc]

theorem setStatus_status (s : State) (b v c : Nat) :
    ((s.setStatus b v).cpu c).status = if c = b then v else (s.cpu c).status := by
  by_cases hc : c = b
  · subst hc
    simp [State.setStatus]
  · simp [State.setStatus, hc]

theorem Areas.setStatus (h : Areas size s ids bases) (b v : Nat) :
    Areas size (s.setStatus b v) ids bases where
  nrCpu := h.nrCpu
  cpuBase := h.cpuBase
  apicId := by
    simp only [setStatus_apicId]
    exact h.apicId
  based c hc := by
    rw [setStatus_percpuBase]
    exact h.based c hc
  nodup := h.nodup
  heap := h.heap

theorem Areas.getElem? (h : Areas size s ids bases) (i : Nat) :
    ids[i]? = (s.cpuBase i).map fun b => (s.cpu b).apicId := by
  rw [h.cpuBase, ← List.getElem?_map, h.apicId]

theorem Areas.own_iff (h : Areas size s ids bases) (a : Nat) :
    (∃ b, s.cpuBase a = some b ∧ (s.cpu b).apicId = a) ↔ ids[a]? = some a := by
  rw [h.getElem?, Option.map_eq_some_iff]

/-- The processor that `startAp` starts sets the status it waits for if its
APIC id is its place in the table. -/
theorem Areas.startAp (own : Nat) {i a : Nat} (h : Areas size s ids bases) (ha : ids[i]? = some a) :
    ((∃ t, Smp.startAp own s i = .ok t) ↔ a = own ∨ a = i) ∧
      ∀ t, Smp.startAp own s i = .ok t → Areas size t ids bases := by
  have hget := h.getElem? i
  rw [ha] at hget
  obtain ⟨b, hb, hba⟩ := Option.map_eq_some_iff.mp hget.symm
  rw [Smp.startAp, hb]
  dsimp only
  rw [hba]
  by_cases hown : a = own
  · rw [if_pos hown]
    refine ⟨iff_of_true ⟨s, rfl⟩ (.inl hown), fun t ht => ?_⟩
    cases ht
    exact h
  · rw [if_neg hown]
    have h₀ := h.setStatus b 0
    cases hc : s.cpuBase a with
    | none =>
      have hap : bootupCpuAp (s.setStatus b 0) a = .error .fault := by
        rw [bootupCpuAp, show (s.setStatus b 0).cpuBase a = none from hc]
      rw [hap]
      have hai : a ≠ i := by
        rintro rfl
        rw [hc] at hb
        cases hb
      refine ⟨iff_of_false ?_ (by simp [hown, hai]), fun t ht => by cases ht⟩
      rintro ⟨t, ht⟩
      cases ht
    | some c =>
      have hmem : c ∈ bases := List.mem_of_getElem? ((h.cpuBase a).symm.trans hc)
      have hap : bootupCpuAp (s.setStatus b 0) a =
          .ok ((s.setStatus b 0).setStatus c cpuRunning) := by
        rw [bootupCpuAp, show (s.setStatus b 0).cpuBase a = some c from hc]
        dsimp only
        rw [bootupCpu, decide_eq_true (h₀.based c hmem)]
        rfl
      have hst : (((s.setStatus b 0).setStatus c cpuRunning).cpu b).status =
          if b = c then cpuRunning else 0 := by
        rw [setStatus_status, setStatus_status, if_pos rfl]
      have hbc : b = c ↔ a = i := by
        rw [h.cpuBase] at hb hc
        constructor
        · rintro rfl
          have hlt : i < bases.length := (List.getElem?_eq_some_iff.mp hb).1
          exact ((List.getElem?_inj hlt h.nodup).mp (hb.trans hc.symm)).symm
        · rintro rfl
          exact Option.some.inj (hb.symm.trans hc)
      rw [hap, ok_bind, hst]
      by_cases hai : a = i
      · rw [if_pos (hbc.mpr hai), if_neg (by decide)]
        refine ⟨iff_of_true ⟨_, rfl⟩ (.inr hai), fun t ht => ?_⟩
        cases ht
        exact h₀.setStatus c cpuRunning
      · rw [if_neg (fun h => hai (hbc.mp h)), if_pos rfl]
        refine ⟨iff_of_false ?_ (by simp [hown, hai]), fun t ht => by cases ht⟩
        rintro ⟨t, ht⟩
        cases ht

theorem Areas.bootupAps {own : Nat} (h : Areas size s ids bases) :
    (∃ t, Smp.bootupAps own s = .ok t) ↔ ∀ i a, ids[i]? = some a → a = own ∨ a = i := by
  rw [Smp.bootupAps, h.nrCpu, foldlM_ok_iff (P := fun s => Areas size s ids bases)
    (Q := fun i => ∀ a, ids[i]? = some a → a = own ∨ a = i) _ h]
  · refine ⟨fun hall i a ha => ?_, fun hall i _ => hall i⟩
    have hlt := (List.getElem?_eq_some_iff.mp ha).1
    exact hall i (List.mem_range.mpr hlt) a ha
  · intro s i hi hs
    obtain ⟨a, ha⟩ : ∃ a, ids[i]? = some a :=
      ⟨_, List.getElem?_eq_getElem (List.mem_range.mp hi)⟩
    obtain ⟨hiff, hkeep⟩ := hs.startAp own ha
    refine ⟨hiff.trans ⟨fun h b hb => ?_, fun h => h a ha⟩, hkeep⟩
    cases ha.symm.trans hb
    exact h

/-! ## The processors' areas -/

/-- Every processor starts on its own area: the one that was made for its
APIC id, and no other processor's; and `bootup_aps` returns, since every
processor it starts sets the status that it waits for. -/
structure OwnAreas (s : State) (ids : List Nat) : Prop where
  own : ∀ a ∈ ids, ∃ b, s.cpuBase a = some b ∧ (s.cpu b).apicId = a
  distinct : ∀ a ∈ ids, ∀ a' ∈ ids, s.cpuBase a = s.cpuBase a' → a = a'
  started : ∀ own, ∃ t, bootupAps own s = .ok t

/-- Distinct numbers, each at its own place in the list, are 0, 1, 2 and so
on. -/
theorem eq_range_of_own (hn : ids.Nodup) (h : ∀ a ∈ ids, ids[a]? = some a) :
    ids = List.range ids.length := by
  have hsub : ids ⊆ List.range ids.length := fun a ha =>
    List.mem_range.mpr (List.getElem?_eq_some_iff.mp (h a ha)).1
  have hperm : ids.Perm (List.range ids.length) :=
    (List.subperm_of_subset hn hsub).perm_of_length_le (by simp)
  refine List.ext_getElem? fun i => ?_
  by_cases hi : i < ids.length
  · rw [h i (hperm.mem_iff.mpr (List.mem_range.mpr hi)), List.getElem?_range hi]
  · rw [List.getElem?_eq_none (by omega), List.getElem?_eq_none (by simp; omega)]

theorem Areas.ownAreas_iff (h : Areas size s ids bases) (hn : ids.Nodup) :
    OwnAreas s ids ↔ ids = List.range ids.length := by
  constructor
  · exact fun ho => eq_range_of_own hn fun a ha => (h.own_iff a).mp (ho.own a ha)
  · intro hids
    have hat : ∀ i a : Nat, ids[i]? = some a → a = i := by
      intro i a ha
      rw [hids] at ha
      obtain ⟨hlt, rfl⟩ := List.getElem?_eq_some_iff.mp ha
      exact List.getElem_range _
    have hown : ∀ a ∈ ids, ids[a]? = some a := by
      intro a ha
      obtain ⟨i, hi⟩ := List.getElem?_of_mem ha
      obtain rfl := hat i a hi
      exact hi
    refine ⟨fun a ha => (h.own_iff a).mpr (hown a ha), fun a ha a' ha' heq => ?_, fun own => ?_⟩
    · have hget := h.getElem? a
      rw [heq, ← h.getElem? a', hown a ha, hown a' ha'] at hget
      exact Option.some.inj hget
    · exact h.bootupAps.mpr fun i a ha => .inr (hat i a ha)

/-- **Every processor finds its own area** after `acpi_config_smp` exactly if
the enabled local APICs of the table have the ids 0, 1, 2 and so on, in this
order. -/
theorem own_areas_iff_in_order {r : Int} {es : List (Nat × Nat)} {live L M : List Range}
    (hsize : 0 < size) (hw : size + 0xfff < 2 ^ 64) (hheap : Kheap.Inv s.heap live L M)
    (hnr : s.nrCpu = 0) (hbase : ∀ i, s.cpuBase i = none)
    (hrun : acpiConfigSmp fuel size s (some m) = .ok (r, t)) (hes : m.entries fuel 0 = .ok es)
    (hids : (es.filterMap m.enabled).Nodup) :
    OwnAreas t (es.filterMap m.enabled) ↔
      es.filterMap m.enabled = List.range (es.filterMap m.enabled).length := by
  obtain ⟨bases, h⟩ := acpiConfigSmp_areas hsize hw hheap hnr hbase hrun hes
  exact h.ownAreas_iff hids

/-- A MADT with one enabled local APIC for each id. -/
def lapicTable (ids : List UInt8) : Madt where
  length := Madt.header + 8 * ids.length
  lapicAddrPhys := 0xfee00000
  table p :=
    match p % 8 with
    | 1 => 8
    | 3 => ids.getD (p / 8) 0
    | 4 => 1
    | _ => 0

/-- The processors before `init_acpi`, and a heap of three pages. -/
def threePages : Outcome State := do
  let heap ← Kheap.freeKheap4k (Kheap.initKheap (Phymem.initPhyMem 0)) 0x100000 0x3000
  .ok ⟨heap, ⟨0, 0, 0, cpuRunning⟩, 0, fun _ => none, fun _ => ⟨0, 0, 0, 0⟩, false, 0, 0⟩

theorem threePages_inv (h : threePages = .ok s) :
    (∃ L M, Kheap.Inv s.heap [] L M) ∧ s.nrCpu = 0 ∧ ∀ i, s.cpuBase i = none := by
  obtain ⟨heap, hfree, h⟩ := bind_eq_ok.mp h
  cases h
  have hi := Kheap.inv_initKheap (Phymem.inv_init 0)
  have hown : ∀ b, Range.has ⟨0x100000, 0x3000⟩ b + (cover [] b + cover [] b + cover [] b +
      Kheap.freeAt (Kheap.initKheap (Phymem.initPhyMem 0)).phys b) ≤ 1 := by
    intro b
    have hfree : Kheap.freeAt (Kheap.initKheap (Phymem.initPhyMem 0)).phys b = 0 :=
      if_neg (by simp [Kheap.initKheap, Phymem.initPhyMem_bit])
    have := Range.has_le ⟨0x100000, 0x3000⟩ b
    simp only [cover_nil, hfree]
    omega
  obtain ⟨hi', -⟩ := hi.free4k (by decide) hown hfree
  exact ⟨⟨_, _, hi'⟩, rfl, fun _ => rfl⟩

/-- Two processors with the ids 0 and 1. -/
theorem own_areas_two : ∃ s t r, threePages = .ok s ∧
    acpiConfigSmp 9 0x1000 s (some (lapicTable [0, 1])) = .ok (r, t) ∧ OwnAreas t [0, 1] := by
  obtain ⟨s, hs⟩ : ∃ s, threePages = .ok s := ⟨_, rfl⟩
  obtain ⟨⟨L, M, hheap⟩, hnr, hbase⟩ := threePages_inv hs
  obtain ⟨r, t, hrun⟩ : ∃ r t,
      acpiConfigSmp 9 0x1000 s (some (lapicTable [0, 1])) = .ok (r, t) := by
    cases hs
    exact ⟨_, _, rfl⟩
  have hes : (lapicTable [0, 1]).entries 9 0 = .ok [(0, 8), (8, 8)] := rfl
  have hown := own_areas_iff_in_order (by decide) (by decide) hheap hnr hbase hrun hes (by decide)
  exact ⟨s, t, r, hs, hrun, hown.mpr rfl⟩

/-- The same two, listed the other way round: each finds the other's area,
and `bootup_aps` waits for ever. -/
theorem own_areas_swapped : ∃ s t r, threePages = .ok s ∧
    acpiConfigSmp 9 0x1000 s (some (lapicTable [1, 0])) = .ok (r, t) ∧
    (∃ b, t.cpuBase 1 = some b ∧ (t.cpu b).apicId = 0) ∧
    bootupAps 0 t = .error .spin ∧ ¬ OwnAreas t [1, 0] := by
  refine ⟨_, _, _, rfl, rfl, ⟨_, rfl, rfl⟩, rfl, fun h => ?_⟩
  obtain ⟨b, hb, hid⟩ := h.own 1 (by decide)
  cases hb
  cases hid

end Yaos.Smp
