import Yaos.Lib.Orbit
import Yaos.Lib.Outcome

/-!
# Capabilities of a PCI function (`libs/libpci/pci_device.c`)

The byte at 0x34 points to the first capability; each has an id and a pointer to
the next. `find_capability` follows the pointers as they are, at most 241 of
them. Entries are on dword boundaries, and the low bits of a pointer are reserved:
a chain of entries ends where a pointer is 0, or comes round. Such a chain has at
most 63 entries, so that the counter is large enough; but a pointer with low bits
set leads the search off the boundaries.
-/

namespace Yaos.Pci

open Yaos.Lib

/-! ## The code -/

/-- The bytes of a configuration space. An offset is a `u8`, so it cannot leave it. -/
abbrev Config := UInt8 → UInt8

/-- `pci_readb`. -/
def Config.readb (cfg : Config) (offset : UInt8) : UInt8 := cfg offset

/-- `pci_readw`: the port is `PCI_CONFIG_DATA + (offset & 0x02)`. -/
def Config.readw (cfg : Config) (offset : UInt8) : UInt16 :=
  let base := offset / 2 * 2
  (cfg base).toUInt16 ||| (cfg (base + 1)).toUInt16 <<< 8

/-- `pci_readl`: of a dword. -/
def Config.readl (cfg : Config) (offset : UInt8) : UInt32 :=
  let base := offset / 4 * 4
  (cfg.readw base).toUInt32 ||| (cfg.readw (base + 2)).toUInt32 <<< 16

/-- `PCI_CAPABILITIES_PTR`. -/
def capabilitiesPtr : UInt8 := 0x34

/-- `PCI_CAP_OFF_NEXT`. -/
def capOffNext : UInt8 := 1

/-- `PCI_CAP_MSI`. -/
def capMsi : UInt8 := 0x05

/-- `PCI_CAP_MSIX`. -/
def capMsix : UInt8 := 0x11

/-- The loop of `find_capability`. -/
def findLoop (cfg : Config) (capId : UInt8) : Nat → UInt8 → UInt8 → Outcome UInt8
  | 0, _, _ => .error .spin
  | fuel + 1, off, ctr =>
      if off = 0 then .ok 0xff
      else if cfg.readb off = capId then .ok off
      else
        let ctr := ctr + 1
        if 0xf0 < ctr then .ok 0xff
        else findLoop cfg capId fuel (cfg.readb (off + capOffNext)) ctr

/-- `find_capability`. -/
def findCapability (fuel : Nat) (cfg : Config) (capId : UInt8) : Outcome UInt8 :=
  findLoop cfg capId fuel (cfg.readb capabilitiesPtr) 0

/-- `struct pcicfg_msix`. -/
structure Msix where
  ctrl : UInt16
  msgnum : UInt16
  location : UInt8
  tableBar : UInt8
  pbaBar : UInt8
  tableOffset : UInt32
  pbaOffset : UInt32

/-- `struct pcicfg_msi`. -/
structure Msi where
  location : UInt8
  ctrl : UInt16
  msgnum : UInt16
  is64Address : Bool
  isVectorMask : Bool

/-- What `parse_pci_msix` stores. -/
def parsePciMsix (cfg : Config) (off : UInt8) : Msix :=
  let ctrl := cfg.readw (off + 2)
  let table := cfg.readl (off + 4)
  let pba := cfg.readl (off + 8)
  { ctrl := ctrl
    msgnum := (ctrl &&& 0x07ff) + 1
    location := off
    tableBar := (table &&& 7).toUInt8
    pbaBar := (pba &&& 7).toUInt8
    tableOffset := table &&& ~~~7
    pbaOffset := pba &&& ~~~7 }

/-- What `parse_pci_msi` stores. -/
def parsePciMsi (cfg : Config) (off : UInt8) : Msi :=
  let ctrl := cfg.readw (off + 2)
  { location := off
    ctrl := ctrl
    msgnum := 1
    is64Address := ctrl &&& 0x80 ≠ 0
    isVectorMask := ctrl &&& 0x100 ≠ 0 }

/-- `_have_msix` with `_msix`, and `_have_msi` with `_msi`. -/
structure Capabilities where
  msix : Option Msix
  msi : Option Msi

/-- `parse_pci_capabilities`, which always returns `true`. -/
def parsePciCapabilities (fuel : Nat) (cfg : Config) (c : Capabilities) : Outcome Capabilities := do
  let off ← findCapability fuel cfg capMsix
  if off ≠ 0xff then .ok { c with msix := some (parsePciMsix cfg off) }
  else do
    let off ← findCapability fuel cfg capMsi
    if off ≠ 0xff then .ok { c with msi := some (parsePciMsi cfg off) } else .ok c

/-! ## The chain -/

/-- The pointers, from the one at 0x34 on. -/
def Config.pointer (cfg : Config) (k : Nat) : UInt8 := (fun p => cfg (p + 1))^[k] (cfg 0x34)

def Aligned (off : UInt8) : Prop := off.toNat % 4 = 0

instance (off : UInt8) : Decidable (Aligned off) := inferInstanceAs (Decidable (_ = _))

/-- The pointer `k` leads to an entry of the chain. -/
def Config.Entry (cfg : Config) (k : Nat) : Prop :=
  ∀ i ≤ k, cfg.pointer i ≠ 0 ∧ Aligned (cfg.pointer i)

/-- What `find_capability` should return: the offset of the first entry with the
id, and 0xFF if no entry has it, wherever the pointers lead after the last
entry. -/
def FindsRight (cfg : Config) (capId : UInt8) : Prop :=
  ∃ r, (∀ fuel, 241 ≤ fuel → findCapability fuel cfg capId = .ok r) ∧
    (∀ k, cfg.Entry k → cfg (cfg.pointer k) = capId → (∀ i < k, cfg (cfg.pointer i) ≠ capId) →
      r = cfg.pointer k) ∧
    ((∀ k, cfg.Entry k → cfg (cfg.pointer k) ≠ capId) → r = 0xff)

/-- Capabilities are parsed at entries of the chain. -/
def ParsesEntries (cfg : Config) : Prop :=
  ∃ c, (∀ fuel, 241 ≤ fuel → parsePciCapabilities fuel cfg ⟨none, none⟩ = .ok c) ∧
    (∀ m, c.msix = some m → ∃ k, cfg.Entry k ∧ cfg.pointer k = m.location) ∧
    ∀ m, c.msi = some m → ∃ k, cfg.Entry k ∧ cfg.pointer k = m.location

/-! ## The search -/

/-- The search meets the id at the pointer `k`. -/
structure Config.Met (cfg : Config) (capId : UInt8) (k : Nat) : Prop where
  le : k ≤ 240
  live : ∀ i ≤ k, cfg.pointer i ≠ 0
  before : ∀ i < k, cfg (cfg.pointer i) ≠ capId
  id : cfg (cfg.pointer k) = capId

variable {cfg : Config} {capId : UInt8} {k fuel : Nat}

theorem pointer_succ : cfg.pointer (k + 1) = cfg (cfg.pointer k + 1) := Function.iterate_succ_apply' _ _ _

theorem Config.Met.unique {m : Nat} (hk : cfg.Met capId k) (hm : cfg.Met capId m) : k = m := by
  rcases Nat.lt_trichotomy k m with h | h | h
  · exact absurd hk.id (hm.before k h)
  · exact h
  · exact absurd hm.id (hk.before m h)

/-- The search has not ended before the pointer `k`. -/
structure Config.Searching (cfg : Config) (capId : UInt8) (k : Nat) : Prop where
  le : k ≤ 240
  live : ∀ i < k, cfg.pointer i ≠ 0
  before : ∀ i < k, cfg (cfg.pointer i) ≠ capId

def Config.Returns (cfg : Config) (capId r : UInt8) : Prop :=
  (∃ m, cfg.Met capId m ∧ r = cfg.pointer m) ∨ r = 0xff ∧ ∀ m, ¬ cfg.Met capId m

theorem Config.Searching.ends (h : cfg.Searching capId k) (hend : cfg.pointer k = 0) :
    ∀ m, ¬ cfg.Met capId m := by
  intro m hm
  by_cases hlt : m < k
  · exact h.before m hlt hm.id
  · exact hm.live k (Nat.not_lt.mp hlt) hend

theorem Config.Searching.met (h : cfg.Searching capId k) (hlive : cfg.pointer k ≠ 0)
    (hid : cfg (cfg.pointer k) = capId) : cfg.Met capId k where
  le := h.le
  live i hi := by
    rcases Nat.lt_or_eq_of_le hi with hlt | rfl
    · exact h.live i hlt
    · exact hlive
  before := h.before
  id := hid

theorem Config.Searching.next (h : cfg.Searching capId k) (hlive : cfg.pointer k ≠ 0)
    (hid : cfg (cfg.pointer k) ≠ capId) (hlt : k < 240) : cfg.Searching capId (k + 1) where
  le := hlt
  live i hi := by
    rcases Nat.lt_or_eq_of_le (Nat.le_of_lt_succ hi) with hlt | rfl
    · exact h.live i hlt
    · exact hlive
  before i hi := by
    rcases Nat.lt_or_eq_of_le (Nat.le_of_lt_succ hi) with hlt | rfl
    · exact h.before i hlt
    · exact hid

/-- **One round**: the search returns, or goes on at the next pointer. -/
theorem findLoop_round (h : cfg.Searching capId k) :
    (∃ r, cfg.Returns capId r ∧
      ∀ f, findLoop cfg capId (f + 1) (cfg.pointer k) (UInt8.ofNat k) = .ok r) ∨
    k < 240 ∧ cfg.Searching capId (k + 1) ∧
      ∀ f, findLoop cfg capId (f + 1) (cfg.pointer k) (UInt8.ofNat k) =
        findLoop cfg capId f (cfg.pointer (k + 1)) (UInt8.ofNat (k + 1)) := by
  by_cases hend : cfg.pointer k = 0
  · refine .inl ⟨0xff, .inr ⟨rfl, h.ends hend⟩, fun f => ?_⟩
    rw [findLoop, if_pos hend]
  by_cases hid : cfg (cfg.pointer k) = capId
  · refine .inl ⟨_, .inl ⟨k, h.met hend hid, rfl⟩, fun f => ?_⟩
    rw [findLoop, if_neg hend, Config.readb, if_pos hid]
  have hctr : UInt8.ofNat k + 1 = UInt8.ofNat (k + 1) := (UInt8.ofNat_add k 1).symm
  have hle := h.le
  by_cases hlt : k < 240
  · refine .inr ⟨hlt, h.next hend hid hlt, fun f => ?_⟩
    have hmax : ¬ 0xf0 < UInt8.ofNat (k + 1) := by
      rw [UInt8.lt_iff_toNat_lt, UInt8.toNat_ofNat_of_lt' (by omega : k + 1 < 2 ^ 8)]
      exact Nat.not_lt.mpr hlt
    rw [findLoop, if_neg hend, Config.readb, if_neg hid, hctr, if_neg hmax, pointer_succ]
    rfl
  · -- the counter has reached its limit
    obtain rfl : k = 240 := by omega
    refine .inl ⟨0xff, .inr ⟨rfl, fun m hm => ?_⟩, fun f => ?_⟩
    · rcases Nat.lt_or_eq_of_le hm.le with hlt | rfl
      · exact h.before m hlt hm.id
      · exact hid hm.id
    · rw [findLoop, if_neg hend, Config.readb, if_neg hid]
      rfl

/-- The search from the pointer `k` on; `n` rounds may follow this one. -/
theorem findLoop_spec (n : Nat) (hn : k + n = 240) (h : cfg.Searching capId k) :
    ∃ r, cfg.Returns capId r ∧
      ∀ fuel, n < fuel → findLoop cfg capId fuel (cfg.pointer k) (UInt8.ofNat k) = .ok r := by
  induction n generalizing k with
  | zero =>
    rcases findLoop_round h with ⟨r, hr, hloop⟩ | ⟨hlt, -⟩
    · refine ⟨r, hr, fun fuel hfuel => ?_⟩
      obtain ⟨f, rfl⟩ := Nat.exists_eq_add_one_of_ne_zero (Nat.ne_of_gt hfuel)
      exact hloop f
    · omega
  | succ n ih =>
    rcases findLoop_round h with ⟨r, hr, hloop⟩ | ⟨-, hnext, hloop⟩
    · refine ⟨r, hr, fun fuel hfuel => ?_⟩
      obtain ⟨f, rfl⟩ := Nat.exists_eq_add_one_of_ne_zero (show fuel ≠ 0 by omega)
      exact hloop f
    · obtain ⟨r, hr, hrest⟩ := ih (by omega) hnext
      refine ⟨r, hr, fun fuel hfuel => ?_⟩
      obtain ⟨f, rfl⟩ := Nat.exists_eq_add_one_of_ne_zero (show fuel ≠ 0 by omega)
      rw [hloop f]
      exact hrest f (by omega)

/-- **`find_capability` returns** the first of its pointers with the id, or 0xFF. -/
theorem findCapability_spec (cfg : Config) (capId : UInt8) : ∃ r, cfg.Returns capId r ∧
    ∀ fuel, 241 ≤ fuel → findCapability fuel cfg capId = .ok r :=
  findLoop_spec 240 (Nat.zero_add 240)
    ⟨Nat.zero_le _, fun _ h => absurd h (Nat.not_lt_zero _), fun _ h => absurd h (Nat.not_lt_zero _)⟩

/-! ## Chains of entries -/

theorem Config.Entry.met (h : cfg.Entry k) (hid : cfg (cfg.pointer k) = capId)
    (hbefore : ∀ i < k, cfg (cfg.pointer i) ≠ capId) : cfg.Met capId k where
  le := by
    have hlt : k < 64 := by
      refine first_lt (P := fun p => cfg p = capId) (g := fun p => p.toNat / 4) hid hbefore
        (fun i hi => ?_) fun i hi j hj heq => ?_
      · have := (cfg.pointer i).toNat_lt
        exact Nat.div_lt_of_lt_mul this
      · have hi' : (cfg.pointer i).toNat % 4 = 0 := (h i hi).2
        have hj' : (cfg.pointer j).toNat % 4 = 0 := (h j hj).2
        have heq : (cfg.pointer i).toNat / 4 = (cfg.pointer j).toNat / 4 := heq
        exact UInt8.toNat_inj.mp (show (cfg.pointer i).toNat = (cfg.pointer j).toNat by omega)
    omega
  live i hi := (h i hi).1
  before := hbefore
  id := hid

/-- If the search meets the id, at an offset other than 0xFF, it is along dword
boundaries. -/
def Config.Straight (cfg : Config) (capId : UInt8) : Prop :=
  ∀ k, cfg.Met capId k → cfg.pointer k ≠ 0xff → ∀ i ≤ k, Aligned (cfg.pointer i)

theorem Config.Met.entry (h : cfg.Met capId k) (haligned : ∀ i ≤ k, Aligned (cfg.pointer i)) :
    cfg.Entry k :=
  fun i hi => ⟨h.live i hi, haligned i hi⟩

/-- If an entry has the id, the way to where the search meets it is along dword
boundaries, as that is not behind the entry. -/
theorem Config.Met.aligned {n : Nat} (h : cfg.Met capId k) (hentry : cfg.Entry n)
    (hid : cfg (cfg.pointer n) = capId) : ∀ i ≤ k, Aligned (cfg.pointer i) := by
  have hkn : k ≤ n := by
    by_contra hlt
    exact h.before n (Nat.not_le.mp hlt) hid
  exact fun i hi => (hentry i (Nat.le_trans hi hkn)).2

theorem Config.Returns.entry {r : UInt8} (h : cfg.Returns capId r) (hstraight : cfg.Straight capId)
    (hr : r ≠ 0xff) : ∃ k, cfg.Entry k ∧ cfg (cfg.pointer k) = capId ∧ cfg.pointer k = r := by
  rcases h with ⟨m, hm, rfl⟩ | ⟨h, -⟩
  · exact ⟨m, hm.entry (hstraight m hm hr), hm.id, rfl⟩
  · exact absurd h hr

/-- **The search for an id is right** exactly if it goes along dword boundaries
when it finds one: otherwise it returns an offset where no entry is. -/
theorem findsRight_iff (cfg : Config) (capId : UInt8) :
    FindsRight cfg capId ↔ cfg.Straight capId := by
  obtain ⟨r, hr, hfind⟩ := findCapability_spec cfg capId
  constructor
  · rintro ⟨r', hfind', -, hnone⟩ k hk hne
    cases (hfind 241 (Nat.le_refl _)).symm.trans (hfind' 241 (Nat.le_refl _))
    by_cases hsome : ∃ n, cfg.Entry n ∧ cfg (cfg.pointer n) = capId
    · obtain ⟨n, hentry, hid⟩ := hsome
      exact hk.aligned hentry hid
    · have hff : r = 0xff := hnone fun n hentry hid => hsome ⟨n, hentry, hid⟩
      rcases hr with ⟨m, hm, rfl⟩ | ⟨-, hno⟩
      · rw [hm.unique hk] at hff
        exact absurd hff hne
      · exact absurd hk (hno k)
  · intro hstraight
    refine ⟨r, hfind, fun k hentry hid hbefore => ?_, fun hnone => ?_⟩
    · have hmet := hentry.met hid hbefore
      rcases hr with ⟨m, hm, rfl⟩ | ⟨-, hno⟩
      · rw [hm.unique hmet]
      · exact absurd hmet (hno k)
    · by_contra hne
      obtain ⟨k, hentry, hid, -⟩ := hr.entry hstraight hne
      exact hnone k hentry hid

/-! ## What is parsed -/

theorem parsesEntries_of_straight (hmsix : cfg.Straight capMsix) (hmsi : cfg.Straight capMsi) :
    ParsesEntries cfg := by
  obtain ⟨r, hr, hfindx⟩ := findCapability_spec cfg capMsix
  obtain ⟨q, hq, hfind⟩ := findCapability_spec cfg capMsi
  by_cases hfound : r = 0xff
  swap
  · refine ⟨⟨some (parsePciMsix cfg r), none⟩, fun fuel hfuel => ?_, fun m hm => ?_, nofun⟩
    · rw [parsePciCapabilities, hfindx fuel hfuel, ok_bind, if_pos hfound]
    · cases hm
      obtain ⟨k, hentry, -, hk⟩ := hr.entry hmsix hfound
      exact ⟨k, hentry, hk⟩
  subst hfound
  have hparse : ∀ fuel, 241 ≤ fuel → parsePciCapabilities fuel cfg ⟨none, none⟩ =
      if q ≠ 0xff then .ok ⟨none, some (parsePciMsi cfg q)⟩ else .ok ⟨none, none⟩ := by
    intro fuel hfuel
    rw [parsePciCapabilities, hfindx fuel hfuel, ok_bind, if_neg (not_not.mpr rfl),
      hfind fuel hfuel, ok_bind]
  by_cases hfound : q = 0xff
  · refine ⟨⟨none, none⟩, fun fuel hfuel => ?_, nofun, nofun⟩
    rw [hparse fuel hfuel, if_neg (not_not.mpr hfound)]
  · refine ⟨⟨none, some (parsePciMsi cfg q)⟩, fun fuel hfuel => ?_, nofun, fun m hm => ?_⟩
    · rw [hparse fuel hfuel, if_pos hfound]
    · cases hm
      obtain ⟨k, hentry, -, hk⟩ := hq.entry hmsi hfound
      exact ⟨k, hentry, hk⟩

/-- What is expected of the code that looks for capabilities. -/
def CapabilitiesRight (cfg : Config) : Prop := (∀ capId, FindsRight cfg capId) ∧ ParsesEntries cfg

/-- **The search is right for every id**, and nothing but an entry is parsed,
exactly if no pointer on the way to an id that is found has its low bits set. -/
theorem capabilities_right_iff (cfg : Config) :
    CapabilitiesRight cfg ↔ ∀ capId, cfg.Straight capId := by
  constructor
  · rintro ⟨hfinds, -⟩ capId
    exact (findsRight_iff cfg capId).mp (hfinds capId)
  · intro hstraight
    exact ⟨fun capId => (findsRight_iff cfg capId).mpr (hstraight capId),
      parsesEntries_of_straight (hstraight capMsix) (hstraight capMsi)⟩

/-- MSI-X at 0x41, where the pointer at 0x34 leads with a reserved bit set. -/
def unaligned : Config := fun off => if off = 0x34 then 0x41 else if off = 0x41 then 0x11 else 0

theorem unaligned_met : unaligned.Met capMsix 0 where
  le := Nat.zero_le _
  live i hi := by
    rw [Nat.le_zero.mp hi]
    decide
  before i hi := absurd hi (Nat.not_lt_zero i)
  id := by decide

/-- **An offset that is no entry** is returned, and parsed for MSI-X: the pointer
with a reserved bit set is followed as it is. -/
theorem parsed_off_chain :
    findCapability 241 unaligned capMsix = .ok 0x41 ∧
    (parsePciCapabilities 241 unaligned ⟨none, none⟩).toOption.map (fun c => c.msix.map Msix.location) =
      some (some 0x41) ∧ (∀ k, ¬ unaligned.Entry k) ∧ ¬ CapabilitiesRight unaligned := by
  have hpointer : ¬ Aligned (unaligned.pointer 0) := by decide
  refine ⟨by decide, by decide, fun k hentry => ?_, fun hright => ?_⟩
  · exact hpointer (hentry 0 (Nat.zero_le k)).2
  · have hstraight := (findsRight_iff unaligned capMsix).mp (hright.1 capMsix)
    exact hpointer (hstraight 0 unaligned_met (by decide) 0 (Nat.le_refl 0))

end Yaos.Pci
