import Yaos.Boot.Model
import Yaos.Pgtable.Spec

/-!
# What `init_pml4` maps

The entry of every address: below 4G from the static directories, above it
from the loop. The loop leaves out the last page, and every page it maps
also stands for the addresses `2 ^ 48` apart, which share its entry.
-/

namespace Yaos.Boot

open Yaos.Lib Yaos.Lib.Radix Yaos.Pgtable Function
open Yaos.Phymem (pageSize)

/-! ## The static tables -/

/-- The tables by number: `pml4`, `first_pdp`, the four directories. -/
def Statics.table (t : Statics) (k : Nat) : Nat := t.tables.getD k 0

section Statics

variable (img : Image) {mem : Nat → Nat} {a b i k j n : Nat}

theorem Image.table_mem (ha : a < 6) : img.table a ∈ img.tables := by
  rw [Statics.table, List.getD_eq_getElem?_getD, List.getElem?_eq_getElem (by exact ha)]
  exact List.getElem_mem _

theorem Image.table_inj (ha : a < 6) (hb : b < 6) (h : img.table a = img.table b) : a = b := by
  have hl : img.tables.length = 6 := rfl
  simp only [Statics.table, List.getD_eq_getElem?_getD, List.getElem?_eq_getElem (hl ▸ ha),
    List.getElem?_eq_getElem (hl ▸ hb), Option.getD_some] at h
  exact (img.distinct.getElem_inj_iff).mp h

theorem Image.table_aligned (ha : a < 6) : img.table a % page = 0 :=
  img.aligned _ (img.table_mem ha)

theorem Image.table_pos (ha : a < 6) : img.table a ≠ 0 := by
  have := (img.inside _ (img.table_mem ha)).1
  simp only [kernelStart] at this
  omega

theorem Image.slot_iff (ha : a < 6) (hb : b < 6) (hi : i < fan) (hk : k < fan) :
    img.table a + 8 * i = img.table b + 8 * k ↔ a = b ∧ i = k := by
  constructor
  · intro h
    obtain ⟨ht, hik⟩ := slot_inj (img.table_aligned ha) (img.table_aligned hb) hi hk h
    exact ⟨img.table_inj ha hb ht, hik⟩
  · rintro ⟨rfl, rfl⟩
    rfl

theorem setPdes_eq (ha : a < 6) (hk : k < fan) (hi : i < fan) :
    img.setPdes mem i (img.table a + 8 * k) =
      if 2 ≤ a ∧ k = i then pde (i + (a - 2) * 512) else mem (img.table a + 8 * k) := by
  have hslot : ∀ b < 6, img.table a + 8 * k = img.table b + 8 * i ↔ a = b ∧ k = i :=
    fun b hb => img.slot_iff ha hb hk hi
  have hround : img.setPdes mem i = update (update (update
      (update mem (img.table 2 + 8 * i) (pde i)) (img.table 3 + 8 * i) (pde (i + 512)))
      (img.table 4 + 8 * i) (pde (i + 2 * 512))) (img.table 5 + 8 * i) (pde (i + 3 * 512)) := rfl
  simp only [hround, update_apply, hslot 2 (by decide), hslot 3 (by decide),
    hslot 4 (by decide), hslot 5 (by decide)]
  match a, ha with
  | 0, _ | 1, _ | 2, _ | 3, _ | 4, _ | 5, _ => simp

/-- The directories after the loop over `i`; the other tables are as before. -/
theorem fillPds_eq (hn : n ≤ fan) (ha : a < 6) (hk : k < fan) :
    img.fillPds n mem (img.table a + 8 * k) =
      if 2 ≤ a ∧ k < n then pde (k + (a - 2) * 512) else mem (img.table a + 8 * k) := by
  induction n with
  | zero => simp [Statics.fillPds]
  | succ n ih =>
    rw [Statics.fillPds, setPdes_eq img ha hk (by omega), ih (by omega)]
    by_cases hkn : k = n
    · subst hkn
      simp
    · have hlt : k < n + 1 ↔ k < n := by omega
      simp [hkn, hlt]

theorem clear_slot (ha : a < 6) (hb : b < 6) (hk : k < fan) :
    clear mem (img.table a) (img.table b + 8 * k) =
      if a = b then 0 else mem (img.table b + 8 * k) := by
  by_cases hab : a = b
  · subst hab
    rw [if_pos rfl, clear, if_pos]
    simp only [page, fan] at *
    omega
  · rw [if_neg hab, clear, if_neg]
    exact slot_notMem (img.table_aligned ha) (img.table_aligned hb) hk
      fun heq => hab (img.table_inj ha hb heq.symm)

theorem linkPds_eq (ha : a < 2) (hk : k < fan) :
    img.linkPds mem (img.table a + 8 * k) =
      if a = 0 then (if k = 0 then link (img.table 1) else 0)
      else if k < 4 then link (img.table (k + 2)) else 0 := by
  have hslot : ∀ b < 6, ∀ i < 4, img.table a + 8 * k = img.table b + 8 * i ↔ a = b ∧ k = i :=
    fun b hb i hi => img.slot_iff (by omega) hb hk (by simp only [fan]; omega)
  have hlinks : img.linkPds mem = update (update (update
      (update (update (clear (clear mem (img.table 0)) (img.table 1))
      (img.table 0 + 8 * 0) (link (img.table 1))) (img.table 1 + 8 * 0) (link (img.table 2)))
      (img.table 1 + 8 * 1) (link (img.table 3))) (img.table 1 + 8 * 2) (link (img.table 4)))
      (img.table 1 + 8 * 3) (link (img.table 5)) := rfl
  simp only [hlinks, update_apply, hslot 0 (by decide) 0 (by decide),
    hslot 1 (by decide) 0 (by decide), hslot 1 (by decide) 1 (by decide),
    hslot 1 (by decide) 2 (by decide), hslot 1 (by decide) 3 (by decide),
    clear_slot img (by decide : 1 < 6) (by omega : a < 6) hk,
    clear_slot img (by decide : 0 < 6) (by omega : a < 6) hk]
  obtain rfl | rfl : a = 0 ∨ a = 1 := by omega
  · simp
  · obtain rfl | rfl | rfl | rfl | ⟨k, rfl⟩ : k = 0 ∨ k = 1 ∨ k = 2 ∨ k = 3 ∨ ∃ l, k = l + 4 := by
      by_cases hfour : k < 4
      · omega
      · exact .inr (.inr (.inr (.inr ⟨k - 4, by omega⟩)))
    all_goals simp

/-- The number of the table at the end of a path. -/
def tableOf : List Nat → Option Nat
  | [] => some 0
  | [0] => some 1
  | [0, j] => if j < 4 then some (j + 2) else none
  | _ => none

theorem tableOf_lt {p : List Nat} (h : tableOf p = some a) : a < 6 := by
  unfold tableOf at h
  split at h
  · cases h
    decide
  · cases h
    decide
  · split at h
    · cases h
      omega
    · cases h
  · cases h

theorem tableOf_inj {p q : List Nat} (hp : tableOf p = some a) (hq : tableOf q = some a) :
    p = q := by
  unfold tableOf at hp hq
  split at hp <;> split at hq <;> simp_all <;> omega

theorem frame_link (ha : a < 6) : frame (link (img.table a)) = img.table a := by
  have h := img.table_aligned ha
  rw [link, Nat.or_assoc, or_flags h (by decide)]
  exact frame_add h (by decide)

def Image.filled (img : Image) (mem : Nat → Nat) : Nat → Nat := img.fillPds 512 (img.linkPds mem)

theorem filled_eq (ha : a < 6) (hk : k < fan) :
    img.filled mem (img.table a + 8 * k) =
      if a = 0 then (if k = 0 then link (img.table 1) else 0)
      else if a = 1 then (if k < 4 then link (img.table (k + 2)) else 0)
      else pde (k + (a - 2) * 512) := by
  rw [Image.filled, fillPds_eq img (by decide) ha hk]
  by_cases h2 : 2 ≤ a
  · rw [if_pos ⟨h2, hk⟩, if_neg (by omega), if_neg (by omega)]
  · rw [if_neg (fun h => h2 h.1), linkPds_eq img (by omega) hk]
    by_cases h0 : a = 0
    · rw [if_pos h0, if_pos h0]
    · have h1 : a = 1 := by omega
      rw [if_neg h0, if_neg h0, if_pos h1]

theorem tab_filled {p : List Nat} (hp : IsPath 2 p) :
    tab (img.filled mem) img.pml4 p = ((tableOf p).map img.table).getD 0 := by
  have hroot : img.pml4 = img.table 0 := rfl
  have h0 : img.table 0 ≠ 0 := img.table_pos (by decide)
  have h1 : img.table 1 ≠ 0 := img.table_pos (by decide)
  have hone : ∀ i < fan, tab (img.filled mem) img.pml4 [i] = if i = 0 then img.table 1 else 0 := by
    intro i hi
    have hcat : ([i] : List Nat) = [] ++ [i] := rfl
    rw [hcat, tab_concat, tab_nil, hroot, if_neg h0, filled_eq img (by decide) hi, if_pos rfl]
    split
    · exact frame_link img (by decide)
    · rfl
  match p, hp with
  | [], _ => rfl
  | [i], hp =>
    rw [hone i (hp.2 i (by simp))]
    match i with
    | 0 => rfl
    | i + 1 => rfl
  | [i, j], hp =>
    have hcat : [i, j] = [i] ++ [j] := rfl
    rw [hcat, tab_concat, hone i (hp.2 i (by simp))]
    match i with
    | 0 =>
      rw [if_pos rfl, if_neg h1, filled_eq img (by decide) (hp.2 j (by simp)), if_neg (by decide),
        if_pos rfl]
      by_cases hj : j < 4
      · simp only [hj, if_true, frame_link img (by omega : j + 2 < 6), List.cons_append,
          List.nil_append, tableOf, Option.map_some, Option.getD_some]
      · simp [hj, tableOf, frame]
    | i + 1 => rfl
  | _ :: _ :: _ :: _, hp =>
    have := hp.1
    simp at this

theorem tree_filled : Tree (img.filled mem) img.pml4 2 where
  root_pos := img.table_pos (a := 0) (by decide)
  root_aligned := img.table_aligned (a := 0) (by decide)
  inj := by
    intro p q hp hq hne heq
    rw [tab_filled img hp] at hne heq
    rw [tab_filled img hq] at heq
    cases hpa : tableOf p with
    | none => simp [hpa] at hne
    | some a =>
      cases hqb : tableOf q with
      | none => simp [hpa, hqb, img.table_pos (tableOf_lt hpa)] at heq
      | some b =>
        simp only [hpa, hqb, Option.map_some, Option.getD_some] at heq
        have hab := img.table_inj (tableOf_lt hpa) (tableOf_lt hqb) heq
        exact tableOf_inj hpa (hab ▸ hqb)

/-- The static part of `init_pml4`. -/
def Image.static (img : Image) (s : State) : State :=
  { s with pml4 := img.pml4, mem := img.filled s.mem }

theorem static_entry (s : State) (x : Nat) :
    (img.static s).entry x = if vpn x < 2048 then pde (vpn x) else 0 := by
  have hleaf : (img.static s).entry x = leaf (img.filled s.mem) img.pml4 (path x) (pdIndex x) :=
    entry_eq_leaf _ (by exact img.table_pos (a := 0) (by decide)) x
  rw [hleaf, leaf, tab_filled img (isPath_path x)]
  have hpath : path x = [pml4Index x, pdpIndex x] := rfl
  have hk : pdIndex x < fan := pdIndex_lt x
  -- the page number of an address below 4G, from its two indices
  have hlow : vpn x < 2048 ↔ pml4Index x = 0 ∧ pdpIndex x < 4 := by
    simp only [vpn, pml4Index, pdpIndex]
    omega
  by_cases h : vpn x < 2048
  · obtain ⟨h₁, h₂⟩ := hlow.mp h
    have hvpn : pdIndex x + pdpIndex x * 512 = vpn x := by
      simp only [vpn, pml4Index, pdpIndex, pdIndex] at *
      omega
    have ht : tableOf (path x) = some (pdpIndex x + 2) := by
      rw [hpath, h₁]
      exact if_pos h₂
    rw [ht, Option.map_some, Option.getD_some, if_neg (img.table_pos (by omega)),
      filled_eq img (by omega) hk, if_neg (by omega), if_neg (by omega), Nat.add_sub_cancel, hvpn,
      if_pos h]
  · have ht : tableOf (path x) = none := by
      rw [hpath]
      cases hi : pml4Index x with
      | zero => exact if_neg fun h₂ => h (hlow.mpr ⟨hi, h₂⟩)
      | succ i => rfl
    rw [ht, if_neg h]
    rfl

end Statics

/-! ## The entries -/

def flags : Nat := ptePS ||| pteP ||| pteW

/-- An entry for the 2M page of an address itself, present and writable. -/
def Identity (s : State) (b : Nat) : Prop :=
  s.entry b &&& flags = flags ∧
    s.entry b / pageSize * pageSize = b / pageSize * pageSize

theorem pde_int {n : Nat} (h : n < 2048) :
    (BitVec.ofNat 32 (n * pageSize) ||| BitVec.ofNat 32 (ptePS ||| pteW ||| pteP)).toNat =
      n * pageSize + flags := by
  have hlt : n * pageSize < 2 ^ 32 := by
    simp only [pageSize]
    omega
  have hal : n * pageSize % page = 0 := by
    simp only [pageSize, page]
    omega
  rw [BitVec.toNat_or, BitVec.toNat_ofNat, BitVec.toNat_ofNat, Nat.mod_eq_of_lt hlt]
  exact or_flags hal (by decide)

theorem pde_eq {n : Nat} (h : n < 2048) : pde n =
    n * pageSize + flags + if n < 1024 then 0 else 2 ^ 64 - 2 ^ 32 := by
  have hint := pde_int h
  have hval : n * pageSize + flags < 2 ^ 32 := by
    have hf : flags = 0x83 := rfl
    simp only [pageSize]
    omega
  rw [pde, BitVec.toNat_signExtend, BitVec.toNat_setWidth, BitVec.msb_eq_decide, hint,
    Nat.mod_eq_of_lt (by omega)]
  have hmsb : 2 ^ (32 - 1) ≤ n * pageSize + flags ↔ ¬ n < 1024 := by
    have hf : flags = 0x83 := rfl
    simp only [pageSize]
    omega
  by_cases hn : n < 1024
  · rw [if_pos hn, decide_eq_false (fun hle => hmsb.mp hle hn)]
    rfl
  · rw [if_neg hn, decide_eq_true (hmsb.mpr hn)]
    rfl

/-- The loop of `init_pml4` maps page `n`. -/
def InLoop (max n : Nat) : Prop := 2048 ≤ n ∧ (n + 1) * pageSize < max

/-- Page `n` is below 2G or mapped by the loop, and the loop does not come
to its entry again. -/
def Mapped (max n : Nat) : Prop := (n < 1024 ∨ InLoop max n) ∧ ¬ InLoop max (n + 2 ^ 27)

/-- The last page from `m` on that the loop maps at entry `v`. -/
structure Last (max m v n : Nat) : Prop where
  from_le : m ≤ n
  mapped : (n + 1) * pageSize < max
  entry : n % 2 ^ 27 = v
  last : ∀ k, n < k → (k + 1) * pageSize < max → k % 2 ^ 27 ≠ v

theorem vpn_eq (x : Nat) : vpn x = x / pageSize % 2 ^ 27 := rfl

theorem mul_pageSize_vpn (n : Nat) : vpn (n * pageSize) = n % 2 ^ 27 := by
  rw [vpn_eq, Nat.mul_div_cancel _ (by decide)]

theorem or_pageFlags (n : Nat) :
    n * pageSize ||| (ptePS ||| pteP ||| pteW) = n * pageSize + flags := by
  refine or_flags ?_ (by decide)
  simp only [pageSize, page]
  omega

/-- **One round**: the page is mapped if the next one begins below the end of memory. -/
theorem mapAbove_round {fuel max k m : Nat} {s t : State} (hm : m * pageSize < 2 ^ 63)
    (h : mapAbove fuel max (k + 1) s (m * pageSize) = .ok t) :
    ((m + 1) * pageSize < max ∧ ∃ s₁,
      mapPageP2v fuel s (m * pageSize) (m * pageSize) (ptePS ||| pteP ||| pteW) = .ok (codeOk, s₁) ∧
      mapAbove fuel max k s₁ ((m + 1) * pageSize) = .ok t) ∨
    ¬ (m + 1) * pageSize < max ∧ t = s := by
  have hstep : Multiboot.u64 (m * pageSize + pageSize) = (m + 1) * pageSize := by
    have hsucc : (m + 1) * pageSize = m * pageSize + pageSize := Nat.succ_mul _ _
    have hps : pageSize = 0x200000 := rfl
    rw [← hsucc]
    exact Multiboot.u64_of_lt (by omega)
  rw [mapAbove, hstep] at h
  split at h
  case isTrue hlt =>
    obtain ⟨⟨code, s₁⟩, hmap, h⟩ := bind_eq_ok.mp h
    dsimp only at h
    split at h
    case isTrue => cases h
    case isFalse hcode =>
      obtain rfl : code = codeOk := not_not.mp hcode
      exact .inl ⟨hlt, s₁, hmap, h⟩
  case isFalse hge =>
    cases h
    exact .inr ⟨hge, rfl⟩

/-- **The loop**: every address has the entry of the last page that was
mapped there, or the one it had. -/
theorem mapAbove_spec {fuel max k m : Nat} {s t : State} {live L M : List Range}
    (hmax : max < 2 ^ 63) (hm : m * pageSize < 2 ^ 63) (hi : Inv s live L M)
    (h : mapAbove fuel max k s (m * pageSize) = .ok t) :
    ∃ live' L', Inv t live' L' M ∧ (∀ x ∈ live, x ∈ live') ∧
      ∀ x, (t.entry x = s.entry x ∧
          ∀ n, m ≤ n → (n + 1) * pageSize < max → n % 2 ^ 27 ≠ vpn x) ∨
        ∃ n, Last max m (vpn x) n ∧ t.entry x = n * pageSize + flags := by
  induction k generalizing s live L m with
  | zero => cases h
  | succ k ih =>
    rcases mapAbove_round hm h with ⟨hlt, s₁, hmap, h⟩ | ⟨hge, rfl⟩
    · obtain ⟨live₁, L₁, hinv₁, -, hsub₁, -, hcase⟩ := mapPageP2v_spec hi hmap
      rcases hcase with ⟨-, hentry⟩ | ⟨hcode, -, -⟩
      · obtain ⟨live₂, L₂, hinv₂, hsub₂, hall⟩ := ih (by omega) hinv₁ h
        refine ⟨live₂, L₂, hinv₂, fun x hx => hsub₂ x (hsub₁ x hx), fun x => ?_⟩
        rcases hall x with ⟨hx, hnone⟩ | ⟨n, hn, hx⟩
        · rw [hentry, mul_pageSize_vpn, or_pageFlags] at hx
          by_cases hv : vpn x = m % 2 ^ 27
          · rw [if_pos hv] at hx
            exact .inr ⟨m, ⟨Nat.le_refl m, hlt, hv.symm, hnone⟩, hx⟩
          · rw [if_neg hv] at hx
            refine .inl ⟨hx, fun n hmn hn hnv => ?_⟩
            by_cases heq : n = m
            · subst heq
              exact hv hnv.symm
            · exact hnone n (by omega) hn hnv
        · exact .inr ⟨n, ⟨by have := hn.from_le; omega, hn.mapped, hn.entry, hn.last⟩, hx⟩
      · cases hcode
    · refine ⟨live, L, hi, fun _ hx => hx, fun x => .inl ⟨rfl, fun n hmn hn _ => hge ?_⟩⟩
      have hle : (m + 1) * pageSize ≤ (n + 1) * pageSize :=
        Nat.mul_le_mul_right _ (by omega)
      omega

/-! ## Which addresses are mapped to themselves -/

theorem flags_and (n : Nat) : (n * pageSize + flags) &&& flags = flags := by
  rw [← or_pageFlags]
  refine Nat.eq_of_testBit_eq fun i => ?_
  simp only [flags, Nat.testBit_and, Nat.testBit_or]
  cases Nat.testBit ptePS i <;> cases Nat.testBit pteP i <;> cases Nat.testBit pteW i <;> simp

theorem identity_page {s : State} {b n : Nat} (h : s.entry b = n * pageSize + flags) :
    Identity s b ↔ n = b / pageSize := by
  have hdiv : (n * pageSize + flags) / pageSize = n := by
    have hf : flags = 0x83 := rfl
    simp only [pageSize]
    omega
  rw [Identity, h, flags_and, hdiv]
  constructor
  · rintro ⟨-, heq⟩
    exact Nat.eq_of_mul_eq_mul_right (by decide) heq
  · rintro rfl
    exact ⟨rfl, rfl⟩

theorem identity_static {s t : State} (img : Image) {b : Nat} (hb : b < 2 ^ 63)
    (h : t.entry b = (img.static s).entry b) : Identity t b ↔ b / pageSize < 1024 := by
  have hq : b / pageSize < 2 ^ 42 := Nat.div_lt_of_lt_mul hb
  have hvb := vpn_eq b
  rw [static_entry] at h
  by_cases hv : vpn b < 2048
  · rw [if_pos hv, pde_eq hv] at h
    by_cases hlow : vpn b < 1024
    · rw [if_pos hlow, Nat.add_zero] at h
      rw [identity_page h]
      generalize b / pageSize = q at *
      omega
    · -- the sign bits are no part of the address
      have hsign : vpn b * pageSize + flags + (2 ^ 64 - 2 ^ 32) =
          (vpn b + (2 ^ 43 - 2 ^ 11)) * pageSize + flags := by
        simp only [pageSize]
        omega
      rw [if_neg hlow, hsign] at h
      rw [identity_page h]
      generalize b / pageSize = q at *
      omega
  · rw [if_neg hv] at h
    constructor
    · rintro ⟨hflags, -⟩
      rw [h, Nat.zero_and] at hflags
      exact absurd hflags (by decide)
    · intro hlow
      generalize b / pageSize = q at *
      omega

/-- **What is mapped after the loop.** -/
theorem identity_iff {max b : Nat} {s t : State} (img : Image) (hb : b < 2 ^ 63)
    (h : (t.entry b = (img.static s).entry b ∧
        ∀ n, 2048 ≤ n → (n + 1) * pageSize < max → n % 2 ^ 27 ≠ vpn b) ∨
      ∃ n, Last max 2048 (vpn b) n ∧ t.entry b = n * pageSize + flags) :
    Identity t b ↔ Mapped max (b / pageSize) := by
  have hvb := vpn_eq b
  rcases h with ⟨hentry, hnone⟩ | ⟨n, hn, hentry⟩
  · rw [identity_static img hb hentry]
    have hself : ¬ InLoop max (b / pageSize) := fun hin => hnone _ hin.1 hin.2 hvb.symm
    have hnext : ¬ InLoop max (b / pageSize + 2 ^ 27) :=
      fun hin => hnone _ hin.1 hin.2 (by rw [Nat.add_mod_right, hvb])
    exact ⟨fun hlow => ⟨.inl hlow, hnext⟩, fun hm => hm.1.resolve_right hself⟩
  · rw [identity_page hentry]
    have hlast := hn.last
    have hcong := hn.entry.trans hvb
    constructor
    · rintro rfl
      refine ⟨.inr ⟨hn.from_le, hn.mapped⟩, fun hin => ?_⟩
      exact hlast _ (by omega) hin.2 (by rw [Nat.add_mod_right, hn.entry])
    · rintro ⟨hor, hnext⟩
      -- a different page with the same entry is at least `2 ^ 27` pages away
      by_contra hne
      rcases Nat.lt_or_gt_of_ne hne with hlt | hgt
      · have hin : InLoop max (b / pageSize) := by
          refine hor.resolve_left fun hlow => ?_
          have := hn.from_le
          omega
        exact hlast _ hlt hin.2 hvb.symm
      · have hfar : b / pageSize + 2 ^ 27 ≤ n := by
          generalize b / pageSize = q at *
          omega
        refine hnext ⟨Nat.le_trans (by decide) (Nat.le_add_left _ _), ?_⟩
        have hle := Nat.mul_le_mul_right pageSize (Nat.succ_le_succ hfar)
        exact Nat.lt_of_le_of_lt hle hn.mapped

end Yaos.Boot
