import Raveil.Kernel.Pages
import Raveil.Lib.Frames

/-! The Sv39 page tables of the user task and the walk that reads them. -/
namespace Raveil.Kernel

open Raveil.Lib

def PTE_COUNT : ℕ := 512
def PTE_V : BitVec 64 := (1 : BitVec 64) <<< 0
def PTE_R : BitVec 64 := (1 : BitVec 64) <<< 1
def PTE_W : BitVec 64 := (1 : BitVec 64) <<< 2
def PTE_X : BitVec 64 := (1 : BitVec 64) <<< 3
def PTE_U : BitVec 64 := (1 : BitVec 64) <<< 4
def PTE_G : BitVec 64 := (1 : BitVec 64) <<< 5
def PTE_A : BitVec 64 := (1 : BitVec 64) <<< 6
def PTE_D : BitVec 64 := (1 : BitVec 64) <<< 7

def SONATINE_USER_BASE : BitVec 64 := 0x40000000

def VM_READ : BitVec 32 := 1
def VM_WRITE : BitVec 32 := 2
def VM_EXECUTE : BitVec 32 := 4
def VM_USER : BitVec 32 := 8

inductive Table where
  | root
  | kernelL1
  | userL1
  | userL0
  deriving DecidableEq

def tablePte (table : BitVec 64) : BitVec 64 := ((table >>> 12) <<< 10) ||| PTE_V

def leafPte (pa flags : BitVec 64) : BitVec 64 :=
  ((pa >>> 12) <<< 10) ||| flags ||| PTE_V ||| PTE_A ||| PTE_D

/-- The page choices that `vm_init` takes. -/
def Admitted (codePage stackPage : BitVec 64) : Prop :=
  ¬ (codePage &&& (SONATINE_PAGE_SIZE - 1) ≠ 0 ∨ stackPage &&& (SONATINE_PAGE_SIZE - 1) ≠ 0 ∨
    codePage < QEMU_RAM_BASE ∨ codePage ≥ QEMU_RAM_BASE + QEMU_RAM_SIZE ∨
    stackPage < QEMU_RAM_BASE ∨ stackPage ≥ QEMU_RAM_BASE + QEMU_RAM_SIZE ∨ codePage = stackPage)

instance (codePage stackPage : BitVec 64) : Decidable (Admitted codePage stackPage) :=
  inferInstanceAs (Decidable (¬ _))

section Tables

variable (l : Frames Table)

def clear (m : WordMemory) (table : Table) : WordMemory := l.fill m table PTE_COUNT fun _ => 0

def vmInit (m : WordMemory) (codePage stackPage : BitVec 64) : WordMemory × Bool :=
  if Admitted codePage stackPage then
    let m := clear l (clear l (clear l (clear l m .root) .kernelL1) .userL1) .userL0
    let m := l.write m .root ((QEMU_RAM_BASE >>> 30) &&& 0x1ff).toNat (tablePte (l.address .kernelL1))
    let m := l.fill m .kernelL1 (QEMU_RAM_SIZE / (2 * 1024 * 1024)).toNat fun i =>
      leafPte (QEMU_RAM_BASE + BitVec.ofNat 64 i * 2 * 1024 * 1024) (PTE_R ||| PTE_W ||| PTE_X ||| PTE_G)
    let v2 := ((SONATINE_USER_BASE >>> 30) &&& 0x1ff).toNat
    let v1 := ((SONATINE_USER_BASE >>> 21) &&& 0x1ff).toNat
    let v0 := ((SONATINE_USER_BASE >>> 12) &&& 0x1ff).toNat
    let m := l.write m .root v2 (tablePte (l.address .userL1))
    let m := l.write m .userL1 v1 (tablePte (l.address .userL0))
    let m := l.write m .userL0 v0 (leafPte codePage (PTE_R ||| PTE_X ||| PTE_U))
    let m := l.write m .userL0 (v0 + 1) (leafPte stackPage (PTE_R ||| PTE_W ||| PTE_U))
    (m, true)
  else (m, false)

end Tables

/-- The index of an address in the tables of a level. -/
def index (va : BitVec 64) (level : ℕ) : ℕ := ((va >>> (12 + 9 * level)) &&& 0x1ff).toNat

def permissionsOf (pte : BitVec 64) : BitVec 32 :=
  (if pte &&& PTE_R ≠ 0 then VM_READ else 0) ||| (if pte &&& PTE_W ≠ 0 then VM_WRITE else 0) |||
    (if pte &&& PTE_X ≠ 0 then VM_EXECUTE else 0) ||| (if pte &&& PTE_U ≠ 0 then VM_USER else 0)

/-- The iterations of the walk from level `level - 1` down, at the table the pointer names. -/
def walk (m : WordMemory) (va : BitVec 64) : BitVec 64 → ℕ → Option (BitVec 64 × BitVec 32)
  | _, 0 => none
  | table, level + 1 =>
    let pte := m (table + 8 * BitVec.ofNat 64 (index va level))
    if pte &&& PTE_V = 0 ∨ (pte &&& PTE_W ≠ 0 ∧ pte &&& PTE_R = 0) then none
    else if pte &&& (PTE_R ||| PTE_X) ≠ 0 then
      let size := (1 : BitVec 64) <<< (12 + 9 * level)
      let base := ((pte >>> 10) <<< 12) &&& ~~~(size - 1)
      some (base ||| (va &&& (size - 1)), permissionsOf pte)
    else walk m va ((pte >>> 10) <<< 12) level

def vmResolve (l : Frames Table) (m : WordMemory) (va : BitVec 64) : Option (BitVec 64 × BitVec 32) :=
  walk m va (l.address .root) 3

variable {l : Frames Table} {m : WordMemory} {va pa flags codePage stackPage : BitVec 64} {t : Table}
  {level : ℕ}

theorem admitted_iff : Admitted codePage stackPage ↔
    (codePage.toNat % 4096 = 0 ∧ 0x80000000 ≤ codePage.toNat ∧ codePage.toNat < 0x88000000) ∧
    (stackPage.toNat % 4096 = 0 ∧ 0x80000000 ≤ stackPage.toNat ∧ stackPage.toNat < 0x88000000) ∧
    codePage ≠ stackPage := by
  have haligned : ∀ page : BitVec 64, page &&& (SONATINE_PAGE_SIZE - 1) = 0 ↔ page.toNat % 4096 = 0 := by
    intro page
    have hmask : (SONATINE_PAGE_SIZE - 1).toNat = 2 ^ 12 - 1 := rfl
    rw [← BitVec.toNat_inj, AddressBits.toNat_and_mask hmask]
    rfl
  unfold Admitted
  simp only [not_or, not_not, haligned, ge_iff_le, BitVec.le_def, BitVec.lt_def,
    Nat.not_lt, Nat.not_le, toNat_ramBase, toNat_ramEnd]
  constructor
  · rintro ⟨h1, h2, h3, h4, h5, h6, h7⟩
    exact ⟨⟨h1, h3, h4⟩, ⟨h2, h5, h6⟩, h7⟩
  · rintro ⟨⟨h1, h3, h4⟩, ⟨h2, h5, h6⟩, h7⟩
    exact ⟨h1, h2, h3, h4, h5, h6, h7⟩

theorem index_eq (va : BitVec 64) (level : ℕ) : index va level = va.toNat / 2 ^ (12 + 9 * level) % 512 := by
  have hmask : (0x1ff : BitVec 64).toNat = 2 ^ 9 - 1 := rfl
  rw [index, AddressBits.toNat_and_mask hmask, BitVec.toNat_ushiftRight, Nat.shiftRight_eq_div_pow]
  rfl

theorem index_lt_count (va : BitVec 64) (level : ℕ) : index va level < 512 := by
  rw [index_eq]
  exact Nat.mod_lt _ (by omega)

/-! The four tables after an admitted call. -/

theorem ram_index : ((QEMU_RAM_BASE >>> 30) &&& 0x1ff).toNat = 2 := rfl

theorem ram_blocks : (QEMU_RAM_SIZE / (2 * 1024 * 1024)).toNat = 64 := rfl

theorem user_index : ((SONATINE_USER_BASE >>> 30) &&& 0x1ff).toNat = 1 ∧
    ((SONATINE_USER_BASE >>> 21) &&& 0x1ff).toNat = 0 ∧
    ((SONATINE_USER_BASE >>> 12) &&& 0x1ff).toNat = 0 := ⟨rfl, rfl, rfl⟩

/-- The address of a block of the RAM. -/
def blockAddress (i : ℕ) : BitVec 64 := QEMU_RAM_BASE + BitVec.ofNat 64 i * 2 * 1024 * 1024

def tableEntry (l : Frames Table) (codePage stackPage : BitVec 64) : Table → ℕ → BitVec 64
  | .root, i => if i = 1 then tablePte (l.address .userL1)
    else if i = 2 then tablePte (l.address .kernelL1) else 0
  | .kernelL1, i => if i < 64 then leafPte (blockAddress i) (PTE_R ||| PTE_W ||| PTE_X ||| PTE_G) else 0
  | .userL1, i => if i = 0 then tablePte (l.address .userL0) else 0
  | .userL0, i => if i = 0 then leafPte codePage (PTE_R ||| PTE_X ||| PTE_U)
    else if i = 1 then leafPte stackPage (PTE_R ||| PTE_W ||| PTE_U) else 0

theorem read_vmInit {i : ℕ} (ha : Admitted codePage stackPage) (hi : i < 512) :
    l.read (vmInit l m codePage stackPage).1 t i = tableEntry l codePage stackPage t i := by
  obtain ⟨h2, h1, h0⟩ := user_index
  simp only [vmInit, if_pos ha, clear, PTE_COUNT, ram_index, ram_blocks, h2, h1, h0]
  cases t <;>
    simp (disch := omega) only [Frames.read_write, Frames.read_fill, tableEntry, blockAddress, hi,
      reduceCtorEq, false_and, true_and, if_false, if_true, and_self]
  by_cases h : i = 0
  · simp [h]
  · simp [h]

/-! What the walk does at each kind of entry. -/

theorem walk_succ (m : WordMemory) (va : BitVec 64) (t : Table) (level : ℕ) :
    walk m va (l.address t) (level + 1) =
      let pte := l.read m t (index va level)
      if pte &&& PTE_V = 0 ∨ (pte &&& PTE_W ≠ 0 ∧ pte &&& PTE_R = 0) then none
      else if pte &&& (PTE_R ||| PTE_X) ≠ 0 then
        let size := (1 : BitVec 64) <<< (12 + 9 * level)
        let base := ((pte >>> 10) <<< 12) &&& ~~~(size - 1)
        some (base ||| (va &&& (size - 1)), permissionsOf pte)
      else walk m va ((pte >>> 10) <<< 12) level := rfl

theorem walk_empty (h : l.read m t (index va level) = 0) : walk m va (l.address t) (level + 1) = none := by
  rw [walk_succ, h]
  exact if_pos (.inl rfl)

/-- The page number packed into an entry gives the address back. -/
theorem unpacked_address {a bits : BitVec 64} (ha : a.toNat % 4096 = 0) (hbits : bits.toNat < 2 ^ 10) :
    ((((a >>> 12) <<< 10 ||| bits) >>> 10) <<< 12) = a := by
  have hx : (a >>> 12).toNat < 2 ^ (64 - 10) := by
    have := a.isLt
    rw [BitVec.toNat_ushiftRight, Nat.shiftRight_eq_div_pow]
    omega
  rw [AddressBits.packed_shift hx hbits]
  apply BitVec.eq_of_toNat_eq
  rw [AddressBits.toNat_shift_back]
  omega

theorem walk_table {u : Table} (h : l.read m t (index va level) = tablePte (l.address u)) :
    walk m va (l.address t) (level + 1) = walk m va (l.address u) level := by
  have hand : ∀ bits : BitVec 64, bits.toNat < 2 ^ 10 → tablePte (l.address u) &&& bits = PTE_V &&& bits :=
    fun bits hb => AddressBits.packed_and hb
  have hvalid : ¬ (PTE_V &&& PTE_V = 0 ∨ (PTE_V &&& PTE_W ≠ 0 ∧ PTE_V &&& PTE_R = 0)) := by decide
  have hinner : ¬ (PTE_V &&& (PTE_R ||| PTE_X) ≠ 0) := by decide
  have hback : ((tablePte (l.address u) >>> 10) <<< 12) = l.address u :=
    unpacked_address (l.aligned u) (by decide)
  rw [walk_succ, h]
  simp only [hand PTE_V (by decide), hand PTE_W (by decide), hand PTE_R (by decide),
    hand (PTE_R ||| PTE_X) (by decide), if_neg hvalid, if_neg hinner, hback]

/-- The low bits of a leaf entry. -/
def leafBits (flags : BitVec 64) : BitVec 64 := flags ||| (PTE_V ||| PTE_A ||| PTE_D)

theorem leafPte_eq (pa flags : BitVec 64) : leafPte pa flags = (pa >>> 12) <<< 10 ||| leafBits flags := by
  unfold leafPte leafBits
  rw [BitVec.or_assoc, BitVec.or_assoc, BitVec.or_assoc, BitVec.or_assoc]

/-- The flags that `vm_init` gives to its leaves. -/
def Readable (flags : BitVec 64) : Prop :=
  (leafBits flags).toNat < 2 ^ 10 ∧ leafBits flags &&& PTE_V ≠ 0 ∧ leafBits flags &&& PTE_R ≠ 0 ∧
    leafBits flags &&& (PTE_R ||| PTE_X) ≠ 0

instance (flags : BitVec 64) : Decidable (Readable flags) := inferInstanceAs (Decidable (_ ∧ _ ∧ _ ∧ _))

theorem permissionsOf_leafPte : permissionsOf (leafPte pa flags) = permissionsOf (leafBits flags) := by
  have hand : ∀ bits : BitVec 64, bits.toNat < 2 ^ 10 → leafPte pa flags &&& bits = leafBits flags &&& bits := by
    intro bits hb
    rw [leafPte_eq, AddressBits.packed_and hb]
  unfold permissionsOf
  rw [hand PTE_R (by decide), hand PTE_W (by decide), hand PTE_X (by decide), hand PTE_U (by decide)]

theorem walk_leaf (h : l.read m t (index va level) = leafPte pa flags) (hf : Readable flags)
    (hlevel : level ≤ 2) (hpa : pa.toNat % 2 ^ (12 + 9 * level) = 0) :
    ∃ out : BitVec 64, walk m va (l.address t) (level + 1) = some (out, permissionsOf (leafBits flags)) ∧
      out.toNat = pa.toNat + va.toNat % 2 ^ (12 + 9 * level) := by
  obtain ⟨hlt, hv, hr, hx⟩ := hf
  have hand : ∀ bits : BitVec 64, bits.toNat < 2 ^ 10 → leafPte pa flags &&& bits = leafBits flags &&& bits := by
    intro bits hb
    rw [leafPte_eq, AddressBits.packed_and hb]
  have hpage : pa.toNat % 4096 = 0 := by
    have hdvd : (2 ^ 12 : ℕ) ∣ 2 ^ (12 + 9 * level) := pow_dvd_pow 2 (Nat.le_add_right _ _)
    exact Nat.mod_eq_zero_of_dvd (hdvd.trans (Nat.dvd_of_mod_eq_zero hpa))
  have hback : ((leafPte pa flags >>> 10) <<< 12) = pa := by
    rw [leafPte_eq, unpacked_address hpage hlt]
  have hmask : (((1 : BitVec 64) <<< (12 + 9 * level)) - 1).toNat = 2 ^ (12 + 9 * level) - 1 :=
    AddressBits.toNat_one_shiftLeft_sub_one (by omega)
  have hvalid : ¬ (leafBits flags &&& PTE_V = 0 ∨
      (leafBits flags &&& PTE_W ≠ 0 ∧ leafBits flags &&& PTE_R = 0)) := by
    rintro (hz | ⟨-, hz⟩)
    · exact hv hz
    · exact hr hz
  have hbase : pa &&& ~~~(((1 : BitVec 64) <<< (12 + 9 * level)) - 1) = pa := by
    apply BitVec.eq_of_toNat_eq
    rw [AddressBits.toNat_and_not_mask hmask, Nat.div_mul_cancel (Nat.dvd_of_mod_eq_zero hpa)]
  refine ⟨pa ||| (va &&& (((1 : BitVec 64) <<< (12 + 9 * level)) - 1)), ?_,
    AddressBits.toNat_or_offset hmask hpa⟩
  rw [walk_succ, h]
  simp only [hand PTE_V (by decide), hand PTE_W (by decide), hand PTE_R (by decide),
    hand (PTE_R ||| PTE_X) (by decide), if_neg hvalid, if_pos hx, hback, hbase, permissionsOf_leafPte]

def InCodePage (va : BitVec 64) : Prop :=
  SONATINE_USER_BASE ≤ va ∧ va < SONATINE_USER_BASE + SONATINE_PAGE_SIZE

def InStackPage (va : BitVec 64) : Prop :=
  SONATINE_USER_BASE + SONATINE_PAGE_SIZE ≤ va ∧ va < SONATINE_USER_BASE + 2 * SONATINE_PAGE_SIZE

def InRam (va : BitVec 64) : Prop := QEMU_RAM_BASE ≤ va ∧ va < QEMU_RAM_BASE + QEMU_RAM_SIZE

instance (va : BitVec 64) : Decidable (InCodePage va) := inferInstanceAs (Decidable (_ ∧ _))

instance (va : BitVec 64) : Decidable (InStackPage va) := inferInstanceAs (Decidable (_ ∧ _))

instance (va : BitVec 64) : Decidable (InRam va) := inferInstanceAs (Decidable (_ ∧ _))

/-- The address space the tables stand for. -/
def translation (codePage stackPage va : BitVec 64) : Option (BitVec 64 × BitVec 32) :=
  if InCodePage va then some (codePage + (va - SONATINE_USER_BASE), VM_READ ||| VM_EXECUTE ||| VM_USER)
  else if InStackPage va then
    some (stackPage + (va - (SONATINE_USER_BASE + SONATINE_PAGE_SIZE)), VM_READ ||| VM_WRITE ||| VM_USER)
  else if InRam va then some (va, VM_READ ||| VM_WRITE ||| VM_EXECUTE)
  else none

theorem toNat_userBase : SONATINE_USER_BASE.toNat = 0x40000000 := rfl

theorem toNat_userStack : (SONATINE_USER_BASE + SONATINE_PAGE_SIZE).toNat = 0x40001000 := rfl

theorem toNat_userEnd : (SONATINE_USER_BASE + 2 * SONATINE_PAGE_SIZE).toNat = 0x40002000 := rfl

theorem inCodePage_iff : InCodePage va ↔ va.toNat / 4096 = 0x40000 := by
  rw [InCodePage, BitVec.le_def, BitVec.lt_def, toNat_userBase, toNat_userStack]
  omega

theorem inStackPage_iff : InStackPage va ↔ va.toNat / 4096 = 0x40001 := by
  rw [InStackPage, BitVec.le_def, BitVec.lt_def, toNat_userStack, toNat_userEnd]
  omega

theorem inRam_iff : InRam va ↔ 1024 ≤ va.toNat / 2 ^ 21 ∧ va.toNat / 2 ^ 21 < 1088 := by
  rw [InRam, BitVec.le_def, BitVec.lt_def, toNat_ramBase, toNat_ramEnd]
  omega

/-- A leaf of 4 KiB preserves the offset in the page. -/
theorem page_offset {out page : BitVec 64} (base : BitVec 64) (hbase : base.toNat % 4096 = 0)
    (hva : va.toNat / 4096 = base.toNat / 4096)
    (hout : out.toNat = page.toNat + va.toNat % 4096) : out = page + (va - base) := by
  have hle : base ≤ va := by
    rw [BitVec.le_def]
    omega
  apply BitVec.eq_of_toNat_eq
  rw [hout, BitVec.toNat_add, BitVec.toNat_sub_of_le hle]
  omega

theorem toNat_blockAddress {i : ℕ} (hi : i < 64) : (blockAddress i).toNat = 0x80000000 + i * 2 ^ 21 := by
  have htwo : (2 : BitVec 64).toNat = 2 := rfl
  have hkilo : (1024 : BitVec 64).toNat = 1024 := rfl
  rw [blockAddress, BitVec.toNat_add, BitVec.toNat_mul, BitVec.toNat_mul, BitVec.toNat_mul,
    BitVec.toNat_ofNat, toNat_ramBase, htwo, hkilo]
  omega

/-- The walk below the first user table. -/
theorem walk_user (ha : Admitted codePage stackPage) (hhigh : va.toNat / 2 ^ 30 = 1) :
    walk (vmInit l m codePage stackPage).1 va (l.address .userL1) 2 = translation codePage stackPage va := by
  obtain ⟨⟨hcode, -, hcodeEnd⟩, ⟨hstack, -, hstackEnd⟩, -⟩ := admitted_iff.mp ha
  have hram : ¬ InRam va := by
    rw [inRam_iff]
    omega
  have hread1 := read_vmInit (l := l) (m := m) (t := .userL1) ha (index_lt_count va 1)
  have hread0 := read_vmInit (l := l) (m := m) (t := .userL0) ha (index_lt_count va 0)
  have hindex1 : index va 1 = va.toNat / 2 ^ 21 % 512 := index_eq va 1
  have hindex0 : index va 0 = va.toNat / 2 ^ 12 % 512 := index_eq va 0
  simp only [tableEntry] at hread1 hread0
  by_cases h1 : index va 1 = 0
  · rw [if_pos h1] at hread1
    rw [walk_table hread1]
    by_cases hc : index va 0 = 0
    · rw [if_pos hc] at hread0
      have hin : InCodePage va := by
        rw [inCodePage_iff]
        omega
      obtain ⟨out, hwalk, hout⟩ := walk_leaf hread0 (by decide) (by omega) hcode
      rw [hwalk, translation, if_pos hin, page_offset SONATINE_USER_BASE rfl (inCodePage_iff.mp hin) hout]
      rfl
    · have hout : ¬ InCodePage va := by
        rw [inCodePage_iff]
        omega
      rw [if_neg hc] at hread0
      rw [translation, if_neg hout]
      by_cases hs : index va 0 = 1
      · rw [if_pos hs] at hread0
        have hin : InStackPage va := by
          rw [inStackPage_iff]
          omega
        obtain ⟨out, hwalk, hout⟩ := walk_leaf hread0 (by decide) (by omega) hstack
        rw [hwalk, if_pos hin, page_offset (SONATINE_USER_BASE + SONATINE_PAGE_SIZE) rfl
          (inStackPage_iff.mp hin) hout]
        rfl
      · have hnot : ¬ InStackPage va := by
          rw [inStackPage_iff]
          omega
        rw [if_neg hs] at hread0
        rw [walk_empty hread0, if_neg hnot, if_neg hram]
  · have hcodeOut : ¬ InCodePage va := by
      rw [inCodePage_iff]
      omega
    have hstackOut : ¬ InStackPage va := by
      rw [inStackPage_iff]
      omega
    rw [if_neg h1] at hread1
    rw [walk_empty hread1, translation, if_neg hcodeOut, if_neg hstackOut, if_neg hram]

/-- The walk below the kernel table. -/
theorem walk_kernel (ha : Admitted codePage stackPage) (hhigh : va.toNat / 2 ^ 30 = 2) :
    walk (vmInit l m codePage stackPage).1 va (l.address .kernelL1) 2 =
      translation codePage stackPage va := by
  have hcodeOut : ¬ InCodePage va := by
    rw [inCodePage_iff]
    omega
  have hstackOut : ¬ InStackPage va := by
    rw [inStackPage_iff]
    omega
  have hread := read_vmInit (l := l) (m := m) (t := .kernelL1) ha (index_lt_count va 1)
  have hindex : index va 1 = va.toNat / 2 ^ 21 % 512 := index_eq va 1
  simp only [tableEntry] at hread
  rw [translation, if_neg hcodeOut, if_neg hstackOut]
  by_cases hb : index va 1 < 64
  · have hblock := toNat_blockAddress hb
    have hin : InRam va := by
      rw [inRam_iff]
      omega
    rw [if_pos hb] at hread
    obtain ⟨out, hwalk, hout⟩ := walk_leaf hread (by decide) (by omega) (by rw [hblock]; omega)
    have hva : out = va := by
      apply BitVec.eq_of_toNat_eq
      rw [hout, hblock]
      omega
    rw [hwalk, if_pos hin, hva]
    rfl
  · have hout : ¬ InRam va := by
      rw [inRam_iff]
      omega
    rw [if_neg hb] at hread
    rw [walk_empty hread, if_neg hout]

/-- The tables of an admitted call stand for the intended address space. -/
theorem vmResolve_vmInit (ha : Admitted codePage stackPage) (hva : va.toNat < 2 ^ 39) :
    vmResolve l (vmInit l m codePage stackPage).1 va = translation codePage stackPage va := by
  have hread := read_vmInit (l := l) (m := m) (t := .root) ha (index_lt_count va 2)
  have hindex : index va 2 = va.toNat / 2 ^ 30 % 512 := index_eq va 2
  simp only [tableEntry] at hread
  unfold vmResolve
  by_cases h1 : index va 2 = 1
  · rw [if_pos h1] at hread
    rw [walk_table hread]
    apply walk_user ha
    omega
  · rw [if_neg h1] at hread
    by_cases h2 : index va 2 = 2
    · rw [if_pos h2] at hread
      rw [walk_table hread]
      apply walk_kernel ha
      omega
    · have hcodeOut : ¬ InCodePage va := by
        rw [inCodePage_iff]
        omega
      have hstackOut : ¬ InStackPage va := by
        rw [inStackPage_iff]
        omega
      have hout : ¬ InRam va := by
        rw [inRam_iff]
        omega
      rw [if_neg h2] at hread
      rw [walk_empty hread, translation, if_neg hcodeOut, if_neg hstackOut, if_neg hout]

/-- Any calls of `vm_init`, one after the other. -/
def vmRun (l : Frames Table) (m : WordMemory) (calls : List (BitVec 64 × BitVec 64)) : WordMemory :=
  calls.foldl (fun m call => (vmInit l m call.1 call.2).1) m

/-- A refused call leaves the tables alone. -/
theorem vmRun_refused {calls : List (BitVec 64 × BitVec 64)}
    (h : ∀ call ∈ calls, ¬ Admitted call.1 call.2) : vmRun l m calls = m := by
  induction calls generalizing m with
  | nil => rfl
  | cons call calls ih =>
    have hcall : (vmInit l m call.1 call.2).1 = m := by
      rw [vmInit, if_neg (h call List.mem_cons_self)]
    have hrest : vmRun l (vmInit l m call.1 call.2).1 calls = (vmInit l m call.1 call.2).1 :=
      ih fun c hc => h c (List.mem_cons_of_mem call hc)
    exact hrest.trans hcall

/-- What a walk below 2^39 finds: the two user pages, the RAM, and nothing else. -/
structure TwoUserPages (resolve : BitVec 64 → Option (BitVec 64 × BitVec 32))
    (codePage stackPage va : BitVec 64) : Prop where
  user : (∃ pa permissions, resolve va = some (pa, permissions) ∧ permissions &&& VM_USER ≠ 0) ↔
    InCodePage va ∨ InStackPage va
  code : InCodePage va → resolve va =
    some (codePage + (va - SONATINE_USER_BASE), VM_READ ||| VM_EXECUTE ||| VM_USER)
  stack : InStackPage va → resolve va =
    some (stackPage + (va - (SONATINE_USER_BASE + SONATINE_PAGE_SIZE)), VM_READ ||| VM_WRITE ||| VM_USER)
  kernel : (∃ pa permissions, resolve va = some (pa, permissions) ∧ permissions &&& VM_USER = 0) ↔ InRam va
  ram : InRam va → ∃ permissions, resolve va = some (va, permissions)
  unresolved : ¬ InCodePage va → ¬ InStackPage va → ¬ InRam va → resolve va = none

theorem translation_twoUserPages (codePage stackPage va : BitVec 64) :
    TwoUserPages (translation codePage stackPage) codePage stackPage va := by
  have hcs : InCodePage va → ¬ InStackPage va := by
    rw [inCodePage_iff, inStackPage_iff]
    omega
  have hcr : InCodePage va → ¬ InRam va := by
    rw [inCodePage_iff, inRam_iff]
    omega
  have hsr : InStackPage va → ¬ InRam va := by
    rw [inStackPage_iff, inRam_iff]
    omega
  have hcodeUser : (VM_READ ||| VM_EXECUTE ||| VM_USER) &&& VM_USER ≠ 0#32 := by decide
  have hstackUser : (VM_READ ||| VM_WRITE ||| VM_USER) &&& VM_USER ≠ 0#32 := by decide
  have hramUser : (VM_READ ||| VM_WRITE ||| VM_EXECUTE) &&& VM_USER = 0#32 := by decide
  by_cases hc : InCodePage va
  · have he : translation codePage stackPage va = _ := if_pos hc
    constructor <;> simp [he, hc, hcs hc, hcr hc, hcodeUser]
  · by_cases hs : InStackPage va
    · have he : translation codePage stackPage va = _ := (if_neg hc).trans (if_pos hs)
      constructor <;> simp [he, hc, hs, hsr hs, hstackUser]
    · by_cases hr : InRam va
      · have he : translation codePage stackPage va = _ := (if_neg hc).trans ((if_neg hs).trans (if_pos hr))
        constructor <;> simp [he, hc, hs, hr, hramUser]
      · have he : translation codePage stackPage va = none :=
          (if_neg hc).trans ((if_neg hs).trans (if_neg hr))
        constructor <;> simp [he, hc, hs, hr]

theorem TwoUserPages.of_eq {resolve other : BitVec 64 → Option (BitVec 64 × BitVec 32)}
    (h : TwoUserPages other codePage stackPage va) (he : resolve va = other va) :
    TwoUserPages resolve codePage stackPage va := by
  constructor
  · rw [he]
    exact h.user
  · rw [he]
    exact h.code
  · rw [he]
    exact h.stack
  · rw [he]
    exact h.kernel
  · rw [he]
    exact h.ram
  · rw [he]
    exact h.unresolved

theorem user_space_two_pages (l : Frames Table) (m : WordMemory)
    (earlier later : List (BitVec 64 × BitVec 64)) (codePage stackPage va : BitVec 64)
    (ha : (vmInit l (vmRun l m earlier) codePage stackPage).2 = true)
    (hlater : ∀ call ∈ later, ¬ Admitted call.1 call.2) (hva : va < (1 : BitVec 64) <<< 39) :
    TwoUserPages (vmResolve l (vmRun l m (earlier ++ (codePage, stackPage) :: later)))
      codePage stackPage va := by
  have hadmitted : Admitted codePage stackPage := by
    by_contra hn
    rw [vmInit, if_neg hn] at ha
    cases ha
  have hmemory : vmRun l m (earlier ++ (codePage, stackPage) :: later) =
      (vmInit l (vmRun l m earlier) codePage stackPage).1 := by
    unfold vmRun
    rw [List.foldl_append, List.foldl_cons]
    exact vmRun_refused hlater
  have hbound : va.toNat < 2 ^ 39 := BitVec.lt_def.mp hva
  apply (translation_twoUserPages codePage stackPage va).of_eq
  rw [hmemory]
  exact vmResolve_vmInit hadmitted hbound

/-- Four frames at the start of the RAM. -/
def lowFrames : Frames Table where
  address
    | .root => 0x80001000
    | .kernelL1 => 0x80002000
    | .userL1 => 0x80003000
    | .userL0 => 0x80004000
  aligned t := by cases t <;> rfl
  low t := by cases t <;> decide
  distinct t u h := by revert h; cases t <;> cases u <;> decide

theorem user_space_two_pages_low :
    TwoUserPages
      (vmResolve lowFrames (vmRun lowFrames (fun _ => 0)
        ([(0x80010000, 0x80020000)] ++ (0x80030000, 0x80011000) :: [(0x80011000, 0x80011000)])))
      0x80030000 0x80011000 0x40000123 :=
  user_space_two_pages lowFrames _ [(0x80010000, 0x80020000)] [(0x80011000, 0x80011000)] 0x80030000
    0x80011000 0x40000123 rfl (List.forall_mem_singleton.mpr (by decide)) (by decide)

end Raveil.Kernel
