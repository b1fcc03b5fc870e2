import Raveil.Lib.Bits
import Raveil.Lib.Allocator
import Mathlib.Data.Finset.Card
import Mathlib.Data.Fintype.Card

/-! The allocator of physical pages: a bitmap over the RAM and a count of the free pages. -/
namespace Raveil.Kernel

open Raveil.Lib Raveil.Lib.Bitmap

def QEMU_RAM_BASE : BitVec 64 := 0x80000000
def QEMU_RAM_SIZE : BitVec 64 := 128 * 1024 * 1024
def SONATINE_PAGE_SIZE : BitVec 64 := 4096

def BITMAP_BYTES : ℕ := 4096

abbrev MAX_PAGES : ℕ := BITMAP_BYTES * 8

example : MAX_PAGES = (QEMU_RAM_SIZE / SONATINE_PAGE_SIZE).toNat := by decide

abbrev PageIndex := Fin MAX_PAGES

def NULL : BitVec 64 := 0

structure PhysState where
  pageBitmap : Bitmap BITMAP_BYTES 8
  freePageCount : BitVec 64
  firstFreeIndex : ℕ

def alignUp (value alignment : BitVec 64) : BitVec 64 :=
  (value + alignment - 1) &&& ~~~(alignment - 1)

def pageUsed (s : PhysState) (index : PageIndex) : Bool := s.pageBitmap.test index

def pageMark (s : PhysState) (index : PageIndex) (used : Bool) : PhysState :=
  { s with pageBitmap := s.pageBitmap.mark index used }

/-- Clear the bit of a page and count it as free. -/
def openPage (s : PhysState) (index : PageIndex) : PhysState :=
  { pageMark s index false with freePageCount := s.freePageCount + 1 }

def physInit (kernelEnd : BitVec 64) : PhysState :=
  let first := alignUp kernelEnd SONATINE_PAGE_SIZE
  let firstFreeIndex := ((first - QEMU_RAM_BASE) / SONATINE_PAGE_SIZE).toNat
  (indicesFrom MAX_PAGES firstFreeIndex).foldl openPage
    { pageBitmap := fun _ => 0xff, freePageCount := 0, firstFreeIndex }

def pageAddress (index : PageIndex) : BitVec 64 :=
  QEMU_RAM_BASE + BitVec.ofNat 64 index * SONATINE_PAGE_SIZE

def takePage (s : PhysState) (index : PageIndex) : PhysState :=
  { pageMark s index true with freePageCount := s.freePageCount - 1 }

def physAllocPage (s : PhysState) : PhysState × BitVec 64 :=
  match (indicesFrom MAX_PAGES s.firstFreeIndex).find? fun index => !pageUsed s index with
  | some index => (takePage s index, pageAddress index)
  | none => (s, NULL)

/-- The pointers refused before any look at the bitmap. -/
def Misplaced (address : BitVec 64) : Prop :=
  address % SONATINE_PAGE_SIZE ≠ 0 ∨ address < QEMU_RAM_BASE ∨ address ≥ QEMU_RAM_BASE + QEMU_RAM_SIZE

instance (address : BitVec 64) : Decidable (Misplaced address) :=
  inferInstanceAs (Decidable (_ ∨ _ ∨ _))

theorem toNat_ramBase : QEMU_RAM_BASE.toNat = 0x80000000 := rfl

theorem toNat_ramEnd : (QEMU_RAM_BASE + QEMU_RAM_SIZE).toNat = 0x88000000 := rfl

theorem toNat_pageSize : SONATINE_PAGE_SIZE.toNat = 4096 := rfl

theorem not_misplaced {address : BitVec 64} :
    ¬ Misplaced address ↔ address.toNat % 4096 = 0 ∧ 0x80000000 ≤ address.toNat ∧
      address.toNat < 0x88000000 := by
  have hmod : address % SONATINE_PAGE_SIZE = 0 ↔ address.toNat % 4096 = 0 := by
    rw [← BitVec.toNat_inj, BitVec.toNat_umod, toNat_pageSize]
    rfl
  unfold Misplaced
  rw [not_or, not_or, not_not, hmod, ge_iff_le, BitVec.not_lt, BitVec.not_le, BitVec.le_def,
    BitVec.lt_def, toNat_ramBase, toNat_ramEnd]

theorem index_lt {address : BitVec 64} (h : ¬ Misplaced address) :
    ((address - QEMU_RAM_BASE) / SONATINE_PAGE_SIZE).toNat < MAX_PAGES := by
  obtain ⟨-, hlow, hhigh⟩ := not_misplaced.mp h
  have hsub : (address - QEMU_RAM_BASE).toNat = address.toNat - 0x80000000 := by
    rw [BitVec.toNat_sub_of_le (by rw [BitVec.le_def, toNat_ramBase]; exact hlow), toNat_ramBase]
  rw [BitVec.toNat_udiv, hsub, toNat_pageSize]
  show _ < 4096 * 8
  omega

def physFreePage (s : PhysState) (page : BitVec 64) : PhysState × Bool :=
  if h : Misplaced page then (s, false)
  else
    let index : PageIndex := ⟨((page - QEMU_RAM_BASE) / SONATINE_PAGE_SIZE).toNat, index_lt h⟩
    if index.val < s.firstFreeIndex ∨ !pageUsed s index then (s, false)
    else (openPage s index, true)

inductive PhysCall where
  | alloc
  | free (page : BitVec 64)

def physStep (s : PhysState) : PhysCall → PhysState × Allocator.Event (BitVec 64)
  | .alloc =>
    let (s', page) := physAllocPage s
    (s', if page = NULL then .exhausted else .alloc page)
  | .free page =>
    let (s', accepted) := physFreePage s page
    (s', if accepted then .free page else .rejected page)

def physRun (s : PhysState) : List PhysCall → PhysState × List (Allocator.Event (BitVec 64))
  | [] => (s, [])
  | call :: calls =>
    let (s', event) := physStep s call
    let (s'', trace) := physRun s' calls
    (s'', event :: trace)

/-- The counter agrees with the bitmap, and the pages below the first free one stay used. -/
structure PhysState.Ok (s : PhysState) : Prop where
  count : s.freePageCount.toNat = (s.pageBitmap.clearFrom s.firstFreeIndex).card
  reserved : ∀ i : PageIndex, i.val < s.firstFreeIndex → pageUsed s i = true

variable {s : PhysState} {i j : PageIndex} {page kernelEnd : BitVec 64}

@[simp] theorem takePage_firstFreeIndex : (takePage s i).firstFreeIndex = s.firstFreeIndex := rfl

@[simp] theorem openPage_firstFreeIndex : (openPage s i).firstFreeIndex = s.firstFreeIndex := rfl

theorem pageUsed_takePage : pageUsed (takePage s i) j = if j = i then true else pageUsed s j :=
  test_mark

theorem pageUsed_openPage : pageUsed (openPage s i) j = if j = i then false else pageUsed s j :=
  test_mark

theorem toNat_pageAddress : (pageAddress i).toNat = 0x80000000 + i.val * 4096 := by
  have hi : i.val < 4096 * 8 := i.isLt
  rw [pageAddress, BitVec.toNat_add, BitVec.toNat_mul, BitVec.toNat_ofNat, toNat_ramBase,
    toNat_pageSize]
  omega

theorem pageAddress_injective : Function.Injective pageAddress := by
  intro i j h
  have hv := congrArg BitVec.toNat h
  rw [toNat_pageAddress, toNat_pageAddress] at hv
  apply Fin.ext
  omega

theorem pageAddress_ne_null : pageAddress i ≠ NULL := by
  intro h
  have hv := congrArg BitVec.toNat h
  rw [toNat_pageAddress] at hv
  have hz : NULL.toNat = 0 := rfl
  omega

theorem pageAddress_placed : ¬ Misplaced (pageAddress i) := by
  have hi : i.val < 4096 * 8 := i.isLt
  rw [not_misplaced, toNat_pageAddress]
  omega

/-- A pointer that is not refused at once is the address of the page it indexes. -/
theorem pageAddress_index (h : ¬ Misplaced page) :
    pageAddress ⟨((page - QEMU_RAM_BASE) / SONATINE_PAGE_SIZE).toNat, index_lt h⟩ = page := by
  obtain ⟨hmod, hlow, -⟩ := not_misplaced.mp h
  apply BitVec.eq_of_toNat_eq
  rw [toNat_pageAddress]
  show _ + ((page - QEMU_RAM_BASE) / SONATINE_PAGE_SIZE).toNat * 4096 = _
  rw [BitVec.toNat_udiv, BitVec.toNat_sub_of_le (by rw [BitVec.le_def, toNat_ramBase]; exact hlow),
    toNat_pageSize, toNat_ramBase]
  omega

theorem physAllocPage_cases (s : PhysState) :
    (∃ i : PageIndex, s.firstFreeIndex ≤ i.val ∧ pageUsed s i = false ∧
      physAllocPage s = (takePage s i, pageAddress i)) ∨
    ((∀ i : PageIndex, s.firstFreeIndex ≤ i.val → pageUsed s i = true) ∧
      physAllocPage s = (s, NULL)) := by
  unfold physAllocPage
  cases h : (indicesFrom MAX_PAGES s.firstFreeIndex).find? fun index => !pageUsed s index with
  | some i =>
    have hfree : pageUsed s i = false := by simpa using List.find?_some h
    exact .inl ⟨i, mem_indicesFrom.mp (List.mem_of_find?_eq_some h), hfree, rfl⟩
  | none =>
    refine .inr ⟨fun i hi => ?_, rfl⟩
    simpa using List.find?_eq_none.mp h i (mem_indicesFrom.mpr hi)

theorem physFreePage_cases (s : PhysState) (page : BitVec 64) :
    (∃ i : PageIndex, page = pageAddress i ∧ s.firstFreeIndex ≤ i.val ∧ pageUsed s i = true ∧
      physFreePage s page = (openPage s i, true)) ∨
    ((∀ i : PageIndex, page = pageAddress i → s.firstFreeIndex ≤ i.val → pageUsed s i = false) ∧
      physFreePage s page = (s, false)) := by
  unfold physFreePage
  by_cases h : Misplaced page
  · rw [dif_pos h]
    refine .inr ⟨?_, rfl⟩
    rintro i rfl -
    exact absurd h pageAddress_placed
  · rw [dif_neg h]
    have haddr := pageAddress_index h
    generalize (⟨_, index_lt h⟩ : PageIndex) = i at haddr
    by_cases hout : i.val < s.firstFreeIndex ∨ !pageUsed s i
    · refine .inr ⟨fun j hj hfirst => ?_, if_pos hout⟩
      obtain rfl := pageAddress_injective (haddr.trans hj)
      rcases hout with hlt | hused
      · omega
      · simpa using hused
    · refine .inl ⟨i, haddr.symm, by omega, ?_, if_neg hout⟩
      cases hused : pageUsed s i with
      | true => rfl
      | false => exact absurd (Or.inr (by simp [hused])) hout

theorem card_clearFrom_lt (b : Bitmap BITMAP_BYTES 8) (first : ℕ) : (b.clearFrom first).card < 2 ^ 64 := by
  apply lt_of_le_of_lt (Finset.card_le_univ _)
  rw [Fintype.card_fin]
  decide

theorem ok_takePage (hs : s.Ok) (hi : s.firstFreeIndex ≤ i.val) (hfree : pageUsed s i = false) :
    (takePage s i).Ok := by
  have hmem : i ∈ s.pageBitmap.clearFrom s.firstFreeIndex := mem_clearFrom.mpr ⟨hi, hfree⟩
  have hpos := Finset.card_pos.mpr ⟨i, hmem⟩
  constructor
  · show (s.freePageCount - 1).toNat = ((s.pageBitmap.mark i true).clearFrom s.firstFreeIndex).card
    have hone : (1 : BitVec 64).toNat = 1 := rfl
    rw [clearFrom_mark_true, Finset.card_erase_of_mem hmem,
      BitVec.toNat_sub_of_le (by rw [BitVec.le_def, hone, hs.count]; exact hpos), hs.count, hone]
  · intro j hj
    rw [pageUsed_takePage, hs.reserved j hj, ite_self]

theorem ok_openPage (hs : s.Ok) (hi : s.firstFreeIndex ≤ i.val) (hused : pageUsed s i = true) :
    (openPage s i).Ok := by
  have hout : i ∉ s.pageBitmap.clearFrom s.firstFreeIndex := by
    rw [mem_clearFrom]
    rintro ⟨-, hfree⟩
    exact absurd (hused.symm.trans hfree) (by simp)
  constructor
  · show (s.freePageCount + 1).toNat = ((s.pageBitmap.mark i false).clearFrom s.firstFreeIndex).card
    have hlt := card_clearFrom_lt (s.pageBitmap.mark i false) s.firstFreeIndex
    have hone : (1 : BitVec 64).toNat = 1 := rfl
    rw [clearFrom_mark_false hi, Finset.card_insert_of_notMem hout] at hlt ⊢
    rw [BitVec.toNat_add, hs.count, hone, Nat.mod_eq_of_lt hlt]
  · intro j hj
    have hne : j ≠ i := by
      rintro rfl
      exact absurd hj (Nat.not_lt.mpr hi)
    rw [pageUsed_openPage, if_neg hne]
    exact hs.reserved j hj

/-- The loop of `phys_init` opens the pages it passes. -/
theorem openPages (l : List PageIndex) (hl : l.Nodup) (hs : s.Ok)
    (hused : ∀ i ∈ l, s.firstFreeIndex ≤ i.val ∧ pageUsed s i = true) :
    (l.foldl openPage s).Ok ∧ (l.foldl openPage s).firstFreeIndex = s.firstFreeIndex ∧
      ∀ j, pageUsed (l.foldl openPage s) j = if j ∈ l then false else pageUsed s j := by
  induction l generalizing s with
  | nil => exact ⟨hs, rfl, fun j => rfl⟩
  | cons i l ih =>
    obtain ⟨hi, hl⟩ := List.nodup_cons.mp hl
    obtain ⟨hfirst, hu⟩ := hused i List.mem_cons_self
    have hrest : ∀ j ∈ l, (openPage s i).firstFreeIndex ≤ j.val ∧ pageUsed (openPage s i) j = true := by
      intro j hj
      have hne : j ≠ i := by
        rintro rfl
        exact hi hj
      rw [openPage_firstFreeIndex, pageUsed_openPage, if_neg hne]
      exact hused j (List.mem_cons_of_mem i hj)
    obtain ⟨hok, hkeep, hbits⟩ := ih hl (ok_openPage hs hfirst hu) hrest
    refine ⟨hok, hkeep, fun j => ?_⟩
    rw [List.foldl_cons, hbits, pageUsed_openPage]
    by_cases hj : j = i
    · simp [hj]
    · simp [hj]

/-- Every bit is set before the loop of `phys_init`. -/
theorem pageUsed_filled (first : ℕ) :
    pageUsed { pageBitmap := fun _ => 0xff, freePageCount := 0, firstFreeIndex := first } i = true := by
  have hones : (0xff : BitVec 8) = BitVec.allOnes 8 := rfl
  rw [pageUsed, test_eq, hones, BitVec.getLsbD_allOnes, decide_eq_true i.modNat.isLt]

theorem ok_filled (first : ℕ) :
    PhysState.Ok { pageBitmap := fun _ => 0xff, freePageCount := 0, firstFreeIndex := first } := by
  constructor
  · have hempty : clearFrom (fun _ => 0xff : Bitmap BITMAP_BYTES 8) first = ∅ := by
      apply Finset.eq_empty_of_forall_notMem
      intro i hi
      have hfree := (mem_clearFrom.mp hi).2
      exact absurd ((pageUsed_filled first).symm.trans hfree) (by simp)
    show (0 : BitVec 64).toNat = (clearFrom _ first).card
    rw [hempty, Finset.card_empty]
    rfl
  · intro i _
    exact pageUsed_filled first

theorem physInit_spec (kernelEnd : BitVec 64) :
    (physInit kernelEnd).Ok ∧
      (physInit kernelEnd).firstFreeIndex =
        ((alignUp kernelEnd SONATINE_PAGE_SIZE - QEMU_RAM_BASE) / SONATINE_PAGE_SIZE).toNat ∧
      ∀ i : PageIndex, (physInit kernelEnd).firstFreeIndex ≤ i.val →
        pageUsed (physInit kernelEnd) i = false := by
  let first := ((alignUp kernelEnd SONATINE_PAGE_SIZE - QEMU_RAM_BASE) / SONATINE_PAGE_SIZE).toNat
  obtain ⟨hok, hfirst, hbits⟩ := openPages (indicesFrom MAX_PAGES first) nodup_indicesFrom
    (ok_filled first) fun i hi => ⟨mem_indicesFrom.mp hi, pageUsed_filled first⟩
  refine ⟨hok, hfirst, fun i hi => ?_⟩
  have hfrom : first ≤ i.val := by
    rw [show (physInit kernelEnd).firstFreeIndex = first from hfirst] at hi
    exact hi
  show pageUsed ((indicesFrom MAX_PAGES first).foldl openPage _) i = false
  rw [hbits i, if_pos (mem_indicesFrom.mpr hfrom)]

/-- The pages above the kernel. -/
def arena (first : ℕ) : Finset (BitVec 64) :=
  (Finset.univ.filter fun i : PageIndex => first ≤ i.val).image pageAddress

/-- The pages above the kernel whose bit is set. -/
def heldPages (s : PhysState) : Finset (BitVec 64) :=
  (Finset.univ.filter fun i : PageIndex => s.firstFreeIndex ≤ i.val ∧ pageUsed s i = true).image
    pageAddress

theorem mem_arena {first : ℕ} : page ∈ arena first ↔ ∃ i : PageIndex, first ≤ i.val ∧ pageAddress i = page := by
  simp [arena]

theorem mem_heldPages : page ∈ heldPages s ↔
    ∃ i : PageIndex, (s.firstFreeIndex ≤ i.val ∧ pageUsed s i = true) ∧ pageAddress i = page := by
  simp [heldPages]

theorem pageAddress_mem_heldPages :
    pageAddress i ∈ heldPages s ↔ s.firstFreeIndex ≤ i.val ∧ pageUsed s i = true := by
  rw [mem_heldPages]
  constructor
  · rintro ⟨j, hj, he⟩
    rwa [← pageAddress_injective he]
  · intro h
    exact ⟨i, h, rfl⟩

theorem heldPages_takePage (hi : s.firstFreeIndex ≤ i.val) :
    heldPages (takePage s i) = insert (pageAddress i) (heldPages s) := by
  ext page
  rw [Finset.mem_insert, mem_heldPages, mem_heldPages]
  constructor
  · rintro ⟨j, ⟨hj, hu⟩, rfl⟩
    rw [pageUsed_takePage] at hu
    by_cases hji : j = i
    · exact .inl (congrArg pageAddress hji)
    · exact .inr ⟨j, ⟨hj, by rwa [if_neg hji] at hu⟩, rfl⟩
  · rintro (rfl | ⟨j, ⟨hj, hu⟩, rfl⟩)
    · exact ⟨i, ⟨hi, by rw [pageUsed_takePage, if_pos rfl]⟩, rfl⟩
    · exact ⟨j, ⟨hj, by rw [pageUsed_takePage, hu, ite_self]⟩, rfl⟩

theorem heldPages_openPage : heldPages (openPage s i) = (heldPages s).erase (pageAddress i) := by
  ext page
  rw [Finset.mem_erase, mem_heldPages, mem_heldPages]
  constructor
  · rintro ⟨j, ⟨hj, hu⟩, rfl⟩
    rw [pageUsed_openPage] at hu
    by_cases hji : j = i
    · rw [if_pos hji] at hu
      cases hu
    · exact ⟨fun he => hji (pageAddress_injective he), j, ⟨hj, by rwa [if_neg hji] at hu⟩, rfl⟩
  · rintro ⟨hne, j, ⟨hj, hu⟩, rfl⟩
    have hji : j ≠ i := fun he => hne (congrArg pageAddress he)
    exact ⟨j, ⟨hj, by rw [pageUsed_openPage, if_neg hji, hu]⟩, rfl⟩

theorem heldPages_physInit : heldPages (physInit kernelEnd) = ∅ := by
  apply Finset.eq_empty_of_forall_notMem
  intro page hp
  obtain ⟨i, ⟨hi, hu⟩, -⟩ := mem_heldPages.mp hp
  exact absurd (hu.symm.trans ((physInit_spec kernelEnd).2.2 i hi)) (by simp)

/-- One call keeps the invariant and is a step of the abstract allocator. -/
theorem physStep_refines (hs : s.Ok) (call : PhysCall) :
    (physStep s call).1.Ok ∧ (physStep s call).1.firstFreeIndex = s.firstFreeIndex ∧
      Allocator.Step (arena s.firstFreeIndex) (heldPages s) (physStep s call).2
        (heldPages (physStep s call).1) := by
  cases call with
  | alloc =>
    rcases physAllocPage_cases s with ⟨i, hi, hfree, he⟩ | ⟨hall, he⟩
    · simp only [physStep, he, if_neg pageAddress_ne_null]
      refine ⟨ok_takePage hs hi hfree, rfl, ?_⟩
      rw [heldPages_takePage hi]
      apply Allocator.Step.alloc (mem_arena.mpr ⟨i, hi, rfl⟩)
      intro hmem
      exact absurd ((pageAddress_mem_heldPages.mp hmem).2.symm.trans hfree) (by simp)
    · simp only [physStep, he, if_pos]
      refine ⟨hs, trivial, .exhausted fun page hp => ?_⟩
      obtain ⟨i, hi, rfl⟩ := mem_arena.mp hp
      exact pageAddress_mem_heldPages.mpr ⟨hi, hall i hi⟩
  | free page =>
    rcases physFreePage_cases s page with ⟨i, rfl, hi, hused, he⟩ | ⟨hnot, he⟩
    · simp only [physStep, he, if_pos]
      refine ⟨ok_openPage hs hi hused, rfl, ?_⟩
      rw [heldPages_openPage]
      exact .free (pageAddress_mem_heldPages.mpr ⟨hi, hused⟩)
    · simp only [physStep, he, Bool.false_eq_true, if_false]
      refine ⟨hs, trivial, .rejected fun hmem => ?_⟩
      obtain ⟨i, ⟨hi, hu⟩, rfl⟩ := mem_heldPages.mp hmem
      exact absurd (hu.symm.trans (hnot i rfl hi)) (by simp)

/-- A run of calls is a run of the abstract allocator. -/
theorem physRun_refines (hs : s.Ok) (calls : List PhysCall) :
    (physRun s calls).1.Ok ∧ (physRun s calls).1.firstFreeIndex = s.firstFreeIndex ∧
      Allocator.Run (arena s.firstFreeIndex) (heldPages s) (physRun s calls).2
        (heldPages (physRun s calls).1) := by
  induction calls generalizing s with
  | nil => exact ⟨hs, rfl, .nil⟩
  | cons call calls ih =>
    obtain ⟨hok, hfirst, hstep⟩ := physStep_refines hs call
    obtain ⟨hoks, hfirsts, hrun⟩ := ih hok
    rw [hfirst] at hrun
    exact ⟨hoks, hfirsts.trans hfirst, .cons hstep hrun⟩

/-- With the end of the kernel in the RAM, every page above the first free one lies above it. -/
theorem placed_of_mem_arena (hlow : QEMU_RAM_BASE ≤ kernelEnd)
    (hhigh : kernelEnd ≤ QEMU_RAM_BASE + QEMU_RAM_SIZE)
    (hp : page ∈ arena (physInit kernelEnd).firstFreeIndex) :
    page % SONATINE_PAGE_SIZE = 0 ∧ kernelEnd ≤ page ∧ page < QEMU_RAM_BASE + QEMU_RAM_SIZE := by
  obtain ⟨i, hi, rfl⟩ := mem_arena.mp hp
  have hplaced := pageAddress_placed (i := i)
  rw [Misplaced, not_or, not_or, not_not, ge_iff_le, BitVec.not_le] at hplaced
  refine ⟨hplaced.1, ?_, hplaced.2.2⟩
  rw [BitVec.le_def, toNat_ramBase] at hlow
  rw [BitVec.le_def, toNat_ramEnd] at hhigh
  have hsum : (kernelEnd + SONATINE_PAGE_SIZE - 1).toNat = kernelEnd.toNat + 4095 := by
    have hone : (1 : BitVec 64).toNat = 1 := rfl
    rw [BitVec.toNat_sub, BitVec.toNat_add, toNat_pageSize, hone]
    omega
  have hfirst : (alignUp kernelEnd SONATINE_PAGE_SIZE).toNat = (kernelEnd.toNat + 4095) / 4096 * 4096 := by
    have hmask : (SONATINE_PAGE_SIZE - 1).toNat = 2 ^ 12 - 1 := rfl
    rw [alignUp, AddressBits.toNat_and_not_mask hmask, hsum]
    rfl
  rw [(physInit_spec kernelEnd).2.1, BitVec.toNat_udiv, toNat_pageSize, BitVec.toNat_sub, hfirst,
    toNat_ramBase] at hi
  rw [BitVec.le_def, toNat_pageAddress]
  omega

/-- What holds of the state and of the events after any calls. -/
structure Accounted (kernelEnd : BitVec 64) (s : PhysState) (trace : List (Allocator.Event (BitVec 64))) :
    Prop where
  count : s.freePageCount.toNat = (s.pageBitmap.clearFrom s.firstFreeIndex).card
  reserved : ∀ i : PageIndex, i.val < s.firstFreeIndex → pageUsed s i = true
  returned : ∀ page, .alloc page ∈ trace → page % SONATINE_PAGE_SIZE = 0 ∧ kernelEnd ≤ page ∧
    page < QEMU_RAM_BASE + QEMU_RAM_SIZE
  once : ∀ pre mid post page, trace = pre ++ .alloc page :: (mid ++ .alloc page :: post) →
    .free page ∈ mid
  fails : (physAllocPage s).2 = NULL ↔ s.pageBitmap.clearFrom s.firstFreeIndex = ∅
  accepts : ∀ page, (physFreePage s page).2 = true ↔ Allocator.Out trace page
  refuses : ∀ page, page % SONATINE_PAGE_SIZE ≠ 0 ∨ page < kernelEnd ∨
    page ≥ QEMU_RAM_BASE + QEMU_RAM_SIZE → (physFreePage s page).2 = false
  unchanged : ∀ page, (physFreePage s page).2 = false → (physFreePage s page).1 = s

theorem physAllocPage_null_iff :
    (physAllocPage s).2 = NULL ↔ s.pageBitmap.clearFrom s.firstFreeIndex = ∅ := by
  rcases physAllocPage_cases s with ⟨i, hi, hfree, he⟩ | ⟨hall, he⟩
  · rw [he]
    constructor
    · intro h
      exact absurd h pageAddress_ne_null
    · intro h
      have hmem : i ∈ s.pageBitmap.clearFrom s.firstFreeIndex := mem_clearFrom.mpr ⟨hi, hfree⟩
      rw [h] at hmem
      cases hmem
  · rw [he]
    refine ⟨fun _ => ?_, fun _ => rfl⟩
    apply Finset.eq_empty_of_forall_notMem
    intro i hi
    obtain ⟨hfirst, hfree⟩ := mem_clearFrom.mp hi
    exact absurd ((hall i hfirst).symm.trans hfree) (by simp)

theorem physFreePage_iff : (physFreePage s page).2 = true ↔ page ∈ heldPages s := by
  rcases physFreePage_cases s page with ⟨i, rfl, hi, hused, he⟩ | ⟨hnot, he⟩
  · rw [he]
    exact ⟨fun _ => pageAddress_mem_heldPages.mpr ⟨hi, hused⟩, fun _ => rfl⟩
  · rw [he]
    constructor
    · intro h
      cases h
    · intro h
      obtain ⟨i, ⟨hi, hused⟩, rfl⟩ := mem_heldPages.mp h
      exact absurd (hused.symm.trans (hnot i rfl hi)) (by simp)

theorem physFreePage_unchanged (h : (physFreePage s page).2 = false) : (physFreePage s page).1 = s := by
  rcases physFreePage_cases s page with ⟨i, rfl, hi, hused, he⟩ | ⟨hnot, he⟩
  · rw [he] at h
    cases h
  · rw [he]

theorem heldPages_subset_arena (h : page ∈ heldPages s) : page ∈ arena s.firstFreeIndex := by
  obtain ⟨i, ⟨hi, -⟩, he⟩ := mem_heldPages.mp h
  exact mem_arena.mpr ⟨i, hi, he⟩

theorem phys_allocator_accounted (kernelEnd : BitVec 64) (hlow : QEMU_RAM_BASE ≤ kernelEnd)
    (hhigh : kernelEnd ≤ QEMU_RAM_BASE + QEMU_RAM_SIZE) (calls : List PhysCall) :
    Accounted kernelEnd (physRun (physInit kernelEnd) calls).1 (physRun (physInit kernelEnd) calls).2 := by
  obtain ⟨hinit, -, -⟩ := physInit_spec kernelEnd
  obtain ⟨hok, hfirst, hrun⟩ := physRun_refines hinit calls
  rw [heldPages_physInit] at hrun
  have hplaced : ∀ page, page ∈ arena (physInit kernelEnd).firstFreeIndex → _ :=
    fun page => placed_of_mem_arena hlow hhigh
  constructor
  · exact hok.count
  · exact hok.reserved
  · intro page hp
    exact hplaced page (hrun.alloc_mem hp)
  · intro pre mid post page he
    rw [he] at hrun
    exact hrun.free_between
  · exact physAllocPage_null_iff
  · intro page
    rw [physFreePage_iff]
    exact hrun.mem_iff_out
  · intro page hbad
    apply Bool.eq_false_of_not_eq_true
    intro haccepted
    have hmem := heldPages_subset_arena (physFreePage_iff.mp haccepted)
    rw [hfirst] at hmem
    obtain ⟨halign, habove, hbelow⟩ := hplaced page hmem
    rcases hbad with hbad | hbad | hbad
    · exact hbad halign
    · exact absurd habove (BitVec.not_le.mpr hbad)
    · exact absurd hbelow (BitVec.not_lt.mpr hbad)
  · intro page h
    exact physFreePage_unchanged h

/-- Two pages above the kernel: both are handed out, one is given back twice and handed out again. -/
theorem phys_allocator_accounted_two_pages :
    let calls := [.alloc, .alloc, .alloc, .free 0x87fff000, .free 0x87fff000, .alloc]
    let run := physRun (physInit 0x87ffdabc) calls
    Accounted 0x87ffdabc run.1 run.2 ∧
      run.2 = [.alloc 0x87ffe000, .alloc 0x87fff000, .exhausted, .free 0x87fff000,
        .rejected 0x87fff000, .alloc 0x87fff000] :=
  ⟨phys_allocator_accounted 0x87ffdabc (by decide) (by decide) _, by decide⟩

end Raveil.Kernel
