import KernelLabs.Jos.KernPgdir
import KernelLabs.Lib.Transition

/-!
`boot_alloc` (lab-3 `kern/pmap.c`, with `ROUNDUP` of `inc/types.h`), the allocator of
`mem_init` until `page_init` has run. Addresses are 32-bit words and `nextfree`, a static
variable, is null before the first call.
-/
namespace JosPmap
open Transition

/-- `ROUNDUP`: the sum and the difference are taken in `uint32_t`. -/
def roundup32 (a n : Nat) : Nat :=
  let a := (a + n - 1) % 2 ^ 32
  a - a % n

/-- The address returned and the next value of `nextfree`. -/
def bootAlloc (kernelEnd npages nextfree n : Nat) : Except String (Nat × Nat) :=
  let nextfree := if nextfree = 0 then roundup32 kernelEnd PGSIZE else nextfree
  let result := nextfree
  if n > 0 then
    let nextfree := roundup32 ((nextfree + n) % 2 ^ 32) PGSIZE
    if (nextfree + 2 ^ 32 - KERNBASE) % 2 ^ 32 > npages * PGSIZE % 2 ^ 32 then
      .error "Panic! boot_alloc() failed! Out of memory!"
    else .ok (result, nextfree)
  else .ok (result, nextfree)

/-- A boot with the regions it has asked for so far, as start and length. -/
structure Booting where
  nextfree : Nat
  regions : List (Nat × Nat)
  deriving DecidableEq, Repr

/-- A panic ends the boot. -/
def bootNext (kernelEnd npages : Nat) (b : Booting) (n : UInt32) : Option Booting :=
  match bootAlloc kernelEnd npages b.nextfree n.toNat with
  | .error _ => none
  | .ok (result, nextfree) => some ⟨nextfree, if n.toNat > 0 then (result, n.toNat) :: b.regions else b.regions⟩

def booting (kernelEnd npages : Nat) : System Booting UInt32 where
  start b := b = ⟨0, []⟩
  next := bootNext kernelEnd npages

structure Regions (kernelEnd npages : Nat) (b : Booting) : Prop where
  aligned : ∀ r ∈ b.regions, PGSIZE ∣ r.1
  above : ∀ r ∈ b.regions, kernelEnd ≤ r.1
  within : ∀ r ∈ b.regions, r.1 + r.2 ≤ KERNBASE + npages * PGSIZE
  disjoint : b.regions.Pairwise fun r q => r.1 + r.2 ≤ q.1 ∨ q.1 + q.2 ≤ r.1

/-- A region has reached the last page of the address space. -/
def Filled (b : Booting) : Prop := ∃ r ∈ b.regions, 2 ^ 32 - PGSIZE < r.1 + r.2

/-- Where the next region starts. -/
def nextRegion (kernelEnd : Nat) (b : Booting) : Nat :=
  if b.nextfree = 0 then roundup kernelEnd PGSIZE else b.nextfree

/-- The request does not run through the whole address space and back above `KERNBASE`, and
    there is no request for memory after the last page of the address space was handed out. -/
def Fits (kernelEnd : Nat) (b : Booting) (n : UInt32) : Prop :=
  n.toNat = 0 ∨ (¬ Filled b ∧ nextRegion kernelEnd b + n.toNat + (PGSIZE - 1) < 2 ^ 32 + KERNBASE)

/-- The kernel ends inside physical memory, of which at most 256MB are used. -/
structure KernelEnd (kernelEnd npages : Nat) : Prop where
  window : npages ≤ 65536
  above : KERNBASE ≤ kernelEnd
  inside : kernelEnd ≤ KERNBASE + npages * PGSIZE
  word : kernelEnd < 2 ^ 32

theorem roundup32_eq (a : Nat) : roundup32 (a % 2 ^ 32) PGSIZE = roundup a PGSIZE % 2 ^ 32 := by
  unfold roundup32 roundup PGSIZE
  dsimp only
  omega

/-- The memory handed out is a run of whole pages from the end of the kernel. -/
structure Packed (kernelEnd npages : Nat) (b : Booting) : Prop where
  regions : Regions kernelEnd npages b
  first : b.regions ≠ [] → ∃ n, 0 < n ∧ (roundup kernelEnd PGSIZE, n) ∈ b.regions
  nextfree : (b.nextfree = 0 ∧ b.regions = []) ∨
    (roundup kernelEnd PGSIZE ≤ b.nextfree ∧ b.nextfree < 2 ^ 32 ∧ PGSIZE ∣ b.nextfree ∧
      b.nextfree ≤ KERNBASE + npages * PGSIZE ∧ (b.regions = [] → b.nextfree = roundup kernelEnd PGSIZE) ∧
      ∀ r ∈ b.regions, r.1 + r.2 ≤ b.nextfree) ∨
    (Filled b ∧ (b.nextfree = 0 ∨ b.nextfree = roundup kernelEnd PGSIZE))

section Calls
variable {kernelEnd npages : Nat} {b : Booting}

theorem bootAlloc_zero (kernelEnd npages nextfree : Nat) : ∃ next, bootAlloc kernelEnd npages nextfree 0 = .ok (next, next) ∧
    next = (if nextfree = 0 then roundup32 kernelEnd PGSIZE else nextfree) ∧
    ∀ n, bootAlloc kernelEnd npages next n = bootAlloc kernelEnd npages nextfree n := by
  refine ⟨_, rfl, rfl, fun n => ?_⟩
  unfold bootAlloc
  by_cases null : nextfree = 0
  · simp only [null, ↓reduceIte, ite_self]
  · simp only [if_neg null]

/-- For a request that fits, the test against the size of memory decides. -/
theorem bootAlloc_fits (mem : KernelEnd kernelEnd npages) {nextfree top n : Nat} (some : 0 < n) (small : n < 2 ^ 32)
    (start : (if nextfree = 0 then roundup32 kernelEnd PGSIZE else nextfree) = top % 2 ^ 32) (high : KERNBASE ≤ top)
    (fits : top + n + (PGSIZE - 1) < 2 ^ 32 + KERNBASE) :
    bootAlloc kernelEnd npages nextfree n =
      if roundup (top + n) PGSIZE ≤ KERNBASE + npages * PGSIZE then .ok (top, roundup (top + n) PGSIZE % 2 ^ 32)
      else .error "Panic! boot_alloc() failed! Out of memory!" := by
  have window := mem.window
  unfold bootAlloc
  simp only [start, if_pos some]
  have next : roundup32 ((top % 2 ^ 32 + n) % 2 ^ 32) PGSIZE = roundup (top + n) PGSIZE % 2 ^ 32 := by
    rw [Nat.mod_add_mod, roundup32_eq]
  rw [next]
  unfold roundup KERNBASE PGSIZE at *
  by_cases room : (top + n + 4096 - 1) / 4096 * 4096 ≤ 0xF0000000 + npages * 4096
  · rw [if_pos room, if_neg (by omega)]
    have word : top % 2 ^ 32 = top := Nat.mod_eq_of_lt (by omega)
    rw [word]
  · rw [if_neg room, if_pos (by omega)]

theorem KernelEnd.rounded (mem : KernelEnd kernelEnd npages) : KERNBASE ≤ roundup kernelEnd PGSIZE ∧
    kernelEnd ≤ roundup kernelEnd PGSIZE ∧ roundup kernelEnd PGSIZE ≤ KERNBASE + npages * PGSIZE ∧
    roundup kernelEnd PGSIZE ≤ 2 ^ 32 ∧ PGSIZE ∣ roundup kernelEnd PGSIZE := by
  obtain ⟨window,above,inside,word⟩ := mem
  refine ⟨?_, ?_, ?_, ?_, Nat.dvd_mul_left _ _⟩ <;> unfold roundup KERNBASE PGSIZE at * <;> omega

theorem KernelEnd.initial (mem : KernelEnd kernelEnd npages) :
    roundup32 kernelEnd PGSIZE = roundup kernelEnd PGSIZE % 2 ^ 32 := by
  have same := roundup32_eq kernelEnd
  rwa [Nat.mod_eq_of_lt mem.word] at same

/-- The first region starts where the kernel ends, below the top of the address space. -/
theorem Packed.start_below (mem : KernelEnd kernelEnd npages) (packed : Packed kernelEnd npages b)
    (some : b.regions ≠ []) : roundup kernelEnd PGSIZE < 2 ^ 32 := by
  obtain ⟨n,positive,first⟩ := packed.first some
  have last := packed.regions.within _ first
  have window := mem.window
  unfold KERNBASE PGSIZE at *
  dsimp only at last
  omega

theorem packed_zero (mem : KernelEnd kernelEnd npages) (packed : Packed kernelEnd npages b) :
    Packed kernelEnd npages ⟨if b.nextfree = 0 then roundup32 kernelEnd PGSIZE else b.nextfree, b.regions⟩ := by
  obtain ⟨low,_,inside,top,page⟩ := mem.rounded
  have base : 0 < KERNBASE := by decide
  refine ⟨⟨packed.regions.aligned, packed.regions.above, packed.regions.within, packed.regions.disjoint⟩,
    packed.first, ?_⟩
  rcases packed.nextfree with ⟨null,none⟩ | below | ⟨filled,null | start⟩
  · simp only [null, ↓reduceIte, mem.initial]
    rcases Nat.lt_or_eq_of_le top with less | full
    · rw [Nat.mod_eq_of_lt less]
      refine Or.inr (Or.inl ⟨Nat.le_refl _, less, page, inside, fun _ => rfl, fun r here => ?_⟩)
      rw [none] at here
      simp at here
    · exact Or.inl ⟨by rw [full, Nat.mod_self], none⟩
  · have some : b.nextfree ≠ 0 := by
      have := below.1
      omega
    rw [if_neg some]
    exact Or.inr (Or.inl below)
  · have some : b.regions ≠ [] := by
      obtain ⟨r,here,_⟩ := filled
      exact List.ne_nil_of_mem here
    rw [if_pos null, mem.initial, Nat.mod_eq_of_lt (packed.start_below mem some)]
    exact Or.inr (Or.inr ⟨filled, Or.inr rfl⟩)
  · have some : b.nextfree ≠ 0 := by omega
    rw [if_neg some]
    exact Or.inr (Or.inr ⟨filled, Or.inr start⟩)

/-- Where `boot_alloc` starts a region before the address space is filled. -/
theorem Packed.next_region (mem : KernelEnd kernelEnd npages) (packed : Packed kernelEnd npages b)
    (room : ¬ Filled b) :
    (if b.nextfree = 0 then roundup32 kernelEnd PGSIZE else b.nextfree) = nextRegion kernelEnd b % 2 ^ 32 ∧
    roundup kernelEnd PGSIZE ≤ nextRegion kernelEnd b ∧
    nextRegion kernelEnd b ≤ KERNBASE + npages * PGSIZE ∧ PGSIZE ∣ nextRegion kernelEnd b ∧
    (b.regions = [] → nextRegion kernelEnd b = roundup kernelEnd PGSIZE) ∧
    ∀ r ∈ b.regions, r.1 + r.2 ≤ nextRegion kernelEnd b := by
  obtain ⟨low,_,inside,top,page⟩ := mem.rounded
  have base : 0 < KERNBASE := by decide
  unfold nextRegion
  rcases packed.nextfree with ⟨null,none⟩ | ⟨above,less,aligned,limit,fresh,ends⟩ | ⟨filled,_⟩
  · rw [if_pos null, if_pos null]
    refine ⟨mem.initial, Nat.le_refl _, inside, page, fun _ => rfl, fun r here => ?_⟩
    rw [none] at here
    simp at here
  · have some : b.nextfree ≠ 0 := by omega
    simp only [if_neg some]
    exact ⟨(Nat.mod_eq_of_lt less).symm, above, limit, aligned, fresh, ends⟩
  · exact absurd filled room

theorem packed_push (mem : KernelEnd kernelEnd npages) (packed : Packed kernelEnd npages b) {next n : Nat}
    (some : 0 < n) (above : roundup kernelEnd PGSIZE ≤ next) (aligned : PGSIZE ∣ next)
    (fresh : b.regions = [] → next = roundup kernelEnd PGSIZE) (ends : ∀ r ∈ b.regions, r.1 + r.2 ≤ next)
    (fit : roundup (next + n) PGSIZE ≤ KERNBASE + npages * PGSIZE) :
    Packed kernelEnd npages ⟨roundup (next + n) PGSIZE % 2 ^ 32, (next, n) :: b.regions⟩ := by
  obtain ⟨low,kernel,_⟩ := mem.rounded
  have window := mem.window
  have covers : next + n ≤ roundup (next + n) PGSIZE ∧ roundup (next + n) PGSIZE < next + n + PGSIZE := by
    unfold roundup PGSIZE
    omega
  have top : roundup (next + n) PGSIZE ≤ 2 ^ 32 := by
    unfold KERNBASE PGSIZE at *
    omega
  refine ⟨⟨fun r here => ?_, fun r here => ?_, fun r here => ?_, ?_⟩, fun _ => ?_, ?_⟩
  · rcases List.mem_cons.mp here with same | earlier
    · exact same ▸ aligned
    · exact packed.regions.aligned r earlier
  · rcases List.mem_cons.mp here with same | earlier
    · rw [same]
      exact Nat.le_trans kernel above
    · exact packed.regions.above r earlier
  · rcases List.mem_cons.mp here with same | earlier
    · rw [same]
      exact Nat.le_trans covers.1 fit
    · exact packed.regions.within r earlier
  · exact List.pairwise_cons.mpr ⟨fun r earlier => Or.inr (ends r earlier), packed.regions.disjoint⟩
  · by_cases none : b.regions = []
    · exact ⟨n, some, by rw [← fresh none]; exact List.mem_cons_self⟩
    · obtain ⟨m,positive,first⟩ := packed.first none
      exact ⟨m, positive, List.mem_cons_of_mem _ first⟩
  · rcases Nat.lt_or_eq_of_le top with less | full
    · rw [Nat.mod_eq_of_lt less]
      have start := Nat.le_trans above (Nat.le_trans (Nat.le_add_right next n) covers.1)
      refine Or.inr (Or.inl ⟨start, less, Nat.dvd_mul_left _ _, fit, fun none => by simp at none, fun r here => ?_⟩)
      rcases List.mem_cons.mp here with same | earlier
      · rw [same]
        exact covers.1
      · have := ends r earlier
        dsimp only
        omega
    · refine Or.inr (Or.inr ⟨⟨(next, n), List.mem_cons_self, ?_⟩, Or.inl (by rw [full, Nat.mod_self])⟩)
      dsimp only
      omega

theorem packed_fits (mem : KernelEnd kernelEnd npages) (packed : Packed kernelEnd npages b) {n : UInt32}
    (some : 0 < n.toNat) (fits : Fits kernelEnd b n) {t : Booting} (run : bootNext kernelEnd npages b n = Option.some t) :
    Packed kernelEnd npages t := by
  obtain ⟨low,_⟩ := mem.rounded
  rcases fits with zero | ⟨room,less⟩
  · omega
  obtain ⟨start,above,_,aligned,fresh,ends⟩ := packed.next_region mem room
  have alloc := bootAlloc_fits mem some n.toNat_lt start (Nat.le_trans low above) less
  rw [bootNext, alloc] at run
  by_cases fit : roundup (nextRegion kernelEnd b + n.toNat) PGSIZE ≤ KERNBASE + npages * PGSIZE
  · simp only [if_pos fit, gt_iff_lt, if_pos some] at run
    cases run
    exact packed_push mem packed some above aligned fresh ends fit
  · simp only [if_neg fit] at run
    cases run

theorem bootAlloc_result {nextfree n result next : Nat} (run : bootAlloc kernelEnd npages nextfree n = .ok (result, next)) :
    result = if nextfree = 0 then roundup32 kernelEnd PGSIZE else nextfree := by
  unfold bootAlloc at run
  dsimp only at run
  generalize (if nextfree = 0 then roundup32 kernelEnd PGSIZE else nextfree) = start at run ⊢
  split at run
  · split at run
    · simp only [reduceCtorEq] at run
    · simp only [Except.ok.injEq, Prod.mk.injEq] at run
      exact run.1.symm
  · simp only [Except.ok.injEq, Prod.mk.injEq] at run
    exact run.1.symm

theorem bootNext_region {n : UInt32} (some : 0 < n.toNat) {t : Booting}
    (run : bootNext kernelEnd npages b n = Option.some t) :
    t.regions = ((if b.nextfree = 0 then roundup32 kernelEnd PGSIZE else b.nextfree), n.toNat) :: b.regions := by
  unfold bootNext at run
  split at run
  · cases run
  · rename_i result next served
    simp only [gt_iff_lt, if_pos some, Option.some.injEq] at run
    rw [← run, ← bootAlloc_result served]

/-- Once the address space is filled, `nextfree` is back at the end of the kernel. -/
theorem Packed.filled_nextfree (packed : Packed kernelEnd npages b) (filled : Filled b) :
    b.nextfree = 0 ∨ b.nextfree = roundup kernelEnd PGSIZE := by
  obtain ⟨r,here,full⟩ := filled
  rcases packed.nextfree with ⟨_,none⟩ | ⟨_,less,aligned,_,_,ends⟩ | ⟨_,back⟩
  · rw [none] at here
    simp at here
  · have last := ends r here
    obtain ⟨k,pages⟩ := aligned
    unfold PGSIZE at *
    omega
  · exact back

/-- A request that does not fit and is served anyway lies outside memory, or over the first
    region. -/
theorem misfit_overlaps (mem : KernelEnd kernelEnd npages) (packed : Packed kernelEnd npages b) {n : UInt32}
    (misfit : ¬ Fits kernelEnd b n) {t : Booting} (run : bootNext kernelEnd npages b n = Option.some t) :
    ¬ Regions kernelEnd npages t := by
  obtain ⟨low,kernel,_⟩ := mem.rounded
  have window := mem.window
  have base : 0 < KERNBASE := by decide
  have some : 0 < n.toNat := by
    rcases Nat.eq_zero_or_pos n.toNat with zero | some
    · exact absurd (Or.inl zero) misfit
    · exact some
  have region := bootNext_region some run
  intro regions
  by_cases filled : Filled b
  · have taken : b.regions ≠ [] := by
      obtain ⟨r,here,_⟩ := filled
      exact List.ne_nil_of_mem here
    have less := packed.start_below mem taken
    obtain ⟨m,positive,first⟩ := packed.first taken
    have start : (if b.nextfree = 0 then roundup32 kernelEnd PGSIZE else b.nextfree) = roundup kernelEnd PGSIZE := by
      rcases packed.filled_nextfree filled with null | same
      · rw [if_pos null, mem.initial, Nat.mod_eq_of_lt less]
      · rw [if_neg (by omega), same]
    have apart := regions.disjoint
    rw [region, List.pairwise_cons] at apart
    have := apart.1 _ first
    rw [start] at this
    dsimp only at this
    omega
  · obtain ⟨start,above,limit,_⟩ := packed.next_region mem filled
    have long : 2 ^ 32 + KERNBASE ≤ nextRegion kernelEnd b + n.toNat + (PGSIZE - 1) := by
      by_contra short
      exact misfit (Or.inr ⟨filled, Nat.lt_of_not_le short⟩)
    have after := regions.above _ (by rw [region]; exact List.mem_cons_self)
    have within := regions.within _ (by rw [region]; exact List.mem_cons_self)
    rw [start] at after within
    have high := mem.above
    have size := n.toNat_lt
    unfold KERNBASE PGSIZE at *
    dsimp only at after within
    omega

theorem packed_start (start : (booting kernelEnd npages).start b) : Packed kernelEnd npages b := by
  subst start
  refine ⟨⟨?_, ?_, ?_, List.Pairwise.nil⟩, fun some => absurd rfl some, Or.inl ⟨rfl,rfl⟩⟩ <;>
    intro r here <;> simp at here

theorem booting_packed (mem : KernelEnd kernelEnd npages)
    (reach : (booting kernelEnd npages).Reach (Fits kernelEnd) b) : Packed kernelEnd npages b := by
  refine System.reach_invariant _ (fun _ => packed_start) ?_ reach
  intro b n t packed fits run
  rcases Nat.eq_zero_or_pos n.toNat with zero | some
  · have idle : bootNext kernelEnd npages b n = Option.some
        ⟨if b.nextfree = 0 then roundup32 kernelEnd PGSIZE else b.nextfree, b.regions⟩ := by
      rw [bootNext, zero]
      rfl
    have same := idle.symm.trans run
    simp only [Option.some.injEq] at same
    exact same ▸ packed_zero mem packed
  · exact packed_fits mem packed some fits run

theorem Packed.aligned (packed : Packed kernelEnd npages b) :
    PGSIZE ∣ if b.nextfree = 0 then roundup32 kernelEnd PGSIZE else b.nextfree := by
  split
  · exact Nat.dvd_sub_mod _
  · rename_i some
    rcases packed.nextfree with ⟨null,_⟩ | ⟨_,_,page,_⟩ | ⟨_,null | start⟩
    · exact absurd null some
    · exact page
    · exact absurd null some
    · rw [start]
      exact Nat.dvd_mul_left _ _

end Calls

/-- In every boot whose requests fit, the regions are apart and lie between the end of the
    kernel and the end of memory, and a request for 0 bytes changes nothing. The next request
    that does not panic keeps this exactly when it fits too. -/
theorem boot_regions_apart (kernelEnd npages : Nat) (mem : KernelEnd kernelEnd npages) (b : Booting)
    (reach : (booting kernelEnd npages).Reach (Fits kernelEnd) b) :
    Regions kernelEnd npages b ∧
    (∀ n t, bootNext kernelEnd npages b n = some t → (Regions kernelEnd npages t ↔ Fits kernelEnd b n)) ∧
    (∀ n result next, bootAlloc kernelEnd npages b.nextfree n = .ok (result, next) → PGSIZE ∣ result) ∧
    ∃ next, bootAlloc kernelEnd npages b.nextfree 0 = .ok (next, next) ∧
      ∀ n, bootAlloc kernelEnd npages next n = bootAlloc kernelEnd npages b.nextfree n := by
  have packed := booting_packed mem reach
  obtain ⟨next,idle,_,same⟩ := bootAlloc_zero kernelEnd npages b.nextfree
  refine ⟨packed.regions, fun n t run => ⟨fun regions => ?_, fun fits => ?_⟩, fun n result next run => ?_, next, idle, same⟩
  · by_contra misfit
    exact misfit_overlaps mem packed misfit run regions
  · exact (booting_packed mem (.step n reach fits run)).regions
  · rw [bootAlloc_result run]
    exact packed.aligned

/-- 4MB of memory, with a kernel that ends 64K above the first megabyte. -/
theorem smallKernel : KernelEnd 0xF0110000 1024 := ⟨by decide, by decide, by decide, by decide⟩

theorem boot_regions_apart_pgdir : KernelEnd 0xF0110000 1024 ∧
    bootNext 0xF0110000 1024 ⟨0, []⟩ 4096 = some ⟨0xF0111000, [(0xF0110000, 4096)]⟩ ∧
    Regions 0xF0110000 1024 ⟨0xF0111000, [(0xF0110000, 4096)]⟩ := by
  have run : bootNext 0xF0110000 1024 ⟨0, []⟩ 4096 = some ⟨0xF0111000, [(0xF0110000, 4096)]⟩ := by decide
  have fits : Fits 0xF0110000 ⟨0, []⟩ 4096 := Or.inr ⟨by simp [Filled], by decide⟩
  have reach : (booting 0xF0110000 1024).Reach (Fits 0xF0110000) ⟨0xF0111000, [(0xF0110000, 4096)]⟩ :=
    .step (4096 : UInt32) (.start rfl) fits run
  exact ⟨smallKernel, run, (boot_regions_apart _ _ smallKernel _ reach).1⟩

/-- A request of almost 4GB is served from 4MB and moves `nextfree` back below the region. With
    256MB, once the last page is handed out the next request gets the first pages again. -/
theorem boot_alloc_wraps : KernelEnd 0xF0110000 1024 ∧
    bootNext 0xF0110000 1024 ⟨0, []⟩ 0xFFFFF000 = some ⟨0xF010F000, [(0xF0110000, 0xFFFFF000)]⟩ ∧
    ¬ Regions 0xF0110000 1024 ⟨0xF010F000, [(0xF0110000, 0xFFFFF000)]⟩ ∧
    KernelEnd 0xF0110000 65536 ∧
    System.exec (bootNext 0xF0110000 65536) ⟨0, []⟩ [0x0FEF0000, 4096] =
      some ⟨0xF0111000, [(0xF0110000, 4096), (0xF0110000, 0x0FEF0000)]⟩ ∧
    ¬ Regions 0xF0110000 65536 ⟨0xF0111000, [(0xF0110000, 4096), (0xF0110000, 0x0FEF0000)]⟩ := by
  refine ⟨smallKernel, by decide, fun regions => ?_, ⟨by decide, by decide, by decide, by decide⟩,
    by decide +kernel, fun regions => ?_⟩
  · exact absurd (regions.within _ List.mem_cons_self) (by decide)
  · exact absurd ((List.pairwise_cons.mp regions.disjoint).1 _ List.mem_cons_self) (by decide)

end JosPmap
