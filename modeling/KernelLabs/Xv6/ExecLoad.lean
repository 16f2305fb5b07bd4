import KernelLabs.Xv6.ExecCopy

/-!
The segments of a program in memory. The headers of the file may say anything: what the loader
accepts lies in pages that it has mapped before.
-/
namespace Xv6Exec
open Xv6Vm Custody Wp PageBytes Bytes

variable {img : Image} {all : Nat → Prop} {dirs : List Nat} {held : Multiset Nat} {s₀ s t u : Mem} {dir p n sz : Nat} {file : List Byte}

/-- A new address space of size `sz`. -/
structure Loading (img : Image) (all : Nat → Prop) (dirs : List Nat) (held : Multiset Nat) (dir sz : Nat) (s : Mem) : Prop where
  kept : Kept img all dirs held s
  here : dir ∈ dirs
  exactly : Exactly s.words dir sz
  kernel : KernelPart s.words dir
  usable : Usable s.words dir
  user : sz < KERNBASE

section Alloc

theorem Loading.mapped (loading : Loading img all dirs held dir sz s) {a : Nat} (below : a < pgroundup sz) :
    a / PGSIZE < userPages ∧ present (pte s.words dir (a / PGSIZE)) = true := by
  have user := loading.user
  have small : a / PGSIZE < userPages := by
    unfold KERNBASE at user
    unfold userPages
    unfold pgroundup at below
    unfold PGSIZE at *
    omega
  refine ⟨small, (loading.exactly _ small).mpr ?_⟩
  unfold pgroundup at below ⊢
  unfold PGSIZE at *
  omega

/-- Writes to the memory of the program. -/
theorem Loading.still (loading : Loading img all dirs held dir sz s) (still : Still img all dirs held dir s t) :
    Loading img all dirs held dir sz t := by
  have lower : Lower dir s t := Lower.of_same still.entries still.directory
  refine ⟨still.kept, loading.here, fun m small => ?_, loading.kernel.lower lower, lower.usable loading.usable, loading.user⟩
  rw [still.entries m (Nat.lt_trans small (by decide))]
  exact loading.exactly m small

theorem SamePage.byte {a : Nat} (same : SamePage dir (a / PGSIZE) s t) : userByte t.words dir a = userByte s.words dir a := by
  unfold userByte
  rw [same.1, same.2]

/-- `allocuvm` on the way: the new pages are zero. -/
theorem Loading.alloc {E : Xv6Vm.Panic → Prop} {newsz : Nat} (loading : Loading img all dirs held dir sz s) :
    wp E (allocuvm img dir sz newsz) s fun result t => Kept img all dirs held t ∧ Elsewhere dirs dir s t ∧
      (result ≠ 0 → result = max sz newsz ∧ Loading img all dirs held dir result t ∧
        ∀ a < pgroundup result, userByte t.words dir a = if a < pgroundup sz then userByte s.words dir a else 0) := by
  obtain ⟨kept,here,exactly,kernel,usable,user⟩ := loading
  by_cases high : KERNBASE ≤ newsz
  · unfold allocuvm
    rw [wp_ite, if_pos high]
    exact ⟨kept, Elsewhere.refl rfl, fun some => absurd rfl some⟩
  have low := Nat.not_le.mp high
  by_cases less : newsz < sz
  · unfold allocuvm
    rw [wp_ite, if_neg high, wp_ite, if_pos less]
    refine ⟨kept, Elsewhere.refl rfl, fun _ => ⟨(Nat.max_eq_left (Nat.le_of_lt less)).symm,
      ⟨kept, here, exactly, kernel, usable, user⟩, fun a below => ?_⟩⟩
    rw [if_pos below]
  have more := Nat.not_lt.mp less
  refine wp_mono (wp_and (wp_and (allocuvm_grows kept here more exactly) (allocuvm_spec trivial kept here)) (allocuvm_lower kept here))
    fun result t ⟨⟨grows,keptT,elsewhere⟩,lower⟩ => ⟨keptT, elsewhere, fun some => ?_⟩
  rcases grows with ⟨rfl,grown⟩ | ⟨rfl,_⟩
  · have lower := lower some
    refine ⟨(Nat.max_eq_right more).symm, ⟨keptT, here, grown.mapped, kernel.lower lower, lower.usable usable, low⟩, fun a below => ?_⟩
    have small : a / PGSIZE < userPages := by
      unfold KERNBASE at low
      unfold userPages
      unfold pgroundup at below
      unfold PGSIZE at *
      omega
    by_cases old : a < pgroundup sz
    · rw [if_pos old]
      by_cases whole : a / PGSIZE * PGSIZE < min sz result
      · exact SamePage.byte (grown.preserved _ small whole)
      · unfold pgroundup at old below
        unfold PGSIZE at *
        omega
    · rw [if_neg old]
      have zero := grown.fresh (a / PGSIZE) small (by unfold pgroundup at old ⊢; unfold PGSIZE at *; omega)
        (by unfold pgroundup at below ⊢; unfold PGSIZE at *; omega)
      unfold userByte
      rw [zero]
      unfold byteAt byteOf
      rw [Nat.zero_div]
      rfl
  · exact absurd rfl some

theorem pgroundup_twice (sz : Nat) : pgroundup (pgroundup sz) = pgroundup sz := by
  unfold pgroundup PGSIZE
  omega

/-- The size in whole pages. -/
theorem Loading.rounded (loading : Loading img all dirs held dir sz s) : Loading img all dirs held dir (pgroundup sz) s := by
  have small := loading.exactly.small loading.kept loading.here
  refine ⟨loading.kept, loading.here, fun m user => ?_, loading.kernel, loading.usable, ?_⟩
  · rw [pgroundup_twice]
    exact loading.exactly m user
  · unfold PHYSTOP at small
    unfold pgroundup PGSIZE KERNBASE
    omega

end Alloc

section Loaduvm
variable {E : Panic → Prop}

/-- The bytes from `addr` to `addr + i` are those of the file from `offset` on. -/
def Placed (dir addr offset i sz : Nat) (file : List Byte) (s t : Mem) : Prop :=
  ∀ a < pgroundup sz, userByte t.words dir a =
    if addr ≤ a ∧ a < addr + i then file.getD (offset + (a - addr)) 0 else userByte s.words dir a

end Loaduvm

section Segments
variable {E : Panic → Prop}

/-- What a segment makes of the byte at an address. -/
def lay (file : List Byte) (a : Nat) (b : Byte) (ph : Proghdr) : Byte :=
  if ph.vaddr ≤ a ∧ a < ph.vaddr + ph.filesz then file.getD (ph.off + (a - ph.vaddr)) 0 else b

/-- The address space with the bytes of the segments laid over those it had. -/
structure Laid (dir sz new : Nat) (file : List Byte) (segs : List Proghdr) (s t : Mem) : Prop where
  more : sz ≤ new
  bytes : ∀ a < pgroundup new, userByte t.words dir a = segs.foldl (lay file a) (if a < pgroundup sz then userByte s.words dir a else 0)

end Segments

end Xv6Exec
