import KernelLabs.Jos.Tlb

/-!
Runs of the page operations and of `setperm` with fills of the TLB between any two of their
effects. `mon_setperm` writes an entry and leaves the TLB alone, `page_insert` does so with
the directory entry of its address; what these writes need so that no pair goes stale is
said here.
-/
namespace JosPmap
open CacheFlush Transition

inductive Call where
  | pageAlloc (allocZero : Bool)
  | pageInsert (pp va perm : Nat)
  | pageRemove (va : Nat)
  | monSetperm (argv : List String)
  deriving DecidableEq, Repr

def Call.run (pgdir : Nat) (s : Kernel) : Call → Except Panic Kernel
  | .pageAlloc allocZero => (JosPmap.pageAlloc s allocZero).map Prod.snd
  | .pageInsert pp va perm => (JosPmap.pageInsert s pgdir pp va perm).map Prod.snd
  | .pageRemove va => JosPmap.pageRemove s pgdir va
  | .monSetperm argv => (JosPmap.monSetperm s pgdir argv).map Prod.snd

def Call.effects (pgdir : Nat) (s : Kernel) : Call → Except Panic (List Effect)
  | .pageAlloc allocZero => return pageAllocEffects s allocZero
  | .pageInsert pp va perm => pageInsertEffects s pgdir pp va perm
  | .pageRemove va => pageRemoveEffects s pgdir va
  | .monSetperm argv => monSetpermEffects s pgdir argv

/-- The page whose entry the last write of the call changes without an `invlpg`. -/
def Call.exposed : Call → Option Nat
  | .pageInsert _ va _ => some (uvptPage va)
  | .monSetperm argv => some (pgnum (unsigned (setpermStart argv)))
  | _ => none

/-- The call in progress, or the last one, and the effects it still has to make. -/
structure Machine where
  kernel : Kernel
  tlb : List (Vpn × Nat)
  running : Option Call
  pending : List Effect

inductive Event where
  | fill (n : Vpn)
  | call (c : Call)
  | advance

def nextMachine (pgdir : Nat) (m : Machine) : Event → Option Machine
  | .fill n =>
    if present (pte m.kernel pgdir n.val) then some { m with tlb := (n, pte m.kernel pgdir n.val) :: m.tlb }
    else none
  | .call c =>
    match m.pending, c.effects pgdir m.kernel with
    | [], .ok effects => some { m with running := some c, pending := effects }
    | _, _ => none
  | .advance =>
    match m.pending with
    | [] => none
    | e :: rest => some { m with kernel := e.apply m.kernel, tlb := (mmu pgdir).flush e m.tlb, pending := rest }

/-- The machine right after the directory was loaded. -/
def tlbSystem (pgdir : Nat) (origin : Kernel) : System Machine Event where
  start m := m = ⟨origin, [], none, []⟩
  next := nextMachine pgdir

/-- A directory without user entries, and no table of the kernel on the free list. -/
structure Installed (pgdir : Nat) (s : Kernel) : Prop where
  accounted : Accounted (OnFreeList s) pgdir none s
  upper : Upper (OnFreeList s) pgdir s

/-- Addresses below `UTOP`, low permission bits, and an inserted page that was allocated. -/
def LegalCall (origin s : Kernel) : Call → Prop
  | .pageAlloc _ => True
  | .pageInsert pp va perm => va < UTOP ∧ perm < PGSIZE ∧ OnFreeList origin pp ∧ ¬ OnFreeList s pp
  | .pageRemove va => va < UTOP
  | .monSetperm argv => unsigned (setpermStart argv) < UTOP

def Legal (origin : Kernel) (m : Machine) : Event → Prop
  | .call c => LegalCall origin m.kernel c
  | _ => True

/-- No count wraps, and `setperm` neither makes an entry present nor moves its page. -/
def CarefulCall (pgdir : Nat) (s : Kernel) : Call → Prop
  | .pageAlloc _ => True
  | .pageInsert _ _ _ | .pageRemove _ => ∀ p, refs s pgdir p ≤ 65535
  | .monSetperm argv => argv.length = 3 → setpermPrem argv ≤ 0x100 → 0 ≤ setpermPrem argv ∧
    (present (unsigned (setpermPrem argv)) = true →
      present (pte s pgdir (pgnum (unsigned (setpermStart argv)))) = true)

/-- The last write of a call changes nothing, or the page it exposes is not cached. -/
def Careful (pgdir : Nat) (m : Machine) : Event → Prop
  | .fill _ => True
  | .call c => CarefulCall pgdir m.kernel c
  | .advance => ∀ e, m.pending = [e] → (e.apply m.kernel).mem = m.kernel.mem ∨
    ∀ p ∈ m.tlb, (m.running.bind Call.exposed) ≠ some p.1.val

/-- Every cached pair is the entry of its page. -/
def TlbCoherent (pgdir : Nat) (m : Machine) : Prop :=
  ∀ p ∈ m.tlb, pte m.kernel pgdir p.1.val = p.2

section Calls
variable {pgdir : Nat} {s t : Kernel} {c : Call}

/-- The effects of a call lead to the state the call leaves. -/
theorem replay_call (run : c.run pgdir s = .ok t) :
    ∃ effects, c.effects pgdir s = .ok effects ∧ (mmu pgdir).replay s effects = t := by
  cases c with
  | pageAlloc allocZero =>
    obtain ⟨⟨r,u⟩,alloc,rfl⟩ := map_ok run
    exact ⟨_, rfl, (replay_pageAlloc pgdir alloc).1⟩
  | pageInsert pp va perm =>
    obtain ⟨⟨r,u⟩,insert,rfl⟩ := map_ok run
    exact replay_pageInsert insert
  | pageRemove va => exact replay_pageRemove run
  | monSetperm argv =>
    obtain ⟨⟨r,u⟩,set,rfl⟩ := map_ok run
    exact replay_monSetperm set

end Calls

section Steps
variable {managed : Nat → Prop} {pgdir : Nat} {origin s : Kernel} {c : Call}

theorem setperm_accounted (acc : Accounted managed pgdir none s) {n : Nat} (user : n < userPages)
    (here : present (pde s pgdir (n / NPTENTRIES)) = true) {newPrem : Int} (bound : newPrem ≤ 0x100)
    (positive : 0 ≤ newPrem)
    (kept : present (unsigned newPrem) = true → present (pte s pgdir n) = true) :
    Accounted managed pgdir none (s.store (entryLoc s pgdir n) (pte s pgdir n ||| unsigned newPrem)) := by
  have low : unsigned newPrem < PGSIZE := by
    unfold unsigned PGSIZE
    omega
  refine reword_accounted acc user here ?_ (fun _ => frame_or_flags _ _ low)
  rw [Bool.eq_iff_iff, present_iff, Nat.or_mod_two_eq_one, ← present_iff, ← present_iff]
  exact ⟨fun either => either.elim id kept, Or.inl⟩

/-- What a call leaves, with the order of its effects. -/
structure Outcome (origin : Kernel) (pgdir : Nat) (c : Call) (s : Kernel) (effects : List Effect) : Prop where
  run : c.run pgdir s = .ok ((mmu pgdir).replay s effects)
  orderly : (mmu pgdir).Orderly (fun n => c.exposed = some n.val) (fun _ => False) s effects
  accounted : Accounted (OnFreeList origin) pgdir none ((mmu pgdir).replay s effects)
  upper : Upper (OnFreeList origin) pgdir ((mmu pgdir).replay s effects)

theorem allocated_taken {held : Option Nat} (acc : Accounted managed pgdir held s) {p : Nat}
    (head : s.pageFreeList = some p) (contents : Nat → Nat) : ¬ OnFreeList (allocated s p contents) p := by
  intro on
  exact (((take_head_list acc head).2 p).mp on).2 rfl

theorem pageAlloc_outcome (acc : Accounted (OnFreeList origin) pgdir none s)
    (upper : Upper (OnFreeList origin) pgdir s) (allocZero : Bool) :
    Outcome origin pgdir (.pageAlloc allocZero) s (pageAllocEffects s allocZero) := by
  have orderly := orderly_pageAlloc acc upper allocZero
  have exposed : (fun n : Vpn => (Call.pageAlloc allocZero).exposed = some n.val) = fun _ => False := by
    funext n
    simp [Call.exposed]
  obtain ⟨empty,run⟩ | ⟨p,contents,head,_,run⟩ := pageAlloc_spec acc allocZero
  · have replayed := (replay_pageAlloc pgdir run).1
    exact ⟨by rw [Call.run, run, replayed]; rfl, exposed ▸ orderly, replayed.symm ▸ acc, replayed.symm ▸ upper⟩
  · have replayed := (replay_pageAlloc pgdir run).1
    have notDir : pgdir ≠ p := fun same =>
      acc.directory_unmanaged (same ▸ managed_of_free acc (head_on_free_list acc head))
    refine ⟨by rw [Call.run, run, replayed]; rfl, exposed ▸ orderly, ?_, ?_⟩
    · rw [replayed]
      exact (take_head_accounted acc head contents).1
    · rw [replayed]
      exact upper.congr fun d _ => by simp [pde, allocated, notDir]

theorem pageInsert_outcome (acc : Accounted (OnFreeList origin) pgdir none s)
    (upper : Upper (OnFreeList origin) pgdir s) {pp va perm : Nat}
    (legal : LegalCall origin s (.pageInsert pp va perm)) (few : ∀ p, refs s pgdir p ≤ 65535) :
    ∃ effects, pageInsertEffects s pgdir pp va perm = .ok effects ∧
      Outcome origin pgdir (.pageInsert pp va perm) s effects := by
  obtain ⟨user,low,own,taken⟩ := legal
  have risk : (fun n : Vpn => (Call.pageInsert pp va perm).exposed = some n.val) = fun n => n.val = uvptPage va := by
    funext n
    simp [Call.exposed, eq_comm]
  have kept : ∀ effects, pageInsertEffects s pgdir pp va perm = .ok effects →
      (mmu pgdir).Orderly (fun n => (Call.pageInsert pp va perm).exposed = some n.val) (fun _ => False) s effects ∧
      Upper (OnFreeList origin) pgdir ((mmu pgdir).replay s effects) := by
    intro effects listed
    obtain ⟨orderly,dir⟩ := orderly_pageInsert acc upper user own taken low (fun p _ => few p) listed
    rw [risk]
    refine ⟨orderly, upper.congr fun d high => dir d ?_⟩
    have := pdx_lt_user va user
    omega
  obtain run | ⟨t,run,accT⟩ := pageInsert_spec acc user own taken low (fun p _ => few p)
  · obtain ⟨effects,listed,replayed⟩ := replay_pageInsert run
    exact ⟨effects, listed, by rw [Call.run, run, replayed]; rfl, (kept _ listed).1, replayed.symm ▸ acc,
      (kept _ listed).2⟩
  · obtain ⟨effects,listed,replayed⟩ := replay_pageInsert run
    exact ⟨effects, listed, by rw [Call.run, run, replayed]; rfl, (kept _ listed).1, replayed.symm ▸ accT,
      (kept _ listed).2⟩

theorem pageRemove_outcome (acc : Accounted (OnFreeList origin) pgdir none s)
    (upper : Upper (OnFreeList origin) pgdir s) {va : Nat} (user : va < UTOP)
    (few : ∀ p, refs s pgdir p ≤ 65535) :
    ∃ effects, pageRemoveEffects s pgdir va = .ok effects ∧ Outcome origin pgdir (.pageRemove va) s effects := by
  have exposed : (fun n : Vpn => (Call.pageRemove va).exposed = some n.val) = fun _ => False := by
    funext n
    simp [Call.exposed]
  obtain ⟨t,run,accT,dir,_⟩ := pageRemove_spec acc user (fun p _ => few p)
  obtain ⟨effects,listed,replayed⟩ := replay_pageRemove run
  refine ⟨effects, listed, by rw [Call.run, run, replayed], exposed ▸ orderly_pageRemove acc upper user listed,
    replayed.symm ▸ accT, ?_⟩
  rw [replayed]
  exact upper.congr fun d _ => dir d

theorem monSetperm_outcome (acc : Accounted (OnFreeList origin) pgdir none s)
    (upper : Upper (OnFreeList origin) pgdir s) {argv : List String}
    (legal : LegalCall origin s (.monSetperm argv)) (careful : CarefulCall pgdir s (.monSetperm argv)) :
    ∃ effects, monSetpermEffects s pgdir argv = .ok effects ∧
      Outcome origin pgdir (.monSetperm argv) s effects := by
  have risk : (fun n : Vpn => (Call.monSetperm argv).exposed = some n.val) =
      fun n => n.val = pgnum (unsigned (setpermStart argv)) := by
    funext n
    simp [Call.exposed, eq_comm]
  have inside := pgnum_lt_user _ legal
  obtain ⟨text,run⟩ | ⟨args,bound,here,text,run⟩ := monSetperm_spec acc legal
  · obtain ⟨effects,listed,replayed⟩ := replay_monSetperm run
    have orderly := orderly_monSetperm acc upper legal listed
    exact ⟨effects, listed, by rw [Call.run, run, replayed]; rfl, risk ▸ orderly, replayed.symm ▸ acc,
      replayed.symm ▸ upper⟩
  · obtain ⟨effects,listed,replayed⟩ := replay_monSetperm run
    have orderly := orderly_monSetperm acc upper legal listed
    obtain ⟨positive,flag⟩ := careful args bound
    have slot : present (pde s pgdir (pgnum (unsigned (setpermStart argv)) / NPTENTRIES)) = true := by
      rwa [pgnum_div_eq_pdx _ legal]
    refine ⟨effects, listed, by rw [Call.run, run, replayed]; rfl, risk ▸ orderly, ?_, ?_⟩
    · rw [replayed]
      exact setperm_accounted acc inside slot bound positive flag
    · rw [replayed]
      exact upper.congr fun d _ => pde_store_entry acc inside slot _ d

theorem call_outcome (acc : Accounted (OnFreeList origin) pgdir none s)
    (upper : Upper (OnFreeList origin) pgdir s) (legal : LegalCall origin s c) (careful : CarefulCall pgdir s c) :
    ∃ effects, c.effects pgdir s = .ok effects ∧ Outcome origin pgdir c s effects := by
  cases c with
  | pageAlloc allocZero => exact ⟨_, rfl, pageAlloc_outcome acc upper allocZero⟩
  | pageInsert pp va perm => exact pageInsert_outcome acc upper legal careful
  | pageRemove va => exact pageRemove_outcome acc upper legal careful
  | monSetperm argv => exact monSetperm_outcome acc upper legal careful

end Steps

section Runs
variable {pgdir : Nat} {origin : Kernel} {m n : Machine}

def Machine.exposed (m : Machine) (n : Vpn) : Prop := m.running.bind Call.exposed = some n.val

/-- Between calls the kernel is accounted for, and during a call it will be. -/
structure TlbInv (origin : Kernel) (pgdir : Nat) (m : Machine) : Prop where
  accounted : Accounted (OnFreeList origin) pgdir none ((mmu pgdir).replay m.kernel m.pending)
  upper : Upper (OnFreeList origin) pgdir ((mmu pgdir).replay m.kernel m.pending)
  coherent : ∃ stale, (mmu pgdir).Orderly m.exposed stale m.kernel m.pending ∧
    (mmu pgdir).Coherent stale m.kernel m.tlb

theorem tlbInv_start (installed : Installed pgdir origin) : TlbInv origin pgdir ⟨origin, [], none, []⟩ :=
  ⟨installed.accounted, installed.upper, fun _ => False, .done fun _ no => no, fun p mem => by simp at mem⟩

theorem tlbInv_next {e : Event} (inv : TlbInv origin pgdir m) (legal : Legal origin m e)
    (careful : Careful pgdir m e) (run : nextMachine pgdir m e = some n) : TlbInv origin pgdir n := by
  obtain ⟨stale,orderly,coherent⟩ := inv.coherent
  cases e with
  | fill k =>
    simp only [nextMachine, Option.ite_none_right_eq_some, Option.some.injEq] at run
    obtain ⟨here,rfl⟩ := run
    exact ⟨inv.accounted, inv.upper, stale, orderly, Device.coherent_fill coherent here⟩
  | call c =>
    simp only [nextMachine] at run
    split at run
    · rename_i idle listed
      cases run
      have before := inv.accounted
      have half := inv.upper
      rw [idle] at before half orderly
      obtain ⟨again,same,out⟩ := call_outcome before half legal careful
      have eq : again = _ := Except.ok.inj (same.symm.trans listed)
      subst eq
      refine ⟨out.accounted, out.upper, fun _ => False, out.orderly, ?_⟩
      -- between calls nothing is stale
      cases orderly with
      | done none => exact fun p mem _ => coherent p mem (none p.1)
    · cases run
  | advance =>
    simp only [nextMachine] at run
    split at run
    · cases run
    · rename_i e rest pending
      cases run
      have after := inv.accounted
      have half := inv.upper
      rw [pending] at after half orderly
      obtain ⟨later,ordered,kept⟩ := orderly.step coherent fun done p mem exposed => by
        rw [done] at pending
        rcases careful e pending with same | never
        · exact keeps_mem same p.1
        · exact absurd exposed (never p mem)
      exact ⟨after, half, later, ordered, kept⟩

/-- In runs where no write of `setperm`, and no new permission of a directory entry, changes
    the entry of a page that is cached, the TLB is coherent whenever no call is in progress. -/
theorem tlb_coherent (installed : Installed pgdir origin)
    (reach : (tlbSystem pgdir origin).Reach (fun m e => Legal origin m e ∧ Careful pgdir m e) m)
    (idle : m.pending = []) : TlbCoherent pgdir m := by
  have inv : TlbInv origin pgdir m := System.reach_invariant (tlbSystem pgdir origin)
    (fun m start => by rw [show m = _ from start]; exact tlbInv_start installed)
    (fun _ _ _ before ok step => tlbInv_next before ok.1 ok.2 step) reach
  obtain ⟨stale,orderly,coherent⟩ := inv.coherent
  rw [idle] at orderly
  cases orderly with
  | done none => exact fun p mem => (coherent p mem (none p.1)).2

/-- While nothing is cached a call may go on to its end. -/
theorem reach_finish {allowed : Machine → Event → Prop}
    (fine : ∀ m, m.tlb = [] → allowed m .advance) (effects : List Effect) {s : Kernel} {running : Option Call}
    (reach : (tlbSystem pgdir origin).Reach allowed ⟨s, [], running, effects⟩) :
    (tlbSystem pgdir origin).Reach allowed ⟨(mmu pgdir).replay s effects, [], running, []⟩ := by
  induction effects generalizing s with
  | nil => exact reach
  | cons e rest ih => exact ih (.step .advance reach (fine _ rfl) rfl)

theorem careful_empty (m : Machine) (empty : m.tlb = []) : Legal origin m .advance ∧ Careful pgdir m .advance := by
  refine ⟨trivial, fun e _ => Or.inr fun p mem => ?_⟩
  rw [empty] at mem
  simp at mem

theorem reach_call {s : Kernel} {running : Option Call} {c : Call} {effects : List Effect}
    (reach : (tlbSystem pgdir origin).Reach (fun m e => Legal origin m e ∧ Careful pgdir m e) ⟨s, [], running, []⟩)
    (legal : LegalCall origin s c) (careful : CarefulCall pgdir s c) (listed : c.effects pgdir s = .ok effects) :
    (tlbSystem pgdir origin).Reach (fun m e => Legal origin m e ∧ Careful pgdir m e)
      ⟨(mmu pgdir).replay s effects, [], some c, []⟩ := by
  refine reach_finish careful_empty effects (.step (.call c) reach ⟨legal,careful⟩ ?_)
  simp only [tlbSystem, nextMachine, listed]

end Runs

/-- A directory with itself at `UVPT` and nothing else, over the pages `page_init` freed. -/
theorem start_installed {b : Boot} {s : Kernel} (start : Start b s)
    (self : ∀ d, userPdes ≤ d → present (pde s b.pgdir d) = true →
      d = pdx UVPT ∧ frame (pde s b.pgdir d) = b.pgdir) : Installed b.pgdir s :=
  ⟨(start_accounted start).1, fun d high _ here => Or.inl (self d high here)⟩

section Small

def uvptMem : Nat → Nat → Nat := fun p i =>
  if p = smallBoot.pgdir ∧ i = pdx UVPT then page2pa smallBoot.pgdir ||| PTE_U ||| PTE_P else 0

def uvptStart : Kernel := pageInit smallBoot uvptMem fun _ => none

theorem uvpt_boot : Start smallBoot uvptStart := by
  refine ⟨uvptMem, fun _ => none, fun d user => ?_, rfl⟩
  have away : d ≠ pdx UVPT := by
    rw [user_pdes_eq] at user
    have : pdx UVPT = 957 := by decide
    omega
  simp [uvptMem, away, not_present_zero]

theorem uvpt_installed : Installed smallBoot.pgdir uvptStart := by
  refine start_installed uvpt_boot fun d _ here => ?_
  have word : pde uvptStart smallBoot.pgdir d = uvptMem smallBoot.pgdir d := by
    rw [pde, uvptStart, pageInit_mem]
  rw [word] at here ⊢
  by_cases self : d = pdx UVPT
  · subst self
    exact ⟨rfl, by decide⟩
  · simp [uvptMem, self, not_present_zero] at here

def takenKernel : Kernel := (mmu smallBoot.pgdir).replay uvptStart (pageAllocEffects uvptStart false)

def insertCall : Call := .pageInsert 257 0 PTE_W

def insertedKernel : Kernel :=
  (mmu smallBoot.pgdir).replay takenKernel ((insertCall.effects smallBoot.pgdir takenKernel).toOption.getD [])

/-- Page 257 is the first that is handed out, and is entered for page 0. -/
theorem inserted_first : uvptStart.pageFreeList = some 257 ∧
    present (pte insertedKernel smallBoot.pgdir 0) = true ∧ frame (pte insertedKernel smallBoot.pgdir 0) = 257 ∧
    present (pte insertedKernel smallBoot.pgdir 979968) = true := by
  decide +kernel

theorem taken_kernel : Accounted (OnFreeList uvptStart) smallBoot.pgdir none takenKernel ∧
    Upper (OnFreeList uvptStart) smallBoot.pgdir takenKernel ∧ (∀ p, refs takenKernel smallBoot.pgdir p ≤ 65535) ∧
    OnFreeList uvptStart 257 ∧ ¬ OnFreeList takenKernel 257 := by
  obtain ⟨acc,none⟩ := start_accounted uvpt_boot
  have head := inserted_first.1
  have out := pageAlloc_outcome uvpt_installed.accounted uvpt_installed.upper false
  obtain ⟨empty,_⟩ | ⟨p,contents,found,_,run⟩ := pageAlloc_spec acc false
  · rw [head] at empty
    simp at empty
  have same : takenKernel = allocated uvptStart p contents := (replay_pageAlloc smallBoot.pgdir run).1
  have page : p = 257 := by simpa using found.symm.trans head
  subst page
  obtain ⟨_,dir,entries⟩ := take_head_accounted acc found contents
  refine ⟨out.accounted, out.upper, fun q => ?_, head_on_free_list acc found, fun on => ?_⟩
  · rw [same, refs_congr dir entries, none q]
    exact Nat.zero_le _
  · rw [same] at on
    exact allocated_taken acc found contents on

theorem inserted_reach : (tlbSystem smallBoot.pgdir uvptStart).Reach (fun m e => Legal uvptStart m e ∧ Careful smallBoot.pgdir m e)
    ⟨insertedKernel, [], some insertCall, []⟩ ∧ ¬ OnFreeList insertedKernel 257 := by
  obtain ⟨acc,upper,few,own,taken⟩ := taken_kernel
  have legal : LegalCall uvptStart takenKernel insertCall := ⟨by decide, by decide, own, taken⟩
  obtain ⟨effects,listed,out⟩ := call_outcome acc upper legal few
  have kernel : insertedKernel = (mmu smallBoot.pgdir).replay takenKernel effects := by
    rw [insertedKernel, listed]
    rfl
  have first : (tlbSystem smallBoot.pgdir uvptStart).Reach
      (fun m e => Legal uvptStart m e ∧ Careful smallBoot.pgdir m e) ⟨takenKernel, [], some (.pageAlloc false), []⟩ :=
    reach_call (.start rfl) trivial trivial rfl
  refine ⟨kernel ▸ reach_call first legal few listed, ?_⟩
  obtain ⟨_,there,page,_⟩ := inserted_first
  rw [← page]
  rw [kernel] at there ⊢
  exact (out.accounted.frames_taken 0 (by rw [user_pages_eq]; omega) there).2

/-- What is cached of a machine, for concrete runs. -/
def Machine.fill (m : Machine) (n : Vpn) : Machine :=
  { m with tlb := (n, pte m.kernel smallBoot.pgdir n.val) :: m.tlb }

theorem reach_fill {allowed : Machine → Event → Prop} {m : Machine} (free : ∀ m n, allowed m (.fill n))
    (reach : (tlbSystem smallBoot.pgdir uvptStart).Reach allowed m) (n : Vpn)
    (here : present (pte m.kernel smallBoot.pgdir n.val) = true) :
    (tlbSystem smallBoot.pgdir uvptStart).Reach allowed (m.fill n) := by
  refine .step (.fill n) reach (free m n) ?_
  simp only [tlbSystem, nextMachine, here, ↓reduceIte]
  rfl

def insertedMachine : Machine := ⟨insertedKernel, [], some insertCall, []⟩

theorem inserted_present (n : Vpn) (either : n.val = 0 ∨ n.val = 979968) :
    present (pte insertedMachine.kernel smallBoot.pgdir n.val) = true := by
  obtain ⟨_,first,_,last⟩ := inserted_first
  have kernel : insertedMachine.kernel = insertedKernel := by simp only [insertedMachine]
  rcases either with zero | window
  · rw [kernel, zero]
    exact first
  · rw [kernel, window]
    exact last

/-- Page 0 is inserted and cached. -/
theorem tlb_coherent_filled : (insertedMachine.fill 0).tlb.length = 1 ∧
    TlbCoherent smallBoot.pgdir (insertedMachine.fill 0) :=
  ⟨rfl, tlb_coherent uvpt_installed
    (reach_fill (fun _ _ => ⟨trivial,trivial⟩) inserted_reach.1 0 (inserted_present 0 (Or.inl rfl))) rfl⟩

/-- A call and all its effects. -/
def runCall (m : Machine) (c : Call) : Option Machine :=
  System.exec (nextMachine smallBoot.pgdir) m
    (.call c :: List.replicate ((c.effects smallBoot.pgdir m.kernel).toOption.getD []).length .advance)

theorem reach_runCall {m : Machine} (c : Call)
    (reach : (tlbSystem smallBoot.pgdir uvptStart).Reach (fun m e => Legal uvptStart m e) m)
    (legal : LegalCall uvptStart m.kernel c) {t : Machine}
    (run : runCall m c = some t) :
    (tlbSystem smallBoot.pgdir uvptStart).Reach (fun m e => Legal uvptStart m e) t := by
  simp only [runCall, System.exec, Option.bind_eq_some_iff] at run
  obtain ⟨u,first,rest⟩ := run
  refine System.exec_reach _ (fun a mem s => ?_) (.step (.call c) reach legal first) rest
  rw [(List.mem_replicate.mp mem).2]
  trivial

def setpermRun : Option Machine :=
  runCall (insertedMachine.fill 0) (.monSetperm ["setperm", "0", "4"])

def globalRun : Option Machine :=
  runCall (insertedMachine.fill 979968) (.pageInsert 257 0 PTE_G)

/-- A pair that is cached and is not the entry of its page. -/
def stalePairs (m : Machine) : List (Vpn × Nat) :=
  m.tlb.filter fun p => pte m.kernel smallBoot.pgdir p.1.val ≠ p.2

theorem not_coherent {m : Machine} (some : stalePairs m ≠ []) : ¬ TlbCoherent smallBoot.pgdir m := by
  intro coherent
  obtain ⟨p,mem⟩ := List.exists_mem_of_ne_nil _ some
  simp only [stalePairs, List.mem_filter, decide_eq_true_eq] at mem
  exact mem.2 (coherent p mem.1)

/-- `setperm 0 4` leaves the old entry of page 0 in the TLB, and a second insertion of the
    page with a further permission leaves the old directory entry there. -/
theorem stale_pair : Installed smallBoot.pgdir uvptStart ∧
    (∃ m, (tlbSystem smallBoot.pgdir uvptStart).Reach (fun m e => Legal uvptStart m e) m ∧
      setpermRun = some m ∧ m.pending = [] ∧ ¬ TlbCoherent smallBoot.pgdir m) ∧
    ∃ m, (tlbSystem smallBoot.pgdir uvptStart).Reach (fun m e => Legal uvptStart m e) m ∧
      globalRun = some m ∧ m.pending = [] ∧ ¬ TlbCoherent smallBoot.pgdir m := by
  obtain ⟨reach,taken⟩ := inserted_reach
  have inserted : (tlbSystem smallBoot.pgdir uvptStart).Reach (fun m e => Legal uvptStart m e) insertedMachine :=
    reach.mono fun _ _ ok => ok.1
  have cached := reach_fill (fun _ _ => trivial) inserted
  have set : (setpermRun.map fun m => (m.pending, stalePairs m)) =
      some ([], [(0, 257 * PGSIZE ||| PTE_P ||| PTE_W)]) := by decide +kernel
  have again : (globalRun.map fun m => (m.pending, (stalePairs m).length)) = some ([], 1) := by decide +kernel
  obtain ⟨m,ran,stale⟩ := Option.map_eq_some_iff.mp set
  obtain ⟨n,second,left⟩ := Option.map_eq_some_iff.mp again
  simp only [Prod.mk.injEq] at stale left
  have legal : LegalCall uvptStart insertedKernel (.pageInsert 257 0 PTE_G) :=
    ⟨by decide, by decide, taken_kernel.2.2.2.1, taken⟩
  have low : unsigned (setpermStart ["setperm", "0", "4"]) < UTOP := by decide
  refine ⟨uvpt_installed, ⟨m, ?_, ran, stale.1, not_coherent (by rw [stale.2]; simp)⟩,
    n, ?_, second, left.1, not_coherent (List.ne_nil_of_length_pos (by rw [left.2]; omega))⟩
  · exact reach_runCall (.monSetperm ["setperm", "0", "4"]) (cached 0 (inserted_present 0 (Or.inl rfl))) low ran
  · exact reach_runCall (.pageInsert 257 0 PTE_G) (cached 979968 (inserted_present 979968 (Or.inr (by decide))))
      (by simpa only [Machine.fill, insertedMachine] using legal) second

end Small
end JosPmap
