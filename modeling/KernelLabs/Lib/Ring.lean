import Mathlib.Data.List.Nodup
import Mathlib.Logic.Function.Iterate

/- Circular lists linked both ways through two link maps, with a head that is no element
   of the list. -/
namespace Ring
variable {ν : Type} {step next prev : ν → ν} {a b c z head : ν} {l front back : List ν}

/-- From `a` the links lead through the nodes of the list to `z`. -/
def Path (step : ν → ν) : ν → List ν → ν → Prop
  | a, [], z => step a = z
  | a, x :: l, z => step a = x ∧ Path step x l z

theorem path_append : Path step a (front ++ b :: back) z ↔ Path step a front b ∧ Path step b back z := by
  induction front generalizing a with
  | nil => rfl
  | cons x front ih => exact (and_congr_right fun _ => ih).trans and_assoc.symm

theorem path_step : Path step a l z → step a = (l ++ [z]).head (by simp) := by
  cases l with
  | nil => exact id
  | cons x l => exact And.left

/-- A node of a path and what comes before and after it. -/
theorem split_at {x : ν} (member : x ∈ a :: l) : ∃ front back, l = front ++ back ∧ (a :: front).getLast (by simp) = x := by
  induction l generalizing a with
  | nil =>
    rw [List.mem_singleton] at member
    exact ⟨[], [], rfl, member.symm⟩
  | cons y l ih =>
    rcases List.mem_cons.mp member with rfl | member
    · exact ⟨[], y :: l, rfl, rfl⟩
    · obtain ⟨front,back,rfl,last⟩ := ih member
      refine ⟨y :: front, back, rfl, ?_⟩
      rw [List.getLast_cons (by simp)]
      exact last

theorem path_split (path : Path step a (front ++ back) z) :
    (∃ y, Path step a front y) ∧ Path step ((a :: front).getLast (by simp)) back z := by
  induction front generalizing a with
  | nil => exact ⟨⟨_, rfl⟩, path⟩
  | cons x front ih =>
    obtain ⟨⟨y,first⟩,rest⟩ := ih path.2
    refine ⟨⟨y, path.1, first⟩, ?_⟩
    rw [List.getLast_cons (by simp)]
    exact rest

theorem path_end (path : Path step a l z) : step^[l.length + 1] a = z := by
  induction l generalizing a with
  | nil => exact path
  | cons x l ih =>
    rw [List.length_cons, Function.iterate_succ_apply, path.1]
    exact ih path.2

theorem path_reach (path : Path step a l z) {x : ν} (member : x ∈ a :: l) : ∃ k ≤ l.length, step^[k] a = x := by
  induction l generalizing a with
  | nil =>
    rw [List.mem_singleton] at member
    exact ⟨0, Nat.le_refl 0, member.symm⟩
  | cons y l ih =>
    rcases List.mem_cons.mp member with rfl | member
    · exact ⟨0, Nat.zero_le _, rfl⟩
    · obtain ⟨k,low,there⟩ := ih path.2 member
      refine ⟨k + 1, Nat.succ_le_succ low, ?_⟩
      rw [Function.iterate_succ_apply, path.1]
      exact there

/-- Around a closed path every node is reached from every node. -/
theorem closed_reach (path : Path step a l a) {x y : ν} (source : x ∈ a :: l) (target : y ∈ a :: l) :
    ∃ k ≤ 2 * l.length + 1, step^[k] x = y := by
  obtain ⟨front,back,rfl,rfl⟩ := split_at source
  have home := path_end (path_split path).2
  obtain ⟨k,low,there⟩ := path_reach path target
  refine ⟨k + (back.length + 1), ?_, ?_⟩
  · rw [List.length_append] at low ⊢
    omega
  · rw [Function.iterate_add_apply, home]
    exact there

/-- The links stay on a closed path. -/
theorem closed_step (path : Path step a l a) {x : ν} (member : x ∈ a :: l) : step x ∈ a :: l := by
  obtain ⟨front,back,rfl,rfl⟩ := split_at member
  have here := path_step (path_split path).2
  rw [here]
  have next := List.head_mem (show back ++ [a] ≠ [] by simp)
  rcases List.mem_append.mp next with inBack | last
  · exact List.mem_cons_of_mem a (List.mem_append_right front inBack)
  · rw [List.mem_singleton.mp last]
    exact List.mem_cons_self

variable [DecidableEq ν]

theorem path_update (other : b ∉ a :: l) (c : ν) (path : Path step a l z) : Path (Function.update step b c) a l z := by
  induction l generalizing a with
  | nil =>
    have apart : a ≠ b := fun same => other (same ▸ List.mem_cons_self)
    exact (Function.update_of_ne apart c step).trans path
  | cons x l ih =>
    have apart : a ≠ b := fun same => other (same ▸ List.mem_cons_self)
    refine ⟨?_, ih (fun member => other (List.mem_cons_of_mem a member)) path.2⟩
    exact (Function.update_of_ne apart c step).trans path.1

/-- The last link of a path is set to lead elsewhere. -/
theorem path_retarget (names : (a :: l).Nodup) (path : Path step a l z) :
    Path (Function.update step ((a :: l).getLast (by simp)) c) a l c := by
  induction l generalizing a with
  | nil => exact Function.update_self a c step
  | cons x l ih =>
    have outside := (List.nodup_cons.mp names).1
    have last : (a :: x :: l).getLast (by simp) = (x :: l).getLast (by simp) := List.getLast_cons (by simp)
    have apart : a ≠ (x :: l).getLast (by simp) := fun same => outside (same ▸ List.getLast_mem _)
    rw [last]
    refine ⟨?_, ih (List.nodup_cons.mp names).2 path.2⟩
    exact (Function.update_of_ne apart c step).trans path.1

/-- A path starts elsewhere, with the link its start had. -/
theorem path_restart (other : b ∉ l) (path : Path step a l z) : Path (Function.update step b (step a)) b l z := by
  have start : Function.update step b (step a) b = step a := Function.update_self b _ step
  cases l with
  | nil => exact start.trans path
  | cons x l => exact ⟨start.trans path.1, path_update other _ path.2⟩

/-- `next` and `prev` lead around the list in the two directions. -/
structure Linked (next prev : ν → ν) (head : ν) (l : List ν) : Prop where
  forward : Path next head l head
  backward : Path prev head l.reverse head
  names : (head :: l).Nodup

omit [DecidableEq ν] in
theorem Linked.empty (next_head : next head = head) (prev_head : prev head = head) : Linked next prev head [] :=
  ⟨next_head, prev_head, List.nodup_singleton head⟩

omit [DecidableEq ν] in
theorem Linked.symm (ring : Linked next prev head l) : Linked prev next head l.reverse := by
  refine ⟨ring.backward, ?_, ?_⟩
  · rw [List.reverse_reverse]
    exact ring.forward
  · obtain ⟨outside,names⟩ := List.nodup_cons.mp ring.names
    exact List.nodup_cons.mpr ⟨fun member => outside (List.mem_reverse.mp member), List.nodup_reverse.mpr names⟩

omit [DecidableEq ν] in
theorem Linked.first (ring : Linked next prev head l) : next head = (head :: l.reverse).getLast (by simp) := by
  rw [path_step ring.forward]
  cases l with
  | nil => rfl
  | cons x l => simp

/-- The writes that put a node in front. -/
theorem Linked.push (ring : Linked next prev head l) (new : b ∉ head :: l) :
    Linked (Function.update (Function.update next b (next head)) head b)
      (Function.update (Function.update prev b head) (next head) b) head (b :: l) := by
  obtain ⟨outside,names⟩ := List.nodup_cons.mp ring.names
  have apart : head ≠ b := fun same => new (same ▸ List.mem_cons_self)
  have fresh : b ∉ l := fun member => new (List.mem_cons_of_mem head member)
  have firstIn : next head ∈ head :: l := by
    rw [ring.first]
    have member := List.getLast_mem (show head :: l.reverse ≠ [] by simp)
    rwa [List.mem_cons, List.mem_reverse, ← List.mem_cons] at member
  have other : b ≠ next head := fun same => new (same ▸ firstIn)
  refine ⟨⟨?_, ?_⟩, ?_, ?_⟩
  · rw [Function.update_self]
  · refine path_update (fun member => ?_) b (path_restart fresh ring.forward)
    rcases List.mem_cons.mp member with same | member
    · exact apart same
    · exact outside member
  · rw [List.reverse_cons]
    refine path_append.mpr ⟨?_, ?_⟩
    · rw [Function.update_comm other, ring.first]
      refine path_update ?_ _ (path_retarget ?_ ring.backward)
      · simpa using new
      · exact ring.symm.names
    · change Function.update (Function.update prev b head) (next head) b b = head
      rw [Function.update_of_ne other, Function.update_self]
  · refine List.nodup_cons.mpr ⟨fun member => ?_, List.nodup_cons.mpr ⟨fresh, names⟩⟩
    rcases List.mem_cons.mp member with same | member
    · exact apart same
    · exact outside member

/-- The write that takes a node out in one direction. -/
theorem path_remove (names : (a :: (front ++ b :: back)).Nodup) (path : Path step a (front ++ b :: back) z) :
    Path (Function.update step ((a :: front).getLast (by simp)) (step b)) a (front ++ back) z := by
  obtain ⟨before,after⟩ := path_append.mp path
  rw [List.nodup_cons, List.nodup_append, List.nodup_cons] at names
  obtain ⟨outside,frontNames,⟨_,backNames⟩,disjoint⟩ := names
  have start : (a :: front).Nodup := List.nodup_cons.mpr ⟨fun member => outside (List.mem_append_left _ member), frontNames⟩
  have joined := path_retarget (c := step b) start before
  cases back with
  | nil =>
    rw [List.append_nil]
    rwa [show step b = z from after] at joined ⊢
  | cons x back =>
    rw [show step b = x from after.1] at joined ⊢
    refine path_append.mpr ⟨joined, path_update (fun member => ?_) x after.2⟩
    rcases List.mem_cons.mp (List.getLast_mem (show a :: front ≠ [] by simp)) with same | inFront
    · rw [same] at member
      exact outside (List.mem_append_right _ (List.mem_cons_of_mem b member))
    · exact disjoint _ inFront _ (List.mem_cons_of_mem b member) rfl

theorem path_unlink (forward : Path next head (front ++ b :: back) head) (backward : Path prev head (back.reverse ++ b :: front.reverse) head)
    (names : (head :: (front ++ b :: back)).Nodup) :
    Path (Function.update next (prev b) (next b)) head (front ++ back) head := by
  have last : prev b = (head :: front).getLast (by simp) := by
    rw [path_step (path_append.mp backward).2]
    have reversed : front.reverse ++ [head] = (head :: front).reverse := List.reverse_cons.symm
    simp only [reversed, List.head_reverse]
  rw [last]
  exact path_remove names forward

/-- The writes that take a node out. -/
theorem Linked.unlink (ring : Linked next prev head (front ++ b :: back)) :
    Linked (Function.update next (prev b) (next b)) (Function.update prev (next b) (prev b)) head (front ++ back) := by
  have backward := ring.backward
  rw [List.reverse_append, List.reverse_cons, List.append_assoc, List.singleton_append] at backward
  refine ⟨path_unlink ring.forward backward ring.names, ?_, ?_⟩
  · rw [List.reverse_append]
    refine path_unlink backward ?_ ?_
    · rw [List.reverse_reverse, List.reverse_reverse]
      exact ring.forward
    · have names := ring.symm.names
      rwa [List.reverse_append, List.reverse_cons, List.append_assoc, List.singleton_append] at names
  · refine List.Nodup.sublist ?_ ring.names
    exact List.Sublist.cons_cons head (List.Sublist.append_left (List.sublist_cons_self b back) front)

end Ring
