import KernelLabs.Lib.Lines
import KernelLabs.Xv6.GrepMatch

/-!
How `grep` reads its input. Each read adds to what the buffer holds of an unfinished line; the lines
that are then complete are matched and written, and the rest is moved to the front of the buffer.
-/
namespace Xv6Grep
open Lines

/-- The size of `buf`. -/
def BUF : Nat := 1024

def newline : BitVec 8 := 10#8

section Reader

/-- `strchr(s, c)`, for the bytes of `s` in front of the NUL that is put behind them. -/
def strchr (c : BitVec 8) : Text → Option Nat
  | [] => none
  | b :: s => if b = 0#8 then none else if b = c then some 0 else (strchr c s).map (· + 1)

theorem strchr_lt {c : BitVec 8} {s : Text} {q : Nat} (found : strchr c s = some q) : q < s.length := by
  induction s generalizing q with
  | nil => cases found
  | cons b s ih =>
    rw [strchr] at found
    rw [List.length_cons]
    split at found
    · cases found
    · split at found
      · cases found
        exact Nat.succ_pos _
      · obtain ⟨r,later,rfl⟩ := Option.map_eq_some_iff.mp found
        exact Nat.succ_lt_succ (ih later)

/-- The inner loop, from `p` on: what it writes, and what is left when it finds no newline. -/
def scan (pattern p : Text) : List Text × Text :=
  match found : strchr newline p with
  | none => ([], p)
  | some q =>
    let later := scan pattern (p.drop (q + 1))
    (if matchText pattern (p.take q) then p.take (q + 1) :: later.1 else later.1, later.2)
termination_by p.length
decreasing_by
  have inside := strchr_lt found
  rw [List.length_drop]
  omega

/-- The outer loop with `m` in the buffer: a read gets `got`, which is never empty and has at most
    `sizeof(buf)-m-1` bytes. Where no newline was found, nothing is kept. -/
def pass (pattern m got : Text) : List Text × Text :=
  let buf := m ++ got
  let (writes, p) := scan pattern buf
  (writes, if p.length = buf.length then [] else p)

/-- What `grep` writes when its reads get `reads`. -/
def grep (pattern m : Text) : List Text → List Text
  | [] => []
  | got :: reads => (pass pattern m got).1 ++ grep pattern (pass pattern m got).2 reads

/-- What the buffer holds after the reads. -/
def buffer (pattern : Text) (reads : List Text) : Text := reads.foldl (fun m got => (pass pattern m got).2) []

/-- The lines of the stream that match, each with its newline. -/
def selected (pattern stream : Text) : List Text := ((lines newline stream).filter (matchText pattern)).map (· ++ [newline])

end Reader

section Scan
variable {pattern p m got s : Text}

theorem strchr_none (text : 0#8 ∉ p) : strchr newline p = none ↔ newline ∉ p := by
  induction p with
  | nil => simp [strchr]
  | cons b p ih =>
    rw [List.mem_cons, not_or] at text
    rw [strchr, if_neg (Ne.symm text.1), List.mem_cons, not_or]
    by_cases here : b = newline
    · simp [here]
    · rw [if_neg here, Option.map_eq_none_iff, ih text.2]
      simp [Ne.symm here]

theorem strchr_some (text : 0#8 ∉ p) {q : Nat} (found : strchr newline p = some q) :
    p = p.take q ++ newline :: p.drop (q + 1) ∧ newline ∉ p.take q ∧ p.take (q + 1) = p.take q ++ [newline] := by
  induction p generalizing q with
  | nil => cases found
  | cons b p ih =>
    rw [List.mem_cons, not_or] at text
    rw [strchr, if_neg (Ne.symm text.1)] at found
    by_cases here : b = newline
    · rw [if_pos here] at found
      cases found
      rw [here]
      exact ⟨rfl, List.not_mem_nil, rfl⟩
    · rw [if_neg here] at found
      obtain ⟨r,later,rfl⟩ := Option.map_eq_some_iff.mp found
      obtain ⟨split,first,line⟩ := ih text.2 later
      rw [List.take_succ_cons, List.take_succ_cons, List.drop_succ_cons, List.cons_append, ← split, List.mem_cons, not_or, line]
      exact ⟨rfl, ⟨Ne.symm here, first⟩, rfl⟩

theorem selected_plain (plain : newline ∉ s) : selected pattern s = [] := by
  unfold selected
  rw [lines_plain plain]
  rfl

theorem selected_ended (held : newline ∈ p) : selected pattern (ended newline p ++ s) = selected pattern p ++ selected pattern s := by
  unfold selected
  rw [lines_ended held, List.filter_append, List.map_append]

theorem selected_line {l : Text} (plain : newline ∉ l) :
    selected pattern (l ++ newline :: s) = (if matchText pattern l then [l ++ [newline]] else []) ++ selected pattern s := by
  unfold selected
  rw [lines_append_cons, List.splitOn_eq_singleton plain, List.filter_append, List.map_append]
  by_cases fits : matchText pattern l = true
  · simp [fits]
  · simp [fits]

theorem scan_none (found : strchr newline p = none) : scan pattern p = ([], p) := by
  rw [scan]
  split
  · rfl
  · rename_i q other
    rw [found] at other
    cases other

theorem scan_some {q : Nat} (found : strchr newline p = some q) :
    scan pattern p = ((if matchText pattern (p.take q) then [p.take (q + 1)] else []) ++ (scan pattern (p.drop (q + 1))).1,
      (scan pattern (p.drop (q + 1))).2) := by
  rw [scan]
  split
  · rename_i other
    rw [found] at other
    cases other
  · rename_i r other
    rw [found] at other
    cases other
    by_cases fits : matchText pattern (p.take q) = true
    · simp [fits]
    · simp [fits]

/-- The inner loop writes the matching lines of the buffer and leaves what is behind the last newline. -/
theorem scan_lines (text : 0#8 ∉ p) : scan pattern p = (selected pattern p, rest newline p) := by
  generalize size : p.length = n
  induction n using Nat.strong_induction_on generalizing p with
  | h n ih =>
    cases found : strchr newline p with
    | none =>
      have plain := (strchr_none text).mp found
      rw [scan_none found, selected_plain plain, rest_of_plain plain]
    | some q =>
      obtain ⟨split,first,line⟩ := strchr_some text found
      have inside := strchr_lt found
      have later := ih (p.drop (q + 1)).length (by rw [List.length_drop]; omega) (fun member => text (List.mem_of_mem_drop member)) rfl
      have written : selected pattern p = selected pattern (p.take q ++ newline :: p.drop (q + 1)) := by rw [← split]
      have left : rest newline p = rest newline (p.take q ++ newline :: p.drop (q + 1)) := by rw [← split]
      rw [scan_some found, later, line, written, left, selected_line first, rest_append_cons]

end Scan

section Chunks
variable {pattern m got : Text} {reads : List Text}

/-- A read that brings no newline loses what the buffer holds. -/
theorem pass_lines (text : 0#8 ∉ m ++ got) (open' : newline ∉ m) :
    pass pattern m got = (selected pattern (m ++ got), if newline ∈ got then rest newline (m ++ got) else []) := by
  unfold pass
  dsimp only
  rw [scan_lines text]
  by_cases held : newline ∈ got
  · have shorter : (rest newline (m ++ got)).length ≠ (m ++ got).length := by
      have whole := congrArg List.length (ended_rest newline (m ++ got))
      obtain ⟨a,cut⟩ := ended_eq (List.mem_append_right m held)
      rw [cut] at whole
      simp only [List.length_append, List.length_singleton] at whole ⊢
      omega
    rw [if_pos held, if_neg shorter]
  · rw [if_neg held, rest_of_plain (List.not_mem_append open' held), if_pos rfl]

/-- The bytes of the stream that are matched, or are left when it ends: a read that brings no newline
    takes away itself and the unfinished line before it. -/
def surviving (m : Text) : List Text → Text
  | [] => m
  | got :: reads =>
    if got.contains newline then ended newline (m ++ got) ++ surviving (rest newline (m ++ got)) reads else surviving [] reads

theorem surviving_cons (m got : Text) (reads : List Text) : surviving m (got :: reads) =
    if newline ∈ got then ended newline (m ++ got) ++ surviving (rest newline (m ++ got)) reads else surviving [] reads := by
  rw [surviving]
  simp only [List.contains_iff_mem]

theorem not_mem_rest {b : BitVec 8} {s : Text} (none : b ∉ s) : b ∉ rest newline s := fun member =>
  none (ended_rest newline s ▸ List.mem_append_right _ member)

/-- `grep` writes the matching lines of the surviving bytes. -/
theorem grep_surviving (pattern : Text) (reads : List Text) {m : Text} (text : 0#8 ∉ m ++ reads.flatten) (open' : newline ∉ m) :
    grep pattern m reads = selected pattern (surviving m reads) := by
  induction reads generalizing m with
  | nil => exact (selected_plain open').symm
  | cons got reads ih =>
    rw [List.flatten_cons, ← List.append_assoc, List.mem_append, not_or] at text
    unfold grep
    rw [surviving_cons]
    rw [pass_lines text.1 open']
    dsimp only
    by_cases held : newline ∈ got
    · rw [if_pos held, if_pos held, selected_ended (List.mem_append_right m held)]
      rw [ih (List.not_mem_append (not_mem_rest text.1) text.2) (rest_plain _ _)]
    · rw [if_neg held, if_neg held, selected_plain (List.not_mem_append open' held), List.nil_append]
      exact ih text.2 List.not_mem_nil

/-- No read that brings no newline comes before one that does. -/
def Whole (reads : List Text) : Prop := reads.Pairwise fun got later => newline ∈ later → newline ∈ got

theorem surviving_plain (none : ∀ got ∈ reads, newline ∉ got) (open' : newline ∉ m) : newline ∉ surviving m reads := by
  induction reads generalizing m with
  | nil => exact open'
  | cons got reads ih =>
    rw [surviving_cons]
    rw [if_neg (none got List.mem_cons_self)]
    exact ih (fun later member => none later (List.mem_cons_of_mem got member)) List.not_mem_nil

theorem selected_whole (pattern : Text) (whole : Whole reads) (open' : newline ∉ m) :
    selected pattern (surviving m reads) = selected pattern (m ++ reads.flatten) := by
  induction reads generalizing m with
  | nil => rw [surviving, List.flatten_nil, List.append_nil]
  | cons got reads ih =>
    obtain ⟨first,later⟩ := List.pairwise_cons.mp whole
    rw [surviving_cons]
    by_cases held : newline ∈ got
    · have here := List.mem_append_right m held
      rw [if_pos held, selected_ended here, ih later (rest_plain _ _), ← selected_ended here, ← List.append_assoc, ended_rest,
        List.flatten_cons, List.append_assoc]
    · have none : ∀ next ∈ reads, newline ∉ next := fun next member more => held (first next member more)
      rw [if_neg held, selected_plain (surviving_plain none List.not_mem_nil), selected_plain]
      refine List.not_mem_append open' (List.mem_flatten.not.mpr ?_)
      rintro ⟨next,member,more⟩
      rcases List.mem_cons.mp member with rfl | member
      · exact held more
      · exact none next member more

theorem regroup (m got : Text) (reads : List Text) :
    m ++ (got :: reads).flatten = ended newline (m ++ got) ++ (rest newline (m ++ got) ++ reads.flatten) := by
  rw [List.flatten_cons, ← List.append_assoc, ← List.append_assoc, ended_rest]

theorem surviving_shorter (reads : List Text) (m : Text) :
    (ended newline (surviving m reads)).length ≤ (ended newline (m ++ reads.flatten)).length := by
  induction reads generalizing m with
  | nil => rw [surviving, List.flatten_nil, List.append_nil]
  | cons got reads ih =>
    rw [surviving_cons]
    by_cases held : newline ∈ got
    · rw [if_pos held, regroup, ended_ended_append, ended_ended_append, List.length_append, List.length_append]
      exact Nat.add_le_add_left (ih _) _
    · have later := ih []
      rw [List.nil_append] at later
      rw [if_neg held, List.flatten_cons, ← List.append_assoc]
      by_cases more : newline ∈ reads.flatten
      · rw [ended_append more, List.length_append]
        omega
      · rw [ended_plain more, List.length_nil] at later
        omega

/-- If no line has lost a byte, no read lost what the buffer held. -/
theorem whole_of_length (each : ∀ got ∈ reads, got ≠ [])
    (same : (ended newline (m ++ reads.flatten)).length ≤ (ended newline (surviving m reads)).length) : Whole reads := by
  induction reads generalizing m with
  | nil => exact List.Pairwise.nil
  | cons got reads ih =>
    have later : ∀ got ∈ reads, got ≠ [] := fun next member => each next (List.mem_cons_of_mem got member)
    rw [surviving_cons] at same
    by_cases held : newline ∈ got
    · rw [if_pos held, regroup, ended_ended_append, ended_ended_append, List.length_append, List.length_append] at same
      exact List.pairwise_cons.mpr ⟨fun _ _ _ => held, ih later (Nat.le_of_add_le_add_left same)⟩
    · have shorter := surviving_shorter reads []
      have bytes := List.length_pos_iff.mpr (each got List.mem_cons_self)
      rw [if_neg held, List.flatten_cons, ← List.append_assoc] at same
      rw [List.nil_append] at shorter
      by_cases more : newline ∈ reads.flatten
      · rw [ended_append more, List.length_append, List.length_append] at same
        omega
      · have none : ∀ next ∈ reads, newline ∉ next := fun next member here => more (List.mem_flatten.mpr ⟨next,member,here⟩)
        refine List.pairwise_cons.mpr ⟨fun next member here => absurd here (none next member), ?_⟩
        exact List.pairwise_of_forall_mem_list fun _ _ next member here => absurd here (none next member)

/-- The empty pattern selects every line. -/
theorem selected_all (s : Text) : (selected [] s).flatten = ended newline s := by
  have every : matchText [] = fun _ => true := by
    funext line
    cases line with
    | nil => exact matchhere_nil
    | cons b line =>
      unfold matchText matchanywhere
      rw [matchhere_nil, if_pos rfl]
  unfold selected
  rw [every, List.filter_true, lines_flatten]

/-- The buffer holds the end of what was read, within one line. -/
theorem buffer_held (pattern : Text) (reads : List Text) (text : 0#8 ∉ reads.flatten) :
    newline ∉ buffer pattern reads ∧ ∃ before, reads.flatten = before ++ buffer pattern reads := by
  induction reads using List.reverseRecOn with
  | nil => exact ⟨List.not_mem_nil, [], rfl⟩
  | append_singleton reads got ih =>
    rw [List.flatten_append, List.mem_append, not_or] at text
    obtain ⟨plain,before,split⟩ := ih text.1
    have last : [got].flatten = got := by simp
    have step : buffer pattern (reads ++ [got]) = (pass pattern (buffer pattern reads) got).2 := by
      unfold buffer
      rw [List.foldl_append]
      rfl
    have none : 0#8 ∉ buffer pattern reads ++ got := by
      rw [List.mem_append, not_or, ← last]
      exact ⟨fun member => text.1 (split ▸ List.mem_append_right _ member), text.2⟩
    rw [step, pass_lines none plain, List.flatten_append, last, split, List.append_assoc]
    dsimp only
    by_cases held : newline ∈ got
    · rw [if_pos held]
      refine ⟨rest_plain _ _, before ++ ended newline (buffer pattern reads ++ got), ?_⟩
      rw [List.append_assoc, ended_rest]
    · rw [if_neg held]
      exact ⟨List.not_mem_nil, _, (List.append_nil _).symm⟩

theorem selected_iff_whole (each : ∀ got ∈ reads, got ≠ []) :
    (∀ pattern, selected pattern (surviving [] reads) = selected pattern reads.flatten) ↔ Whole reads := by
  constructor
  · intro same
    have all := congrArg List.flatten (same [])
    rw [selected_all, selected_all] at all
    exact whole_of_length (m := []) each (by rw [List.nil_append, all])
  · intro whole pattern
    exact selected_whole pattern whole List.not_mem_nil

/-- Lines that are shorter than the buffer leave room for the next read. -/
theorem buffer_room {stream : Text} (pattern : Text) {before after : List Text} (split : (before ++ after).flatten = stream)
    (text : 0#8 ∉ stream) (short : ∀ line ∈ stream.splitOn newline, line.length < BUF - 1) :
    0 < BUF - (buffer pattern before).length - 1 := by
  rw [List.flatten_append] at split
  obtain ⟨plain,u,held⟩ := buffer_held pattern before fun member => text (split ▸ List.mem_append_left _ member)
  obtain ⟨line,member,long⟩ := within_line (u := u) (v := after.flatten) plain
  rw [← held, split] at member
  have room := short line member
  omega

end Chunks

/-- Every read has room. `grep` writes the matching lines of the stream for every pattern just when no
    read that brings no newline comes before one that does; for one pattern, when the lost bytes make
    no difference to the lines that match. -/
theorem grep_chunks {stream : Text} {reads : List Text} (split : reads.flatten = stream) (each : ∀ got ∈ reads, got ≠ [])
    (text : 0#8 ∉ stream) (short : ∀ line ∈ stream.splitOn newline, line.length < BUF - 1) :
    (∀ pattern before after, reads = before ++ after → 0 < BUF - (buffer pattern before).length - 1) ∧
    ((∀ pattern, grep pattern [] reads = selected pattern stream) ↔ Whole reads) ∧
    ∀ pattern, grep pattern [] reads = selected pattern stream ↔
      selected pattern (surviving [] reads) = selected pattern stream := by
  have lost : ∀ pattern, grep pattern [] reads = selected pattern (surviving [] reads) := fun pattern =>
    grep_surviving pattern reads (by rw [List.nil_append, split]; exact text) List.not_mem_nil
  refine ⟨fun pattern before after cut => buffer_room pattern (cut ▸ split) text short, ?_, fun pattern => by rw [lost pattern]⟩
  rw [← selected_iff_whole each, split]
  simp only [lost]

theorem grep_chunks_two : Whole [[0x61#8, newline], [0x62#8]] ∧
    grep [] [] [[0x61#8, newline], [0x62#8]] = selected [] [0x61#8, newline, 0x62#8] := by
  have pieces : Whole [[0x61#8, newline], [0x62#8]] := by
    unfold Whole
    decide
  exact ⟨pieces, (grep_chunks rfl (by decide) (by decide) (by decide)).2.1.mpr pieces []⟩

/-- From `ab` and `c\n` the line `abc` is written as `c`. -/
theorem grep_loses : grep [] [] [[0x61#8, 0x62#8], [0x63#8, newline]] ≠ selected [] [0x61#8, 0x62#8, 0x63#8, newline] := by
  have lost := grep_surviving [] [[0x61#8, 0x62#8], [0x63#8, newline]] (m := []) (by decide) List.not_mem_nil
  rw [lost]
  intro same
  have all := congrArg List.flatten same
  rw [selected_all, selected_all] at all
  revert all
  decide

end Xv6Grep
