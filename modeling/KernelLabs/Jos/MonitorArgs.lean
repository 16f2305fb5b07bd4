import KernelLabs.Jos.MonitorInput
import KernelLabs.Lib.Words

/-!
`runcmd` cuts its buffer into the words of the line, up to 15 of them, and looks up the first.
-/
namespace JosConsole
open Words

/-- The buffer from `p` on has the list and then 0. -/
structure Holds (buf : Nat → Byte) (p : Nat) (l : List Byte) : Prop where
  chars : ∀ i c, l[i]? = some c → buf (p + i) = c
  ends : buf (p + l.length) = 0
  plain : 0 ∉ l

/-- An argument that has been passed by: a word that 0 follows, or else what is at `p`. -/
structure Passed (buf : Nat → Byte) (p q : Nat) (w : List Byte) : Prop where
  chars : ∀ i c, w[i]? = some c → buf (q + i) = c
  plain : 0 ∉ w
  before : q + w.length ≤ p
  ends : q + w.length ≠ p → buf (q + w.length) = 0

section Parsing
variable {buf : Nat → Byte} {p : Nat} {l : List Byte} {c : Byte}

theorem Holds.head (holds : Holds buf p (c :: l)) : buf p = c ∧ c ≠ 0 :=
  ⟨holds.chars 0 c rfl, fun zero => holds.plain (zero ▸ List.mem_cons_self)⟩

theorem Holds.tail (holds : Holds buf p (c :: l)) : Holds buf (p + 1) l := by
  refine ⟨fun i x here => ?_, ?_, fun zero => holds.plain (List.mem_cons_of_mem c zero)⟩
  · rw [Nat.add_assoc, Nat.add_comm 1 i]
    exact holds.chars (i + 1) x here
  · rw [Nat.add_assoc, Nat.add_comm 1]
    exact holds.ends

theorem Holds.drop {w : List Byte} (holds : Holds buf p (w ++ l)) : Holds buf (p + w.length) l := by
  induction w generalizing p with
  | nil => exact holds
  | cons c w ih =>
    have rest := ih holds.tail
    rwa [Nat.add_assoc, Nat.add_comm 1] at rest

theorem Holds.zero_below (holds : Holds buf p l) {j : Nat} (below : j < p) (x : Byte) : Holds (Function.update buf j x) p l := by
  refine ⟨fun i c here => ?_, ?_, holds.plain⟩
  · rw [Function.update_of_ne (by omega)]
    exact holds.chars i c here
  · rw [Function.update_of_ne (by omega)]
    exact holds.ends

theorem gobble_spec (fuel : Nat) (holds : Holds buf p l) (enough : l.length ≤ fuel) :
    ∃ buf', gobble fuel buf p = (buf', p + (l.takeWhile whitespace).length) ∧
      Holds buf' (p + (l.takeWhile whitespace).length) (l.dropWhile whitespace) ∧
      (∀ j, j < p → buf' j = buf j) ∧ (l.takeWhile whitespace ≠ [] → buf' p = 0) := by
  induction l generalizing buf p fuel with
  | nil =>
    refine ⟨buf, ?_, holds, fun _ _ => rfl, fun none => absurd rfl none⟩
    cases fuel with
    | zero => rfl
    | succ fuel =>
      unfold gobble
      rw [if_neg fun both => both.1 holds.ends]
      rfl
  | cons c l ih =>
    obtain ⟨here,some⟩ := holds.head
    obtain ⟨fuel,rfl⟩ : ∃ k, fuel = k + 1 := ⟨fuel - 1, by rw [List.length_cons] at enough; omega⟩
    by_cases gap : whitespace c = true
    · obtain ⟨buf',run,rest,same,_⟩ := ih fuel (holds.tail.zero_below (Nat.lt_succ_self p) 0) (Nat.le_of_succ_le_succ enough)
      refine ⟨buf', ?_, ?_, fun j low => ?_, fun _ => ?_⟩
      · unfold gobble
        rw [if_pos ⟨here ▸ some, here ▸ gap⟩, run, List.takeWhile_cons_of_pos gap, List.length_cons, Nat.add_assoc, Nat.add_comm 1]
      · rw [List.takeWhile_cons_of_pos gap, List.dropWhile_cons_of_pos gap, List.length_cons, Nat.add_comm _ 1, ← Nat.add_assoc]
        exact rest
      · rw [same j (Nat.lt_succ_of_lt low), Function.update_of_ne (Nat.ne_of_lt low)]
      · rw [same p (Nat.lt_succ_self p), Function.update_self]
    · refine ⟨buf, ?_, ?_, fun _ _ => rfl, fun none => ?_⟩
      · unfold gobble
        rw [if_neg fun both => gap (here ▸ both.2), List.takeWhile_cons_of_neg gap]
        rfl
      · rw [List.takeWhile_cons_of_neg gap, List.dropWhile_cons_of_neg gap]
        exact holds
      · rw [List.takeWhile_cons_of_neg gap] at none
        exact absurd rfl none

theorem scan_spec (fuel : Nat) (holds : Holds buf p l) (enough : l.length ≤ fuel) :
    scan fuel buf p = p + (l.takeWhile fun x => !whitespace x).length := by
  induction l generalizing p fuel with
  | nil =>
    cases fuel with
    | zero => rfl
    | succ fuel =>
      unfold scan
      rw [if_neg fun both => both.1 holds.ends]
      rfl
  | cons c l ih =>
    obtain ⟨here,some⟩ := holds.head
    obtain ⟨fuel,rfl⟩ : ∃ k, fuel = k + 1 := ⟨fuel - 1, by rw [List.length_cons] at enough; omega⟩
    unfold scan
    by_cases gap : whitespace c = true
    · have stop : ¬ (!whitespace c) = true := by simp [gap]
      rw [here, if_neg fun both => by simp [gap] at both, List.takeWhile_cons_of_neg (p := fun x => !whitespace x) stop]
      rfl
    · have go : (!whitespace c) = true := by simpa using gap
      rw [here, if_pos ⟨some, by simpa using gap⟩, ih fuel holds.tail (Nat.le_of_succ_le_succ enough), List.takeWhile_cons_of_pos (p := fun x => !whitespace x) go,
        List.length_cons, Nat.add_assoc, Nat.add_comm 1]

theorem cstring_spec (fuel : Nat) (holds : Holds buf p l) (enough : l.length ≤ fuel) : cstring fuel buf p = l := by
  induction l generalizing p fuel with
  | nil =>
    cases fuel with
    | zero => rfl
    | succ fuel =>
      unfold cstring
      exact if_pos holds.ends
  | cons c l ih =>
    obtain ⟨here,some⟩ := holds.head
    obtain ⟨fuel,rfl⟩ : ∃ k, fuel = k + 1 := ⟨fuel - 1, by rw [List.length_cons] at enough; omega⟩
    unfold cstring
    rw [if_neg (here ▸ some), here, ih fuel holds.tail (Nat.le_of_succ_le_succ enough)]

/-- The arguments are words of their own when 0 is at `p` too. -/
theorem passed_strings {argv : List Nat} {ws : List (List Byte)} (passed : List.Forall₂ (Passed buf p) argv ws)
    (zero : buf p = 0) (small : p ≤ BUFLEN) : argv.map (cstring BUFLEN buf) = ws := by
  induction passed with
  | nil => rfl
  | @cons q w argv ws first _ ih =>
    have before := first.before
    have ends : buf (q + w.length) = 0 := by
      by_cases last : q + w.length = p
      · rw [last, zero]
      · exact first.ends last
    rw [List.map_cons, ih, cstring_spec _ ⟨first.chars,ends,first.plain⟩ (by omega)]

/-- The gap that `gobble` makes ends the last argument. -/
theorem passed_gap {buf' : Nat → Byte} {argv : List Nat} {ws : List (List Byte)} (passed : List.Forall₂ (Passed buf p) argv ws)
    (same : ∀ j, j < p → buf' j = buf j) {p' : Nat} (later : p ≤ p') (gap : argv ≠ [] → buf' p = 0 ∨ p' = p) :
    List.Forall₂ (Passed buf' p') argv ws := by
  by_cases start : argv = []
  · subst start
    cases passed
    exact .nil
  · refine passed.imp fun q w first => ⟨fun i c here => ?_, first.plain, Nat.le_trans first.before later, fun other => ?_⟩
    · have inside := (List.getElem?_eq_some_iff.mp here).1
      have before := first.before
      rw [same _ (by omega)]
      exact first.chars i c here
    · by_cases last : q + w.length = p
      · rcases gap start with zero | none
        · rw [last, zero]
        · exact absurd (last.trans none.symm) other
      · have before := first.before
        rw [same _ (by omega)]
        exact first.ends last

/-- The word at `p` has been scanned. -/
theorem passed_word {w : List Byte} (holds : Holds buf p (w ++ l)) : Passed buf (p + w.length) p w := by
  refine ⟨fun i c here => holds.chars i c ?_, fun zero => holds.plain (List.mem_append_left l zero), Nat.le_refl _, fun other => absurd rfl other⟩
  rw [List.getElem?_append_left (List.getElem?_eq_some_iff.mp here).1, here]

theorem parseArgs_spec (fuel : Nat) {argv : List Nat} {ws : List (List Byte)} (holds : Holds buf p l)
    (inside : p + l.length ≤ BUFLEN) (passed : List.Forall₂ (Passed buf p) argv ws)
    (ends : argv ≠ [] → ∀ x, l.head? = some x → whitespace x = true)
    (few : argv.length < MAXARGS) (enough : MAXARGS ≤ argv.length + fuel) :
    ((ws ++ words whitespace l).length < MAXARGS →
      ∃ buf' args, parseArgs fuel buf p argv = (buf', some args) ∧ args.map (cstring BUFLEN buf') = ws ++ words whitespace l) ∧
    (MAXARGS ≤ (ws ++ words whitespace l).length → ∃ buf', parseArgs fuel buf p argv = (buf', none)) := by
  have count := passed.length_eq
  induction fuel generalizing buf p l argv ws with
  | zero => omega
  | succ fuel ih =>
    obtain ⟨buf',run,rest,same,gap⟩ := gobble_spec BUFLEN holds (by omega)
    have whole := congrArg List.length (List.takeWhile_append_dropWhile (p := whitespace) (l := l))
    rw [List.length_append] at whole
    unfold parseArgs
    rw [run]
    dsimp only
    cases first : l.dropWhile whitespace with
    | nil =>
      rw [first] at rest
      have none : words whitespace l = [] := by
        rw [← words_drop l, first]
        rfl
      have zero : buf' (p + (l.takeWhile whitespace).length) = 0 := rest.ends
      have now := passed_gap passed same (Nat.le_add_right p (l.takeWhile whitespace).length) fun _ => by
        by_cases more : l.takeWhile whitespace = []
        · exact .inr (by rw [more]; rfl)
        · exact .inl (gap more)
      rw [none, List.append_nil, ← count]
      refine ⟨fun _ => ⟨buf', argv, ?_, passed_strings now zero (by omega)⟩, fun many => absurd few (Nat.not_lt.mpr many)⟩
      rw [if_pos zero]
    | cons a l' =>
      rw [first] at rest whole
      obtain ⟨here,some⟩ := rest.head
      have cut := words_cut first
      have gapped : argv ≠ [] → buf' p = 0 := by
        refine fun more => gap fun none => ?_
        have unchanged := List.takeWhile_append_dropWhile (p := whitespace) (l := l)
        rw [none, List.nil_append, first] at unchanged
        have sep := ends more a (by rw [← unchanged]; rfl)
        rw [← unchanged, List.takeWhile_cons_of_pos sep] at none
        cases none
      have later := Nat.le_add_right p (l.takeWhile whitespace).length
      have bound : p + (l.takeWhile whitespace).length + (a :: l').length ≤ BUFLEN := by omega
      have parts : (a :: l').takeWhile (fun x => !whitespace x) ++ (a :: l').dropWhile (fun x => !whitespace x) = a :: l' :=
        List.takeWhile_append_dropWhile
      have scanned := scan_spec BUFLEN rest (by omega)
      have stops := List.head?_dropWhile_not (fun x => !whitespace x) (a :: l')
      generalize p + (l.takeWhile whitespace).length = p' at *
      generalize (a :: l').takeWhile (fun x => !whitespace x) = w at *
      generalize (a :: l').dropWhile (fun x => !whitespace x) = r at *
      have sizes := congrArg List.length parts
      rw [List.length_append] at sizes
      have both := rest
      rw [← parts] at both
      rw [if_neg (by rw [here]; exact some), scanned, cut]
      by_cases last : argv.length = MAXARGS - 1
      · rw [if_pos last]
        refine ⟨fun less => ?_, fun _ => ⟨buf',rfl⟩⟩
        rw [List.length_append, List.length_cons] at less
        unfold MAXARGS at *
        omega
      · rw [if_neg last]
        have old : List.Forall₂ (Passed buf' (p' + w.length)) argv ws := passed_gap passed same (by omega) fun more => .inl (gapped more)
        have passed' := List.rel_append old (.cons (passed_word both) .nil)
        have next := ih both.drop (by omega) passed' (fun _ x head => ?_) ?_ ?_ passed'.length_eq
        · rw [List.append_assoc] at next
          exact next
        · rw [head] at stops
          simpa using stops
        · rw [List.length_append, List.length_singleton]
          unfold MAXARGS at *
          omega
        · rw [List.length_append, List.length_singleton]
          omega

/-- What should become of a line: its words are the arguments. -/
def obey (line : List Byte) : Obeyed :=
  if (words whitespace line).length < MAXARGS then lookup (words whitespace line) else .tooMany

theorem runcmd_spec (holds : Holds buf 0 l) (fits : l.length < BUFLEN) : runcmd buf = obey l := by
  obtain ⟨within,beyond⟩ := parseArgs_spec MAXARGS holds (by omega) .nil (fun more => absurd rfl more) (by decide) (by decide)
  rw [List.nil_append] at within beyond
  unfold runcmd obey
  by_cases few : (words whitespace l).length < MAXARGS
  · obtain ⟨buf',args,run,strings⟩ := within few
    rw [run, if_pos few]
    dsimp only
    rw [strings]
  · obtain ⟨buf',run⟩ := beyond (Nat.le_of_not_lt few)
    rw [run, if_neg few]

end Parsing
end JosConsole
