import Mathlib.Data.Finset.Insert
import KernelLabs.Jos.Console

/-!
The keyboard as a set of keys that are held down and three locks. The driver keeps one bit for
a modifier, not the keys that are held, so two keys of one modifier are as one.
-/
namespace JosConsole

/-- A key is the index that the maps have for it, with 0x80 for the ones behind an escape. -/
inductive Stroke where
  | press (key : Byte)
  | release (key : Byte)

def Stroke.key : Stroke → Byte
  | .press key => key
  | .release key => key

/-- The bytes that the keyboard sends. -/
def Stroke.codes : Stroke → List Byte
  | .press key => if key &&& 0x80 ≠ 0 then [0xE0, key &&& 0x7F] else [key]
  | .release key => if key &&& 0x80 ≠ 0 then [0xE0, key] else [key ||| 0x80]

structure Held where
  keys : Finset Byte
  caps : Bool
  num : Bool
  scroll : Bool

/-- Some key of a modifier is held. -/
def Held.has (s : Held) (modifier : BitVec 32) : Bool := decide (∃ key ∈ s.keys, shiftcode key = modifier)

def Held.press (s : Held) (key : Byte) : Held :=
  ⟨insert key s.keys, s.caps ^^ (togglecode key == CAPSLOCK), s.num ^^ (togglecode key == NUMLOCK),
    s.scroll ^^ (togglecode key == SCROLLLOCK)⟩

def Held.release (s : Held) (key : Byte) : Held := { s with keys := s.keys.erase key }

def swapCase (c : Byte) : Byte :=
  if code 'a' ≤ c ∧ c ≤ code 'z' then c - 32 else if code 'A' ≤ c ∧ c ≤ code 'Z' then c + 32 else c

/-- What a key stands for. -/
def Held.char (s : Held) (key : Byte) : Byte :=
  let c := if s.has CTL then ctlmap key else if s.has SHIFT then shiftmap key else normalmap key
  if s.caps then swapCase c else c

/-- The characters of the keys that are pressed, up to Ctrl-Alt-Del. -/
def Held.type (s : Held) : List Stroke → List Byte × Held × Bool
  | [] => ([], s, false)
  | .release key :: rest => (s.release key).type rest
  | .press key :: rest =>
    let s := s.press key
    let c := s.char key
    if s.has CTL ∧ s.has ALT ∧ c = KEY_DEL then ([], s, true)
    else
      let (chars, s, off) := s.type rest
      (c :: chars, s, off)

/-- No other key of the same modifier is held when one is released. -/
def Held.Alone (s : Held) : List Stroke → Prop
  | [] => True
  | .press key :: rest => (s.press key).Alone rest
  | .release key :: rest =>
    (shiftcode key ≠ 0 → ∀ other ∈ s.keys, shiftcode other = shiftcode key → other = key) ∧ (s.release key).Alone rest

/-- The keys that are held after all, and the locks. -/
def Held.after (s : Held) (strokes : List Stroke) : Held :=
  strokes.foldl (fun s stroke => match stroke with
    | .press key => s.press key
    | .release key => s.release key) s

section Bits
variable {key : Byte}

def bits (ctl shift alt caps num scroll : Bool) : BitVec 32 :=
  (if ctl then CTL else 0) ||| (if shift then SHIFT else 0) ||| (if alt then ALT else 0) ||| (if caps then CAPSLOCK else 0) |||
    (if num then NUMLOCK else 0) ||| (if scroll then SCROLLLOCK else 0)

theorem shiftcode_cases (key : Byte) : shiftcode key = 0 ∨ shiftcode key = CTL ∨ shiftcode key = SHIFT ∨ shiftcode key = ALT := by
  unfold shiftcode
  split <;> simp

theorem togglecode_cases (key : Byte) :
    togglecode key = 0 ∨ togglecode key = CAPSLOCK ∨ togglecode key = NUMLOCK ∨ togglecode key = SCROLLLOCK := by
  unfold togglecode
  split <;> simp

/-- What a press and a release make of the bits. -/
theorem bits_change (key : Byte) (a b c d e f : Bool) :
    (bits a b c d e f ||| shiftcode key) ^^^ togglecode key =
      bits (a || (shiftcode key == CTL)) (b || (shiftcode key == SHIFT)) (c || (shiftcode key == ALT))
        (d ^^ (togglecode key == CAPSLOCK)) (e ^^ (togglecode key == NUMLOCK)) (f ^^ (togglecode key == SCROLLLOCK)) ∧
    bits a b c d e f &&& ~~~(shiftcode key ||| E0ESC) =
      bits (a && !(shiftcode key == CTL)) (b && !(shiftcode key == SHIFT)) (c && !(shiftcode key == ALT)) d e f := by
  constructor
  · rcases shiftcode_cases key with shift | shift | shift | shift <;>
      rcases togglecode_cases key with toggle | toggle | toggle | toggle <;> rw [shift, toggle] <;> revert a b c d e f <;>
      decide
  · rcases shiftcode_cases key with shift | shift | shift | shift <;> rw [shift] <;> revert a b c d e f <;> decide

/-- The bits as the driver tests them. The escape is noted, and forgotten with the next byte. -/
theorem bits_tests (a b c d e f : Bool) :
    ((bits a b c d e f &&& CTL ≠ 0 ↔ a = true) ∧ (bits a b c d e f &&& SHIFT ≠ 0 ↔ b = true) ∧
      (bits a b c d e f &&& ALT ≠ 0 ↔ c = true) ∧ (bits a b c d e f &&& CAPSLOCK ≠ 0 ↔ d = true) ∧
      (~~~bits a b c d e f &&& (CTL ||| ALT) = 0 ↔ a = true ∧ c = true)) ∧
    (bits a b c d e f &&& E0ESC = 0 ∧ (bits a b c d e f ||| E0ESC) &&& E0ESC ≠ 0 ∧
      (bits a b c d e f ||| E0ESC) &&& ~~~E0ESC = bits a b c d e f) := by
  revert a b c d e f
  decide

theorem or_clear (x m e : BitVec 32) : (x ||| e) &&& ~~~(m ||| e) = x &&& ~~~(m ||| e) := by
  ext i low
  simp only [BitVec.getElem_and, BitVec.getElem_or, BitVec.getElem_not]
  cases x[i] <;> cases m[i] <;> cases e[i] <;> rfl

theorem key_bytes (valid : key &&& 0x7F ≠ 0x60) : (key &&& 0x80 ≠ 0 → key ≠ 0xE0 ∧ key &&& 0x7F ≠ 0xE0 ∧
      (key &&& 0x7F) &&& 0x80 = 0 ∧ (key &&& 0x7F) ||| 0x80 = key) ∧
    (key &&& 0x80 = 0 → key ≠ 0xE0 ∧ key ||| 0x80 ≠ 0xE0 ∧ (key ||| 0x80) &&& 0x80 ≠ 0 ∧ (key ||| 0x80) &&& 0x7F = key) := by
  revert key
  decide

end Bits

section Driver
variable {key : Byte} {w : BitVec 32} {rest : List (Bool × Byte)}

theorem kbdRead_data {data x : Byte} {w' : BitVec 32} (now : kbdProcData w data = (w', x, false)) :
    kbdRead w ((false, data) :: rest) = (x :: (kbdRead w' rest).1, (kbdRead w' rest).2) := by
  rw [kbdRead, now]
  rfl

/-- What the driver returns, without the zeros. -/
def typedBy (w : BitVec 32) (codes : List (Bool × Byte)) : List Byte × BitVec 32 × Bool :=
  let r := kbdRead w codes
  (r.1.filter (· ≠ 0), r.2.1, r.2.2.2)

/-- A byte of the keyboard that gives no character and no reboot. -/
theorem typedBy_silent {data : Byte} {w' : BitVec 32} (silent : kbdProcData w data = (w', 0, false)) :
    typedBy w ((false, data) :: rest) = typedBy w' rest := by
  unfold typedBy
  rw [kbdRead_data silent]
  rfl

/-- The driver gets the codes of a stroke. -/
def sent (strokes : List Stroke) : List (Bool × Byte) := (strokes.flatMap Stroke.codes).map fun data => (false, data)

theorem sent_one (stroke : Stroke) : sent [stroke] = stroke.codes.map fun data => (false, data) := by
  unfold sent
  rw [List.flatMap_cons, List.flatMap_nil, List.append_nil]

variable (a b c d e f : Bool)

theorem escape_read : kbdProcData (bits a b c d e f) 0xE0 = (bits a b c d e f ||| E0ESC, 0, false) := rfl

theorem release_read (valid : key &&& 0x7F ≠ 0x60) :
    typedBy (bits a b c d e f) (sent [.release key] ++ rest) =
      typedBy (bits (a && !(shiftcode key == CTL)) (b && !(shiftcode key == SHIFT)) (c && !(shiftcode key == ALT)) d e f) rest := by
  obtain ⟨_,plain,noted,_⟩ := bits_tests a b c d e f
  obtain ⟨high,low⟩ := key_bytes valid
  rw [← (bits_change key a b c d e f).2]
  by_cases extended : key &&& 0x80 = 0
  · obtain ⟨_,other,bit,back⟩ := low extended
    have codes : (Stroke.release key).codes = [key ||| 0x80] := if_neg (not_not.mpr extended)
    rw [sent_one, codes]
    refine typedBy_silent ?_
    unfold kbdProcData
    rw [if_neg other, if_pos bit]
    simp only [plain, ne_eq, not_true_eq_false, if_false, back]
  · obtain ⟨other,_,_,_⟩ := high extended
    have codes : (Stroke.release key).codes = [0xE0, key] := if_pos extended
    rw [sent_one, codes]
    refine (typedBy_silent (escape_read a b c d e f)).trans (typedBy_silent ?_)
    unfold kbdProcData
    rw [if_neg other, if_pos extended]
    simp only [if_pos noted, or_clear]

/-- The result of pressing a key, from the bits after the change. -/
def pressed (w : BitVec 32) (key : Byte) (rest : List (Bool × Byte)) : List Byte × BitVec 32 × Bool :=
  let x := capital w (charcode w key)
  if ~~~w &&& (CTL ||| ALT) = 0 && x = KEY_DEL then ([], w, true)
  else (if x = 0 then (typedBy w rest).1 else x :: (typedBy w rest).1, (typedBy w rest).2)

theorem press_data {data : Byte} {w' : BitVec 32} {x : Byte} {reboot : Bool} (now : kbdProcData w data = (w', x, reboot)) :
    typedBy w ((false, data) :: rest) =
      if reboot then ([], w', true) else (if x = 0 then (typedBy w' rest).1 else x :: (typedBy w' rest).1, (typedBy w' rest).2) := by
  unfold typedBy
  cases reboot with
  | true =>
    rw [kbdRead, now]
    rfl
  | false =>
    rw [kbdRead_data now, if_neg Bool.false_ne_true]
    dsimp only
    by_cases zero : x = 0
    · rw [if_pos zero, List.filter_cons_of_neg (by simpa using zero)]
    · rw [if_neg zero, List.filter_cons_of_pos (by simpa using zero)]

theorem press_read (valid : key &&& 0x7F ≠ 0x60) :
    typedBy (bits a b c d e f) (sent [.press key] ++ rest) =
      pressed (bits (a || (shiftcode key == CTL)) (b || (shiftcode key == SHIFT)) (c || (shiftcode key == ALT))
        (d ^^ (togglecode key == CAPSLOCK)) (e ^^ (togglecode key == NUMLOCK)) (f ^^ (togglecode key == SCROLLLOCK))) key rest := by
  obtain ⟨_,plain,noted,forgotten⟩ := bits_tests a b c d e f
  obtain ⟨high,low⟩ := key_bytes valid
  rw [← (bits_change key a b c d e f).1]
  by_cases extended : key &&& 0x80 = 0
  · obtain ⟨other,_⟩ := low extended
    have codes : (Stroke.press key).codes = [key] := if_neg (not_not.mpr extended)
    rw [sent_one, codes]
    refine press_data ?_
    unfold kbdProcData
    rw [if_neg other, if_neg (not_not.mpr extended)]
    simp only [plain, ne_eq, not_true_eq_false, if_false]
  · obtain ⟨_,other,bit,back⟩ := high extended
    have codes : (Stroke.press key).codes = [0xE0, key &&& 0x7F] := if_pos extended
    rw [sent_one, codes]
    refine (typedBy_silent (escape_read a b c d e f)).trans (press_data ?_)
    unfold kbdProcData
    rw [if_neg other, if_neg (not_not.mpr bit)]
    simp only [if_pos noted, forgotten, back]

end Driver

section Ideal
variable {s : Held} {key : Byte}

/-- The variable `shift` of the driver. -/
def Held.word (s : Held) : BitVec 32 := bits (s.has CTL) (s.has SHIFT) (s.has ALT) s.caps s.num s.scroll

theorem Held.word_eq (s : Held) : s.word = bits (s.has CTL) (s.has SHIFT) (s.has ALT) s.caps s.num s.scroll := rfl

theorem has_press (s : Held) (key : Byte) (modifier : BitVec 32) :
    (s.press key).has modifier = (s.has modifier || (shiftcode key == modifier)) := by
  unfold Held.has Held.press
  rw [Bool.eq_iff_iff, Bool.or_eq_true, decide_eq_true_iff, decide_eq_true_iff, beq_iff_eq]
  simp only [Finset.mem_insert]
  constructor
  · rintro ⟨other,rfl | old,same⟩
    · exact .inr same
    · exact .inl ⟨other,old,same⟩
  · rintro (⟨other,old,same⟩ | same)
    · exact ⟨other, .inr old, same⟩
    · exact ⟨key, .inl rfl, same⟩

theorem has_release_of {modifier : BitVec 32} (held : s.has modifier = true) (other : shiftcode key ≠ modifier) :
    (s.release key).has modifier = true := by
  obtain ⟨k,there,same⟩ := of_decide_eq_true held
  refine decide_eq_true ⟨k, Finset.mem_erase.mpr ⟨?_, there⟩, same⟩
  rintro rfl
  exact other same

theorem has_release {modifier : BitVec 32} (alone : shiftcode key ≠ 0 → ∀ other ∈ s.keys, shiftcode other = shiftcode key → other = key)
    (some : modifier ≠ 0) : (s.release key).has modifier = (s.has modifier && !(shiftcode key == modifier)) := by
  rw [Bool.eq_iff_iff, Bool.and_eq_true, Bool.not_eq_true', beq_eq_false_iff_ne]
  refine ⟨fun held => ?_, fun both => has_release_of both.1 both.2⟩
  obtain ⟨k,there,same⟩ := of_decide_eq_true held
  obtain ⟨apart,there⟩ := Finset.mem_erase.mp there
  refine ⟨decide_eq_true ⟨k,there,same⟩, fun own => apart (alone ?_ k there (same.trans own.symm))⟩
  rw [own]
  exact some

theorem word_press (s : Held) (key : Byte) : (s.press key).word =
    bits (s.has CTL || (shiftcode key == CTL)) (s.has SHIFT || (shiftcode key == SHIFT)) (s.has ALT || (shiftcode key == ALT))
      (s.caps ^^ (togglecode key == CAPSLOCK)) (s.num ^^ (togglecode key == NUMLOCK)) (s.scroll ^^ (togglecode key == SCROLLLOCK)) := by
  unfold Held.word
  rw [has_press, has_press, has_press]
  rfl

theorem capital_swap {w : BitVec 32} {caps : Bool} (same : w &&& CAPSLOCK ≠ 0 ↔ caps = true) (c : Byte) :
    capital w c = if caps then swapCase c else c := by
  have lower : c + (code 'A' - code 'a') = c - 32 := (BitVec.sub_eq_add_neg c 32).symm
  have upper : code 'a' - code 'A' = 32 := rfl
  unfold capital swapCase
  rw [lower, upper]
  cases caps with
  | true => rw [if_pos (same.mpr rfl), if_pos rfl]
  | false => rw [if_neg fun test => Bool.false_ne_true (same.mp test), if_neg Bool.false_ne_true]

/-- The character that the driver computes for a key, after the change of `shift`. -/
theorem char_eq (s : Held) (key : Byte) : capital s.word (charcode s.word key) = s.char key := by
  obtain ⟨⟨ctl,shift,_,caps,_⟩,_⟩ := bits_tests (s.has CTL) (s.has SHIFT) (s.has ALT) s.caps s.num s.scroll
  rw [Held.word_eq s, capital_swap caps]
  unfold Held.char charcode
  simp only [ctl, shift]

/-- The modifiers of the driver are held, and its locks are right. -/
def Covered (w : BitVec 32) (s : Held) : Prop :=
  ∃ a b c, w = bits a b c s.caps s.num s.scroll ∧ (a = true → s.has CTL = true) ∧ (b = true → s.has SHIFT = true) ∧
    (c = true → s.has ALT = true)

variable {w : BitVec 32} {strokes : List Stroke}

theorem covered_word (s : Held) : Covered s.word s := ⟨_, _, _, rfl, id, id, id⟩

theorem sent_cons (stroke : Stroke) (strokes : List Stroke) : sent (stroke :: strokes) = sent [stroke] ++ sent strokes := by
  unfold sent
  rw [← List.map_append, ← List.flatMap_append]
  rfl

/-- No modifier is stuck: what the driver takes to be held is held. -/
theorem run_covered (covered : Covered w s) (valid : ∀ stroke ∈ strokes, stroke.key &&& 0x7F ≠ 0x60)
    (on : (typedBy w (sent strokes)).2.2 = false) : Covered (typedBy w (sent strokes)).2.1 (s.after strokes) := by
  induction strokes generalizing w s with
  | nil => exact covered
  | cons stroke strokes ih =>
    obtain ⟨a,b,c,rfl,ctl,shift,alt⟩ := covered
    have first := valid stroke List.mem_cons_self
    have more := fun x member => valid x (List.mem_cons_of_mem stroke member)
    rw [sent_cons] at on ⊢
    cases stroke with
    | press key =>
      rw [press_read a b c s.caps s.num s.scroll (show key &&& 0x7F ≠ 0x60 from first)] at on ⊢
      unfold pressed at on ⊢
      dsimp only at on ⊢
      split at on
      · cases on
      · rename_i go
        rw [if_neg go]
        refine ih ⟨_, _, _, rfl, fun held => ?_, fun held => ?_, fun held => ?_⟩ more on
        · rw [has_press, Bool.or_eq_true]
          exact (Bool.or_eq_true_iff.mp held).imp_left ctl
        · rw [has_press, Bool.or_eq_true]
          exact (Bool.or_eq_true_iff.mp held).imp_left shift
        · rw [has_press, Bool.or_eq_true]
          exact (Bool.or_eq_true_iff.mp held).imp_left alt
    | release key =>
      rw [release_read a b c s.caps s.num s.scroll (show key &&& 0x7F ≠ 0x60 from first)] at on ⊢
      have kept : ∀ {modifier : BitVec 32} {x : Bool}, (x = true → s.has modifier = true) →
          (x && !(shiftcode key == modifier)) = true → (s.release key).has modifier = true := by
        intro modifier x held both
        rw [Bool.and_eq_true, Bool.not_eq_true', beq_eq_false_iff_ne] at both
        exact has_release_of (held both.1) both.2
      exact ih ⟨_, _, _, rfl, kept ctl, kept shift, kept alt⟩ more on

theorem type_press (s : Held) (key : Byte) (rest : List Stroke) : s.type (.press key :: rest) =
    if (s.press key).has CTL ∧ (s.press key).has ALT ∧ (s.press key).char key = KEY_DEL then ([], s.press key, true)
    else ((s.press key).char key :: ((s.press key).type rest).1, ((s.press key).type rest).2) := rfl

/-- With no two keys of a modifier held at a release, the driver is the keyboard. -/
theorem run_type (alone : s.Alone strokes) (valid : ∀ stroke ∈ strokes, stroke.key &&& 0x7F ≠ 0x60) :
    typedBy s.word (sent strokes) =
      ((s.type strokes).1.filter (· ≠ 0), (s.type strokes).2.1.word, (s.type strokes).2.2) := by
  induction strokes generalizing s with
  | nil => rfl
  | cons stroke strokes ih =>
    have first := valid stroke List.mem_cons_self
    have more := fun x member => valid x (List.mem_cons_of_mem stroke member)
    rw [sent_cons]
    cases stroke with
    | press key =>
      have next := ih (s := s.press key) alone more
      obtain ⟨⟨_,_,_,_,both⟩,_⟩ := bits_tests ((s.press key).has CTL) ((s.press key).has SHIFT) ((s.press key).has ALT)
        (s.press key).caps (s.press key).num (s.press key).scroll
      rw [Held.word_eq s, press_read _ _ _ _ _ _ (show key &&& 0x7F ≠ 0x60 from first), ← word_press]
      unfold pressed
      dsimp only
      rw [char_eq, next, type_press]
      by_cases reboot : (s.press key).has CTL = true ∧ (s.press key).has ALT = true ∧ (s.press key).char key = KEY_DEL
      · rw [if_pos, if_pos reboot]
        · rfl
        · rw [Bool.and_eq_true, decide_eq_true_iff, decide_eq_true_iff]
          exact ⟨both.mpr ⟨reboot.1,reboot.2.1⟩, reboot.2.2⟩
      · rw [if_neg, if_neg reboot]
        · dsimp only
          by_cases zero : (s.press key).char key = 0
          · rw [if_pos zero, List.filter_cons_of_neg (by simpa using zero)]
          · rw [if_neg zero, List.filter_cons_of_pos (by simpa using zero)]
        · rw [Bool.and_eq_true, decide_eq_true_iff, decide_eq_true_iff]
          rintro ⟨down,del⟩
          exact reboot ⟨(both.mp down).1, (both.mp down).2, del⟩
    | release key =>
      have next := ih (s := s.release key) alone.2 more
      have word : (s.release key).word = bits (s.has CTL && !(shiftcode key == CTL)) (s.has SHIFT && !(shiftcode key == SHIFT))
          (s.has ALT && !(shiftcode key == ALT)) s.caps s.num s.scroll := by
        unfold Held.word
        rw [has_release alone.1 (by decide), has_release alone.1 (by decide), has_release alone.1 (by decide)]
        rfl
      rw [Held.word_eq s, release_read _ _ _ _ _ _ (show key &&& 0x7F ≠ 0x60 from first), ← word, next]
      rfl

/-- Whatever is pressed and released, no modifier is stuck and the locks are right; and the characters
    are those of the keys, if no two keys of one modifier are held when one of them is released. -/
theorem keyboard_driver (s : Held) (valid : ∀ stroke ∈ strokes, stroke.key &&& 0x7F ≠ 0x60) :
    ((typedBy s.word (sent strokes)).2.2 = false →
      (∀ modifier ∈ [CTL, SHIFT, ALT], (typedBy s.word (sent strokes)).2.1 &&& modifier ≠ 0 → (s.after strokes).has modifier = true) ∧
      ((typedBy s.word (sent strokes)).2.1 &&& CAPSLOCK ≠ 0 ↔ (s.after strokes).caps = true)) ∧
    (s.Alone strokes → typedBy s.word (sent strokes) =
      ((s.type strokes).1.filter (· ≠ 0), (s.type strokes).2.1.word, (s.type strokes).2.2)) := by
  refine ⟨fun on => ?_, fun alone => run_type alone valid⟩
  obtain ⟨a,b,c,word,ctl,shift,alt⟩ := run_covered (covered_word s) valid on
  obtain ⟨⟨testA,testB,testC,caps,_⟩,_⟩ := bits_tests a b c (s.after strokes).caps (s.after strokes).num (s.after strokes).scroll
  rw [word]
  refine ⟨fun modifier member down => ?_, caps⟩
  simp only [List.mem_cons, List.not_mem_nil, or_false] at member
  rcases member with rfl | rfl | rfl
  · exact ctl (testA.mp down)
  · exact shift (testB.mp down)
  · exact alt (testC.mp down)

def upright : Held := ⟨∅, false, false, false⟩

/-- `H` with the left shift key, then `i`. -/
theorem keyboard_driver_hi : typedBy upright.word (sent [.press 0x2A, .press 0x23, .release 0x23, .release 0x2A, .press 0x17]) =
    ([code 'H', code 'i'], upright.word, false) := by
  have alone : upright.Alone [.press 0x2A, .press 0x23, .release 0x23, .release 0x2A, .press 0x17] := by
    refine ⟨fun some => absurd rfl some, fun _ => ?_, trivial⟩
    decide +kernel
  rw [(keyboard_driver upright (by decide +kernel)).2 alone]
  decide +kernel

/-- With both shift keys held, the release of one ends the capitals. -/
example : (typedBy upright.word (sent [.press 0x2A, .press 0x36, .release 0x36, .press 0x1E])).1 = [code 'a'] ∧
    (upright.type [.press 0x2A, .press 0x36, .release 0x36, .press 0x1E]).1.filter (· ≠ 0) = [code 'A'] := by
  decide +kernel

end Ideal
end JosConsole
