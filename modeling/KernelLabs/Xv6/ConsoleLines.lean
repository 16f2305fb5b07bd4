import KernelLabs.Xv6.Console

/-!
The line discipline of the console as a machine of its own: the lines that are committed,
the line that is being edited, and how much of the lines has been used up. The ring with its
three indices does event by event what this machine does.
-/
namespace ConsoleLines
open Xv6Console RingBuffer Transition

/-- What is typed, and for each read its size and what it has got. -/
structure Tty (P : Type) where
  lines : List Byte
  line : List Byte
  taken : Nat
  reading : P → Option (Nat × List Byte)

section Machine
variable {P : Type} [DecidableEq P]

def Tty.unread (t : Tty P) : List Byte := t.lines.drop t.taken

/-- A line ends with a newline, a control-D, or where the buffer is full. -/
def Tty.ends (t : Tty P) (c : Byte) : Prop :=
  c = newline ∨ c = ctrlD ∨ t.unread.length + t.line.length + 1 = INPUT_BUF

instance (t : Tty P) (c : Byte) : Decidable (t.ends c) := inferInstanceAs (Decidable (_ ∨ _ ∨ _))

def Tty.accept (t : Tty P) (c : Byte) : Tty P :=
  if t.ends c then { t with lines := t.lines ++ t.line ++ [c], line := [] } else { t with line := t.line ++ [c] }

def Tty.type (t : Tty P) (c : Byte) : Tty P :=
  if c = ctrlP then t
  else if c = ctrlU then { t with line := [] }
  else if c = ctrlH ∨ c = delete then { t with line := t.line.dropLast }
  else if c ≠ 0 ∧ t.unread.length + t.line.length < INPUT_BUF then
    t.accept (if c = carriageReturn then newline else c)
  else t

/-- The read has all it asked for, or a whole line. -/
def full (size : Nat) (got : List Byte) : Prop := got.length = size ∨ got.getLast? = some newline

instance (size : Nat) (got : List Byte) : Decidable (full size got) := inferInstanceAs (Decidable (_ ∨ _))

def Tty.stop (t : Tty P) (p : P) (taken : Nat) : Tty P :=
  { t with taken := taken, reading := Function.update t.reading p none }

/-- A read may return when it is full, or at a control-D, which it uses up if it has got nothing. -/
def Tty.close (t : Tty P) (p : P) (size : Nat) (got : List Byte) : Option (Tty P) :=
  if full size got then some (t.stop p t.taken)
  else if t.unread.head? = some ctrlD then some (t.stop p (if got = [] then t.taken + 1 else t.taken))
  else none

def Tty.next (t : Tty P) : Event P → Option (Tty P)
  | .typed c => some (t.type c)
  | .called p n => if t.reading p = none then some { t with reading := Function.update t.reading p (some (n, [])) } else none
  | .delivered p b =>
    match t.reading p with
    | some (size, got) =>
      if ¬ full size got ∧ t.unread.head? = some b ∧ b ≠ ctrlD then
        some { t with taken := t.taken + 1, reading := Function.update t.reading p (some (size, got ++ [b])) }
      else none
    | none => none
  | .returned p k =>
    match t.reading p with
    | some (size, got) => if k = got.length then t.close p size got else none
    | none => none
  | .failed p =>
    match t.reading p with
    | some (size, got) => if ¬ full size got ∧ t.unread = [] then some (t.stop p t.taken) else none
    | none => none

def blank : Tty P := ⟨[], [], 0, fun _ => none⟩

/-- All bytes delivered, by any read. -/
def delivered : List (Event P) → List Byte
  | [] => []
  | .delivered _ b :: rest => b :: delivered rest
  | _ :: rest => delivered rest

end Machine

section Ring
variable {s : Input} {unread line : List Byte}

/-- The ring from `r` to `e` has what is unread and then the line that is being edited. -/
structure Shows (s : Input) (unread line : List Byte) : Prop where
  ring : contents INPUT_BUF ⟨s.buf, s.r, s.e⟩ = unread ++ line
  committed : (s.w - s.r).toNat = unread.length
  room : unread.length + line.length ≤ INPUT_BUF
  plain : newline ∉ line

theorem Shows.count (shows : Shows s unread line) : (s.e - s.r).toNat = unread.length + line.length := by
  have sizes := length_contents INPUT_BUF (⟨s.buf, s.r, s.e⟩ : Buffer Byte 32)
  rw [shows.ring, List.length_append] at sizes
  exact sizes.symm

theorem Shows.edited (shows : Shows s unread line) : s.e ≠ s.w ↔ line ≠ [] := by
  have all := shows.count
  have first := shows.committed
  rw [← List.length_pos_iff]
  bv_omega

theorem Shows.empty (shows : Shows s unread line) : s.r = s.w ↔ unread = [] := by
  have first := shows.committed
  rw [← List.length_eq_zero_iff]
  bv_omega

theorem contents_last (shows : Shows s unread line) {c : Byte} {front : List Byte} (last : line = front ++ [c]) :
    contents INPUT_BUF ⟨s.buf, s.r, s.e - 1⟩ = unread ++ front ∧ s.buf (slot (s.e - 1)) = c := by
  have size := shows.count
  have room := shows.room
  have all := shows.ring
  rw [last, List.length_append, List.length_singleton] at size room
  rw [contents_unpush (n := INPUT_BUF) ⟨s.buf, s.r, s.e⟩ (by decide) (by change 0 < (s.e - s.r).toNat; omega)
    (by change (s.e - s.r).toNat ≤ INPUT_BUF; omega) (by decide), last, ← List.append_assoc] at all
  obtain ⟨before,here⟩ := List.append_inj' all rfl
  exact ⟨before, List.singleton_inj.mp here⟩

/-- The last character of the line is taken back. -/
theorem Shows.erase (shows : Shows s unread line) {c : Byte} {front : List Byte} (last : line = front ++ [c]) :
    Shows { s with e := s.e - 1 } unread front := by
  have room := shows.room
  rw [last, List.length_append] at room
  refine ⟨(contents_last shows last).1, shows.committed, by omega, fun member => shows.plain ?_⟩
  rw [last]
  exact List.mem_append_left _ member

theorem shows_kill (shows : Shows s unread line) {fuel : Nat} (enough : line.length ≤ fuel) :
    Shows (killLine fuel s) unread [] := by
  induction fuel generalizing s line with
  | zero =>
    have none : line = [] := List.length_eq_zero_iff.mp (Nat.le_zero.mp enough)
    exact none ▸ shows
  | succ fuel ih =>
    unfold killLine
    rcases List.eq_nil_or_concat' line with none | ⟨front,c,last⟩
    · rw [if_neg fun test => (shows.edited.mp test.1) none]
      exact none ▸ shows
    · have some : line ≠ [] := by simp [last]
      have char : s.buf (slot (s.e - 1)) ≠ newline := by
        rw [(contents_last shows last).2]
        intro same
        exact shows.plain (by simp [last, same])
      rw [if_pos ⟨shows.edited.mpr some, char⟩]
      refine ih (shows.erase last) ?_
      rw [last, List.length_append, List.length_singleton] at enough
      omega

theorem shows_backspace (shows : Shows s unread line) :
    Shows (if s.e ≠ s.w then { s with e := s.e - 1 } else s) unread line.dropLast := by
  rcases List.eq_nil_or_concat' line with none | ⟨front,c,last⟩
  · rw [if_neg fun test => (shows.edited.mp test) none]
    rw [none] at shows ⊢
    exact shows
  · have some : line ≠ [] := by simp [last]
    rw [if_pos (shows.edited.mpr some), last, List.dropLast_concat]
    exact shows.erase last

/-- A character is stored behind the line. -/
theorem contents_store (shows : Shows s unread line) (c : Byte) (room : unread.length + line.length < INPUT_BUF) :
    contents INPUT_BUF ⟨Function.update s.buf (slot s.e) c, s.r, s.e + 1⟩ = unread ++ (line ++ [c]) := by
  have size := shows.count
  have pushed := contents_push (n := INPUT_BUF) (⟨s.buf, s.r, s.e⟩ : Buffer Byte 32) c (by decide)
    (by change (s.e - s.r).toNat < INPUT_BUF; omega) (by decide)
  rw [shows.ring, List.append_assoc] at pushed
  exact pushed

theorem shows_take (shows : Shows s unread line) {c : Byte} {rest : List Byte} (first : unread = c :: rest) :
    s.buf (slot s.r) = c ∧ Shows { s with r := s.r + 1 } rest line := by
  have size := shows.count
  have committed := shows.committed
  have room := shows.room
  rw [first, List.length_cons] at size committed room
  have popped := contents_pop (n := INPUT_BUF) (⟨s.buf, s.r, s.e⟩ : Buffer Byte 32) (by decide)
    (by change 0 < (s.e - s.r).toNat; omega)
  rw [shows.ring, first, List.cons_append] at popped
  obtain ⟨here,later⟩ := List.cons.inj popped
  refine ⟨here.symm, later.symm, ?_, by omega, shows.plain⟩
  change (s.w - (s.r + 1)).toNat = rest.length
  bv_omega

end Ring

section Typing
variable {P : Type} {s : Input} {t : Tty P}

/-- The bytes used up are among those committed, and the ring shows the rest. -/
structure Displays (s : Input) (t : Tty P) : Prop where
  shows : Shows s t.unread t.line
  inside : t.taken ≤ t.lines.length

theorem displays_accept (displays : Displays s t) (c : Byte) (room : t.unread.length + t.line.length < INPUT_BUF) :
    Displays (if c = newline ∨ c = ctrlD ∨ s.e + 1 = s.r + BitVec.ofNat 32 INPUT_BUF then
        ({ s with buf := Function.update s.buf (slot s.e) c, e := s.e + 1, w := s.e + 1 } : Input)
      else { s with buf := Function.update s.buf (slot s.e) c, e := s.e + 1 }) (t.accept c) := by
  have shows := displays.shows
  have inside := displays.inside
  have size := shows.count
  have committed := shows.committed
  have store := contents_store shows c room
  have last : s.e + 1 = s.r + BitVec.ofNat 32 INPUT_BUF ↔ t.unread.length + t.line.length + 1 = INPUT_BUF := by
    unfold INPUT_BUF at *
    bv_omega
  have test : (c = newline ∨ c = ctrlD ∨ s.e + 1 = s.r + BitVec.ofNat 32 INPUT_BUF) ↔ t.ends c :=
    or_congr_right (or_congr_right last)
  unfold Tty.accept
  by_cases ends : t.ends c
  · rw [if_pos (test.mpr ends), if_pos ends]
    have unread : (t.lines ++ t.line ++ [c]).drop t.taken = t.unread ++ (t.line ++ [c]) := by
      rw [List.append_assoc, List.drop_append_of_le_length inside]
      rfl
    refine ⟨⟨?_, ?_, ?_, List.not_mem_nil⟩, ?_⟩
    · change contents INPUT_BUF _ = (t.lines ++ t.line ++ [c]).drop t.taken ++ []
      rw [List.append_nil, unread]
      exact store
    · change (s.e + 1 - s.r).toNat = ((t.lines ++ t.line ++ [c]).drop t.taken).length
      rw [unread, List.length_append, List.length_append, List.length_singleton]
      unfold INPUT_BUF at room
      bv_omega
    · change ((t.lines ++ t.line ++ [c]).drop t.taken).length + 0 ≤ INPUT_BUF
      rw [unread, List.length_append, List.length_append, List.length_singleton]
      omega
    · change t.taken ≤ (t.lines ++ t.line ++ [c]).length
      rw [List.length_append, List.length_append]
      omega
  · rw [if_neg fun commits => ends (test.mp commits), if_neg ends]
    refine ⟨⟨store, committed, ?_, fun member => ?_⟩, inside⟩
    · change t.unread.length + (t.line ++ [c]).length ≤ INPUT_BUF
      rw [List.length_append, List.length_singleton]
      omega
    · rcases List.mem_append.mp member with earlier | same
      · exact shows.plain earlier
      · exact ends (Or.inl (List.mem_singleton.mp same).symm)

theorem displays_type (displays : Displays s t) (c : Byte) : Displays (consoleintrOne s c).1 (t.type c) := by
  have shows := displays.shows
  have size := shows.count
  unfold consoleintrOne Tty.type
  by_cases list : c = ctrlP
  · rw [if_pos list, if_pos list]
    exact displays
  rw [if_neg list, if_neg list]
  by_cases kill : c = ctrlU
  · rw [if_pos kill, if_pos kill]
    refine ⟨shows_kill shows ?_, displays.inside⟩
    have committed := shows.committed
    have room := shows.room
    unfold INPUT_BUF at room
    bv_omega
  rw [if_neg kill, if_neg kill]
  by_cases back : c = ctrlH ∨ c = delete
  · rw [if_pos back, if_pos back]
    exact ⟨shows_backspace shows, displays.inside⟩
  rw [if_neg back, if_neg back]
  by_cases taken : c ≠ 0 ∧ t.unread.length + t.line.length < INPUT_BUF
  · rw [if_pos (by rwa [size]), if_pos taken]
    generalize (if c = carriageReturn then newline else c) = char
    have accepted := displays_accept displays char taken.2
    dsimp only
    by_cases commits : char = newline ∨ char = ctrlD ∨ s.e + 1 = s.r + BitVec.ofNat 32 INPUT_BUF
    · rw [if_pos commits] at accepted ⊢
      exact accepted
    · rw [if_neg commits] at accepted ⊢
      exact accepted
  · rw [if_neg (by rwa [size]), if_neg taken]
    exact displays

end Typing

section Reading
variable {P : Type} [DecidableEq P] {p : P} {s : Input} {t : Tty P} {c : Byte} {target n : Nat} {got rest : List Byte}

omit [DecidableEq P] in
theorem unread_rest (first : t.unread = c :: rest) : t.lines.drop (t.taken + 1) = rest ∧ t.taken + 1 ≤ t.lines.length := by
  constructor
  · rw [← List.tail_drop]
    exact congrArg List.tail first
  · have size := congrArg List.length first
    unfold Tty.unread at size
    rw [List.length_drop, List.length_cons] at size
    omega

omit [DecidableEq P] in
/-- The first unread byte is used up. -/
theorem displays_take (displays : Displays s t) (first : t.unread = c :: rest) (reading : P → Option (Nat × List Byte)) :
    s.buf (slot s.r) = c ∧ Displays { s with r := s.r + 1 } { t with taken := t.taken + 1, reading := reading } := by
  obtain ⟨here,shows⟩ := shows_take displays.shows first
  obtain ⟨later,inside⟩ := unread_rest first
  refine ⟨here, ⟨?_, inside⟩⟩
  change Shows _ (t.lines.drop (t.taken + 1)) t.line
  rw [later]
  exact shows

omit [DecidableEq P] in
theorem displays_reading (displays : Displays s t) (reading : P → Option (Nat × List Byte)) :
    Displays s { t with reading := reading } := ⟨displays.shows, displays.inside⟩

/-- What a read that has `n` bytes to go has got so far. -/
structure Ready (target n : Nat) (got : List Byte) : Prop where
  sum : n + got.length = target
  open_line : got.getLast? ≠ some newline

theorem Ready.not_full (ready : Ready target (n + 1) got) : ¬ full target got := by
  rintro (all | line)
  · have sum := ready.sum
    omega
  · exact ready.open_line line

theorem next_delivered (reading : t.reading p = some (target, got)) (ready : ¬ full target got)
    (first : t.unread = c :: rest) (char : c ≠ ctrlD) : t.next (.delivered p c) =
      some { t with taken := t.taken + 1, reading := Function.update t.reading p (some (target, got ++ [c])) } := by
  have head : t.unread.head? = some c := by rw [first, List.head?_cons]
  simp only [Tty.next, reading]
  rw [if_pos ⟨ready,head,char⟩]

theorem next_returned_full (reading : t.reading p = some (target, got)) (whole : full target got) :
    t.next (.returned p got.length) = some (t.stop p t.taken) := by
  simp only [Tty.next, reading, ↓reduceIte]
  unfold Tty.close
  rw [if_pos whole]

/-- A read that meets a control-D. -/
theorem next_returned_eof (reading : t.reading p = some (target, got)) (ready : ¬ full target got)
    (first : t.unread = ctrlD :: rest) :
    t.next (.returned p got.length) = some (t.stop p (if got = [] then t.taken + 1 else t.taken)) := by
  have head : t.unread.head? = some ctrlD := by rw [first, List.head?_cons]
  simp only [Tty.next, reading, ↓reduceIte]
  unfold Tty.close
  rw [if_neg ready, if_pos head]

theorem next_failed (reading : t.reading p = some (target, got)) (ready : ¬ full target got) (none : t.unread = []) :
    t.next (.failed p) = some (t.stop p t.taken) := by
  simp only [Tty.next, reading]
  rw [if_pos ⟨ready,none⟩]

/-- What the line discipline keeps of a read. -/
def left (target : Nat) : Outcome → Option (Nat × List Byte)
  | .sleeps _ got => some (target, got)
  | _ => none

/-- The machine has done the events of a piece of `consoleread`. -/
structure Follows (p : P) (target : Nat) (got : List Byte) (t : Tty P) (s : Input) (out : Outcome) : Prop where
  run : ∃ more u, out.got = got ++ more ∧ System.exec Tty.next t (more.map (.delivered p) ++ out.closing p target) = some u ∧
    Displays s u ∧ u.reading = Function.update t.reading p (left target out)
  ready : ∀ n got', out = .sleeps (n + 1) got' → Ready target (n + 1) got'
  awake : ∀ got', out ≠ .sleeps 0 got'

theorem follows_stop {out : Outcome} {more : List Byte} {u v : Tty P} (stored : out.got = got ++ more)
    (first : System.exec Tty.next t (more.map (.delivered p)) = some u)
    (closing : System.exec Tty.next u (out.closing p target) = some v) (displays : Displays s v)
    (reading : v.reading = Function.update t.reading p none) (stops : left target out = none) :
    Follows p target got t s out := by
  refine ⟨⟨more, v, stored, ?_, displays, by rw [stops]; exact reading⟩, fun n got' same => ?_, fun got' same => ?_⟩
  · rw [System.exec_append, first]
    exact closing
  · rw [same] at stops
    cases stops
  · rw [same] at stops
    cases stops

theorem readLoop_follows (killed : Bool) (displays : Displays s t) (reading : t.reading p = some (target, got))
    (ready : Ready target n got) :
    Follows p target got t (readLoop killed target n s got).1 (readLoop killed target n s got).2 := by
  induction n generalizing s t got with
  | zero =>
    have whole : full target got := Or.inl (by rw [← ready.sum, Nat.zero_add])
    have size : target - 0 = got.length := by rw [← ready.sum]; omega
    unfold readLoop
    refine @follows_stop _ _ _ _ _ _ _ _ [] _ _ (List.append_nil _).symm rfl ?_ (displays_reading displays _) rfl rfl
    simp only [Outcome.closing, System.exec, size, next_returned_full reading whole, Option.bind_some]
    rfl
  | succ n ih =>
    have unfull := ready.not_full
    have size : target - (n + 1) = got.length := by
      have sum := ready.sum
      omega
    unfold readLoop
    by_cases none : s.r = s.w
    · have empty := displays.shows.empty.mp none
      rw [if_pos none]
      by_cases dead : killed = true
      · rw [if_pos dead]
        refine @follows_stop _ _ _ _ _ _ _ _ [] _ _ (List.append_nil _).symm rfl ?_ (displays_reading displays _) rfl rfl
        simp only [Outcome.closing, System.exec, next_failed reading unfull empty, Option.bind_some]
        rfl
      · rw [if_neg dead]
        refine ⟨⟨[], t, (List.append_nil _).symm, rfl, displays, ?_⟩, fun m got' same => ?_, fun got' same => ?_⟩
        · change t.reading = Function.update t.reading p (some (target, got))
          rw [← reading, Function.update_eq_self]
        · cases same
          exact ready
        · cases same
    · rw [if_neg none]
      obtain ⟨c,rest,first⟩ := List.exists_cons_of_ne_nil fun empty => none (displays.shows.empty.mpr empty)
      dsimp only
      rw [(displays_take displays first t.reading).1]
      by_cases eof : c = ctrlD
      · subst eof
        rw [if_pos rfl]
        refine @follows_stop _ _ _ _ _ _ _ _ [] t (t.stop p (if got = [] then t.taken + 1 else t.taken))
          (List.append_nil _).symm rfl ?_ ?_ rfl rfl
        · simp only [Outcome.closing, System.exec, size, next_returned_eof reading unfull first, Option.bind_some]
        · by_cases nothing : got = []
          · have whole : ¬ n + 1 < target := by
              have sum := ready.sum
              rw [nothing, List.length_nil] at sum
              omega
            rw [if_neg whole, if_pos nothing]
            exact (displays_take displays first _).2
          · have part : n + 1 < target := by
              have sum := ready.sum
              have pos := List.length_pos_iff.mpr nothing
              omega
            rw [if_pos part, if_neg nothing, BitVec.add_sub_cancel]
            exact displays_reading displays _
      · rw [if_neg eof]
        have moved := (displays_take displays first (Function.update t.reading p (some (target, got ++ [c])))).2
        have step := next_delivered reading unfull first eof
        have here : (Function.update t.reading p (some (target, got ++ [c]))) p = some (target, got ++ [c]) :=
          Function.update_self _ _ _
        generalize later : ({ t with taken := t.taken + 1, reading := Function.update t.reading p (some (target, got ++ [c])) } :
          Tty P) = u at moved step
        have mine : u.reading p = some (target, got ++ [c]) := by rw [← later]; exact here
        have others : ∀ x, Function.update u.reading p x = Function.update t.reading p x := by
          intro x
          rw [← later]
          exact Function.update_idem _ _ _
        have longer : (got ++ [c]).length = target - n := by
          have sum := ready.sum
          rw [List.length_append, List.length_singleton]
          omega
        by_cases line : c = newline
        · rw [if_pos line]
          have whole : full target (got ++ [c]) := Or.inr (by rw [List.getLast?_concat, line])
          refine @follows_stop _ _ _ _ _ _ _ _ [c] u (u.stop p u.taken) rfl ?_ ?_ (displays_reading moved _) (others _) rfl
          · simp only [List.map_cons, List.map_nil, System.exec, step, Option.bind_some]
          · simp only [Outcome.closing, System.exec, ← longer, next_returned_full mine whole, Option.bind_some]
        · rw [if_neg line]
          have ready' : Ready target n (got ++ [c]) := by
            refine ⟨by have sum := ready.sum; rw [longer]; omega, ?_⟩
            rw [List.getLast?_concat, ne_eq, Option.some.injEq]
            exact line
          obtain ⟨⟨more,v,stored,run,shown,kept⟩,ready'',awake⟩ := ih moved mine ready'
          refine ⟨⟨c :: more, v, ?_, ?_, shown, ?_⟩, ready'', awake⟩
          · rw [stored, List.append_assoc]
            rfl
          · simp only [List.map_cons, List.cons_append, System.exec, step, Option.bind_some]
            exact run
          · rw [kept, others]

end Reading

section Runs
variable {P : Type} [DecidableEq P] {s : State P} {t : Tty P} {p : P} {events : List (Event P)}

structure Related (s : State P) (t : Tty P) : Prop where
  displays : Displays s.input t
  readers : ∀ p, t.reading p = (s.reader p).map fun rd => (rd.target, rd.got)
  ready : ∀ p rd, s.reader p = some rd → Ready rd.target rd.n rd.got

omit [DecidableEq P] in
/-- A character typed uses up nothing, and the lines that are committed stay. -/
theorem type_keeps (t : Tty P) (c : Byte) :
    (t.type c).reading = t.reading ∧ (t.type c).taken = t.taken ∧ t.lines <+: (t.type c).lines := by
  have same : t.lines <+: t.lines := List.prefix_rfl
  unfold Tty.type Tty.accept
  by_cases list : c = ctrlP
  · rw [if_pos list]
    exact ⟨rfl, rfl, same⟩
  rw [if_neg list]
  by_cases kill : c = ctrlU
  · rw [if_pos kill]
    exact ⟨rfl, rfl, same⟩
  rw [if_neg kill]
  by_cases back : c = ctrlH ∨ c = delete
  · rw [if_pos back]
    exact ⟨rfl, rfl, same⟩
  rw [if_neg back]
  by_cases taken : c ≠ 0 ∧ t.unread.length + t.line.length < INPUT_BUF
  · rw [if_pos taken]
    generalize (if c = carriageReturn then newline else c) = char
    by_cases ends : t.ends char
    · rw [if_pos ends]
      refine ⟨rfl, rfl, ?_⟩
      rw [List.append_assoc]
      exact List.prefix_append _ _
    · rw [if_neg ends]
      exact ⟨rfl, rfl, same⟩
  · rw [if_neg taken]
    exact ⟨rfl, rfl, same⟩

theorem consoleintr_follows (related : Related s t) (chars : List Byte) :
    ∃ u, System.exec Tty.next t (chars.map .typed) = some u ∧ Related (consoleintr s chars) u := by
  induction chars generalizing s t with
  | nil => exact ⟨t, rfl, related⟩
  | cons c rest ih =>
    have typed : Related { s with
        input := (consoleintrOne s.input c).1, asleep := fun p => s.asleep p && !(consoleintrOne s.input c).2 } (t.type c) := by
      refine ⟨displays_type related.displays c, fun p => ?_, related.ready⟩
      rw [(type_keeps t c).1]
      exact related.readers p
    exact ih typed

/-- The others keep what they read, and `p` has `r` now. -/
theorem related_reader (related : ∀ q, q ≠ p → t.reading q = (s.reader q).map (fun rd => (rd.target, rd.got)) ∧
      ∀ rd, s.reader q = some rd → Ready rd.target rd.n rd.got)
    {input : Input} {u : Tty P} (displays : Displays input u) {r : Option Reader}
    (kept : u.reading = Function.update t.reading p (r.map fun rd => (rd.target, rd.got)))
    (ready : ∀ rd, r = some rd → Ready rd.target rd.n rd.got) (asleep : P → Bool) :
    Related { s with input := input, reader := Function.update s.reader p r, asleep := asleep } u := by
  refine ⟨displays, fun q => ?_, fun q rd here => ?_⟩
  · rw [kept]
    dsimp only
    by_cases same : q = p
    · rw [same, Function.update_self, Function.update_self]
    · rw [Function.update_of_ne same, Function.update_of_ne same]
      exact (related q same).1
  · dsimp only at here
    by_cases same : q = p
    · rw [same, Function.update_self] at here
      exact ready rd here
    · rw [Function.update_of_ne same] at here
      exact (related q same).2 rd here

theorem proceed_follows (displays : Displays s.input t)
    (related : ∀ q, q ≠ p → t.reading q = (s.reader q).map (fun rd => (rd.target, rd.got)) ∧
      ∀ rd, s.reader q = some rd → Ready rd.target rd.n rd.got)
    {rd : Reader} (reading : t.reading p = some (rd.target, rd.got)) (ready : Ready rd.target rd.n rd.got) :
    ∃ u, System.exec Tty.next t (proceedEvents s p rd) = some u ∧ Related (proceed s p rd) u := by
  have follows := readLoop_follows (p := p) (s.killed p) displays reading ready
  unfold proceedEvents readEvents proceed
  generalize readLoop (s.killed p) rd.target rd.n s.input rd.got = piece at follows ⊢
  obtain ⟨input,out⟩ := piece
  obtain ⟨⟨more,u,stored,run,shown,kept⟩,goes,awake⟩ := follows
  dsimp only at stored run shown kept goes awake ⊢
  rw [stored, List.drop_left]
  refine ⟨u, run, ?_⟩
  cases out with
  | sleeps n got =>
    refine related_reader (r := some { rd with n := n, got := got }) related shown kept (fun rd' here => ?_) _
    cases here
    cases n with
    | zero => exact absurd rfl (awake got)
    | succ n => exact goes n got rfl
  | returns n got => exact related_reader (r := none) related shown kept (fun rd' here => by cases here) _
  | fails got => exact related_reader (r := none) related shown kept (fun rd' here => by cases here) _

theorem step_follows (related : Related s t) {a : Action P} {s' : State P} (run : step s a = some s') :
    ∃ u, System.exec Tty.next t (emit s a) = some u ∧ Related s' u := by
  cases a with
  | intr chars =>
    cases run
    exact consoleintr_follows related chars
  | read p n =>
    simp only [step, Option.ite_none_right_eq_some, Option.some.injEq] at run
    obtain ⟨idle,rfl⟩ := run
    have free : t.reading p = none := by rw [related.readers p, idle, Option.map_none]
    have called : t.next (.called p n) = some { t with reading := Function.update t.reading p (some (n, [])) } := by
      simp only [Tty.next, free, ↓reduceIte]
    have reading : (Function.update t.reading p (some (n, []))) p = some (n, []) := Function.update_self _ _ _
    obtain ⟨u,goes,after⟩ := @proceed_follows _ _ _ _ _ (displays_reading related.displays _)
      (fun q other => ⟨(Function.update_of_ne other _ _).trans (related.readers q), related.ready q⟩) ⟨n, n, []⟩ reading
      ⟨rfl, by simp⟩
    refine ⟨u, ?_, after⟩
    simp only [emit, System.exec, called, Option.bind_some]
    exact goes
  | resume p =>
    simp only [step] at run
    cases place : s.reader p with
    | none =>
      rw [place] at run
      cases run
    | some rd =>
      rw [place] at run
      simp only [Option.ite_none_left_eq_some, Option.some.injEq] at run
      obtain ⟨_,rfl⟩ := run
      have reading : t.reading p = some (rd.target, rd.got) := by rw [related.readers p, place, Option.map_some]
      simp only [emit, place]
      exact proceed_follows related.displays (fun q _ => ⟨related.readers q, related.ready q⟩) reading (related.ready p rd place)
  | kill p =>
    cases run
    exact ⟨t, rfl, related.displays, related.readers, related.ready⟩

omit [DecidableEq P] in
theorem start_related (start : Start s) : Related s blank := by
  obtain ⟨same,same',idle⟩ := start
  refine ⟨⟨⟨?_, ?_, Nat.zero_le _, List.not_mem_nil⟩, Nat.le_refl 0⟩, fun p => ?_, fun p rd here => ?_⟩
  · change contents INPUT_BUF ⟨s.input.buf, s.input.r, s.input.e⟩ = []
    rw [← List.length_eq_zero_iff, length_contents, count_zero]
    exact same.trans same'
  · change (s.input.w - s.input.r).toNat = 0
    rw [same, BitVec.sub_self]
    rfl
  · rw [idle p]
    rfl
  · rw [idle p] at here
    cases here

/-- What is delivered is what is used up, but for the control-Ds. -/
structure Accounts (t : Tty P) (events : List (Event P)) (u : Tty P) : Prop where
  bytes : (t.lines.take t.taken).filter (· != ctrlD) ++ delivered events = (u.lines.take u.taken).filter (· != ctrlD)
  lines : t.lines <+: u.lines
  inside : u.taken ≤ u.lines.length

omit [DecidableEq P] in
theorem take_next {c : Byte} (first : t.unread.head? = some c) : t.lines.take (t.taken + 1) = t.lines.take t.taken ++ [c] ∧
    t.taken + 1 ≤ t.lines.length := by
  obtain ⟨rest,split⟩ := List.head?_eq_some_iff.mp first
  refine ⟨?_, (unread_rest split).2⟩
  have here : t.lines[t.taken]? = some c := by
    unfold Tty.unread at first
    rwa [List.head?_drop] at first
  rw [List.take_add_one, here]
  rfl

theorem next_accounts {u : Tty P} {ev : Event P} (inside : t.taken ≤ t.lines.length) (run : t.next ev = some u) :
    Accounts t [ev] u := by
  have still : Accounts t [] t := ⟨List.append_nil _, List.prefix_rfl, inside⟩
  cases ev with
  | typed c =>
    cases run
    obtain ⟨_,same,longer⟩ := type_keeps t c
    refine ⟨?_, longer, by rw [same]; exact Nat.le_trans inside longer.length_le⟩
    change _ ++ [] = _
    rw [same, List.append_nil, List.prefix_iff_eq_take.mp longer, List.take_take, Nat.min_eq_left inside]
  | called p n =>
    simp only [Tty.next, Option.ite_none_right_eq_some, Option.some.injEq] at run
    obtain ⟨_,rfl⟩ := run
    exact ⟨still.bytes, still.lines, inside⟩
  | delivered p b =>
    simp only [Tty.next] at run
    split at run
    · simp only [Option.ite_none_right_eq_some, Option.some.injEq] at run
      obtain ⟨⟨_,first,char⟩,rfl⟩ := run
      obtain ⟨next,within⟩ := take_next first
      refine ⟨?_, List.prefix_rfl, within⟩
      change _ ++ [b] = (t.lines.take (t.taken + 1)).filter _
      rw [next, List.filter_append, List.filter_cons_of_pos (by simpa using char), List.filter_nil]
    · cases run
  | returned p k =>
    simp only [Tty.next] at run
    split at run
    · simp only [Option.ite_none_right_eq_some] at run
      obtain ⟨_,run⟩ := run
      unfold Tty.close at run
      split at run
      · cases run
        exact ⟨still.bytes, still.lines, inside⟩
      · simp only [Option.ite_none_right_eq_some, Option.some.injEq] at run
        obtain ⟨first,rfl⟩ := run
        obtain ⟨next,within⟩ := take_next first
        split
        · refine ⟨?_, List.prefix_rfl, within⟩
          change _ ++ [] = (t.lines.take (t.taken + 1)).filter _
          rw [next, List.filter_append, List.filter_cons_of_neg (by simp), List.filter_nil]
        · exact ⟨still.bytes, still.lines, inside⟩
    · cases run
  | failed p =>
    simp only [Tty.next] at run
    split at run
    · simp only [Option.ite_none_right_eq_some, Option.some.injEq] at run
      obtain ⟨_,rfl⟩ := run
      exact ⟨still.bytes, still.lines, inside⟩
    · cases run

omit [DecidableEq P] in
theorem delivered_cons (ev : Event P) (events : List (Event P)) :
    delivered (ev :: events) = delivered [ev] ++ delivered events := by
  cases ev <;> rfl

theorem run_accounts {u : Tty P} (inside : t.taken ≤ t.lines.length) (run : System.exec Tty.next t events = some u) :
    Accounts t events u := by
  induction events generalizing t with
  | nil =>
    cases run
    exact ⟨List.append_nil _, List.prefix_rfl, inside⟩
  | cons ev events ih =>
    simp only [System.exec, Option.bind_eq_some_iff] at run
    obtain ⟨v,first,run⟩ := run
    have one := next_accounts inside first
    have more := ih one.inside run
    refine ⟨?_, one.lines.trans more.lines, more.inside⟩
    rw [delivered_cons, ← List.append_assoc, one.bytes, more.bytes]

/-- The events of a run are those of the line discipline. All bytes delivered are, in order, the
    committed bytes that are used up, less the control-Ds; what is committed is never edited. -/
theorem console_lines {origin s : State P} (run : (system P).Emits System.Free emit origin events s) :
    ∃ t : Tty P, System.exec Tty.next blank events = some t ∧ Displays s.input t ∧
      (s.input.w - s.input.r).toNat ≤ (s.input.e - s.input.r).toNat ∧ (s.input.e - s.input.r).toNat ≤ INPUT_BUF ∧
      delivered events = (t.lines.take t.taken).filter (· != ctrlD) ∧
      ∀ first more, events = first ++ more → ∃ u : Tty P, System.exec Tty.next blank first = some u ∧ u.lines <+: t.lines := by
  obtain ⟨t,done,related⟩ := System.emits_simulation Tty.next blank Related start_related
    (fun _ _ _ _ related _ step => step_follows related step) run
  have accounts := run_accounts (Nat.le_refl 0) done
  have size := related.displays.shows.count
  have committed := related.displays.shows.committed
  have room := related.displays.shows.room
  refine ⟨t, done, related.displays, by omega, by omega, accounts.bytes, fun first more split => ?_⟩
  rw [split, System.exec_append, Option.bind_eq_some_iff] at done
  obtain ⟨u,before,after⟩ := done
  exact ⟨u, before, (run_accounts (run_accounts (Nat.le_refl 0) before).inside after).lines⟩

end Runs

def ready : State Unit := ⟨⟨fun _ => 0, 0xfffffffe, 0xfffffffe, 0xfffffffe⟩, fun _ => none, fun _ => false, fun _ => false⟩

/-- `ab`, a backspace, `c`, a newline and a control-D are typed, and two calls read 8 bytes each. -/
def typing : List (Action Unit) :=
  [.read () 8, .intr [97, 98, 0x7f, 99, 13, 4], .resume (), .read () 8]

theorem console_lines_typing : ∃ s, System.exec step ready typing = some s ∧
    delivered (System.trace step emit ready typing) = [97, 99, 10] ∧ s.input.r = 2 ∧
    ∃ t : Tty Unit, System.exec Tty.next blank (System.trace step emit ready typing) = some t ∧ Displays s.input t ∧
      (s.input.w - s.input.r).toNat ≤ (s.input.e - s.input.r).toNat ∧ (s.input.e - s.input.r).toNat ≤ INPUT_BUF ∧
      delivered (System.trace step emit ready typing) = (t.lines.take t.taken).filter (· != ctrlD) ∧
      ∀ first more, System.trace step emit ready typing = first ++ more →
        ∃ u : Tty Unit, System.exec Tty.next blank first = some u ∧ u.lines <+: t.lines := by
  cases run : System.exec step ready typing with
  | none => exact absurd (congrArg Option.isSome run) (by decide)
  | some s =>
    have emits := @System.exec_emits _ _ (system Unit) _ _ emit _ _ _ _ typing (fun _ _ _ => trivial)
      (.start ⟨rfl, rfl, fun _ => rfl⟩) run
    refine ⟨s, rfl, by decide, ?_, console_lines emits⟩
    have place : (System.exec step ready typing).map (fun s => s.input.r) = some 2 := by decide
    rw [run] at place
    exact Option.some.inj place

end ConsoleLines
