import KernelLabs.Jos.MonitorArgs

/-!
What a session at the monitor does: the characters that the ring does not lose are edited to
lines, each line is run word for word, and the screen shows the line as it will be run.
-/
namespace JosConsole
open Screen RingBuffer Transition Words

section Ring
variable {s : Cons} {q : List Byte} {c : Byte}

def Cons.ring (s : Cons) : Buffer Byte 9 := ⟨s.buf, BitVec.ofNat 9 s.rpos, BitVec.ofNat 9 s.wpos⟩

structure Cons.Inside (s : Cons) : Prop where
  rpos : s.rpos < CONSBUFSIZE
  wpos : s.wpos < CONSBUFSIZE

def unread (s : Cons) : List Byte := contents CONSBUFSIZE s.ring

/-- The ring is empty again when it gets one character too many. -/
def enqueue (q : List Byte) (c : Byte) : List Byte := if q.length + 1 = CONSBUFSIZE then [] else q ++ [c]

theorem wrapped_lt {pos : Nat} (inside : pos < CONSBUFSIZE) : wrapped pos < CONSBUFSIZE := by
  unfold wrapped CONSBUFSIZE at *
  split <;> omega

theorem ofNat_wrapped (pos : Nat) : BitVec.ofNat 9 (wrapped pos) = BitVec.ofNat 9 pos + 1 := by
  unfold wrapped CONSBUFSIZE
  split
  · rename_i last
    rw [show pos = 511 by omega]
    rfl
  · rw [BitVec.ofNat_add]
    rfl

theorem ofNat_toNat {pos : Nat} (inside : pos < CONSBUFSIZE) : (BitVec.ofNat 9 pos).toNat = pos :=
  (BitVec.toNat_ofNat ..).trans (Nat.mod_eq_of_lt inside)

theorem store_ring (inside : s.Inside) (c : Byte) : (s.store c).ring = push CONSBUFSIZE s.ring c := by
  unfold Cons.store Cons.ring push
  rw [ofNat_toNat inside.wpos, Nat.mod_eq_of_lt inside.wpos, ofNat_wrapped]

theorem unread_store (inside : s.Inside) (c : Byte) : (s.store c).Inside ∧ unread (s.store c) = enqueue (unread s) c := by
  refine ⟨⟨inside.rpos, wrapped_lt inside.wpos⟩, ?_⟩
  have size := length_contents CONSBUFSIZE s.ring
  have most : count s.ring < 2 ^ 9 := BitVec.isLt _
  unfold unread enqueue
  rw [store_ring inside, size]
  by_cases last : count s.ring + 1 = CONSBUFSIZE
  · rw [if_pos last]
    exact contents_over _ _ last
  · rw [if_neg last]
    unfold CONSBUFSIZE at *
    exact contents_push_fits _ _ (by decide) (by omega) (by omega)

theorem unread_intr (inside : s.Inside) (chars : List Byte) :
    (consIntr s chars).Inside ∧ unread (consIntr s chars) = (chars.filter (· ≠ 0)).foldl enqueue (unread s) := by
  induction chars generalizing s with
  | nil => exact ⟨inside,rfl⟩
  | cons c chars ih =>
    by_cases zero : c = 0
    · have skip : consIntr s (c :: chars) = consIntr s chars := by
        change List.foldl _ (if c = 0 then s else s.store c) chars = _
        rw [if_pos zero]
        rfl
      rw [skip, List.filter_cons_of_neg (by simpa using zero)]
      exact ih inside
    · have more : consIntr s (c :: chars) = consIntr (s.store c) chars := by
        change List.foldl _ (if c = 0 then s else s.store c) chars = _
        rw [if_neg zero]
        rfl
      obtain ⟨still,now⟩ := unread_store inside c
      rw [more, List.filter_cons_of_pos (by simpa using zero), List.foldl_cons, ← now]
      exact ih still

theorem enqueue_plain {chars : List Byte} (plain : 0 ∉ q) (more : 0 ∉ chars) : 0 ∉ chars.foldl enqueue q := by
  induction chars generalizing q with
  | nil => exact plain
  | cons c chars ih =>
    refine ih ?_ fun member => more (List.mem_cons_of_mem c member)
    unfold enqueue
    split
    · exact List.not_mem_nil
    · intro member
      rcases List.mem_append.mp member with old | new
      · exact plain old
      · rw [List.mem_singleton] at new
        exact more (new ▸ List.mem_cons_self)

theorem unread_empty (inside : s.Inside) : s.rpos = s.wpos ↔ unread s = [] := by
  rw [← List.length_eq_zero_iff, unread, length_contents, count_zero]
  unfold Cons.ring
  rw [← BitVec.toNat_inj, ofNat_toNat inside.rpos, ofNat_toNat inside.wpos]

theorem unread_take (inside : s.Inside) (some : s.rpos ≠ s.wpos) :
    unread s = s.buf s.rpos :: unread { s with rpos := wrapped s.rpos } := by
  have pos : 0 < count s.ring := by
    rw [← length_contents CONSBUFSIZE, List.length_pos_iff]
    exact fun none => some ((unread_empty inside).mpr none)
  have cut := contents_pop s.ring (n := CONSBUFSIZE) (by decide) pos
  unfold unread
  rw [cut]
  unfold head pop Cons.ring
  dsimp only
  rw [ofNat_toNat inside.rpos, Nat.mod_eq_of_lt inside.rpos, ofNat_wrapped]

end Ring

section Getc
variable {s : Console}

/-- What is in the ring when `cons_getc` has read the devices. -/
def offered (s : Console) : List Byte := (incoming s).foldl enqueue (unread s.cons)

theorem kbd_serial (s : Console) (inside : s.cons.Inside) : (kbdIntr (serialIntr s)).cons.Inside ∧
    unread (kbdIntr (serialIntr s)).cons = offered s := by
  have serial : (serialIntr s).cons.Inside ∧ unread (serialIntr s).cons =
      ((if s.serialExists then s.serial else []).filter (· ≠ 0)).foldl enqueue (unread s.cons) ∧
      (serialIntr s).shift = s.shift ∧ (serialIntr s).kbd = s.kbd := by
    unfold serialIntr
    split
    · obtain ⟨still,now⟩ := unread_intr inside s.serial
      exact ⟨still, now, rfl, rfl⟩
    · exact ⟨inside, rfl, rfl, rfl⟩
  obtain ⟨inside',now,shift,kbd⟩ := serial
  obtain ⟨still,after⟩ := unread_intr inside' (kbdRead s.shift s.kbd).1
  unfold offered incoming
  rw [List.filter_append, List.foldl_append, ← now, ← after]
  unfold kbdIntr
  rw [shift, kbd]
  exact ⟨still,rfl⟩

/-- The next character, or 0 if there is none or the machine is off. -/
theorem consGetc_spec (inside : s.cons.Inside) (plain : 0 ∉ unread s.cons) :
    (consGetc s).1.cons.Inside ∧ 0 ∉ unread (consGetc s).1.cons ∧ (consGetc s).1.crt = s.crt ∧
    ((consGetc s).2 = 0 ∧ unread (consGetc s).1.cons = offered s ∨
      (consGetc s).2 ≠ 0 ∧ offered s = (consGetc s).2 :: unread (consGetc s).1.cons) := by
  obtain ⟨still,now⟩ := kbd_serial s inside
  have clean : 0 ∉ offered s := enqueue_plain plain fun member => by
    unfold incoming at member
    simpa using (List.mem_filter.mp member).2
  have screen : (kbdIntr (serialIntr s)).crt = s.crt := by
    change (serialIntr s).crt = s.crt
    unfold serialIntr
    split <;> rfl
  unfold consGetc
  dsimp only
  generalize kbdIntr (serialIntr s) = t at *
  split
  · rename_i some
    have cut := unread_take still some.1
    rw [now] at cut
    refine ⟨⟨wrapped_lt still.rpos, still.wpos⟩, fun member => clean ?_, screen, .inr ⟨fun zero => clean ?_, cut⟩⟩
    · rw [cut]
      exact List.mem_cons_of_mem _ member
    · rw [cut]
      exact zero ▸ List.mem_cons_self
  · exact ⟨still, now ▸ clean, screen, .inl ⟨rfl,now⟩⟩

end Getc

section Display
variable {s : Crt} {l : List Byte} {c : Byte}

def cell (c : Byte) : BitVec 16 := 0x0700 ||| c.setWidth 16

theorem settle_pos (inside : s.pos ≤ CRT_SIZE) : (settle s).pos < CRT_SIZE := by
  unfold settle
  split
  · change s.pos - CRT_COLS < CRT_SIZE
    unfold CRT_SIZE CRT_COLS at *
    omega
  · rename_i below
    exact Nat.lt_of_not_le below

theorem advance_pos (inside : s.pos < CRT_SIZE) (c : BitVec 32) : (advance s c).pos ≤ CRT_SIZE := by
  unfold advance
  split
  · split
    · exact Nat.le_of_lt (Nat.lt_of_le_of_lt (Nat.sub_le s.pos 1) inside)
    · exact Nat.le_of_lt inside
  · change s.pos + CRT_COLS - (s.pos + CRT_COLS) % CRT_COLS ≤ CRT_SIZE
    unfold CRT_SIZE CRT_COLS at *
    omega
  · exact Nat.le_of_lt (Nat.lt_of_le_of_lt (Nat.sub_le s.pos _) inside)
  · exact inside

/-- The cursor stays on the screen. -/
theorem cgaPutc_pos (inside : s.pos < CRT_SIZE) (c : BitVec 32) : (cgaPutc s c).pos < CRT_SIZE := by
  have blanks : ∀ n, ((fun s => settle (advance s (colored 0x20)))^[n] s).pos < CRT_SIZE := by
    intro n
    induction n with
    | zero => exact inside
    | succ n ih =>
      rw [Function.iterate_succ_apply']
      exact settle_pos (advance_pos ih _)
  unfold cgaPutc
  dsimp only
  split
  · exact settle_pos (Nat.le_of_lt (blanks 5))
  · exact settle_pos (advance_pos inside _)

theorem cgaPutc_char (high : 0x20 ≤ c) : cgaPutc s (c.setWidth 32) = settle (put s (cell c)) := by
  have plain : ∀ c : Byte, 0x20 ≤ c → ¬ colored (c.setWidth 32) &&& 0xff = 9 ∧
      (colored (c.setWidth 32) &&& 0xff).toNat ≠ 8 ∧ (colored (c.setWidth 32) &&& 0xff).toNat ≠ 10 ∧
      (colored (c.setWidth 32) &&& 0xff).toNat ≠ 13 ∧ (colored (c.setWidth 32)).setWidth 16 = cell c := by
    decide +kernel
  obtain ⟨tab,back,line,start,same⟩ := plain c high
  unfold cgaPutc
  dsimp only
  rw [if_neg tab]
  unfold advance
  split
  · rename_i wrong
    exact absurd wrong back
  · rename_i wrong
    exact absurd wrong line
  · rename_i wrong
    exact absurd wrong start
  · rw [same]

theorem cgaPutc_back (some : 0 < s.pos) : cgaPutc s 8 = settle (rub s blankCell) := by
  have low : (colored 8 &&& 0xff).toNat = 8 := by decide
  unfold cgaPutc
  dsimp only
  rw [if_neg (by decide)]
  unfold advance
  rw [low, if_pos some]
  rfl

theorem settle_shows {cells : List (BitVec 16)} (shows : Shows s cells) (inside : s.pos ≤ CRT_SIZE)
    (short : cells.length + CRT_COLS ≤ CRT_SIZE) : Shows (settle s) cells := by
  unfold settle
  split
  · rename_i last
    exact shows_scroll shows inside (Nat.le_trans short last)
  · exact shows

theorem char_shows (shows : Shows s (l.map cell)) (inside : s.pos < CRT_SIZE) (high : 0x20 ≤ c)
    (short : l.length + 1 + CRT_COLS ≤ CRT_SIZE) : Shows (cgaPutc s (c.setWidth 32)) ((l ++ [c]).map cell) := by
  rw [cgaPutc_char high, List.map_append]
  refine settle_shows (shows_put shows) inside ?_
  rw [List.length_append, List.length_map]
  exact short

theorem back_shows (shows : Shows s ((l ++ [c]).map cell)) (inside : s.pos < CRT_SIZE)
    (short : l.length + CRT_COLS ≤ CRT_SIZE) : Shows (cgaPutc s 8) (l.map cell) := by
  have some : 0 < s.pos := by
    have least := shows.length_le
    rw [List.length_map, List.length_append, List.length_singleton] at least
    omega
  rw [List.map_append] at shows
  rw [cgaPutc_back some]
  refine settle_shows (shows_rub shows) (Nat.le_of_lt (Nat.lt_of_le_of_lt (Nat.sub_le s.pos 1) inside)) ?_
  rw [List.length_map]
  exact short

theorem text_shows {s : Console} {text : List Byte} (shows : Shows s.crt (l.map cell)) (inside : s.crt.pos < CRT_SIZE)
    (high : ∀ c ∈ text, 0x20 ≤ c) (short : l.length + text.length + CRT_COLS ≤ CRT_SIZE) :
    Shows ((wide text).foldl consPutc s).crt ((l ++ text).map cell) := by
  induction text generalizing s l with
  | nil =>
    rw [List.append_nil]
    exact shows
  | cons c text ih =>
    rw [List.length_cons] at short
    have first := char_shows shows inside (high c List.mem_cons_self) (by omega)
    have more := ih (s := consPutc s (c.setWidth 32)) first (cgaPutc_pos inside _) (fun x member => high x (List.mem_cons_of_mem c member))
      (by rw [List.length_append, List.length_singleton]; omega)
    rw [List.append_assoc] at more
    exact more

theorem text_pos {s : Console} (inside : s.crt.pos < CRT_SIZE) (text : List (BitVec 32)) :
    (text.foldl consPutc s).crt.pos < CRT_SIZE := by
  induction text generalizing s with
  | nil => exact inside
  | cons c text ih => exact ih (s := consPutc s c) (cgaPutc_pos inside c)

theorem text_cons (s : Console) (text : List (BitVec 32)) : (text.foldl consPutc s).cons = s.cons := by
  induction text generalizing s with
  | nil => rfl
  | cons c text ih => exact ih (consPutc s c)

end Display

section Editing
variable {s : Line} {l : List Byte} {c : Byte}

/-- The characters that end a line. -/
def isNewline (c : Byte) : Bool := c == code '\n' || c == code '\r'

/-- A line of at most 1023 characters. A delete character with nothing before it is kept. -/
def edit (l : List Byte) (c : Byte) : List Byte :=
  if (c = 0x08 ∨ c = 0x7f) ∧ l ≠ [] then l.dropLast
  else if 0x20 ≤ c ∧ l.length < BUFLEN - 1 then l ++ [c]
  else l

def edited (chars : List Byte) : List Byte := chars.foldl edit []

/-- `readline` has the list so far. -/
structure Typed (s : Line) (l : List Byte) : Prop where
  count : s.i = l.length
  fits : l.length < BUFLEN
  chars : ∀ i c, l[i]? = some c → s.buf i = c
  high : ∀ c ∈ l, 0x20 ≤ c

theorem newline_low (ends : isNewline c = true) : c = code '\n' ∨ c = code '\r' := by
  simpa [isNewline] using ends

theorem typed_nil (buf : Nat → Byte) : Typed ⟨buf, 0⟩ [] := ⟨rfl, by decide, fun _ _ none => by simp at none, fun _ none => by simp at none⟩

/-- A line ends. -/
theorem readline_ends (typed : Typed s l) (ends : isNewline c = true) :
    ∃ t, readlineOne s c = (t, [code '\n'], true) ∧ Holds t.buf 0 l := by
  have cases := newline_low ends
  have low : ∀ c : Byte, c = code '\n' ∨ c = code '\r' → ¬ (c = 0x08 ∨ c = 0x7f) ∧ ¬ c ≥ 0x20 := by decide +kernel
  obtain ⟨other,small⟩ := low c cases
  refine ⟨{ s with buf := Function.update s.buf s.i 0 }, ?_, ?_⟩
  · unfold readlineOne
    rw [if_neg fun both => other both.1, if_neg fun both => small both.1, if_pos cases]
  · refine ⟨fun i x here => ?_, ?_, fun zero => absurd (typed.high 0 zero) (by decide)⟩
    · have inside := (List.getElem?_eq_some_iff.mp here).1
      have count := typed.count
      dsimp only
      rw [Nat.zero_add, Function.update_of_ne (by omega)]
      exact typed.chars i x here
    · dsimp only
      rw [Nat.zero_add, ← typed.count, Function.update_self]

/-- A line goes on. The echo does on the screen what the character does to the line. -/
theorem readline_more (typed : Typed s l) (more : isNewline c = false) :
    ∃ t echo, readlineOne s c = (t, echo, false) ∧ Typed t (edit l c) ∧
      (echo = [8] ∧ (∃ x, l = edit l c ++ [x]) ∨ (∃ x, echo = [x] ∧ 0x20 ≤ x ∧ edit l c = l ++ [x]) ∨ echo = [] ∧ edit l c = l) := by
  have other : ¬ (c = code '\n' ∨ c = code '\r') := by
    simpa [isNewline] using more
  have count := typed.count
  have fits := typed.fits
  unfold readlineOne edit
  by_cases back : (c = 0x08 ∨ c = 0x7f) ∧ l ≠ []
  · have some : (c = 0x08 ∨ c = 0x7f) ∧ s.i > 0 := ⟨back.1, count ▸ List.length_pos_iff.mpr back.2⟩
    rw [if_pos some, if_pos back]
    refine ⟨_, _, rfl, ⟨?_, ?_, fun i x here => ?_, fun x member => typed.high x (List.dropLast_subset l member)⟩,
      .inl ⟨rfl, l.getLast back.2, (List.dropLast_append_getLast back.2).symm⟩⟩
    · rw [List.length_dropLast, ← count]
    · rw [List.length_dropLast]
      omega
    · refine typed.chars i x ?_
      have inside := (List.getElem?_eq_some_iff.mp here).1
      rw [List.length_dropLast] at inside
      rwa [List.getElem?_dropLast, if_pos inside] at here
  · have none : ¬ ((c = 0x08 ∨ c = 0x7f) ∧ s.i > 0) := by
      rintro ⟨first,second⟩
      exact back ⟨first, List.length_pos_iff.mp (count ▸ second)⟩
    rw [if_neg none, if_neg back]
    by_cases room : 0x20 ≤ c ∧ l.length < BUFLEN - 1
    · rw [if_pos (show c ≥ 0x20 ∧ s.i < BUFLEN - 1 from count ▸ room), if_pos room]
      refine ⟨_, _, rfl, ⟨?_, ?_, fun i x here => ?_, fun x member => ?_⟩, .inr (.inl ⟨c, rfl, room.1, rfl⟩)⟩
      · rw [List.length_append, ← count]
        rfl
      · rw [List.length_append, List.length_singleton]
        omega
      · dsimp only
        rcases Nat.lt_or_ge i l.length with front | last
        · rw [List.getElem?_append_left front] at here
          rw [Function.update_of_ne (by omega)]
          exact typed.chars i x here
        · have low := (List.getElem?_eq_some_iff.mp here).1
          rw [List.length_append, List.length_singleton] at low
          obtain rfl : i = l.length := by omega
          rw [List.getElem?_concat_length, Option.some.injEq] at here
          rw [count, Function.update_self, here]
      · rcases List.mem_append.mp member with old | new
        · exact typed.high x old
        · rw [List.mem_singleton] at new
          exact new ▸ room.1
    · rw [if_neg (show ¬ (c ≥ 0x20 ∧ s.i < BUFLEN - 1) from count ▸ room), if_neg other, if_neg room]
      exact ⟨_, _, rfl, typed, .inr (.inr ⟨rfl,rfl⟩)⟩

end Editing

section Events

def stored : List Event → List Byte := List.filterMap fun e => match e with
  | .stored c => some c
  | _ => none

def taken : List Event → List Byte := List.filterMap fun e => match e with
  | .taken c => some c
  | _ => none

def obeyed : List Event → List Obeyed := List.filterMap fun e => match e with
  | .obeyed o => some o
  | _ => none

theorem stored_append (a b : List Event) : stored (a ++ b) = stored a ++ stored b := List.filterMap_append

theorem taken_append (a b : List Event) : taken (a ++ b) = taken a ++ taken b := List.filterMap_append

theorem obeyed_append (a b : List Event) : obeyed (a ++ b) = obeyed a ++ obeyed b := List.filterMap_append

/-- There are never 512 characters in the ring. -/
def Roomy (events : List Event) : Prop :=
  ∀ front, front <+: events → (stored front).length < (taken front).length + CONSBUFSIZE

theorem Roomy.front {events more : List Event} (roomy : Roomy (events ++ more)) : Roomy events :=
  fun _ front => roomy _ (front.trans (List.prefix_append events more))

/-- The ring gives back what was stored, in order, but may lose 512 characters at once. -/
structure Queued (events : List Event) (q : List Byte) : Prop where
  order : (taken events ++ q).Sublist (stored events)
  lost : CONSBUFSIZE ∣ (stored events).length - (taken events ++ q).length
  all : Roomy events → taken events ++ q = stored events

variable {events : List Event} {q : List Byte} {c : Byte}

theorem Queued.store (queued : Queued events q) (c : Byte) : Queued (events ++ [.stored c]) (enqueue q c) := by
  have now : stored (events ++ [.stored c]) = stored events ++ [c] := stored_append ..
  have same : taken (events ++ [.stored c]) = taken events := (taken_append ..).trans (List.append_nil _)
  have fewer := queued.order.length_le
  have lost := queued.lost
  rw [List.length_append] at fewer lost
  unfold enqueue
  by_cases full : q.length + 1 = CONSBUFSIZE
  · rw [if_pos full]
    refine ⟨?_, ?_, fun roomy => ?_⟩
    · rw [now, same, List.append_nil]
      exact ((List.sublist_append_left _ q).trans queued.order).trans (List.sublist_append_left _ [c])
    · rw [now, same, List.append_nil, List.length_append, List.length_singleton]
      have sum : (stored events).length + 1 - (taken events).length =
          (stored events).length - ((taken events).length + q.length) + CONSBUFSIZE := by omega
      rw [sum]
      exact Nat.dvd_add lost (Nat.dvd_refl _)
    · have most := roomy _ (List.prefix_refl _)
      have old := congrArg List.length (queued.all roomy.front)
      rw [List.length_append] at old
      rw [now, same, List.length_append, List.length_singleton] at most
      omega
  · rw [if_neg full]
    refine ⟨?_, ?_, fun roomy => ?_⟩
    · rw [now, same, ← List.append_assoc]
      exact queued.order.append (List.Sublist.refl [c])
    · rw [now, same, ← List.append_assoc, List.length_append, List.length_append, List.length_append, List.length_singleton,
        Nat.add_sub_add_right]
      exact lost
    · rw [now, same, ← List.append_assoc, queued.all roomy.front]

theorem Queued.store_all (queued : Queued events q) (chars : List Byte) :
    Queued (events ++ chars.map .stored) (chars.foldl enqueue q) := by
  induction chars generalizing events q with
  | nil =>
    rw [List.map_nil, List.append_nil]
    exact queued
  | cons c chars ih =>
    have more := ih (queued.store c)
    rw [List.append_assoc] at more
    exact more

theorem Queued.take (queued : Queued events (c :: q)) : Queued (events ++ [.taken c]) q := by
  have now : taken (events ++ [.taken c]) ++ q = taken events ++ c :: q := by
    rw [taken_append, List.append_assoc]
    rfl
  have same : stored (events ++ [.taken c]) = stored events := (stored_append ..).trans (List.append_nil _)
  refine ⟨?_, ?_, fun roomy => ?_⟩
  · rw [now, same]
    exact queued.order
  · rw [now, same]
    exact queued.lost
  · rw [now, same]
    exact queued.all roomy.front

theorem Queued.obey (queued : Queued events q) (o : Obeyed) : Queued (events ++ [.obeyed o]) q := by
  have now : stored (events ++ [.obeyed o]) = stored events ∧ taken (events ++ [.obeyed o]) = taken events :=
    ⟨(stored_append ..).trans (List.append_nil _), (taken_append ..).trans (List.append_nil _)⟩
  refine ⟨?_, ?_, fun roomy => ?_⟩
  · rw [now.1, now.2]
    exact queued.order
  · rw [now.1, now.2]
    exact queued.lost
  · rw [now.1, now.2]
    exact queued.all roomy.front

end Events

section Sessions

/-- The lines of what `getchar` returned, and the one that is being typed. -/
def lines (chars : List Byte) : List (List Byte) := ((chars.splitOnP isNewline).dropLast).map edited

def current (chars : List Byte) : List Byte := edited ((chars.splitOnP isNewline).getLastD [])

variable {c : Byte}

theorem lines_newline (chars : List Byte) (ends : isNewline c = true) :
    lines (chars ++ [c]) = lines chars ++ [current chars] ∧ current (chars ++ [c]) = [] := by
  rcases List.eq_nil_or_concat' (chars.splitOnP isNewline) with none | ⟨front,last,cut⟩
  · exact absurd none (List.splitOnP_ne_nil isNewline chars)
  · unfold lines current
    rw [pieces_sep chars ends, List.dropLast_concat, List.getLastD_concat, cut, List.dropLast_concat, List.getLastD_concat, List.map_append]
    exact ⟨rfl,rfl⟩

theorem lines_more (chars : List Byte) (more : isNewline c = false) :
    lines (chars ++ [c]) = lines chars ∧ current (chars ++ [c]) = edit (current chars) c := by
  obtain ⟨front,last,before,after⟩ := pieces_more chars more
  unfold lines current
  rw [before, after, List.dropLast_concat, List.dropLast_concat, List.getLastD_concat, List.getLastD_concat]
  refine ⟨rfl, ?_⟩
  unfold edited
  rw [List.foldl_append]
  rfl

/-- The session so far. -/
structure Session (events : List Event) (s : Monitor) : Prop where
  inside : s.cons.Inside
  plain : 0 ∉ unread s.cons
  queued : Queued events (unread s.cons)
  cursor : s.crt.pos < CRT_SIZE
  ran : obeyed events = (lines (taken events)).map obey
  typed : Typed s.line (current (taken events))
  shows : Shows s.crt ((prompt ++ current (taken events)).map cell)

variable {s t : Monitor} {events : List Event}

theorem prompt_high : ∀ c ∈ prompt, 0x20 ≤ c := by decide +kernel

theorem ask_cons (s : Monitor) : s.ask.cons = s.cons := text_cons s.toConsole _

theorem ask_line (s : Monitor) : Typed s.ask.line [] := typed_nil _

theorem ask_cursor (cursor : s.crt.pos < CRT_SIZE) : s.ask.crt.pos < CRT_SIZE := text_pos cursor _

theorem ask_shows (cursor : s.crt.pos < CRT_SIZE) : Shows s.ask.crt ((prompt ++ []).map cell) := by
  have empty : Shows s.crt (([] : List Byte).map cell) := shows_nil _
  rw [List.append_nil]
  exact text_shows empty cursor prompt_high (by decide)

/-- Another character of the line. -/
theorem accept_more {l : List Byte} (out : List (BitVec 32)) (typed : Typed s.line l) (cursor : s.crt.pos < CRT_SIZE)
    (shows : Shows s.crt ((prompt ++ l).map cell)) (more : isNewline c = false) :
    (readlineOne s.line c).2.2 = false ∧ Typed (s.accept c out).line (edit l c) ∧ (s.accept c out).crt.pos < CRT_SIZE ∧
      Shows (s.accept c out).crt ((prompt ++ edit l c).map cell) ∧ (s.accept c out).cons = s.cons := by
  obtain ⟨line,echo,run,after,change⟩ := readline_more typed more
  have now : s.accept c out = { s with line := line }.print (wide echo) := by
    unfold Monitor.accept
    rw [run]
    rfl
  have fits := typed.fits
  have room : (prompt ++ l).length + 1 + CRT_COLS ≤ CRT_SIZE := by
    have width : prompt.length = 3 := by decide
    rw [List.length_append, width]
    unfold BUFLEN CRT_SIZE CRT_COLS at *
    omega
  rw [run, now]
  refine ⟨rfl, after, text_pos cursor _, ?_, text_cons _ _⟩
  change Shows ((wide echo).foldl consPutc s.toConsole).crt _
  rcases change with ⟨rfl,x,cut⟩ | ⟨x,rfl,high,cut⟩ | ⟨rfl,same⟩
  · rw [cut, ← List.append_assoc] at shows room
    rw [List.length_append] at room
    exact back_shows shows cursor (by omega)
  · rw [cut, ← List.append_assoc]
    exact char_shows shows cursor high room
  · rw [same]
    exact shows

/-- The line ends, and its command runs. -/
theorem accept_ends {l : List Byte} (out : List (BitVec 32)) (typed : Typed s.line l) (cursor : s.crt.pos < CRT_SIZE)
    (ends : isNewline c = true) :
    ∃ line, readlineOne s.line c = (line, [code '\n'], true) ∧ runcmd line.buf = obey l ∧
      Typed (s.accept c out).line [] ∧ (s.accept c out).crt.pos < CRT_SIZE ∧
      Shows (s.accept c out).crt ((prompt ++ []).map cell) ∧ (s.accept c out).cons = s.cons := by
  obtain ⟨line,run,holds⟩ := readline_ends typed ends
  have now : s.accept c out =
      (({ s with line := line }.print (wide [code '\n'])).print (message out (runcmd line.buf))).ask := by
    unfold Monitor.accept
    rw [run]
    rfl
  have before : (({ s with line := line }.print (wide [code '\n'])).print (message out (runcmd line.buf))).crt.pos < CRT_SIZE :=
    text_pos (text_pos cursor _) _
  rw [now]
  refine ⟨line, run, runcmd_spec holds typed.fits, ask_line _, ask_cursor before, ask_shows before, ?_⟩
  rw [ask_cons]
  exact (text_cons _ _).trans (text_cons _ _)

theorem taken_stored (chars : List Byte) : taken (chars.map .stored) = [] ∧ obeyed (chars.map .stored) = [] := by
  unfold taken obeyed
  induction chars with
  | nil => exact ⟨rfl,rfl⟩
  | cons c chars ih => exact ih

theorem start_session (start : Start s) : Session [] s := by
  obtain ⟨t,rpos,wpos,cursor,_,rfl⟩ := start
  have same : (t.print (wide greeting)).ask.cons = t.cons := (ask_cons (t.print (wide greeting))).trans (text_cons t.toConsole _)
  have inside : (t.print (wide greeting)).ask.cons.Inside := by
    rw [same]
    exact ⟨by rw [rpos]; decide, by rw [wpos]; decide⟩
  have none : unread (t.print (wide greeting)).ask.cons = [] := by
    refine (unread_empty inside).mp ?_
    rw [same, rpos, wpos]
  have cursor' : (t.print (wide greeting)).crt.pos < CRT_SIZE := text_pos cursor _
  refine ⟨inside, ?_, ?_, ask_cursor cursor', rfl, ask_line _, ask_shows cursor'⟩
  · rw [none]
    exact List.not_mem_nil
  · rw [none]
    exact ⟨List.Sublist.refl [], ⟨0,rfl⟩, fun _ => rfl⟩

/-- The devices have been read. -/
theorem Session.offer (session : Session events s) : Queued (events ++ (incoming s.toConsole).map .stored) (offered s.toConsole) ∧
    taken (events ++ (incoming s.toConsole).map .stored) = taken events ∧
    obeyed (events ++ (incoming s.toConsole).map .stored) = obeyed events := by
  obtain ⟨first,second⟩ := taken_stored (incoming s.toConsole)
  refine ⟨session.queued.store_all _, ?_, ?_⟩
  · rw [taken_append, first, List.append_nil]
  · rw [obeyed_append, second, List.append_nil]

theorem turn_session {out : List (BitVec 32)} (session : Session events s) (run : step s (.turn out) = some t) :
    Session (events ++ emit s (.turn out)) t := by
  obtain ⟨queued,same,log⟩ := session.offer
  obtain ⟨inside,plain,screen,either⟩ := consGetc_spec session.inside session.plain
  have cursor := session.cursor
  have shows := session.shows
  have typed := session.typed
  rw [← screen] at cursor shows
  simp only [step] at run
  split at run
  · cases run
  unfold emit
  dsimp only
  generalize consGetc s.toConsole = r at *
  obtain ⟨console,c⟩ := r
  dsimp only at *
  rw [← List.append_assoc]
  generalize events ++ (incoming s.toConsole).map .stored = events' at *
  rcases either with ⟨zero,rest⟩ | ⟨some,cut⟩
  · rw [if_pos zero] at run
    cases run
    rw [if_pos zero, List.append_nil]
    refine ⟨inside, plain, rest ▸ queued, cursor, ?_, ?_, ?_⟩
    · rw [log, same]
      exact session.ran
    · rw [same]
      exact typed
    · rw [same]
      exact shows
  · rw [if_neg some] at run
    cases run
    rw [if_neg some]
    rw [cut] at queued
    have more := queued.take
    have now : taken (events' ++ [.taken c]) = taken events ++ [c] := by
      rw [← same]
      exact taken_append ..
    have still : obeyed (events' ++ [.taken c]) = (lines (taken events)).map obey := by
      rw [← session.ran, ← log]
      exact (obeyed_append ..).trans (List.append_nil _)
    by_cases ends : isNewline c = true
    · obtain ⟨next,empty⟩ := lines_newline (taken events) ends
      obtain ⟨line,read,ran,typed',cursor',shows',cons⟩ := accept_ends (s := { s with toConsole := console }) out typed cursor ends
      rw [read]
      dsimp only
      rw [if_pos rfl, ran, List.append_cons]
      have all : taken (events' ++ [.taken c] ++ [.obeyed (obey (current (taken events)))]) = taken events ++ [c] := by
        rw [← now]
        exact (taken_append ..).trans (List.append_nil _)
      refine ⟨cons ▸ inside, cons ▸ plain, cons ▸ more.obey _, cursor', ?_, ?_, ?_⟩
      · rw [all, next, List.map_append, ← still]
        exact obeyed_append ..
      · rw [all, empty]
        exact typed'
      · rw [all, empty]
        exact shows'
    · obtain ⟨next,edits⟩ := lines_more (taken events) (Bool.eq_false_iff.mpr ends)
      obtain ⟨read,typed',cursor',shows',cons⟩ :=
        accept_more (s := { s with toConsole := console }) out typed cursor shows (Bool.eq_false_iff.mpr ends)
      change (readlineOne s.line c).2.2 = false at read
      rw [read, if_neg Bool.false_ne_true]
      refine ⟨cons ▸ inside, cons ▸ plain, cons ▸ more, cursor', ?_, ?_, ?_⟩
      · rw [still, now, next]
      · rw [now, edits]
        exact typed'
      · rw [now, edits]
        exact shows'

theorem step_session {a : Action} (session : Session events s) (run : step s a = some t) : Session (events ++ emit s a) t := by
  cases a with
  | serial data =>
    cases run
    rw [show emit s (.serial data) = [] from rfl, List.append_nil]
    exact ⟨session.inside, session.plain, session.queued, session.cursor, session.ran, session.typed, session.shows⟩
  | key mouse data =>
    cases run
    rw [show emit s (.key mouse data) = [] from rfl, List.append_nil]
    exact ⟨session.inside, session.plain, session.queued, session.cursor, session.ran, session.typed, session.shows⟩
  | turn out => exact turn_session session run

theorem run_session {origin : Monitor} (run : system.Emits System.Free emit origin events s) : Session events s :=
  System.emits_invariant (I := Session) start_session (fun _ _ _ _ session _ run => step_session session run) run

/-- However characters arrive, the monitor runs the lines that `getchar` returns, word for word as they
    were edited, and the screen shows the line as it stands. The ring keeps the order and loses nothing
    but 512 characters at once, and nothing at all as long as there are never so many in it. -/
theorem monitor_session {origin : Monitor} (run : system.Emits System.Free emit origin events s) :
    obeyed events = (lines (taken events)).map obey ∧
    Typed s.line (current (taken events)) ∧ Shows s.crt ((prompt ++ current (taken events)).map cell) ∧
    (taken events ++ unread s.cons).Sublist (stored events) ∧
    CONSBUFSIZE ∣ (stored events).length - (taken events ++ unread s.cons).length ∧
    (Roomy events → taken events ++ unread s.cons = stored events) := by
  have session := run_session run
  exact ⟨session.ran, session.typed, session.shows, session.queued.order, session.queued.lost, session.queued.all⟩

end Sessions

section Example

def quiet : Monitor where
  serialExists := true
  serial := []
  kbd := []
  shift := 0
  cons := ⟨fun _ => 0, 0, 0⟩
  crt := ⟨fun _ => blankCell, 0⟩
  rebooted := false
  line := ⟨fun _ => 0, 0⟩

def greeted : Monitor := (quiet.print (wide greeting)).ask

/-- `dx`, a backspace, `ump` and a newline come from the serial port. -/
def typing : List Action :=
  ([100, 120, 8, 117, 109, 112, 10] : List Byte).map .serial ++ List.replicate 7 (.turn [])

def dumped : Monitor := (System.exec step greeted typing).get (by decide +kernel)

theorem dumped_run : system.Emits System.Free emit greeted (System.trace step emit greeted typing) dumped := by
  have run : System.exec step greeted typing = some dumped := by
    simp only [dumped, Option.some_get]
  have start : Start greeted := ⟨quiet, rfl, rfl, by decide, rfl, rfl⟩
  have emits : system.Emits System.Free emit greeted ([] ++ System.trace step emit greeted typing) dumped :=
    System.exec_emits typing (fun _ _ _ => trivial) (.start start) run
  rwa [List.nil_append] at emits

theorem monitor_session_dump : obeyed (System.trace step emit greeted typing) = [.ran [bytes "dump"]] ∧
    obeyed (System.trace step emit greeted typing) = (lines (taken (System.trace step emit greeted typing))).map obey :=
  ⟨by decide +kernel, (monitor_session dumped_run).1⟩

end Example
end JosConsole
