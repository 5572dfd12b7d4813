import Dawos.IntStr
import Dawos.Gpt

/-! # Formatted text

`__write_f` of the loader's library.  It goes through a format string and writes to a destination;
the format, the strings and GUIDs among the arguments and the destination are all in memory.

A format is a list of items (`items`), and `Renders` says which text each item gives.  `Emits` is
what a part of the code does: it appends a text, unless the text would pass the end of the room
there is, and then the count it leaves is past it as well.  Parts that emit texts one after the
other emit their concatenation (`Emits.append`). -/

namespace Dawos

/-! ### The code -/

/-- The memory, the output pointer and the count. -/
structure Out where
  mem : Mem
  d : ℕ
  ret : ℕ

/-- `*(d++) = c`. -/
def Out.char (o : Out) (c : UInt8) : Out := ⟨Function.update o.mem o.d c, o.d + 1, o.ret + 1⟩

/-- A number by `int_to_str`, with the static buffer at `tmp`. -/
def Out.int (tmp : ℕ) (o : Out) (val base : ℤ) : Except Halt Out := do
  let r ← intToStr o.mem tmp o.d MAX_INT_STR val base
  .ok ⟨r.1, o.d + r.2, o.ret + r.2⟩

/-- Copy a character of a string. -/
def strRound (s : Out × ℕ) : Out × ℕ ⊕ Out :=
  if s.1.mem s.2 ≠ 0 then .inl (s.1.char (s.1.mem s.2), s.2 + 1) else .inr s.1

/-- A string, with at most `n` rounds of the loop. -/
def Out.str (o : Out) (str n : ℕ) : Except Halt Out := loop strRound n (o, str)

/-- A GUID. -/
def Out.guid (tmp : ℕ) (o : Out) (guid : ℕ) : Except Halt Out := do
  let o ← o.int tmp (rdN o.mem 4 guid) 16
  let o := o.char 0x2D
  let o ← o.int tmp (rdN o.mem 2 (guid + 4)) 16
  let o := o.char 0x2D
  let o ← o.int tmp (rdN o.mem 2 (guid + 6)) 16
  let o := o.char 0x2D
  (List.range 8).foldlM (fun o i => o.int tmp (o.mem (guid + 8 + i)).toNat 16) o

/-- The specifiers. -/
inductive Conv where
  /-- Integer. -/
  | d
  /-- Unsigned integer. -/
  | u
  /-- Unsigned integer in hex. -/
  | x
  /-- Unsigned integer in binary. -/
  | b
  /-- Char. -/
  | c
  /-- String. -/
  | s
  /-- GUID. -/
  | g
deriving DecidableEq

/-- The specifier of a character. -/
def Conv.ofByte (c : UInt8) : Option Conv :=
  if c = 0x64 then some .d
  else if c = 0x75 then some .u
  else if c = 0x78 then some .x
  else if c = 0x62 then some .b
  else if c = 0x63 then some .c
  else if c = 0x73 then some .s
  else if c = 0x67 then some .g
  else none

/-- A 64-bit word as a signed number. -/
def toInt64 (w : ℕ) : ℤ := (w : ℤ).bmod (2 ^ 64)

/-- Write an argument as its specifier says. -/
def Out.convert (tmp : ℕ) (o : Out) (k : Conv) (arg n : ℕ) : Except Halt Out :=
  match k with
  | .d => o.int tmp (toInt64 arg) 10
  | .u => o.int tmp (toInt64 arg) 10
  | .x => o.int tmp (toInt64 arg) 16
  | .b => o.int tmp (toInt64 arg) 2
  | .c => .ok (o.char (UInt8.ofNat arg))
  | .s => o.str arg n
  | .g => o.guid tmp arg

/-- The format pointer, the arguments that are left, and the output. -/
structure WriteState where
  f : ℕ
  args : List ℕ
  out : Out

/-- The body of the loop over the format. -/
def writeRound (tmp n : ℕ) (s : WriteState) : Except Halt WriteState :=
  if s.out.mem s.f = 0x25 then
    match Conv.ofByte (s.out.mem (s.f + 1)), s.args with
    | some k, arg :: args => do
        let o ← s.out.convert tmp k arg n
        .ok ⟨s.f + 2, args, o⟩
    | some _, [] => .error .bounds
    -- not a specifier
    | none, args => .ok ⟨s.f + 1, args, s.out.char (s.out.mem s.f)⟩
  else .ok ⟨s.f + 1, s.args, s.out.char (s.out.mem s.f)⟩

/-- The loop over the format. -/
def writeLoop (tmp len : ℕ) : ℕ → WriteState → Except Halt WriteState
  | 0, _ => .error .fuel
  | n + 1, s =>
      if s.out.mem s.f ≠ 0 ∧ s.out.ret < len then do
        let s ← writeRound tmp n s
        writeLoop tmp len n s
      else .ok s

/-- Write a formatted text; returns the memory, the count and the arguments that are left. -/
def writeF (m : Mem) (tmp dest len format : ℕ) (args : List ℕ) (n : ℕ) :
    Except Halt (Mem × ℕ × List ℕ) := do
  let s ← writeLoop tmp len n ⟨format, args, ⟨m, dest, 0⟩⟩
  .ok (s.out.mem, s.out.ret, s.args)

/-! ### Items -/

/-- What a format is made of. -/
inductive Item where
  | lit (c : UInt8)
  | conv (k : Conv)
deriving DecidableEq

/-- The items of a format; a percent sign before any other character stands for itself. -/
def items : List UInt8 → List Item
  | [] => []
  | [c] => [.lit c]
  | c :: k :: l =>
      if c = 0x25 then
        match Conv.ofByte k with
        | some k => .conv k :: items l
        | none => .lit c :: items (k :: l)
      else .lit c :: items (k :: l)

/-- The hexadecimal texts of a GUID. -/
def guidText (g : Guid) : List UInt8 :=
  numeral g.data1 16 ++ 0x2D :: (numeral g.data2 16 ++ 0x2D :: (numeral g.data3 16 ++ 0x2D ::
    (List.range 8).flatMap fun i => numeral (g.data4 i).toNat 16))

/-- The bytes that the code writes: `cap` bytes from `dest` on, and the static buffer. -/
def Scratch (tmp dest cap x : ℕ) : Prop :=
  (dest ≤ x ∧ x < dest + cap) ∨ (tmp ≤ x ∧ x < tmp + (MAX_INT_STR + 1))

/-- A text that is not written to. -/
structure ConstText (m : Mem) (P : ℕ → Prop) (a : ℕ) (l : List UInt8) : Prop where
  text : ZText m a l
  off : ∀ i ≤ l.length, ¬ P (a + i)

/-- The text of an argument; strings and GUIDs are not written to. -/
def ArgText (m : Mem) (P : ℕ → Prop) (k : Conv) (arg : ℕ) (l : List UInt8) : Prop :=
  match k with
  | .d => l = numeral (toInt64 arg) 10
  | .u => l = numeral (toInt64 arg) 10
  | .x => l = numeral (toInt64 arg) 16
  | .b => l = numeral (toInt64 arg) 2
  | .c => l = [UInt8.ofNat arg]
  | .s => ConstText m P arg l
  | .g => l = guidText (guidAt m arg) ∧ ∀ i < 16, ¬ P (arg + i)

/-- The texts of the items, each with its argument; `rest` is what is left of the arguments. -/
inductive Renders (m : Mem) (P : ℕ → Prop) :
    List Item → List ℕ → List (Item × List UInt8) → List ℕ → Prop
  | nil (rest : List ℕ) : Renders m P [] rest [] rest
  | lit {its : List Item} {args rest : List ℕ} {ps : List (Item × List UInt8)} (c : UInt8)
      (h : Renders m P its args ps rest) :
      Renders m P (.lit c :: its) args ((.lit c, [c]) :: ps) rest
  | conv {its : List Item} {args rest : List ℕ} {ps : List (Item × List UInt8)} {k : Conv} {arg : ℕ}
      {l : List UInt8} (hl : ArgText m P k arg l) (h : Renders m P its args ps rest) :
      Renders m P (.conv k :: its) (arg :: args) ((.conv k, l) :: ps) rest

/-- The whole text. -/
def textOf (ps : List (Item × List UInt8)) : List UInt8 := ps.flatMap Prod.snd

/-! ### Emitting a text -/

/-- The count only grows. -/
def Mono (step : ℕ → Out → Except Halt Out) : Prop :=
  ∀ n o o', step n o = .ok o' → o.ret ≤ o'.ret

/-- The text has been written to the start of the destination, and nothing has been written outside
the scratch bytes. -/
structure Wrote (m : Mem) (tmp dest cap : ℕ) (text : List UInt8) (o : Out) : Prop where
  d : o.d = dest + text.length
  ret : o.ret = text.length
  le : text.length ≤ cap
  bytes : ∀ i, (h : i < text.length) → o.mem (dest + i) = text[i]
  off : AgreeOff m o.mem (Scratch tmp dest cap)

/-- A part of the code that appends the text `l`, or leaves a count past the end of the room. -/
structure Emits (m : Mem) (tmp dest cap : ℕ) (step : ℕ → Out → Except Halt Out) (l : List UInt8) :
    Prop where
  steady : ∀ o, Steady fun n => step n o
  mono : Mono step
  fits : ∀ {text o}, Wrote m tmp dest cap text o → text.length + l.length ≤ cap →
    ∃ o', Returns (fun n => step n o) o' ∧ Wrote m tmp dest cap (text ++ l) o'
  past : ∀ {text o}, Wrote m tmp dest cap text o → cap < text.length + l.length →
    ∀ n o', step n o = .ok o' → cap < o'.ret

section emits

variable {m : Mem} {tmp dest cap base a n : ℕ} {text l l' : List UInt8} {o o' : Out} {c : UInt8}
  {step step' : ℕ → Out → Except Halt Out} {val : ℤ}

theorem bind_ok {α β : Type} {f : Except Halt α} {g : α → Except Halt β} {b : β}
    (h : (f >>= g) = .ok b) : ∃ x, f = .ok x ∧ g x = .ok b := by
  cases f with
  | ok x => exact ⟨x, rfl, h⟩
  | error e => cases h

theorem Mono.bind (h : Mono step) (h' : Mono step') : Mono fun n o => step n o >>= step' n := by
  intro n o o' hs
  obtain ⟨o₁, h1, h2⟩ := bind_ok hs
  exact (h n o o₁ h1).trans (h' n o₁ o' h2)

theorem Mono.char (c : UInt8) : Mono fun _ o => .ok (o.char c) := by
  intro n o o' hs
  rw [← Except.ok.inj hs]
  exact Nat.le_succ _

theorem Mono.int (val : Out → ℤ) (base : ℤ) : Mono fun _ o => o.int tmp (val o) base := by
  intro n o o' hs
  obtain ⟨r, -, hr⟩ := bind_ok hs
  rw [← Except.ok.inj hr]
  exact Nat.le_add_right _ _

theorem Mono.str (s : ℕ) : Mono fun n o => o.str s n := by
  intro n
  unfold Out.str
  induction n generalizing s with
  | zero => exact fun o o' hs => by cases hs
  | succ n ih =>
      intro o o' hs
      by_cases h0 : o.mem s ≠ 0
      · have hround : strRound (o, s) = .inl (o.char (o.mem s), s + 1) := if_pos h0
        simp only [loop, hround] at hs
        exact (Nat.le_succ _).trans (ih (s + 1) _ _ hs)
      · have hround : strRound (o, s) = .inr o := if_neg h0
        simp only [loop, hround] at hs
        rw [Except.ok.inj hs]

theorem Mono.foldlM {α : Type} {f : α → Out → Except Halt Out} (h : ∀ x, Mono fun _ o => f x o)
    (xs : List α) : Mono fun _ o => xs.foldlM (fun o x => f x o) o := by
  induction xs with
  | nil =>
      intro n o o' hs
      rw [Except.ok.inj hs]
  | cons x xs ih => exact (h x).bind ih

/-- The parts of a GUID one after the other. -/
theorem Out.guid_eq (o : Out) (guid : ℕ) : o.guid tmp guid =
    (o.int tmp (rdN o.mem 4 guid) 16 >>= fun o => Except.ok (o.char 0x2D) >>= fun o =>
      o.int tmp (rdN o.mem 2 (guid + 4)) 16 >>= fun o => Except.ok (o.char 0x2D) >>= fun o =>
        o.int tmp (rdN o.mem 2 (guid + 6)) 16 >>= fun o => Except.ok (o.char 0x2D) >>= fun o =>
          (List.range 8).foldlM (fun o i => o.int tmp (o.mem (guid + 8 + i)).toNat 16) o) := rfl

theorem Mono.guid (guid : ℕ) : Mono fun _ o => o.guid tmp guid := by
  simp only [Out.guid_eq]
  exact (Mono.int _ _).bind ((Mono.char _).bind ((Mono.int _ _).bind ((Mono.char _).bind
    ((Mono.int _ _).bind ((Mono.char _).bind (Mono.foldlM (fun _ => Mono.int _ _) _))))))

theorem Mono.convert (k : Conv) (arg : ℕ) : Mono fun n o => o.convert tmp k arg n := by
  cases k with
  | d => exact Mono.int _ _
  | u => exact Mono.int _ _
  | x => exact Mono.int _ _
  | b => exact Mono.int _ _
  | c => exact Mono.char _
  | s => exact Mono.str arg
  | g => exact Mono.guid arg

/-- A byte that is not written to is as it was. -/
theorem Wrote.const (h : Wrote m tmp dest cap text o) {x : ℕ} (hx : ¬ Scratch tmp dest cap x) :
    o.mem x = m x := h.off x hx

/-- A text that is put behind the text so far. -/
theorem Wrote.put (h : Wrote m tmp dest cap text o) (hle : text.length + l.length ≤ cap)
    (hapart : dest + cap ≤ tmp ∨ tmp + (MAX_INT_STR + 1) ≤ dest) {m' : Mem}
    (hm : AgreeOff o.mem m' fun x => tmp ≤ x ∧ x < tmp + (MAX_INT_STR + 1)) :
    Wrote m tmp dest cap (text ++ l) ⟨put m' o.d l, o.d + l.length, o.ret + l.length⟩ where
  d := by
    rw [List.length_append, h.d]
    exact Nat.add_assoc _ _ _
  ret := by rw [List.length_append, h.ret]
  le := by rwa [List.length_append]
  bytes i hi := by
    show Dawos.put m' o.d l (dest + i) = _
    rw [h.d]
    by_cases hlt : i < text.length
    · have hle := h.le
      rw [put_off (by omega), hm _ (by omega), h.bytes i hlt, List.getElem_append_left hlt]
    · obtain ⟨j, rfl⟩ : ∃ j, i = text.length + j := ⟨i - text.length, by omega⟩
      rw [List.length_append] at hi
      rw [← Nat.add_assoc, put_at (by omega), List.getElem_append_right (by omega)]
      congr 1
      omega
  off x hx := by
    show Dawos.put m' o.d l x = _
    unfold Scratch at hx
    rw [h.d, put_off (by omega), hm _ (by omega)]
    exact h.off x hx

/-- Texts emitted one after the other. -/
theorem Emits.append (h : Emits m tmp dest cap step l) (h' : Emits m tmp dest cap step' l') :
    Emits m tmp dest cap (fun n o => step n o >>= step' n) (l ++ l') where
  steady o := (h.steady o).bind h'.steady
  mono := h.mono.bind h'.mono
  fits {text o} hw hle := by
    rw [List.length_append] at hle
    obtain ⟨o₁, h1, hw₁⟩ := h.fits hw (by omega)
    obtain ⟨o₂, h2, hw₂⟩ := h'.fits hw₁ (by rw [List.length_append]; omega)
    rw [List.append_assoc] at hw₂
    exact ⟨o₂, h1.bind h2, hw₂⟩
  past {text o} hw hlt n o' hs := by
    rw [List.length_append] at hlt
    obtain ⟨o₁, h1, h2⟩ := bind_ok hs
    by_cases hle : text.length + l.length ≤ cap
    · obtain ⟨o₂, hr, hw₁⟩ := h.fits hw hle
      rw [((h.steady o).returns h1).unique hr] at h2
      exact h'.past hw₁ (by rw [List.length_append]; omega) n o' h2
    · exact (h.past hw (by omega) n o₁ h1).trans_le (h'.mono n o₁ o' h2)

theorem Emits.nil : Emits m tmp dest cap (fun _ o => .ok o) [] where
  steady o := Steady.const _
  mono n o o' hs := by rw [Except.ok.inj hs]
  fits {text o} hw _ := ⟨o, Returns.of_eq fun _ => rfl, by rwa [List.append_nil]⟩
  past {text o} hw hlt := absurd hlt (Nat.not_lt.mpr hw.le)

theorem Emits.char (hapart : dest + cap ≤ tmp ∨ tmp + (MAX_INT_STR + 1) ≤ dest) (c : UInt8) :
    Emits m tmp dest cap (fun _ o => .ok (o.char c)) [c] where
  steady o := Steady.const _
  mono := Mono.char c
  fits {text o} hw hle := by
    have hput : Dawos.put o.mem o.d [c] = Function.update o.mem o.d c := by rw [← put_cons, put_nil]
    have hw' := hw.put hle hapart (AgreeOff.refl o.mem _)
    rw [hput] at hw'
    exact ⟨_, Returns.of_eq fun _ => rfl, hw'⟩
  past {text o} hw hlt n o' hs := by
    rw [← Except.ok.inj hs]
    show cap < o.ret + 1
    rwa [hw.ret]

/-- Memory with a numeral at the end of the static buffer. -/
def tmpWith (m : Mem) (tmp : ℕ) (l : List UInt8) : Mem :=
  Dawos.put (fill m tmp 0 (MAX_INT_STR + 1)) (tmp + (MAX_INT_STR - l.length)) l

theorem tmpWith_off (m : Mem) (hlen : l.length ≤ MAX_INT_STR) :
    AgreeOff m (tmpWith m tmp l) fun x => tmp ≤ x ∧ x < tmp + (MAX_INT_STR + 1) := by
  intro x hx
  unfold tmpWith fill
  rw [put_off (by omega), if_neg hx]

/-- A numeral is copied whole if the destination is apart from the static buffer. -/
theorem intToStr_put (m : Mem) {dest : ℕ} (hb : 2 ≤ base) (hb' : base ≤ 36)
    (hlen : (numeral val base).length ≤ MAX_INT_STR)
    (ha : dest + (numeral val base).length ≤ tmp ∨ tmp + (MAX_INT_STR + 1) ≤ dest) :
    intToStr m tmp dest MAX_INT_STR val base =
      .ok (Dawos.put (tmpWith m tmp (numeral val base)) dest (numeral val base),
        (numeral val base).length) := by
  have hsrc : dest + min MAX_INT_STR (numeral val base).length ≤
        tmp + (MAX_INT_STR - (numeral val base).length) ∨
      tmp + (MAX_INT_STR - (numeral val base).length) + (numeral val base).length < dest := by
    omega
  have hcopy := strCopy_eq (zText_put m tmp hb hb' hlen) hsrc
  rw [List.take_of_length_le hlen, Nat.min_eq_right hlen] at hcopy
  rw [intToStr_fits m tmp dest MAX_INT_STR hb hb' hlen]
  exact congrArg Except.ok hcopy

/-- More than `r` characters of a numeral are copied if the first `r` go to bytes apart from the
static buffer. -/
theorem intToStr_count (m : Mem) {dest r : ℕ} (hb : 2 ≤ base) (hb' : base ≤ 36)
    (hlen : (numeral val base).length ≤ MAX_INT_STR) (hr : r < (numeral val base).length)
    (ha : dest + r ≤ tmp ∨ tmp + (MAX_INT_STR + 1) ≤ dest) :
    ∃ p, intToStr m tmp dest MAX_INT_STR val base = .ok p ∧ r < p.2 := by
  have hsrc : dest + r ≤ tmp + (MAX_INT_STR - (numeral val base).length) ∨
      tmp + (MAX_INT_STR - (numeral val base).length) + (numeral val base).length < dest := by
    omega
  exact ⟨_, intToStr_fits m tmp dest MAX_INT_STR hb hb' hlen,
    strCopy_count (zText_put m tmp hb hb' hlen) (hr.trans_le hlen) hr hsrc⟩

/-- A number, which may be read from the bytes that are not written to. -/
theorem Emits.int (hapart : dest + cap ≤ tmp ∨ tmp + (MAX_INT_STR + 1) ≤ dest) (hb : 2 ≤ base)
    (hb' : base ≤ 36) {v : Out → ℤ} (hv : ∀ {text o}, Wrote m tmp dest cap text o → v o = val)
    (hlen : (numeral val base).length ≤ MAX_INT_STR) :
    Emits m tmp dest cap (fun _ o => o.int tmp (v o) base) (numeral val base) where
  steady o := Steady.const _
  mono := Mono.int v base
  fits {text o} hw hle := by
    have hd := hw.d
    refine ⟨_, Returns.of_eq fun _ => ?_, hw.put hle hapart (tmpWith_off o.mem hlen)⟩
    unfold Out.int
    rw [hv hw, intToStr_put o.mem hb hb' hlen (by omega)]
    rfl
  past {text o} hw hlt n o' hs := by
    have hd := hw.d
    have hle := hw.le
    obtain ⟨p, hp, hcount⟩ := @intToStr_count tmp base val o.mem o.d (cap - text.length) hb hb' hlen
      (by omega) (by omega)
    unfold Out.int at hs
    rw [hv hw, hp] at hs
    rw [← Except.ok.inj hs]
    show cap < o.ret + p.2
    rw [hw.ret]
    omega

theorem ConstText.tail {P : ℕ → Prop} (h : ConstText m P a (c :: l)) : ConstText m P (a + 1) l where
  text := h.text.tail
  off i hi := by
    rw [Nat.add_assoc, Nat.add_comm 1 i]
    exact h.off (i + 1) (Nat.succ_le_succ hi)

/-- A text that has been stored before a zero, between the static buffer and the destination. -/
theorem ConstText.put (hne : ∀ c ∈ l, c ≠ 0) (hstop : m (a + l.length) = 0)
    (htmp : tmp + (MAX_INT_STR + 1) ≤ a) (hdest : a + l.length < dest) :
    ConstText (Dawos.put m a l) (Scratch tmp dest cap) a l where
  text := ⟨fun _ hi => put_at hi, hne, (put_off (.inr le_rfl)).trans hstop⟩
  off i hi := by
    unfold Scratch
    omega

/-- The string is copied up to its end, or past the end of the room. -/
theorem Emits.str (hapart : dest + cap ≤ tmp ∨ tmp + (MAX_INT_STR + 1) ≤ dest)
    (hs : ConstText m (Scratch tmp dest cap) a l) : Emits m tmp dest cap (fun n o => o.str a n) l := by
  induction l generalizing a with
  | nil =>
      have hzero : ∀ {text o}, Wrote m tmp dest cap text o → o.mem a = 0 := fun hw =>
        (hw.const (hs.off 0 le_rfl)).trans hs.text.stop
      refine ⟨fun o => loop_steady _ _, Mono.str a, fun {text o} hw _ => ⟨o, ?_, ?_⟩, fun hw hlt => ?_⟩
      · exact Returns.loop_inr (if_neg (not_not.mpr (hzero hw)))
      · rwa [List.append_nil]
      · exact absurd hlt (Nat.not_lt.mpr hw.le)
  | cons c l ih =>
      have hrest := ih hs.tail
      have hchar := Emits.char (m := m) hapart c
      have hround : ∀ {text o}, Wrote m tmp dest cap text o →
          strRound (o, a) = .inl (o.char c, a + 1) := fun {text o} hw => by
        have hc : o.mem a = c := (hw.const (hs.off 0 (Nat.zero_le _))).trans hs.text.head
        have hne : o.mem a ≠ 0 := by
          rw [hc]
          exact hs.text.nonzero c List.mem_cons_self
        unfold strRound
        rw [if_pos hne, hc]
      refine ⟨fun o => loop_steady _ _, Mono.str a, fun {text o} hw hle => ?_,
        fun {text o} hw hlt n o' hr => ?_⟩
      · obtain ⟨o₂, h2, hw₂⟩ := (hchar.append hrest).fits hw hle
        exact ⟨o₂, Returns.loop_inl h2 (hround hw), hw₂⟩
      · cases n with
        | zero => cases hr
        | succ n =>
            unfold Out.str at hr
            simp only [loop, hround hw] at hr
            exact (hchar.append hrest).past hw hlt n o' hr

/-- A word that is not written to is as it was. -/
theorem Wrote.rdN (hw : Wrote m tmp dest cap text o) {k : ℕ}
    (hoff : ∀ i < k, ¬ Scratch tmp dest cap (a + i)) : rdN o.mem k a = rdN m k a :=
  rdN_congr fun x h1 h2 => by
    obtain ⟨i, rfl⟩ : ∃ i, x = a + i := ⟨x - a, by omega⟩
    exact hw.const (hoff i (by omega))

theorem Emits.foldlM {α : Type} {f : α → Out → Except Halt Out} {t : α → List UInt8} {xs : List α}
    (h : ∀ x ∈ xs, Emits m tmp dest cap (fun _ o => f x o) (t x)) :
    Emits m tmp dest cap (fun _ o => xs.foldlM (fun o x => f x o) o) (xs.flatMap t) := by
  induction xs with
  | nil => exact Emits.nil
  | cons x xs ih =>
      rw [List.flatMap_cons]
      exact (h x List.mem_cons_self).append (ih fun y hy => h y (List.mem_cons_of_mem x hy))

theorem Emits.guid (hapart : dest + cap ≤ tmp ∨ tmp + (MAX_INT_STR + 1) ≤ dest)
    (hoff : ∀ i < 16, ¬ Scratch tmp dest cap (a + i)) :
    Emits m tmp dest cap (fun _ o => o.guid tmp a) (guidText (guidAt m a)) := by
  have hfits : ∀ k < 2 ^ 32, (numeral (k : ℕ) 16).length ≤ MAX_INT_STR := fun k hk =>
    numeral_length (by norm_num) (by omega)
  have hlt : ∀ (m : Mem) a, Dawos.rdN m 4 a < 2 ^ 32 ∧ Dawos.rdN m 2 a < 2 ^ 32 := fun m a =>
    ⟨rdN_lt m 4 a, (rdN_lt m 2 a).trans (by norm_num)⟩
  have h1 : Emits m tmp dest cap (fun _ o => o.int tmp (Dawos.rdN o.mem 4 a) 16)
      (numeral (Dawos.rdN m 4 a) 16) :=
    Emits.int hapart (by norm_num) (by norm_num)
      (fun hw => by rw [hw.rdN fun i hi => hoff i (by omega)]) (hfits _ (hlt m a).1)
  have h2 : ∀ b, b + 2 ≤ 16 → Emits m tmp dest cap (fun _ o => o.int tmp (Dawos.rdN o.mem 2 (a + b)) 16)
      (numeral (Dawos.rdN m 2 (a + b)) 16) := fun b hb =>
    Emits.int hapart (by norm_num) (by norm_num)
      (fun hw => by
        rw [hw.rdN fun i hi => ?_]
        rw [Nat.add_assoc]
        exact hoff (b + i) (by omega)) (hfits _ (hlt m _).2)
  have h4 : ∀ i ∈ List.range 8, Emits m tmp dest cap
      (fun _ o => o.int tmp (o.mem (a + 8 + i)).toNat 16) (numeral (m (a + 8 + i)).toNat 16) := by
    intro i hi
    have hi' := List.mem_range.mp hi
    refine Emits.int hapart (by norm_num) (by norm_num) (fun hw => ?_) (hfits _ ?_)
    · rw [hw.const]
      rw [Nat.add_assoc]
      exact hoff (8 + i) (by omega)
    · exact (UInt8.toNat_lt _).trans (by norm_num)
  have hdash := Emits.char (m := m) hapart 0x2D
  simp only [Out.guid_eq]
  exact h1.append (hdash.append ((h2 4 (by norm_num)).append (hdash.append ((h2 6 (by norm_num)).append
    (hdash.append (Emits.foldlM h4))))))

theorem natAbs_toInt64_le (w : ℕ) : (toInt64 w).natAbs ≤ 2 ^ 63 := by
  unfold toInt64
  have h1 := @Int.le_bmod w (2 ^ 64) (by norm_num)
  have h2 := @Int.bmod_lt w (2 ^ 64) (by norm_num)
  omega

/-- The text of an argument, if it is not a binary number that is too long for the static buffer. -/
theorem Emits.convert (hapart : dest + cap ≤ tmp ∨ tmp + (MAX_INT_STR + 1) ≤ dest) {k : Conv}
    (hl : ArgText m (Scratch tmp dest cap) k a l) (hb : k = .b → l.length ≤ MAX_INT_STR) :
    Emits m tmp dest cap (fun n o => o.convert tmp k a n) l := by
  have hint : ∀ {base : ℕ}, 4 ≤ base → base ≤ 36 → Emits m tmp dest cap
      (fun _ o => o.int tmp (toInt64 a) base) (numeral (toInt64 a) base) := fun h4 h36 =>
    Emits.int hapart (by omega) h36 (fun _ => rfl) (numeral_length h4 (natAbs_toInt64_le a))
  cases k with
  | d =>
      rw [show l = numeral (toInt64 a) 10 from hl]
      exact hint (by norm_num) (by norm_num)
  | u =>
      rw [show l = numeral (toInt64 a) 10 from hl]
      exact hint (by norm_num) (by norm_num)
  | x =>
      rw [show l = numeral (toInt64 a) 16 from hl]
      exact hint (by norm_num) (by norm_num)
  | b =>
      rw [show l = numeral (toInt64 a) 2 from hl] at hb ⊢
      exact Emits.int hapart (by norm_num) (by norm_num) (fun _ => rfl) (hb rfl)
  | c =>
      rw [show l = [UInt8.ofNat a] from hl]
      exact Emits.char hapart _
  | s => exact Emits.str hapart hl
  | g =>
      rw [show l = guidText (guidAt m a) from hl.1]
      exact Emits.guid hapart hl.2

/-- A binary number that is too long is not written. -/
theorem convert_bounds (o : Out) (n : ℕ) (hlen : MAX_INT_STR < (numeral (toInt64 a) 2).length) :
    o.convert tmp .b a n = .error .bounds := by
  unfold Out.convert Out.int
  dsimp only
  rw [show ((2 : ℤ)) = ((2 : ℕ) : ℤ) from rfl,
    intToStr_bounds o.mem tmp o.d MAX_INT_STR (by norm_num) (by norm_num) hlen]
  rfl

end emits

end Dawos
