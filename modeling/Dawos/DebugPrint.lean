import Mathlib

/-! # The debug console

`debug_clear`, `debug_scroll` and `debug_print` of `debug_print.c`.  A call is given by its colour
and by the text that its format renders to.  Video memory is a function from the indices of the
16-bit words to characters with a colour.

`Sheet` is what the console is for: an unbounded sheet of rows that the same calls write to.
`Shown` relates it to the screen after `k` rows have been scrolled out; `debug_print_shows` is the
result for every run whose calls do not begin on the row below the screen with a newline or with
nothing at all. -/

namespace Dawos

/-! ### The screen -/

def COLUMNS : ℕ := 80
def ROWS : ℕ := 25

/-- A word of video memory. -/
structure Cell where
  char : UInt8
  color : UInt8
deriving DecidableEq

/-- Video memory, the cursor and the base colour. -/
structure Screen where
  vidmem : ℕ → Cell
  x : ℕ
  y : ℕ
  baseColor : UInt8

/-- A blank character. -/
def blank (color : UInt8) : Cell := ⟨0x20, color⟩

def debugClear (s : Screen) (color : UInt8) : Screen where
  vidmem i := if i < COLUMNS * ROWS then blank color else s.vidmem i
  x := 0
  y := 0
  baseColor := color

/-- Every row takes the contents of the next one, the last row is cleared. -/
def debugScroll (s : Screen) : Screen :=
  { s with
    vidmem := fun i =>
      if i < (ROWS - 1) * COLUMNS then s.vidmem (i + COLUMNS)
      else if i < (ROWS - 1) * COLUMNS + COLUMNS then blank s.baseColor
      else s.vidmem i }

/-- Only valid ASCII characters are printed. -/
def Printable (c : UInt8) : Prop := 0x20 ≤ c ∧ c ≤ 0x7E

instance (c : UInt8) : Decidable (Printable c) := inferInstanceAs (Decidable (_ ∧ _))

/-- Move to the next row. -/
def Screen.newline (s : Screen) : Screen := { s with x := 0, y := s.y + 1 }

/-- Scroll, if the cursor is below the screen. -/
def Screen.enter (s : Screen) : Screen :=
  if ROWS ≤ s.y then { debugScroll s with y := ROWS - 1 } else s

/-- Write a character at the cursor. -/
def Screen.write (s : Screen) (color c : UInt8) : Screen :=
  { s with
    vidmem := Function.update s.vidmem ((s.y * COLUMNS * 2 + s.x * 2) % 2 ^ 16 / 2) ⟨c, color⟩
    x := s.x + 1 }

/-- The body of the loop over the text. -/
def Screen.put (color : UInt8) (s : Screen) (c : UInt8) : Screen :=
  let s := if c = 0x0A ∨ COLUMNS ≤ s.x then s.newline else s
  let s := s.enter
  if Printable c then s.write color c else s

def debugPrintF (s : Screen) (color : UInt8) (text : List UInt8) : Screen :=
  text.foldl (Screen.put color) s

def debugPrint (s : Screen) (color : UInt8) (text : List UInt8) : Screen :=
  (debugPrintF s color text).newline

/-! ### The sheet -/

/-- A sheet of rows, and the place after the last character. -/
structure Sheet where
  cell : ℕ → ℕ → Cell
  row : ℕ
  col : ℕ

/-- An empty sheet. -/
def Sheet.clear (color : UInt8) : Sheet := ⟨fun _ _ => blank color, 0, 0⟩

def Sheet.newline (t : Sheet) : Sheet := { t with row := t.row + 1, col := 0 }

def Sheet.write (t : Sheet) (color c : UInt8) : Sheet :=
  { t with
    cell := fun i j => if i = t.row ∧ j = t.col then ⟨c, color⟩ else t.cell i j
    col := t.col + 1 }

/-- A newline or a full row moves to a new row, then a printable character is written. -/
def Sheet.put (color : UInt8) (t : Sheet) (c : UInt8) : Sheet :=
  let t := if c = 0x0A ∨ t.col = COLUMNS then t.newline else t
  if Printable c then t.write color c else t

def Sheet.puts (t : Sheet) (color : UInt8) (text : List UInt8) : Sheet := text.foldl (Sheet.put color) t

/-- A call ends by moving to a new row. -/
def Sheet.print (t : Sheet) (color : UInt8) (text : List UInt8) : Sheet := (t.puts color text).newline

/-- The screen shows the rows of the sheet up to the last one, as far as there is room. -/
def Shows (s : Screen) (t : Sheet) : Prop :=
  ∀ i < ROWS, ∀ j < COLUMNS,
    s.vidmem (COLUMNS * i + j) = t.cell (if t.row < ROWS then i else t.row - (ROWS - 1) + i) j

/-! ### The relation between screen and sheet -/

/-- The screen and the sheet after `k` rows have been scrolled out. -/
structure Shown (s : Screen) (t : Sheet) (k : ℕ) : Prop where
  x : s.x = t.col
  y : s.y + k = t.row
  col_le : t.col ≤ COLUMNS
  y_le : s.y ≤ ROWS
  /-- The cursor is below the screen only at the start of a row. -/
  below : s.y = ROWS → t.col = 0
  /-- There is no scrolling before the last row of the screen is reached. -/
  last : k = 0 ∨ ROWS - 1 ≤ s.y
  cells : ∀ i < ROWS, ∀ j < COLUMNS, s.vidmem (COLUMNS * i + j) = t.cell (k + i) j
  blanks : ∀ i j, t.row < i ∨ (t.row = i ∧ t.col ≤ j) → t.cell i j = blank s.baseColor

section shown

variable {s : Screen} {t : Sheet} {k : ℕ} {c color base : UInt8} {text : List UInt8}

theorem Shown.clear (s : Screen) (color : UInt8) : Shown (debugClear s color) (.clear color) 0 where
  x := rfl
  y := rfl
  col_le := Nat.zero_le _
  y_le := Nat.zero_le _
  below := fun _ => rfl
  last := .inl rfl
  cells := fun i hi j hj => by
    simp only [COLUMNS, ROWS] at hi hj
    have : COLUMNS * i + j < COLUMNS * ROWS := by
      simp only [COLUMNS, ROWS]
      omega
    simp only [debugClear, Sheet.clear, this, if_true]
  blanks := fun _ _ _ => rfl

/-- Above the last row the cursor moves down. -/
theorem Shown.newline (h : Shown s t k) (hy : s.y < ROWS) : Shown s.newline t.newline k where
  x := rfl
  y := by
    show s.y + 1 + k = t.row + 1
    rw [← h.y]
    omega
  col_le := Nat.zero_le _
  y_le := hy
  below := fun _ => rfl
  last := h.last.imp_right fun hl => hl.trans (Nat.le_succ _)
  cells := h.cells
  blanks := fun i j hij => h.blanks i j (.inl (by
    have : t.row + 1 < i ∨ t.row + 1 = i ∧ 0 ≤ j := hij
    omega))

/-- A row after scrolling. -/
theorem debugScroll_cell {i j : ℕ} (hi : i < ROWS) (hj : j < COLUMNS) :
    (debugScroll s).vidmem (COLUMNS * i + j) =
      if i + 1 = ROWS then blank s.baseColor else s.vidmem (COLUMNS * (i + 1) + j) := by
  have hupper : COLUMNS * i + j < (ROWS - 1) * COLUMNS ↔ ¬ i + 1 = ROWS := by
    simp only [COLUMNS, ROWS] at hi hj ⊢
    omega
  have hlower : COLUMNS * i + j < (ROWS - 1) * COLUMNS + COLUMNS := by
    simp only [COLUMNS, ROWS] at hi hj ⊢
    omega
  unfold debugScroll
  dsimp only
  by_cases he : i + 1 = ROWS
  · rw [if_neg (not_not.mpr he ∘ hupper.mp), if_pos hlower, if_pos he]
  · rw [if_pos (hupper.mpr he), if_neg he, Nat.mul_succ, Nat.add_right_comm]

/-- A cursor below the screen comes back to the last row, and the screen shows one more row. -/
theorem Shown.enter (h : Shown s t k) : ∃ k', Shown s.enter t k' ∧ s.enter.y < ROWS := by
  unfold Screen.enter
  by_cases hy : ROWS ≤ s.y
  · have hrows : s.y = ROWS := le_antisymm h.y_le hy
    rw [if_pos hy]
    refine ⟨k + 1, ⟨h.x, ?_, h.col_le, ?_, ?_, ?_, ?_, h.blanks⟩, ?_⟩
    · show ROWS - 1 + (k + 1) = t.row
      rw [← h.y, hrows, ROWS]
      omega
    · show ROWS - 1 ≤ ROWS
      exact Nat.sub_le _ _
    · exact fun hc : ROWS - 1 = ROWS => absurd hc (by decide)
    · exact .inr le_rfl
    · intro i hi j hj
      show (debugScroll s).vidmem (COLUMNS * i + j) = _
      rw [debugScroll_cell hi hj]
      by_cases he : i + 1 = ROWS
      · have hrow : t.row = k + 1 + i := by
          rw [← h.y, hrows]
          omega
        have hcol : t.col ≤ j := by
          rw [h.below hrows]
          exact Nat.zero_le _
        rw [if_pos he, h.blanks _ _ (.inr ⟨hrow, hcol⟩)]
      · rw [if_neg he, h.cells (i + 1) (by omega) j hj, Nat.add_right_comm k 1 i, Nat.add_assoc]
    · exact (by decide : ROWS - 1 < ROWS)
  · rw [if_neg hy]
    exact ⟨k, h, Nat.not_le.mp hy⟩

/-- A character goes to the same place on the screen and on the sheet. -/
theorem Shown.write (h : Shown s t k) (hy : s.y < ROWS) (hx : t.col < COLUMNS) :
    Shown (s.write color c) (t.write color c) k where
  x := congrArg (· + 1) h.x
  y := h.y
  col_le := hx
  y_le := h.y_le
  below := fun hc => absurd hc hy.ne
  last := h.last
  cells := fun i hi j hj => by
    have hidx : COLUMNS * i + j = (s.y * COLUMNS * 2 + t.col * 2) % 2 ^ 16 / 2 ↔
        (k + i = t.row ∧ j = t.col) := by
      rw [← h.y]
      simp only [COLUMNS, ROWS] at hi hj hx hy ⊢
      have hmod : (s.y * 80 * 2 + t.col * 2) % 2 ^ 16 / 2 = 80 * s.y + t.col := by omega
      rw [hmod]
      constructor
      · intro he
        have hrow : i = s.y := by omega
        omega
      · rintro ⟨h1, h2⟩
        omega
    simp only [Screen.write, Sheet.write, Function.update_apply, h.x, hidx, h.cells i hi j hj]
  blanks := fun i j hij => by
    have hij' : t.row < i ∨ (t.row = i ∧ t.col + 1 ≤ j) := hij
    have hne : ¬ (i = t.row ∧ j = t.col) := by omega
    have hb := h.blanks i j (by omega)
    simp only [Screen.write, Sheet.write, hne, if_false]
    exact hb

/-- One character, unless it is a newline and the cursor is below the screen. -/
theorem Shown.put (h : Shown s t k) (hc : c = 0x0A → s.y < ROWS) :
    ∃ k', Shown (s.put color c) (t.put color c) k' ∧ (s.put color c).y < ROWS := by
  have hfull : COLUMNS ≤ s.x ↔ t.col = COLUMNS := by
    rw [h.x]
    exact ⟨fun hle => le_antisymm h.col_le hle, fun he => he.ge⟩
  have hmove : ∃ s' t', s' = (if c = 0x0A ∨ COLUMNS ≤ s.x then s.newline else s) ∧
      t' = (if c = 0x0A ∨ t.col = COLUMNS then t.newline else t) ∧ Shown s' t' k ∧
      t'.col < COLUMNS := by
    refine ⟨_, _, rfl, rfl, ?_⟩
    simp only [hfull]
    by_cases hm : c = 0x0A ∨ t.col = COLUMNS
    · have hy : s.y < ROWS := by
        cases hm with
        | inl hn => exact hc hn
        | inr hcol =>
            apply lt_of_le_of_ne h.y_le
            intro he
            rw [h.below he] at hcol
            cases hcol
      rw [if_pos hm, if_pos hm]
      exact ⟨h.newline hy, (by decide : 0 < COLUMNS)⟩
    · rw [if_neg hm, if_neg hm]
      exact ⟨h, lt_of_le_of_ne h.col_le fun he => hm (.inr he)⟩
  obtain ⟨s', t', hs, ht, hst, hcol⟩ := hmove
  obtain ⟨k', hk, hy⟩ := hst.enter
  unfold Screen.put Sheet.put
  dsimp only
  rw [← hs, ← ht]
  refine ⟨k', ?_⟩
  by_cases hp : Printable c
  · rw [if_pos hp, if_pos hp]
    exact ⟨hk.write hy hcol, hy⟩
  · rw [if_neg hp, if_neg hp]
    exact ⟨hk, hy⟩

/-- A text, unless it begins with a newline or is empty while the cursor is below the screen. -/
theorem Shown.puts (h : Shown s t k) (hc : s.y = ROWS → ∃ c text', text = c :: text' ∧ c ≠ 0x0A) :
    ∃ k', Shown (debugPrintF s color text) (t.puts color text) k' ∧
      (debugPrintF s color text).y < ROWS := by
  induction text generalizing s t k with
  | nil =>
      refine ⟨k, h, lt_of_le_of_ne h.y_le fun he => ?_⟩
      obtain ⟨c, text', h', -⟩ := hc he
      cases h'
  | cons c text ih =>
      have hnl : c = 0x0A → s.y < ROWS := by
        intro hcn
        apply lt_of_le_of_ne h.y_le
        intro he
        obtain ⟨c', text', h', hne⟩ := hc he
        cases h'
        exact hne hcn
      obtain ⟨k', hk, hy⟩ := @Shown.put s t k c color h hnl
      exact ih hk fun he => absurd he hy.ne

/-- With the cursor on the screen, the screen shows the last rows of the sheet. -/
theorem Shown.shows (h : Shown s t k) (hy : s.y < ROWS) : Shows s t := by
  intro i hi j hj
  have hk : k = if t.row < ROWS then 0 else t.row - (ROWS - 1) := by
    have hrow := h.y
    have hlast := h.last
    split_ifs with hlt
    · cases hlast with
      | inl h0 => exact h0
      | inr hl => omega
    · omega
  rw [h.cells i hi j hj, hk]
  split_ifs
  · rw [Nat.zero_add]
  · rfl

end shown

/-! ### Runs -/

/-- The call does not begin with a newline or end at once while the cursor is below the screen. -/
def CallOk (s : Screen) (text : List UInt8) : Prop :=
  s.y = ROWS → ∃ c text', text = c :: text' ∧ c ≠ 0x0A

/-- The runs of `debug_print` calls after `debug_clear` whose calls all meet the condition `P`. -/
inductive DebugRun (P : Screen → List UInt8 → Prop) : Screen → Sheet → Prop
  | clear (s : Screen) (color : UInt8) : DebugRun P (debugClear s color) (.clear color)
  | print {s : Screen} {t : Sheet} {text : List UInt8} (color : UInt8) (hr : DebugRun P s t)
      (hP : P s text) : DebugRun P (debugPrint s color text) (t.print color text)

section run

variable {s : Screen} {t : Sheet}

/-- The rows on the screen are consecutive rows of the sheet after every call. -/
theorem DebugRun.shown (h : DebugRun CallOk s t) : ∃ k, Shown s t k := by
  induction h with
  | clear s color => exact ⟨0, .clear s color⟩
  | print color hr hP ih =>
      obtain ⟨k, hk⟩ := ih
      obtain ⟨k', hk', hy⟩ := hk.puts hP
      exact ⟨k', hk'.newline hy⟩

/-- **In a run without calls that begin with a newline or are empty while the cursor is below the
screen, the screen shows the last 25 rows of the sheet right after every character.** -/
theorem debug_print_shows (h : DebugRun CallOk s t) (color c : UInt8) (text : List UInt8)
    (hc : CallOk s (text ++ [c])) :
    Shows (debugPrintF s color (text ++ [c])) (t.puts color (text ++ [c])) := by
  obtain ⟨k, hk⟩ := h.shown
  obtain ⟨k', hk', hy⟩ := hk.puts hc
  exact hk'.shows hy

/-- A list of calls in one colour. -/
theorem DebugRun.prints (color : UInt8) (texts : List (List UInt8))
    (h : DebugRun (fun _ _ => True) s t) : DebugRun (fun _ _ => True)
      (texts.foldl (debugPrint · color) s) (texts.foldl (Sheet.print · color) t) := by
  induction texts generalizing s t with
  | nil => exact h
  | cons text texts ih => exact ih (h.print color trivial)

end run

/-- Any screen before the run. -/
def anyScreen : Screen := ⟨fun _ => ⟨0, 0⟩, 7, 30, 0⟩

theorem debug_print_one : DebugRun CallOk (debugPrint (debugClear anyScreen 0xF0) 0xF1 [0x41])
      ((Sheet.clear 0xF0).print 0xF1 [0x41]) ∧
    Shows (debugPrintF (debugPrint (debugClear anyScreen 0xF0) 0xF1 [0x41]) 0xF2 ([0x0A] ++ [0x42]))
      (((Sheet.clear 0xF0).print 0xF1 [0x41]).puts 0xF2 ([0x0A] ++ [0x42])) := by
  have h : DebugRun CallOk (debugPrint (debugClear anyScreen 0xF0) 0xF1 [0x41])
      ((Sheet.clear 0xF0).print 0xF1 [0x41]) :=
    .print 0xF1 (.clear anyScreen 0xF0) fun he => absurd he (by decide)
  exact ⟨h, debug_print_shows h 0xF2 0x42 [0x0A] fun he => absurd he (by decide)⟩

/-- One letter for every row of the screen. -/
def letters : List (List UInt8) := (List.range ROWS).map fun i => [0x41 + UInt8.ofNat i]

/-- After 25 rows, a call that begins with a newline leaves the empty row out. -/
theorem debug_print_drifts : ∃ s t, DebugRun (fun _ _ => True) s t ∧
    ¬ Shows (debugPrintF s 0xF0 ([0x0A] ++ [0x58])) (t.puts 0xF0 ([0x0A] ++ [0x58])) := by
  refine ⟨_, _, DebugRun.prints 0xF0 letters (.clear anyScreen 0xF0), fun h => ?_⟩
  have hrow := h 23 (by decide) 0 (by decide)
  revert hrow
  decide +kernel

end Dawos
