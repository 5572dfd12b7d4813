import Dawos.DebugPrint

/-! # Accesses to video memory

The stores and block moves that the debug console makes, as byte offsets into video memory.  For
each function of the console there is the list of its operations, and `DebugCall.replay_ops` says
that they are what changes video memory.

`debug_accesses` says that all of them stay inside the screen, in any sequence of calls. -/

namespace Dawos

/-! ### Operations -/

/-- The bytes of text video memory. -/
def VIDEOMEM_SIZE : ℕ := COLUMNS * ROWS * 2

/-- An access to video memory. -/
inductive Access where
  /-- A character and its colour are stored. -/
  | char (i : ℕ) (cell : Cell)
  /-- Words are moved, the first one first. -/
  | move (dst src words : ℕ)
  /-- Words are filled. -/
  | fill (dst words : ℕ) (cell : Cell)

def Access.exec (v : ℕ → Cell) : Access → ℕ → Cell
  | .char i cell => Function.update v (i / 2) cell
  | .move dst src words => fun k =>
      if dst / 2 ≤ k ∧ k < dst / 2 + words then v (src / 2 + (k - dst / 2)) else v k
  | .fill dst words cell => fun k => if dst / 2 ≤ k ∧ k < dst / 2 + words then cell else v k

/-- The access stays inside the screen. -/
def Access.InBounds : Access → Prop
  | .char i _ => ∃ x y, x < COLUMNS ∧ y < ROWS ∧ i = (y * COLUMNS + x) * 2
  | .move dst src words => dst + words * 2 ≤ VIDEOMEM_SIZE ∧ src + words * 2 ≤ VIDEOMEM_SIZE
  | .fill dst words _ => dst + words * 2 ≤ VIDEOMEM_SIZE

/-- An operation of the console: a character store, or a call of one of the two functions that work
on the whole screen. -/
inductive VideoOp where
  | char (i : ℕ) (cell : Cell)
  | scroll (color : UInt8)
  | clear (color : UInt8)
deriving DecidableEq

def VideoOp.accesses : VideoOp → List Access
  | .char i cell => [.char i cell]
  | .scroll color =>
      let rowLen := COLUMNS * 2 % 2 ^ 16
      let lastRowChar := (ROWS - 1) * COLUMNS % 2 ^ 16
      [.move 0 rowLen lastRowChar, .fill (lastRowChar * 2) COLUMNS (blank color)]
  | .clear color => [.fill 0 (COLUMNS * ROWS) (blank color)]

def VideoOp.exec (v : ℕ → Cell) (op : VideoOp) : ℕ → Cell := op.accesses.foldl Access.exec v

/-- Video memory after a list of operations. -/
def replay (v : ℕ → Cell) (ops : List VideoOp) : ℕ → Cell := ops.foldl VideoOp.exec v

/-- Where the console stores a character. -/
def Screen.offset (s : Screen) : ℕ := (s.y * COLUMNS * 2 + s.x * 2) % 2 ^ 16

section ops

variable {s : Screen} {color c : UInt8} {i : ℕ}

theorem replay_append (v : ℕ → Cell) (xs ys : List VideoOp) :
    replay v (xs ++ ys) = replay (replay v xs) ys := List.foldl_append

theorem exec_scroll : VideoOp.exec s.vidmem (.scroll s.baseColor) = (debugScroll s).vidmem := by
  funext k
  show (if (ROWS - 1) * COLUMNS % 2 ^ 16 * 2 / 2 ≤ k ∧
        k < (ROWS - 1) * COLUMNS % 2 ^ 16 * 2 / 2 + COLUMNS then blank s.baseColor
      else if 0 / 2 ≤ k ∧ k < 0 / 2 + (ROWS - 1) * COLUMNS % 2 ^ 16 then
        s.vidmem (COLUMNS * 2 % 2 ^ 16 / 2 + (k - 0 / 2))
      else s.vidmem k) = _
  have hrow : COLUMNS * 2 % 2 ^ 16 / 2 + (k - 0 / 2) = k + COLUMNS := by
    rw [Nat.add_comm]
    rfl
  have hlast : (ROWS - 1) * COLUMNS % 2 ^ 16 = (ROWS - 1) * COLUMNS := rfl
  rw [hrow, hlast]
  unfold debugScroll
  dsimp only
  split_ifs <;> first | rfl | omega

theorem exec_clear : VideoOp.exec s.vidmem (.clear color) = (debugClear s color).vidmem := by
  funext k
  show (if 0 / 2 ≤ k ∧ k < 0 / 2 + COLUMNS * ROWS then blank color else s.vidmem k) = _
  unfold debugClear
  dsimp only
  split_ifs <;> first | rfl | omega

/-- The block move and the fill of a scroll end with the last byte of the screen. -/
theorem scroll_inBounds : ∀ a ∈ (VideoOp.scroll color).accesses, a.InBounds := by
  refine List.forall_mem_cons.mpr ⟨⟨by decide, by decide⟩, List.forall_mem_singleton.mpr ?_⟩
  exact (by decide : (ROWS - 1) * COLUMNS % 2 ^ 16 * 2 + COLUMNS * 2 ≤ VIDEOMEM_SIZE)

theorem clear_inBounds : ∀ a ∈ (VideoOp.clear color).accesses, a.InBounds := by
  refine List.forall_mem_singleton.mpr ?_
  exact (by decide : 0 + COLUMNS * ROWS * 2 ≤ VIDEOMEM_SIZE)

/-- A cursor on the screen is at the offset of its cell. -/
theorem Screen.offset_eq (hx : s.x < COLUMNS) (hy : s.y < ROWS) : s.offset = (s.y * COLUMNS + s.x) * 2 := by
  unfold Screen.offset
  simp only [COLUMNS, ROWS] at hx hy ⊢
  omega

theorem char_inBounds (hx : s.x < COLUMNS) (hy : s.y < ROWS) :
    ∀ a ∈ (VideoOp.char s.offset ⟨c, color⟩).accesses, a.InBounds := by
  refine List.forall_mem_singleton.mpr ?_
  exact ⟨s.x, s.y, hx, hy, Screen.offset_eq hx hy⟩

end ops

/-! ### The operations of the loader's console -/

def Screen.enterOps (s : Screen) : List VideoOp := if ROWS ≤ s.y then [.scroll s.baseColor] else []

/-- The operations for one character. -/
def Screen.putOps (color : UInt8) (s : Screen) (c : UInt8) : List VideoOp :=
  let s := if c = 0x0A ∨ COLUMNS ≤ s.x then s.newline else s
  s.enterOps ++ if Printable c then [.char s.enter.offset ⟨c, color⟩] else []

/-- The operations for a text. -/
def printOps (color : UInt8) : Screen → List UInt8 → List VideoOp
  | _, [] => []
  | s, c :: text => s.putOps color c ++ printOps color (s.put color c) text

/-- Calls of the console. -/
inductive DebugCall where
  | clear (color : UInt8)
  | print (color : UInt8) (text : List UInt8)

def DebugCall.exec (s : Screen) : DebugCall → Screen
  | .clear color => debugClear s color
  | .print color text => debugPrint s color text

def DebugCall.ops (s : Screen) : DebugCall → List VideoOp
  | .clear color => [.clear color]
  | .print color text => printOps color s text

/-- The screen after a sequence of calls. -/
def debugRun (s : Screen) (calls : List DebugCall) : Screen := calls.foldl DebugCall.exec s

/-- The operations of a sequence of calls. -/
def debugOps : Screen → List DebugCall → List VideoOp
  | _, [] => []
  | s, call :: calls => call.ops s ++ debugOps (call.exec s) calls

section loader

variable {s : Screen} {color c : UInt8} {text : List UInt8}

theorem replay_enterOps : replay s.vidmem s.enterOps = s.enter.vidmem := by
  unfold Screen.enterOps Screen.enter
  split_ifs
  · exact exec_scroll
  · rfl

theorem replay_putOps : replay s.vidmem (s.putOps color c) = (s.put color c).vidmem := by
  have hmove : s.vidmem = (if c = 0x0A ∨ COLUMNS ≤ s.x then s.newline else s).vidmem := by
    split_ifs <;> rfl
  unfold Screen.putOps Screen.put
  dsimp only
  rw [hmove, replay_append, replay_enterOps]
  split_ifs <;> rfl

theorem replay_printOps :
    replay s.vidmem (printOps color s text) = (debugPrintF s color text).vidmem := by
  induction text generalizing s with
  | nil => rfl
  | cons c text ih =>
      rw [printOps, replay_append, replay_putOps, ih, debugPrintF, debugPrintF, List.foldl_cons]

/-- The operations are what changes video memory. -/
theorem DebugCall.replay_ops (call : DebugCall) :
    replay s.vidmem (call.ops s) = (call.exec s).vidmem := by
  cases call with
  | clear color => exact exec_clear
  | print color text => exact replay_printOps

theorem enter_lt : s.enter.y < ROWS := by
  unfold Screen.enter
  split_ifs with h
  · exact (by decide : ROWS - 1 < ROWS)
  · exact Nat.not_le.mp h

theorem enter_x : s.enter.x = s.x := by
  unfold Screen.enter
  split_ifs <;> rfl

/-- The cursor is checked before a character is stored. -/
theorem putOps_inBounds : ∀ op ∈ s.putOps color c, ∀ a ∈ op.accesses, a.InBounds := by
  have hx : (if c = 0x0A ∨ COLUMNS ≤ s.x then s.newline else s).x < COLUMNS := by
    split_ifs with h
    · exact (by decide : 0 < COLUMNS)
    · exact Nat.not_le.mp fun hle => h (.inr hle)
  unfold Screen.putOps
  dsimp only
  generalize (if c = 0x0A ∨ COLUMNS ≤ s.x then s.newline else s) = s' at hx ⊢
  refine List.forall_mem_append.mpr ⟨?_, ?_⟩
  · unfold Screen.enterOps
    split_ifs
    · exact List.forall_mem_singleton.mpr scroll_inBounds
    · exact List.forall_mem_nil _
  · split_ifs
    · exact List.forall_mem_singleton.mpr (char_inBounds (enter_x.trans_lt hx) enter_lt)
    · exact List.forall_mem_nil _

theorem printOps_inBounds : ∀ op ∈ printOps color s text, ∀ a ∈ op.accesses, a.InBounds := by
  induction text generalizing s with
  | nil => exact List.forall_mem_nil _
  | cons c text ih => exact List.forall_mem_append.mpr ⟨putOps_inBounds, ih⟩

theorem DebugCall.ops_inBounds (call : DebugCall) :
    ∀ op ∈ call.ops s, ∀ a ∈ op.accesses, a.InBounds := by
  cases call with
  | clear color => exact List.forall_mem_singleton.mpr clear_inBounds
  | print color text => exact printOps_inBounds

/-- **In every sequence of calls, the accesses that make up what the console does to video memory
stay inside the screen: characters go to cells with a column below 80 and a row below 25, block
moves and fills to the 4000 bytes of video memory.** -/
theorem debug_accesses (s : Screen) (calls : List DebugCall) :
    replay s.vidmem (debugOps s calls) = (debugRun s calls).vidmem ∧
      ∀ op ∈ debugOps s calls, ∀ a ∈ op.accesses, a.InBounds := by
  induction calls generalizing s with
  | nil => exact ⟨rfl, List.forall_mem_nil _⟩
  | cons call calls ih =>
      obtain ⟨h1, h2⟩ := ih (call.exec s)
      refine ⟨?_, List.forall_mem_append.mpr ⟨call.ops_inBounds, h2⟩⟩
      rw [debugOps, replay_append, call.replay_ops, h1]
      rfl

end loader

end Dawos
