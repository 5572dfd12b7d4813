import Dawos.VideoOps

/-! # The text driver of the kernel

`debug_print` of `drivers/video/text.c`; `debug_clear` and `debug_scroll` are those of the loader.
The row at which a call begins is the global one, and the row at which it goes on is a variable of
its own, so after the call the global row has moved down by one, however many rows there were.

The cells are numbered by `NoOverwrite` and `MovesUp` over the operations of a run.  The number of a
cell, plus a row for every scroll before, is the place of a character for good (`places`), and
`TextRun.advances` says that it only grows in the runs whose calls meet `CallFits`. -/

namespace Dawos.Kernel

/-! ### The code -/

/-- Move to the next row, and scroll if this is below the screen; the row has eight bits. -/
def nextRow (s : Screen) : Screen :=
  let s := { s with x := 0, y := (s.y + 1) % 2 ^ 8 }
  if ROWS ≤ s.y then { debugScroll s with y := ROWS - 1 } else s

/-- Write a character at the cursor; the column has eight bits. -/
def writeChar (s : Screen) (color c : UInt8) : Screen :=
  { s with
    vidmem := Function.update s.vidmem (s.offset / 2) ⟨c, color⟩
    x := (s.x + 1) % 2 ^ 8 }

/-- The body of the loop over the text. -/
def putChar (color : UInt8) (s : Screen) (c : UInt8) : Screen :=
  let s := if c = 0x0A ∨ COLUMNS ≤ s.x then nextRow s else s
  if Printable c then writeChar s color c else s

/-- Print at a cursor of its own; the global cursor stays. -/
def debugPrintF (s : Screen) (x y : ℕ) (color : UInt8) (text : List UInt8) : Screen :=
  { s with vidmem := (text.foldl (putChar color) { s with x := x % 2 ^ 8, y := y % 2 ^ 8 }).vidmem }

def debugPrint (s : Screen) (color : UInt8) (text : List UInt8) : Screen :=
  let s := if ROWS ≤ s.y then { debugScroll s with y := ROWS - 1 } else s
  let s := debugPrintF s s.x s.y color text
  { s with y := s.y + 1 }

/-! ### The operations -/

def nextRowOps (s : Screen) : List VideoOp :=
  if ROWS ≤ (s.y + 1) % 2 ^ 8 then [.scroll s.baseColor] else []

/-- The operations for one character. -/
def putCharOps (color : UInt8) (s : Screen) (c : UInt8) : List VideoOp :=
  (if c = 0x0A ∨ COLUMNS ≤ s.x then nextRowOps s else []) ++
    let s := if c = 0x0A ∨ COLUMNS ≤ s.x then nextRow s else s
    if Printable c then [.char s.offset ⟨c, color⟩] else []

/-- The operations for a text. -/
def textOps (color : UInt8) : Screen → List UInt8 → List VideoOp
  | _, [] => []
  | s, c :: text => putCharOps color s c ++ textOps color (putChar color s c) text

/-- The screen with the cursor of a call. -/
def localScreen (s : Screen) : Screen := { s with x := s.x % 2 ^ 8, y := s.y % 2 ^ 8 }

/-- The operations of a call. -/
def printOps (s : Screen) (color : UInt8) (text : List UInt8) : List VideoOp :=
  s.enterOps ++ textOps color (localScreen s.enter) text

section replay

variable {s : Screen} {color c : UInt8} {text : List UInt8}

theorem replay_nextRowOps : replay s.vidmem (nextRowOps s) = (nextRow s).vidmem := by
  unfold nextRowOps nextRow
  dsimp only
  split_ifs
  · exact exec_scroll
  · rfl

theorem replay_putCharOps : replay s.vidmem (putCharOps color s c) = (putChar color s c).vidmem := by
  have hmove : replay s.vidmem (if c = 0x0A ∨ COLUMNS ≤ s.x then nextRowOps s else []) =
      (if c = 0x0A ∨ COLUMNS ≤ s.x then nextRow s else s).vidmem := by
    split_ifs
    · exact replay_nextRowOps
    · rfl
  unfold putCharOps putChar
  dsimp only
  rw [replay_append, hmove]
  split_ifs <;> rfl

theorem replay_textOps :
    replay s.vidmem (textOps color s text) = (text.foldl (putChar color) s).vidmem := by
  induction text generalizing s with
  | nil => rfl
  | cons c text ih => rw [textOps, replay_append, replay_putCharOps, ih, List.foldl_cons]

/-- The operations of a call are what changes video memory. -/
theorem replay_printOps :
    replay s.vidmem (printOps s color text) = (debugPrint s color text).vidmem := by
  have h : (localScreen s.enter).vidmem = s.enter.vidmem := rfl
  rw [printOps, replay_append, replay_enterOps, ← h, replay_textOps]
  rfl

end replay

/-! ### Places -/

/-- The rows that an operation moves up. -/
def opScrolls : VideoOp → ℕ
  | .char _ _ => 0
  | .scroll _ => 1
  | .clear _ => 0

def scrolls (ops : List VideoOp) : ℕ := (ops.map opScrolls).sum

/-- No character store hits the cell to which an earlier one has moved. -/
def NoOverwrite (ops : List VideoOp) : Prop :=
  ∀ xs ys zs i j cell cell', ops = xs ++ .char i cell :: (ys ++ .char j cell' :: zs) →
    i / 2 ≠ j / 2 + COLUMNS * scrolls ys

/-- At any later point a character is as many rows further up as there were scrolls, unless it has
left the top row. -/
def MovesUp (v : ℕ → Cell) (ops : List VideoOp) : Prop :=
  ∀ xs ys zs i cell, ops = xs ++ .char i cell :: (ys ++ zs) → COLUMNS * scrolls ys ≤ i / 2 →
    replay v (xs ++ .char i cell :: ys) (i / 2 - COLUMNS * scrolls ys) = cell

/-- The cells of the character stores, with a row added for each of the scrolls before, of which
there were `n` at the start. -/
def places : ℕ → List VideoOp → List ℕ
  | _, [] => []
  | n, .char i _ :: ops => (i / 2 + COLUMNS * n) :: places n ops
  | n, .scroll _ :: ops => places (n + 1) ops
  | n, .clear _ :: ops => places n ops

/-- The operations of a call after `debug_clear`. -/
def OnScreen : VideoOp → Prop
  | .char i _ => i / 2 < COLUMNS * ROWS
  | .scroll _ => True
  | .clear _ => False

section places

variable {n a b c k : ℕ} {xs ys ops : List VideoOp} {v : ℕ → Cell}

theorem scrolls_append (xs ys : List VideoOp) : scrolls (xs ++ ys) = scrolls xs + scrolls ys := by
  unfold scrolls
  rw [List.map_append, List.sum_append]

theorem scrolls_cons (op : VideoOp) (ops : List VideoOp) :
    scrolls (op :: ops) = opScrolls op + scrolls ops := rfl

theorem places_append (n : ℕ) (xs ys : List VideoOp) :
    places n (xs ++ ys) = places n xs ++ places (n + scrolls xs) ys := by
  induction xs generalizing n with
  | nil => rfl
  | cons op xs ih =>
      rw [List.cons_append, scrolls_cons]
      cases op with
      | char i cell => rw [places, places, ih, List.cons_append, opScrolls, Nat.zero_add]
      | scroll color => rw [places, places, ih, opScrolls, Nat.add_assoc]
      | clear color => rw [places, places, ih, opScrolls, Nat.zero_add]

/-- The places grow, from `a` to below `b`. -/
structure Advances (n a b : ℕ) (ops : List VideoOp) : Prop where
  le : a ≤ b
  sorted : (places n ops).Pairwise (· < ·)
  range : ∀ p ∈ places n ops, a ≤ p ∧ p < b

theorem Advances.nil (h : a ≤ b) (hn : places n ops = []) : Advances n a b ops :=
  ⟨h, by rw [hn]; exact .nil, by rw [hn]; exact fun p hp => absurd hp List.not_mem_nil⟩

theorem Advances.append (h : Advances n a b xs) (h' : Advances (n + scrolls xs) b c ys) :
    Advances n a c (xs ++ ys) := by
  refine ⟨h.le.trans h'.le, ?_, ?_⟩
  · rw [places_append, List.pairwise_append]
    exact ⟨h.sorted, h'.sorted, fun p hp q hq => (h.range p hp).2.trans_le (h'.range q hq).1⟩
  · intro p hp
    rw [places_append] at hp
    rcases List.mem_append.mp hp with hp | hp
    · exact ⟨(h.range p hp).1, (h.range p hp).2.trans_le h'.le⟩
    · exact ⟨h.le.trans (h'.range p hp).1, (h'.range p hp).2⟩

/-- A row that may be scrolled in stores no character. -/
theorem onScreen_ite {p : Prop} [Decidable p] {color : UInt8} :
    ∀ op ∈ (if p then [VideoOp.scroll color] else []), OnScreen op := by
  split_ifs
  · exact List.forall_mem_singleton.mpr trivial
  · exact List.forall_mem_nil _

theorem places_ite {p : Prop} [Decidable p] {color : UInt8} :
    places n (if p then [VideoOp.scroll color] else []) = [] := by
  split_ifs <;> rfl

/-- Stores at growing places do not hit each other. -/
theorem noOverwrite_of_sorted (h : (places n ops).Pairwise (· < ·)) : NoOverwrite ops := by
  rintro xs ys zs i j cell cell' rfl
  rw [places_append, places, places_append, places, List.pairwise_append] at h
  have hlt := (List.pairwise_cons.mp h.2.1).1 _ (List.mem_append_right _ List.mem_cons_self)
  have hadd : COLUMNS * (n + scrolls xs + scrolls ys) =
      COLUMNS * (n + scrolls xs) + COLUMNS * scrolls ys := Nat.mul_add _ _ _
  omega

/-- A cell moves up with every scroll, if no store hits it. -/
theorem replay_kept (hk : k < COLUMNS * ROWS) (hops : ∀ op ∈ ys, OnScreen op)
    (hno : ∀ xs zs j cell, ys = xs ++ .char j cell :: zs → k ≠ j / 2 + COLUMNS * scrolls xs)
    (hle : COLUMNS * scrolls ys ≤ k) : replay v ys (k - COLUMNS * scrolls ys) = v k := by
  induction ys generalizing v k with
  | nil => rfl
  | cons op ys ih =>
      have hops' := fun o ho => hops o (List.mem_cons_of_mem op ho)
      rw [scrolls_cons] at hle ⊢
      cases op with
      | char j cell =>
          have hne : k ≠ j / 2 := hno [] ys j cell rfl
          rw [opScrolls, Nat.zero_add] at hle ⊢
          refine (ih hk hops' (fun xs zs i d h => ?_) hle).trans (Function.update_of_ne hne _ _)
          have := hno (.char j cell :: xs) zs i d (by rw [h]; rfl)
          rwa [scrolls_cons, opScrolls, Nat.zero_add] at this
      | scroll color =>
          rw [opScrolls, Nat.mul_add, Nat.mul_one] at hle ⊢
          have hcell : VideoOp.exec v (.scroll color) (k - COLUMNS) = v k := by
            have hs := @exec_scroll ⟨v, 0, 0, color⟩
            rw [hs]
            unfold debugScroll
            dsimp only
            rw [if_pos (by simp only [COLUMNS, ROWS] at hk ⊢; omega), Nat.sub_add_cancel (by omega)]
          rw [Nat.sub_add_eq]
          refine (ih (by omega) hops' (fun xs zs i d h => ?_) (by omega)).trans hcell
          have := hno (.scroll color :: xs) zs i d (by rw [h]; rfl)
          rw [scrolls_cons, opScrolls, Nat.mul_add] at this
          omega
      | clear color => exact absurd (hops _ List.mem_cons_self) id

theorem NoOverwrite.movesUp (h : NoOverwrite ops) (hops : ∀ op ∈ ops, OnScreen op) : MovesUp v ops := by
  rintro xs ys zs i cell rfl hle
  have hi : i / 2 < COLUMNS * ROWS := hops (.char i cell) (by simp)
  have hself : replay v (xs ++ [.char i cell]) (i / 2) = cell := by
    rw [replay_append]
    exact Function.update_self _ _ _
  rw [← List.singleton_append, ← List.append_assoc, replay_append,
    replay_kept hi (fun op hop => hops op (by simp [hop])) ?_ hle, hself]
  rintro xs' zs' j d rfl
  exact h xs xs' (zs' ++ zs) i j cell d (by simp)

end places

/-! ### Runs -/

/-- The place of the cursor, after `n` scrolls. -/
def place (s : Screen) (n : ℕ) : ℕ := COLUMNS * (s.y + n) + s.x

/-- The printable characters of the text all come before its first newline, and there are at most 80
of them. -/
def OneRow (text : List UInt8) : Prop := ∃ line rest, text = line ++ rest ∧ 0x0A ∉ line ∧
  (line.filter fun c => Printable c).length ≤ COLUMNS ∧ ∀ c ∈ rest, ¬ Printable c

/-- A call that begins on the last row, or prints on one row only. -/
def CallFits (s : Screen) (text : List UInt8) : Prop := ROWS - 1 ≤ s.y ∨ OneRow text

/-- The runs of `debug_print` calls from a screen on whose calls all meet the condition `P`, with
their operations. -/
inductive TextRun (P : Screen → List UInt8 → Prop) (s₀ : Screen) : Screen → List VideoOp → Prop
  | start : TextRun P s₀ s₀ []
  | print {s : Screen} {ops : List VideoOp} {text : List UInt8} (color : UInt8)
      (hr : TextRun P s₀ s ops) (hP : P s text) :
      TextRun P s₀ (debugPrint s color text) (ops ++ printOps s color text)

section run

variable {s s₀ : Screen} {color c : UInt8} {text line rest : List UInt8} {n : ℕ} {ops : List VideoOp}

/-- The cursor of a call while it prints. -/
structure InRows (s : Screen) : Prop where
  x : s.x ≤ COLUMNS
  y : s.y < ROWS

/-- The next row, and the scroll if there is one, are one row further down. -/
theorem nextRow_place (h : InRows s) : (nextRow s).x = 0 ∧ (nextRow s).y < ROWS ∧
    (nextRow s).y + scrolls (nextRowOps s) = s.y + 1 := by
  have hy := h.y
  have hmod : (s.y + 1) % 2 ^ 8 = s.y + 1 := by
    simp only [ROWS] at hy
    omega
  unfold nextRow nextRowOps
  dsimp only
  rw [hmod]
  split_ifs with hr
  · refine ⟨rfl, (by decide : ROWS - 1 < ROWS), ?_⟩
    show ROWS - 1 + 1 = s.y + 1
    simp only [ROWS] at hy hr ⊢
    omega
  · exact ⟨rfl, Nat.not_le.mp hr, rfl⟩

/-- The cursor before a character is stored, and the operations that move it there. -/
theorem moved_advances (h : InRows s) : ∃ s₁ xs,
    (if c = 0x0A ∨ COLUMNS ≤ s.x then nextRow s else s) = s₁ ∧
      (if c = 0x0A ∨ COLUMNS ≤ s.x then nextRowOps s else []) = xs ∧ s₁.x < COLUMNS ∧ s₁.y < ROWS ∧
      (∀ op ∈ xs, OnScreen op) ∧ Advances n (place s n) (place s₁ (n + scrolls xs)) xs := by
  refine ⟨_, _, rfl, rfl, ?_⟩
  by_cases hc : c = 0x0A ∨ COLUMNS ≤ s.x
  · rw [if_pos hc, if_pos hc]
    obtain ⟨h1, h2, h3⟩ := nextRow_place h
    have hx := h.x
    refine ⟨h1.trans_lt (by decide), h2, onScreen_ite, .nil ?_ places_ite⟩
    unfold place
    rw [h1]
    simp only [COLUMNS] at hx ⊢
    omega
  · rw [if_neg hc, if_neg hc]
    exact ⟨Nat.not_le.mp fun hle => hc (.inr hle), h.y, List.forall_mem_nil _, .nil le_rfl rfl⟩

/-- One character moves the cursor on, and is stored before it. -/
theorem putChar_advances (h : InRows s) : InRows (putChar color s c) ∧
    (∀ op ∈ putCharOps color s c, OnScreen op) ∧
    Advances n (place s n) (place (putChar color s c) (n + scrolls (putCharOps color s c)))
      (putCharOps color s c) := by
  obtain ⟨s₁, xs, hs₁, hxs, hx, hy, hon, hadv⟩ := @moved_advances s c n h
  unfold putChar putCharOps
  dsimp only
  rw [hs₁, hxs]
  by_cases hp : Printable c
  · rw [if_pos hp, if_pos hp]
    have hx' : (s₁.x + 1) % 2 ^ 8 = s₁.x + 1 := by
      simp only [COLUMNS] at hx
      omega
    have hplace : place (writeChar s₁ color c) (n + scrolls (xs ++ [.char s₁.offset ⟨c, color⟩])) =
        place s₁ (n + scrolls xs) + 1 := by
      rw [scrolls_append]
      show COLUMNS * (s₁.y + (n + (scrolls xs + 0))) + (s₁.x + 1) % 2 ^ 8 = _
      rw [hx']
      rfl
    have hoff : s₁.offset / 2 + COLUMNS * (n + scrolls xs) = place s₁ (n + scrolls xs) := by
      rw [Screen.offset_eq hx hy, Nat.mul_div_cancel _ (by norm_num), place, Nat.mul_add COLUMNS s₁.y,
        Nat.mul_comm s₁.y]
      omega
    have hcell : s₁.offset / 2 < COLUMNS * ROWS := by
      rw [Screen.offset_eq hx hy]
      simp only [COLUMNS, ROWS] at hx hy ⊢
      omega
    refine ⟨⟨hx'.trans_le hx, hy⟩,
      List.forall_mem_append.mpr ⟨hon, List.forall_mem_singleton.mpr hcell⟩, hadv.append ?_⟩
    rw [hplace]
    refine ⟨Nat.le_succ _, List.pairwise_singleton _ _, fun p hp => ?_⟩
    rw [places, hoff] at hp
    rw [List.mem_singleton.mp hp]
    exact ⟨le_rfl, Nat.lt_succ_self _⟩
  · rw [if_neg hp, if_neg hp, List.append_nil]
    exact ⟨⟨hx.le, hy⟩, hon, hadv⟩

theorem textOps_advances (h : InRows s) : InRows (text.foldl (putChar color) s) ∧
    (∀ op ∈ textOps color s text, OnScreen op) ∧
    Advances n (place s n) (place (text.foldl (putChar color) s) (n + scrolls (textOps color s text)))
      (textOps color s text) := by
  induction text generalizing s n with
  | nil => exact ⟨h, List.forall_mem_nil _, .nil le_rfl rfl⟩
  | cons c text ih =>
      obtain ⟨h1, hon, hadv⟩ := @putChar_advances s color c n h
      obtain ⟨h2, hon', hadv'⟩ := @ih (putChar color s c) (n + scrolls (putCharOps color s c)) h1
      refine ⟨h2, List.forall_mem_append.mpr ⟨hon, hon'⟩, hadv.append ?_⟩
      rw [textOps, scrolls_append, ← Nat.add_assoc]
      exact hadv'

/-- Characters that are not printable are not stored. -/
theorem places_unprintable (h : ∀ c ∈ text, ¬ Printable c) : places n (textOps color s text) = [] := by
  induction text generalizing s n with
  | nil => rfl
  | cons c text ih =>
      have hrow : places n (if c = 0x0A ∨ COLUMNS ≤ s.x then nextRowOps s else []) = [] := by
        split_ifs
        · exact places_ite
        · rfl
      rw [textOps, places_append, ih fun d hd => h d (List.mem_cons_of_mem c hd), List.append_nil]
      unfold putCharOps
      dsimp only
      rw [if_neg (h c List.mem_cons_self), List.append_nil, hrow]

/-- A text for one row is stored before the next one. -/
theorem places_oneRow (h : InRows s) (hline : 0x0A ∉ line) (hrest : ∀ c ∈ rest, ¬ Printable c)
    (hlen : s.x + (line.filter fun c => Printable c).length ≤ COLUMNS) :
    ∀ p ∈ places n (textOps color s (line ++ rest)), p < COLUMNS * (s.y + n) + COLUMNS := by
  induction line generalizing s with
  | nil =>
      rw [List.nil_append, places_unprintable hrest]
      exact fun p hp => absurd hp List.not_mem_nil
  | cons c line ih =>
      have hline' := fun hm => hline (List.mem_cons_of_mem c hm)
      have hne : c ≠ 0x0A := fun he => hline (he ▸ List.mem_cons_self)
      by_cases hx : s.x < COLUMNS
      · -- there is room for another character in the row
        have hroom : ¬ (c = 0x0A ∨ COLUMNS ≤ s.x) := not_or.mpr ⟨hne, Nat.not_le.mpr hx⟩
        rw [List.cons_append, textOps]
        by_cases hp : Printable c
        · have hops : putCharOps color s c = [.char s.offset ⟨c, color⟩] := by
            unfold putCharOps
            rw [if_neg hroom, if_neg hroom]
            exact if_pos hp
          have hput : putChar color s c = writeChar s color c := by
            unfold putChar
            rw [if_neg hroom]
            exact if_pos hp
          have hx' : (writeChar s color c).x = s.x + 1 := by
            show (s.x + 1) % 2 ^ 8 = _
            simp only [COLUMNS] at hx
            omega
          rw [List.filter_cons, if_pos (decide_eq_true hp), List.length_cons] at hlen
          rw [hops, hput, List.singleton_append, places]
          intro p hmem
          rcases List.mem_cons.mp hmem with rfl | hmem
          · rw [Screen.offset_eq hx h.y, Nat.mul_div_cancel _ (by norm_num), Nat.mul_add COLUMNS s.y,
              Nat.mul_comm s.y]
            omega
          · have h' : InRows (writeChar s color c) := ⟨hx'.trans_le hx, h.y⟩
            exact ih h' hline' (by omega) p hmem
        · have hops : putCharOps color s c = [] := by
            unfold putCharOps
            rw [if_neg hroom, if_neg hroom]
            exact if_neg hp
          have hput : putChar color s c = s := by
            unfold putChar
            rw [if_neg hroom]
            exact if_neg hp
          rw [List.filter_cons, if_neg (by simpa using hp)] at hlen
          rw [hops, hput]
          exact ih h hline' hlen
      · -- the row is full, and nothing printable is left
        have hnone : (c :: line).filter (fun c => Printable c) = [] :=
          List.eq_nil_of_length_eq_zero (by omega)
        rw [places_unprintable]
        · exact fun p hp => absurd hp List.not_mem_nil
        · intro d hd
          rcases List.mem_append.mp hd with hd | hd
          · simpa using List.filter_eq_nil_iff.mp hnone d hd
          · exact hrest d hd

/-- A call starts in the row of the global cursor, which is below all its characters after it. -/
theorem debugPrint_advances (hx : s.x = 0) (hy : s.y ≤ ROWS) (hfit : CallFits s text) :
    (debugPrint s color text).x = 0 ∧ (debugPrint s color text).y ≤ ROWS ∧
    (∀ op ∈ printOps s color text, OnScreen op) ∧ Advances n (COLUMNS * (s.y + n))
      (COLUMNS * ((debugPrint s color text).y + (n + scrolls (printOps s color text))))
      (printOps s color text) := by
  have henter : s.enter.y + scrolls s.enterOps = s.y := by
    unfold Screen.enter Screen.enterOps
    split_ifs with hr
    · show ROWS - 1 + 1 = s.y
      rw [le_antisymm hy hr]
      rfl
    · rfl
  have hlt := @enter_lt s
  have hlx : (localScreen s.enter).x = 0 := by
    show s.enter.x % 2 ^ 8 = 0
    rw [enter_x, hx, Nat.zero_mod]
  have hly : (localScreen s.enter).y = s.enter.y := by
    show s.enter.y % 2 ^ 8 = _
    simp only [ROWS] at hlt
    omega
  have hin : InRows (localScreen s.enter) := ⟨by rw [hlx]; exact Nat.zero_le _, by rwa [hly]⟩
  obtain ⟨hend, hon, hadv⟩ := @textOps_advances _ color text (n + scrolls s.enterOps) hin
  have hstart : place (localScreen s.enter) (n + scrolls s.enterOps) = COLUMNS * (s.y + n) := by
    unfold place
    rw [hlx, hly]
    simp only [COLUMNS]
    omega
  have hy' : (debugPrint s color text).y = s.enter.y + 1 := rfl
  have hx' : (debugPrint s color text).x = s.enter.x := rfl
  rw [hstart] at hadv
  rw [hy', hx', enter_x, hx, printOps, scrolls_append]
  refine ⟨rfl, hlt, List.forall_mem_append.mpr ⟨onScreen_ite, hon⟩, ?_⟩
  refine Advances.append (.nil le_rfl places_ite) ⟨?_, hadv.sorted, fun p hp => ⟨(hadv.range p hp).1, ?_⟩⟩
  · simp only [COLUMNS]
    omega
  · rcases hfit with hlast | ⟨line, rest, rfl, h1, h2, h3⟩
    · have hp' := (hadv.range p hp).2
      have hex := hend.x
      have hey := hend.y
      have hrow : s.enter.y = ROWS - 1 := by
        unfold Screen.enter
        split_ifs with hr
        · rfl
        · exact le_antisymm (by omega) hlast
      unfold place at hp'
      simp only [COLUMNS, ROWS] at hp' hex hey hrow ⊢
      omega
    · have hp' := places_oneRow hin h1 h3 (by rw [hlx, Nat.zero_add]; exact h2) p hp
      rw [hly] at hp'
      simp only [COLUMNS] at hp' ⊢
      omega

/-- What holds of a run whose calls fit. -/
structure RunInv (s₀ s : Screen) (ops : List VideoOp) : Prop where
  x : s.x = 0
  y : s.y ≤ ROWS
  replays : replay s₀.vidmem ops = s.vidmem
  onScreen : ∀ op ∈ ops, OnScreen op
  advances : Advances 0 0 (COLUMNS * (s.y + scrolls ops)) ops

theorem TextRun.inv (hx : s₀.x = 0) (hy : s₀.y ≤ ROWS) (h : TextRun CallFits s₀ s ops) :
    RunInv s₀ s ops := by
  induction h with
  | start => exact ⟨hx, hy, rfl, List.forall_mem_nil _, .nil (Nat.zero_le _) rfl⟩
  | @print s ops text color hr hP ih =>
      obtain ⟨h1, h2, hon, hadv⟩ := @debugPrint_advances s color text (scrolls ops) ih.x ih.y hP
      refine ⟨h1, h2, ?_, List.forall_mem_append.mpr ⟨ih.onScreen, hon⟩, ih.advances.append ?_⟩
      · rw [replay_append, ih.replays, replay_printOps]
      · rw [scrolls_append, Nat.zero_add]
        exact hadv

/-- **In a run after `debug_clear` whose calls each begin on the last row or print on one row only, no
character is overwritten, and every character moves up with each scroll until it leaves the top
row.** -/
theorem text_run (s : Screen) (color : UInt8) {s' : Screen}
    (h : TextRun CallFits (debugClear s color) s' ops) :
    replay (debugClear s color).vidmem ops = s'.vidmem ∧ NoOverwrite ops ∧
      MovesUp (debugClear s color).vidmem ops := by
  have hinv := h.inv rfl (Nat.zero_le _)
  have hno := noOverwrite_of_sorted hinv.advances.sorted
  exact ⟨hinv.replays, hno, hno.movesUp hinv.onScreen⟩

end run

/-- The screen and the operations after `n` calls that print a row each. -/
def rowCalls : ℕ → Screen × List VideoOp
  | 0 => (debugClear anyScreen 0xF0, [])
  | n + 1 =>
      let (s, ops) := rowCalls n
      (debugPrint s 0xF1 [0x41, 0x42, 0x0A], ops ++ printOps s 0xF1 [0x41, 0x42, 0x0A])

theorem rowCalls_run (n : ℕ) :
    TextRun CallFits (debugClear anyScreen 0xF0) (rowCalls n).1 (rowCalls n).2 := by
  induction n with
  | zero => exact .start
  | succ n ih =>
      exact .print 0xF1 ih (.inr ⟨[0x41, 0x42], [0x0A], rfl, by decide +kernel, by decide +kernel,
        by decide +kernel⟩)

/-- A call on the last row that prints on two rows, and a call after it. -/
theorem text_run_scrolls : ∃ s ops, TextRun CallFits (debugClear anyScreen 0xF0) s ops ∧
    scrolls ops = 2 ∧ (places 0 ops).length = 51 ∧
    replay (debugClear anyScreen 0xF0).vidmem ops = s.vidmem ∧ NoOverwrite ops ∧
      MovesUp (debugClear anyScreen 0xF0).vidmem ops := by
  have hlast : ROWS - 1 ≤ (rowCalls 24).1.y := by decide +kernel
  have h₁ := TextRun.print 0xF2 (rowCalls_run 24) (.inl hlast : CallFits _ [0x43, 0x0A, 0x44])
  have h₂ := TextRun.print 0xF3 h₁ (.inr ⟨[0x45], [], rfl, by decide +kernel, by decide +kernel,
    by decide +kernel⟩ : CallFits _ [0x45])
  exact ⟨_, _, h₂, by decide +kernel, by decide +kernel, text_run anyScreen 0xF0 h₂⟩

/-- The second row of a call is overwritten by the next call. -/
theorem text_run_overwrites : ∃ s ops,
    TextRun (fun _ _ => True) (debugClear anyScreen 0xF0) s ops ∧ ¬ NoOverwrite ops := by
  have h₁ : TextRun (fun _ _ => True) (debugClear anyScreen 0xF0)
      (debugPrint (debugClear anyScreen 0xF0) 0xF1 [0x41, 0x0A, 0x42])
      ([] ++ printOps (debugClear anyScreen 0xF0) 0xF1 [0x41, 0x0A, 0x42]) := .print 0xF1 .start trivial
  have h₂ : TextRun (fun _ _ => True) (debugClear anyScreen 0xF0) _
      (_ ++ printOps (debugPrint (debugClear anyScreen 0xF0) 0xF1 [0x41, 0x0A, 0x42]) 0xF1 [0x43]) :=
    .print 0xF1 h₁ trivial
  have hops : printOps (debugClear anyScreen 0xF0) 0xF1 [0x41, 0x0A, 0x42] =
        [.char 0 ⟨0x41, 0xF1⟩, .char 160 ⟨0x42, 0xF1⟩] ∧
      printOps (debugPrint (debugClear anyScreen 0xF0) 0xF1 [0x41, 0x0A, 0x42]) 0xF1 [0x43] =
        [.char 160 ⟨0x43, 0xF1⟩] := by
    decide +kernel
  refine ⟨_, _, h₂, fun h => ?_⟩
  rw [hops.1, hops.2] at h
  exact h [.char 0 ⟨0x41, 0xF1⟩] [] [] 160 160 ⟨0x42, 0xF1⟩ ⟨0x43, 0xF1⟩ rfl rfl

end Dawos.Kernel
