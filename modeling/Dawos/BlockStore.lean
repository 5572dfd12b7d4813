import Dawos.Refine

/-! # A store of separate blocks

What an allocator is for: every pointer that was handed out and not released names a block of its own,
and a cell of a block changes only through its pointer.  There are no addresses here, so blocks cannot
overlap; that they do not is what an allocator has to show.

A request is of any type; `Meets r p n f` says that the pointer `p` with `n` cells that hold `f` is what
the request `r` asks for.

`Laid` places a store in a flat memory, each block at the address that is its name; its rules are one for
each step. -/

namespace Dawos

/-- Blocks named by pointers: `size` of the live ones, and the cells that were written. -/
structure BlockStore (ι β : Type) where
  size : ι → Option ℕ
  cell : ι → ℕ → Option β

/-- What the callers of an allocator do and get. -/
inductive BlockEvent (ρ ι β : Type) where
  | alloc (r : ρ) (p : ι)
  | fail (r : ρ)
  /-- The block was found to hold `n` cells. -/
  | holds (p : ι) (n : ℕ)
  | free (p : ι)
  | store (p : ι) (i : ℕ) (b : β)
  | load (p : ι) (i : ℕ) (b : β)
  /-- Nothing that concerns the blocks. -/
  | other

namespace BlockStore

variable {ρ ι β : Type} [DecidableEq ι]

/-- No block is live. -/
def empty : BlockStore ι β := ⟨fun _ => none, fun _ _ => none⟩

/-- A new block of `n` cells that hold `f`. -/
def alloc (B : BlockStore ι β) (p : ι) (n : ℕ) (f : ℕ → Option β) : BlockStore ι β :=
  ⟨Function.update B.size p (some n), Function.update B.cell p f⟩

def free (B : BlockStore ι β) (p : ι) : BlockStore ι β := { B with size := Function.update B.size p none }

def store (B : BlockStore ι β) (p : ι) (i : ℕ) (b : β) : BlockStore ι β :=
  { B with cell := Function.update B.cell p (Function.update (B.cell p) i (some b)) }

/-- The steps of the store.  A cell that was not written may be loaded as anything. -/
inductive Step (Meets : ρ → ι → ℕ → (ℕ → Option β) → Prop) :
    BlockStore ι β → BlockEvent ρ ι β → BlockStore ι β → Prop
  | alloc {B : BlockStore ι β} {r : ρ} {p : ι} {n : ℕ} {f : ℕ → Option β} (hp : B.size p = none)
      (hr : Meets r p n f) : Step Meets B (.alloc r p) (B.alloc p n f)
  | fail {B : BlockStore ι β} {r : ρ} : Step Meets B (.fail r) B
  | holds {B : BlockStore ι β} {p : ι} {n k : ℕ} (hp : B.size p = some k) (hn : n ≤ k) :
      Step Meets B (.holds p n) B
  | free {B : BlockStore ι β} {p : ι} {k : ℕ} (hp : B.size p = some k) : Step Meets B (.free p) (B.free p)
  | store {B : BlockStore ι β} {p : ι} {i k : ℕ} {b : β} (hp : B.size p = some k) (hi : i < k) :
      Step Meets B (.store p i b) (B.store p i b)
  | load {B : BlockStore ι β} {p : ι} {i k : ℕ} {b : β} (hp : B.size p = some k) (hi : i < k)
      (hb : ∀ c, B.cell p i = some c → b = c) : Step Meets B (.load p i b) B
  | other {B : BlockStore ι β} : Step Meets B .other B

section steps

variable {Meets : ρ → ι → ℕ → (ℕ → Option β) → Prop} {B B' : BlockStore ι β} {p : ι} {i : ℕ} {b c : β}
  {e : BlockEvent ρ ι β} {es : List (BlockEvent ρ ι β)}

/-- A cell of a live block that holds a value. -/
def Stored (p : ι) (i : ℕ) (b : β) (B : BlockStore ι β) : Prop :=
  (∃ k, B.size p = some k) ∧ B.cell p i = some b

/-- The event releases the block, or writes the cell. -/
def Touches (p : ι) (i : ℕ) (e : BlockEvent ρ ι β) : Prop := e = .free p ∨ ∃ c, e = .store p i c

/-- **A step leaves a cell that holds a value**, unless it releases the block or writes the cell. -/
theorem Step.stored (h : Step Meets B e B') (hs : Stored p i b B) (he : ¬ Touches p i e) :
    Stored p i b B' := by
  obtain ⟨⟨k, hk⟩, hb⟩ := hs
  cases h with
  | @alloc r q n f hq _ =>
      have hne : p ≠ q := fun hc => by
        rw [hc, hq] at hk
        cases hk
      exact ⟨⟨k, (Function.update_of_ne hne _ _).trans hk⟩,
        (congrFun (Function.update_of_ne hne _ _) i).trans hb⟩
  | @free q _ _ =>
      have hne : p ≠ q := fun hc => he (.inl (by rw [hc]))
      exact ⟨⟨k, (Function.update_of_ne hne _ _).trans hk⟩, hb⟩
  | @store q j _ c _ _ =>
      refine ⟨⟨k, hk⟩, ?_⟩
      by_cases hp : p = q
      · subst hp
        have hne : i ≠ j := fun hc => he (.inr ⟨c, by rw [hc]⟩)
        have hcell : (B.store p j c).cell p = Function.update (B.cell p) j (some c) :=
          Function.update_self _ _ _
        rw [hcell, Function.update_of_ne hne]
        exact hb
      · exact (congrFun (Function.update_of_ne hp _ _) i).trans hb
  | _ => exact ⟨⟨k, hk⟩, hb⟩

theorem Step.store_stored (h : Step Meets B (.store p i b) B') : Stored p i b B' := by
  cases h with
  | @store _ _ k _ hp _ =>
      refine ⟨⟨k, hp⟩, ?_⟩
      have hcell : (B.store p i b).cell p = Function.update (B.cell p) i (some b) :=
        Function.update_self _ _ _
      rw [hcell, Function.update_self]

/-- **A load gives the value stored last.** -/
theorem load_stored (h : Steps (Step Meets) B (.store p i b :: es ++ [.load p i c]) B')
    (hes : ∀ e ∈ es, ¬ Touches p i e) : c = b := by
  obtain ⟨B₂, h₁, h₂⟩ := h.split
  cases h₁ with
  | cons hst h₁ =>
      have hb := h₁.keeps (P := Stored p i b) hst.store_stored
        fun e he _ _ hP hs => hs.stored hP (hes e he)
      cases h₂ with
      | cons hld _ =>
          cases hld with
          | load _ _ hc => exact hc b hb.2

end steps

/-! ### Blocks in a flat memory -/

/-- The block named `p` is at `p`, and the cells that hold a value are the cells of the memory. -/
structure Laid (size : ℕ → Option ℕ) (mem : ℕ → β) (B : BlockStore ℕ β) : Prop where
  blocks : ∀ p, B.size p = size p
  cell : ∀ {p n i b}, size p = some n → i < n → B.cell p i = some b → mem (p + i) = b

/-- The cells of the blocks are as they were. -/
def Same (size : ℕ → Option ℕ) (mem mem' : ℕ → β) : Prop :=
  ∀ {p n i}, size p = some n → i < n → mem' (p + i) = mem (p + i)

namespace Laid

variable {size size' : ℕ → Option ℕ} {mem mem' : ℕ → β} {B : BlockStore ℕ β} {p n i : ℕ} {b : β}
  {f : ℕ → Option β}

theorem empty (mem : ℕ → β) : Laid (fun _ => none) mem (BlockStore.empty : BlockStore ℕ β) :=
  ⟨fun _ => rfl, fun _ _ hb => nomatch hb⟩

theorem kept (h : Laid size mem B) (hm : Same size mem mem') : Laid size mem' B :=
  ⟨h.blocks, fun hp hi hb => (hm hp hi).trans (h.cell hp hi hb)⟩

theorem blocks_update (h : Laid size mem B) (p : ℕ) (o : Option ℕ) :
    Function.update B.size p o = Function.update size p o := by
  rw [funext h.blocks]

theorem alloc (h : Laid size mem B) (hm : Same size mem mem')
    (hf : ∀ i < n, ∀ b, f i = some b → mem' (p + i) = b) :
    Laid (Function.update size p (some n)) mem' (B.alloc p n f) := by
  refine ⟨congrFun (h.blocks_update p _), fun {q k i b} hq hi hb => ?_⟩
  by_cases hqp : q = p
  · subst hqp
    have hnew : (B.alloc q n f).cell q = f := Function.update_self _ _ _
    rw [Function.update_self] at hq
    rw [hnew] at hb
    obtain rfl := Option.some.inj hq
    exact hf i hi b hb
  · have hold : (B.alloc p n f).cell q = B.cell q := Function.update_of_ne hqp _ _
    rw [Function.update_of_ne hqp] at hq
    rw [hold] at hb
    exact (hm hq hi).trans (h.cell hq hi hb)

theorem free (h : Laid size mem B) (p : ℕ) (hm : Same (Function.update size p none) mem mem') :
    Laid (Function.update size p none) mem' (B.free p) := by
  refine ⟨congrFun (h.blocks_update p _), fun {q k i b} hq hi hb => ?_⟩
  have hqp : q ≠ p := fun e => by
    rw [e, Function.update_self] at hq
    cases hq
  refine (hm hq hi).trans (h.cell ?_ hi hb)
  rwa [Function.update_of_ne hqp] at hq

theorem store (h : Laid size mem B) (hp : size p = some n) (hi : i < n)
    (hne : ∀ {q k j}, q ≠ p → size q = some k → j < k → q + j ≠ p + i) :
    Laid size (Function.update mem (p + i) b) (B.store p i b) := by
  refine ⟨h.blocks, fun {q k j c} hq hj hc => ?_⟩
  by_cases hqp : q = p
  · subst hqp
    have hcell : (B.store q i b).cell q = Function.update (B.cell q) i (some b) :=
      Function.update_self _ _ _
    rw [hcell] at hc
    by_cases hji : j = i
    · subst hji
      rw [Function.update_self] at hc
      exact (Function.update_self _ _ _).trans (Option.some.inj hc)
    · have hne : q + j ≠ q + i := by omega
      rw [Function.update_of_ne hji] at hc
      exact (Function.update_of_ne hne _ _).trans (h.cell hq hj hc)
  · have hold : (B.store p i b).cell q = B.cell q := Function.update_of_ne hqp _ _
    rw [hold] at hc
    exact (Function.update_of_ne (hne hqp hq hj) _ _).trans (h.cell hq hj hc)

end Laid

end BlockStore

end Dawos
