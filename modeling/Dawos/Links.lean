import Dawos.Store

/-! # Doubly linked lists

A doubly linked list is described by two link functions on nodes, `prv` and `nxt`.
`Linked prv nxt q p l` says that the nodes of `l` are linked both ways in this order, that the
first one points back to `p` and the last one forward to `q`.  Null-terminated lists are the
case in which `p` and `q` are the null node; a segment between two nodes is the case in which
they are these.

An edit of the list changes the link functions at the neighbours of one node only:
`Linked.insert` and `Linked.remove` say what the changed functions have to satisfy for the
list with the node put in or taken out. -/

namespace Dawos

variable {α : Type} {prv nxt prv' nxt' : α → α} {p p' q q' : α}

/-- The nodes of the list are linked both ways between `p` and `q`. -/
def Linked (prv nxt : α → α) (q : α) : α → List α → Prop
  | _, [] => True
  | p, x :: xs => prv x = p ∧ nxt x = xs.headD q ∧ Linked prv nxt q x xs

/-- Links between given nodes can be checked. -/
instance decidableLinked [DecidableEq α] : ∀ (p : α) (l : List α), Decidable (Linked prv nxt q p l)
  | _, [] => .isTrue trivial
  | p, x :: xs =>
      have := decidableLinked x xs
      inferInstanceAs (Decidable (prv x = p ∧ nxt x = xs.headD q ∧ Linked prv nxt q x xs))

theorem headD_append (xs ys : List α) (q : α) : (xs ++ ys).headD q = xs.headD (ys.headD q) := by
  cases xs <;> rfl

theorem headD_mem {l : List α} (h : l ≠ []) (q : α) : l.headD q ∈ l := by
  cases l with
  | nil => exact absurd rfl h
  | cons a l => exact List.mem_cons_self

theorem getLastD_mem {l : List α} (h : l ≠ []) (p : α) : l.getLastD p ∈ l := by
  rw [List.getLastD_eq_getLast?, List.getLast?_eq_getLast_of_ne_nil h]
  exact List.getLast_mem h

theorem ne_headD {l : List α} {z q : α} (hz : z ∉ l) (hq : z ≠ q) : z ≠ l.headD q := by
  cases l with
  | nil => exact hq
  | cons a l => exact fun e => hz (e ▸ List.mem_cons_self)

theorem ne_getLastD {l : List α} {z p : α} (hz : z ∉ l) (hp : z ≠ p) : z ≠ l.getLastD p := by
  by_cases h : l = []
  · rw [h]; exact hp
  · exact fun e => hz (e ▸ getLastD_mem h p)

theorem linked_append (xs ys : List α) (p : α) : Linked prv nxt q p (xs ++ ys) ↔
    Linked prv nxt (ys.headD q) p xs ∧ Linked prv nxt q (xs.getLastD p) ys := by
  induction xs generalizing p with
  | nil => simp [Linked]
  | cons x xs ih =>
      simp only [List.cons_append, Linked, headD_append, List.getLastD_cons, ih]
      tauto

/-- A linked list only depends on the links of its nodes. -/
theorem Linked.congr : ∀ {l : List α} {p : α}, Linked prv nxt q p l →
    (∀ z ∈ l, prv' z = prv z ∧ nxt' z = nxt z) → Linked prv' nxt' q p l
  | [], _, _, _ => trivial
  | x :: xs, p, ⟨h1, h2, h3⟩, h => by
      obtain ⟨e1, e2⟩ := h x List.mem_cons_self
      exact ⟨e1.trans h1, e2.trans h2, h3.congr fun z hz => h z (List.mem_cons_of_mem _ hz)⟩

section edit
variable [DecidableEq α]

/-- Give the list a new node to point forward to. -/
theorem Linked.relink_end : ∀ {l : List α} {p : α}, Linked prv nxt q p l → l.Nodup →
    (∀ z ∈ l, prv' z = prv z) →
    (∀ z ∈ l, nxt' z = if z = l.getLastD p then q' else nxt z) → Linked prv' nxt' q' p l
  | [], _, _, _, _, _ => trivial
  | [x], p, ⟨h1, _, _⟩, _, hp, hn => by
      refine ⟨(hp x (by simp)).trans h1, ?_, trivial⟩
      rw [hn x (by simp)]
      simp
  | x :: y :: xs, p, ⟨h1, h2, h3⟩, hd, hp, hn => by
      rw [List.nodup_cons] at hd
      have hx : x ≠ (y :: xs).getLastD x := fun e => hd.1 (by
        have := getLastD_mem (List.cons_ne_nil y xs) x
        rwa [← e] at this)
      refine ⟨(hp x (by simp)).trans h1, ?_, ?_⟩
      · rw [hn x (by simp), List.getLastD_cons, if_neg hx, h2]
        rfl
      · refine h3.relink_end hd.2 (fun z hz => hp z (List.mem_cons_of_mem _ hz)) fun z hz => ?_
        rw [hn z (List.mem_cons_of_mem _ hz), List.getLastD_cons]

/-- Give the list a new node to point back to. -/
theorem Linked.relink_start {l : List α} (h : Linked prv nxt q p l) (hd : l.Nodup)
    (hn : ∀ z ∈ l, nxt' z = nxt z)
    (hp : ∀ z ∈ l, prv' z = if z = l.headD q then p' else prv z) : Linked prv' nxt' q p' l := by
  cases l with
  | nil => trivial
  | cons x xs =>
      obtain ⟨_, h2, h3⟩ := h
      rw [List.nodup_cons] at hd
      refine ⟨?_, (hn x List.mem_cons_self).trans h2, h3.congr fun z hz => ?_⟩
      · rw [hp x List.mem_cons_self]
        simp
      · have hne : z ≠ x := fun e => hd.1 (e ▸ hz)
        rw [hp z (List.mem_cons_of_mem _ hz), hn z (List.mem_cons_of_mem _ hz)]
        simp [hne]

/-- Put the node `x` between `xs` and `ys`. -/
theorem Linked.insert {xs ys : List α} {x : α} (h : Linked prv nxt q p (xs ++ ys))
    (hd : (xs ++ ys).Nodup) (hxp : prv' x = xs.getLastD p) (hxn : nxt' x = ys.headD q)
    (hxs : ∀ z ∈ xs, prv' z = prv z ∧ nxt' z = if z = xs.getLastD p then x else nxt z)
    (hys : ∀ z ∈ ys, nxt' z = nxt z ∧ prv' z = if z = ys.headD q then x else prv z) :
    Linked prv' nxt' q p (xs ++ x :: ys) := by
  rw [linked_append] at h ⊢
  obtain ⟨hdx, hdy, _⟩ := List.nodup_append.mp hd
  refine ⟨h.1.relink_end hdx (fun z hz => (hxs z hz).1) fun z hz => (hxs z hz).2, hxp, hxn, ?_⟩
  exact h.2.relink_start hdy (fun z hz => (hys z hz).1) fun z hz => (hys z hz).2

/-- Take the node `y` out from between `xs` and `ys`. -/
theorem Linked.remove {xs ys : List α} {y : α} (h : Linked prv nxt q p (xs ++ y :: ys))
    (hd : (xs ++ y :: ys).Nodup)
    (hxs : ∀ z ∈ xs, prv' z = prv z ∧ nxt' z = if z = xs.getLastD p then ys.headD q else nxt z)
    (hys : ∀ z ∈ ys, nxt' z = nxt z ∧ prv' z = if z = ys.headD q then xs.getLastD p else prv z) :
    Linked prv' nxt' q p (xs ++ ys) := by
  rw [linked_append] at h ⊢
  obtain ⟨hdx, hdy, _⟩ := List.nodup_append.mp hd
  refine ⟨h.1.relink_end hdx (fun z hz => (hxs z hz).1) fun z hz => (hxs z hz).2, ?_⟩
  exact h.2.2.2.relink_start (List.nodup_cons.mp hdy).2 (fun z hz => (hys z hz).1)
    fun z hz => (hys z hz).2

end edit

/-- The neighbours of a node in the middle of a linked list. -/
theorem Linked.at {xs ys : List α} {y : α} (h : Linked prv nxt q p (xs ++ y :: ys)) :
    prv y = xs.getLastD p ∧ nxt y = ys.headD q := by
  rw [linked_append] at h
  exact ⟨h.2.1, h.2.2.1⟩

end Dawos
