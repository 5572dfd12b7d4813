import Dawos.PageMap

/-! # Resolving an address

`page_resolve` looks at the present bits of the three upper entries on the path of an address, and
not at the one of the last entry.  `pageResolve_iff` says when its result is the one of the
processor. -/

namespace Dawos

section resolve

variable {m : Mem} {root va t a : ℕ}

/-- The loop of `page_resolve` ends in the last table of the path, if there is one. -/
theorem pageResolveLoop_eq {i table : ℕ} (hi : i ≤ 3)
    (h : tableAt m root va (3 - i) = some table) :
    pageResolveLoop m va i table (pagePmlIdx va (i + 1)) =
      (tableAt m root va 3).map fun t => (t, pagePmlIdx va 1) := by
  induction i generalizing table with
  | zero =>
      rw [Nat.sub_zero] at h
      rw [h]
      rfl
  | succ i ih =>
      have hlvl : 4 - (3 - (i + 1)) = i + 1 + 1 := by omega
      have hnext : 3 - (i + 1) + 1 = 3 - i := by omega
      have hstep : tableAt m root va (3 - i) =
          if pmPresent (pmEntry m table (pagePmlIdx va (i + 1 + 1))) then
            some (pageAddress m table (pagePmlIdx va (i + 1 + 1)))
          else none := by
        rw [← hnext, tableAt_succ, h, hlvl]
        rfl
      rw [pageResolveLoop]
      split_ifs at hstep ⊢
      · exact ih (by omega) hstep
      · rw [tableAt_none hstep (by omega)]
        rfl

/-- The frame and the offset of an address do not overflow. -/
theorem pageResolve_some (h : tableAt m root va 3 = some t) :
    pageResolve m root va = pageAddress m t (pagePmlIdx va 1) + va % PAGE_SIZE := by
  have h0 : tableAt m root va (3 - 3) = some root := rfl
  unfold pageResolve
  rw [pageResolveLoop_eq le_rfl h0, h, Option.map_some]
  dsimp only
  rw [offset_eq, pageAddress, and_frameMask, PAGE_SIZE]
  exact u64_of_lt (by omega)

theorem pageResolve_none (h : tableAt m root va 3 = none) : pageResolve m root va = 0 := by
  have h0 : tableAt m root va (3 - 3) = some root := rfl
  unfold pageResolve
  rw [pageResolveLoop_eq le_rfl h0, h, Option.map_none]

theorem translate_some (h : tableAt m root va 3 = some t) : translate m root va =
    if pmPresent (pmEntry m t (pagePmlIdx va 1)) then
      some (pageAddress m t (pagePmlIdx va 1) + va % PAGE_SIZE)
    else none := by
  rw [translate, tableAt_succ, h, Option.bind_some]
  split_ifs <;> rfl

/-- **`page_resolve` agrees with the walk of the processor iff the last entry is present whenever
the path reaches it, or has a zero frame and is asked for with a zero offset.** -/
theorem pageResolve_iff (m : Mem) (root va : ℕ) :
    ((∀ a, translate m root va = some a → a ≠ 0 → pageResolve m root va = a) ∧
      (translate m root va = none → pageResolve m root va = 0)) ↔
    ∀ t, tableAt m root va 3 = some t → pmPresent (pmEntry m t (pagePmlIdx va 1)) = true ∨
      (pageAddress m t (pagePmlIdx va 1) = 0 ∧ va % PAGE_SIZE = 0) := by
  cases ht : tableAt m root va 3 with
  | none =>
      have hnone : translate m root va = none := by
        rw [translate, tableAt_none ht (by omega)]
        rfl
      apply iff_of_true
      · refine ⟨fun a ha => ?_, fun _ => pageResolve_none ht⟩
        rw [hnone] at ha
        cases ha
      · exact fun t h => by cases h
  | some t =>
      rw [translate_some ht, pageResolve_some ht]
      cases hp : pmPresent (pmEntry m t (pagePmlIdx va 1)) with
      | true =>
          apply iff_of_true
          · refine ⟨fun a ha _ => Option.some.inj ha, fun hn => by cases hn⟩
          · intro t' ht'
            cases ht'
            exact .inl hp
      | false =>
          rw [if_neg Bool.false_ne_true]
          constructor
          · rintro ⟨-, hz⟩ t' ht'
            cases ht'
            have h0 := hz rfl
            exact .inr ⟨by omega, by omega⟩
          · intro h
            obtain hc | ⟨h1, h2⟩ := h t rfl
            · rw [hp] at hc
              cases hc
            · exact ⟨fun a ha => absurd ha (Option.some_ne_none a).symm, fun _ => by omega⟩

/-- Three tables that lead to an empty last one. -/
def emptyLeaf : Mem :=
  wr (wr (wr (fun _ => 0) 0x1000 0x2003) 0x2000 0x3003) 0x3000 0x4003

/-- An address whose last entry is not present resolves to its offset. -/
theorem pageResolve_absent : translate emptyLeaf 0x1000 0x123 = none ∧
    pageResolve emptyLeaf 0x1000 0x123 = 0x123 := by
  decide +kernel

end resolve

end Dawos
