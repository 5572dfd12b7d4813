import Dawos.WriteF

/-! # What is written

The loop of `__write_f` over a format.  `writeRound_spec` is one round: it emits the text of the next
item.  From it follow the results about whole calls: what is written if everything fits (`write_f`),
and when nothing is written behind the room there is (`write_f_bounded`). -/

namespace Dawos

/-! ### One round -/

section round

variable {m : Mem} {tmp dest cap len n : ℕ} {P : ℕ → Prop} {s s' s₁ : WriteState} {c : UInt8} {k : Conv}
  {arg : ℕ} {args rest : List ℕ} {fmt l text : List UInt8} {it : Item} {ps : List (Item × List UInt8)}

theorem writeRound_lit (hc : s.out.mem s.f = c)
    (hk : c = 0x25 → Conv.ofByte (s.out.mem (s.f + 1)) = none) :
    writeRound tmp n s = .ok ⟨s.f + 1, s.args, s.out.char c⟩ := by
  unfold writeRound
  rw [hc]
  by_cases h : c = 0x25
  · rw [if_pos h, hk h]
  · rw [if_neg h]

theorem writeRound_conv (hc : s.out.mem s.f = 0x25)
    (hk : Conv.ofByte (s.out.mem (s.f + 1)) = some k) (ha : s.args = arg :: args) :
    writeRound tmp n s = s.out.convert tmp k arg n >>= fun o => .ok ⟨s.f + 2, args, o⟩ := by
  unfold writeRound
  rw [if_pos hc, hk, ha]

/-- A round emits the text of the next item, and goes on with the rest of the format. -/
structure RoundSpec (m : Mem) (tmp dest cap : ℕ) (s : WriteState) (it : Item) (l : List UInt8)
    (ps : List (Item × List UInt8)) (rest : List ℕ) (f' : ℕ) (fmt' : List UInt8) (args' : List ℕ)
    (step : ℕ → Out → Except Halt Out) : Prop where
  format : ConstText m (Scratch tmp dest cap) f' fmt'
  renders : Renders m (Scratch tmp dest cap) (items fmt') args' ps rest
  emits : (it = .conv .b → l.length ≤ MAX_INT_STR) → Emits m tmp dest cap step l
  bounds : it = .conv .b → MAX_INT_STR < l.length → ∀ n, step n s.out = .error .bounds
  round : ∀ n, writeRound tmp n s = step n s.out >>= fun o => .ok ⟨f', args', o⟩

theorem RoundSpec.returns {f' : ℕ} {fmt' : List UInt8} {args' : List ℕ}
    {step : ℕ → Out → Except Halt Out} {o : Out}
    (h : RoundSpec m tmp dest cap s it l ps rest f' fmt' args' step)
    (ho : Returns (fun n => step n s.out) o) :
    Returns (fun n => writeRound tmp n s) ⟨f', args', o⟩ :=
  Returns.congr (ho.bind (g := fun o _ => .ok ⟨f', args', o⟩) (Returns.of_eq fun _ => rfl)) h.round

theorem writeRound_spec (hapart : dest + cap ≤ tmp ∨ tmp + (MAX_INT_STR + 1) ≤ dest)
    (hf : ConstText m (Scratch tmp dest cap) s.f fmt)
    (hr : Renders m (Scratch tmp dest cap) (items fmt) s.args ((it, l) :: ps) rest)
    (hw : Wrote m tmp dest cap text s.out) :
    ∃ f' fmt' args' step, RoundSpec m tmp dest cap s it l ps rest f' fmt' args' step := by
  have hmem : ∀ i ≤ fmt.length, s.out.mem (s.f + i) = m (s.f + i) := fun i hi => hw.const (hf.off i hi)
  -- a character that stands for itself
  have hlit : ∀ c fmt', fmt = c :: fmt' → (c = 0x25 → Conv.ofByte (m (s.f + 1)) = none) →
      Renders m (Scratch tmp dest cap) (.lit c :: items fmt') s.args ((it, l) :: ps) rest →
      ∃ f' fmt' args' step, RoundSpec m tmp dest cap s it l ps rest f' fmt' args' step := by
    rintro c fmt' rfl hk hr'
    have hc : s.out.mem s.f = c := (hmem 0 (Nat.zero_le _)).trans hf.text.head
    cases hr' with
    | lit c h =>
        refine ⟨s.f + 1, fmt', s.args, fun _ o => .ok (o.char c), hf.tail, h,
          fun _ => Emits.char hapart c, fun he => (by cases he), fun n => ?_⟩
        exact writeRound_lit hc fun he => by rw [hmem 1 (by simp), hk he]
  cases fmt with
  | nil => cases hr
  | cons c fmt =>
      cases fmt with
      | nil =>
          refine hlit c [] rfl (fun _ => ?_) hr
          rw [show m (s.f + 1) = 0 from hf.text.stop]
          rfl
      | cons d fmt =>
          have hd : m (s.f + 1) = d := hf.text.tail.head
          rw [items] at hr
          by_cases hc : c = 0x25
          · rw [if_pos hc] at hr
            cases hk : Conv.ofByte d with
            | none =>
                rw [hk] at hr
                exact hlit c (d :: fmt) rfl (fun _ => hd ▸ hk) hr
            | some k =>
                rw [hk] at hr
                dsimp only at hr
                generalize hargs : s.args = args at hr
                cases hr with
                | @conv _ args _ _ _ arg _ hl h =>
                    refine ⟨s.f + 2, fmt, args, fun n o => o.convert tmp k arg n, hf.tail.tail, h,
                      fun hb => Emits.convert hapart hl fun he => hb (congrArg Item.conv he),
                      fun he hlen n => ?_, fun n => ?_⟩
                    · obtain rfl : k = .b := Item.conv.inj he
                      exact convert_bounds s.out n ((show l = _ from hl) ▸ hlen)
                    · refine writeRound_conv ?_ ?_ hargs
                      · exact (hmem 0 (Nat.zero_le _)).trans (hf.text.head.trans hc)
                      · rw [hmem 1 (by simp), hd, hk]
          · rw [if_neg hc] at hr
            exact hlit c (d :: fmt) rfl (fun he => absurd he hc) hr

/-! ### The loop -/

theorem writeRound_mono (hs : writeRound tmp n s = .ok s') : s.out.ret ≤ s'.out.ret := by
  unfold writeRound at hs
  split at hs
  · split at hs
    · obtain ⟨o, ho, h⟩ := bind_ok hs
      rw [← Except.ok.inj h]
      exact Mono.convert _ _ n _ _ ho
    · cases hs
    · rw [← Except.ok.inj hs]
      exact Nat.le_succ _
  · rw [← Except.ok.inj hs]
    exact Nat.le_succ _

theorem writeLoop_mono (hs : writeLoop tmp len n s = .ok s') : s.out.ret ≤ s'.out.ret := by
  induction n generalizing s with
  | zero => cases hs
  | succ n ih =>
      rw [writeLoop] at hs
      split_ifs at hs
      · obtain ⟨s₁, h1, h2⟩ := bind_ok hs
        exact (writeRound_mono h1).trans (ih h2)
      · rw [Except.ok.inj hs]

/-- The loop ends at the end of the format, or when there is no room left. -/
theorem writeLoop_end (h : ¬ (s.out.mem s.f ≠ 0 ∧ s.out.ret < len)) :
    Returns (fun n => writeLoop tmp len n s) s := by
  filter_upwards [Filter.eventually_gt_atTop 0] with n hn
  obtain ⟨n, rfl⟩ : ∃ i, n = i + 1 := ⟨n - 1, by omega⟩
  rw [writeLoop, if_neg h]

/-- A further round. -/
theorem writeLoop_next (h : s.out.mem s.f ≠ 0 ∧ s.out.ret < len)
    (h₁ : Returns (fun n => writeRound tmp n s) s₁) (h₂ : Returns (fun n => writeLoop tmp len n s₁) s') :
    Returns (fun n => writeLoop tmp len n s) s' := by
  obtain ⟨k, hk⟩ := Filter.eventually_atTop.mp (h₁.and h₂)
  filter_upwards [Filter.eventually_gt_atTop k] with n hn
  obtain ⟨n, rfl⟩ : ∃ i, n = i + 1 := ⟨n - 1, by omega⟩
  have h1 : writeRound tmp n s = .ok s₁ := (hk n (by omega)).1
  rw [writeLoop, if_pos h, h1]
  exact (hk n (by omega)).2

/-- The format is at its end iff no item is left. -/
theorem format_end (hf : ConstText m (Scratch tmp dest cap) s.f fmt)
    (hr : Renders m (Scratch tmp dest cap) (items fmt) args ps rest)
    (hw : Wrote m tmp dest cap text s.out) : s.out.mem s.f = 0 ↔ ps = [] := by
  have hhead : s.out.mem s.f = m s.f := hw.const (hf.off 0 (Nat.zero_le _))
  rw [hhead]
  cases fmt with
  | nil =>
      cases hr
      exact iff_of_true hf.text.stop rfl
  | cons c fmt =>
      refine iff_of_false (fun h => hf.text.nonzero c List.mem_cons_self (hf.text.head ▸ h)) fun h => ?_
      subst h
      have hne : items (c :: fmt) ≠ [] := by
        cases fmt with
        | nil => simp [items]
        | cons d fmt =>
            rw [items]
            split_ifs
            · cases Conv.ofByte d <;> simp
            · simp
      generalize items (c :: fmt) = its at hr hne
      cases hr
      exact hne rfl

/-- A format whose text fits is written to its end. -/
theorem writeLoop_all (hapart : dest + cap ≤ tmp ∨ tmp + (MAX_INT_STR + 1) ≤ dest)
    (hf : ConstText m (Scratch tmp dest cap) s.f fmt)
    (hr : Renders m (Scratch tmp dest cap) (items fmt) s.args ps rest)
    (hw : Wrote m tmp dest cap text s.out) (hcap : text.length + (textOf ps).length ≤ cap)
    (hlen : text.length + (textOf ps).length < len)
    (hb : ∀ p ∈ ps, p.1 = .conv .b → p.2.length ≤ MAX_INT_STR) :
    ∃ s', Returns (fun n => writeLoop tmp len n s) s' ∧ Wrote m tmp dest cap (text ++ textOf ps) s'.out ∧
      s'.args = rest := by
  induction ps generalizing s fmt text with
  | nil =>
      have hend := (format_end hf hr hw).mpr rfl
      refine ⟨s, writeLoop_end fun h => h.1 hend, ?_, ?_⟩
      · rwa [textOf, List.flatMap_nil, List.append_nil]
      · generalize items fmt = its at hr
        generalize s.args = args at hr ⊢
        cases hr
        rfl
  | cons p ps ih =>
      obtain ⟨it, l⟩ := p
      have htext : textOf ((it, l) :: ps) = l ++ textOf ps := List.flatMap_cons
      rw [htext, List.length_append] at hcap hlen
      have hcond : s.out.mem s.f ≠ 0 ∧ s.out.ret < len := by
        refine ⟨fun h => ?_, ?_⟩
        · cases (format_end hf hr hw).mp h
        · rw [hw.ret]
          omega
      obtain ⟨f', fmt', args', step, h⟩ := writeRound_spec hapart hf hr hw
      obtain ⟨o₁, h1, hw₁⟩ := (h.emits (hb _ List.mem_cons_self)).fits hw (by omega)
      obtain ⟨s', h2, hw', hrest⟩ := @ih ⟨f', args', o₁⟩ fmt' (text ++ l) h.format h.renders hw₁
        (by rw [List.length_append]; omega) (by rw [List.length_append]; omega)
        fun p hp => hb p (List.mem_cons_of_mem _ hp)
      rw [List.append_assoc, ← htext] at hw'
      exact ⟨s', writeLoop_next hcond (h.returns h1) h2, hw', hrest⟩

/-- Every item that begins before position `len` ends there at the latest, and a binary number among
them fits into the static buffer. -/
def Within (len : ℕ) : ℕ → List (Item × List UInt8) → Prop
  | _, [] => True
  | p, (it, l) :: ps => p < len → (it = .conv .b → l.length ≤ MAX_INT_STR) ∧ p + l.length ≤ len ∧
      Within len (p + l.length) ps

/-- If no item crosses the end of the room, neither does the output. -/
theorem writeLoop_within (hapart : dest + len ≤ tmp ∨ tmp + (MAX_INT_STR + 1) ≤ dest)
    (hf : ConstText m (Scratch tmp dest len) s.f fmt)
    (hr : Renders m (Scratch tmp dest len) (items fmt) s.args ps rest)
    (hw : Wrote m tmp dest len text s.out) (h : Within len text.length ps) :
    ∃ s' text', Returns (fun n => writeLoop tmp len n s) s' ∧ Wrote m tmp dest len text' s'.out := by
  induction ps generalizing s fmt text with
  | nil => exact ⟨s, text, writeLoop_end fun h => h.1 ((format_end hf hr hw).mpr rfl), hw⟩
  | cons p ps ih =>
      obtain ⟨it, l⟩ := p
      by_cases hlt : text.length < len
      · obtain ⟨hb, hle, hrest⟩ := h hlt
        have hcond : s.out.mem s.f ≠ 0 ∧ s.out.ret < len := by
          refine ⟨fun h => ?_, hw.ret.trans_lt hlt⟩
          cases (format_end hf hr hw).mp h
        obtain ⟨f', fmt', args', step, h⟩ := writeRound_spec hapart hf hr hw
        obtain ⟨o₁, h1, hw₁⟩ := (h.emits hb).fits hw hle
        obtain ⟨s', text', h2, hw'⟩ := @ih ⟨f', args', o₁⟩ fmt' (text ++ l) h.format h.renders hw₁
          (by rwa [List.length_append])
        exact ⟨s', text', writeLoop_next hcond (h.returns h1) h2, hw'⟩
      · exact ⟨s, text, writeLoop_end fun h => hlt (hw.ret ▸ h.2), hw⟩

/-- A count inside the room means that no item has crossed its end. -/
theorem within_of_writeLoop (hapart : dest + len ≤ tmp ∨ tmp + (MAX_INT_STR + 1) ≤ dest)
    (hf : ConstText m (Scratch tmp dest len) s.f fmt)
    (hr : Renders m (Scratch tmp dest len) (items fmt) s.args ps rest)
    (hw : Wrote m tmp dest len text s.out) (hs : writeLoop tmp len n s = .ok s')
    (hret : s'.out.ret ≤ len) : Within len text.length ps := by
  induction ps generalizing s fmt text n with
  | nil => trivial
  | cons p ps ih =>
      obtain ⟨it, l⟩ := p
      intro hlt
      have hcond : s.out.mem s.f ≠ 0 ∧ s.out.ret < len := by
        refine ⟨fun h => ?_, hw.ret.trans_lt hlt⟩
        cases (format_end hf hr hw).mp h
      obtain ⟨f', fmt', args', step, h⟩ := writeRound_spec hapart hf hr hw
      cases n with
      | zero => cases hs
      | succ n =>
          rw [writeLoop, if_pos hcond] at hs
          obtain ⟨s₁, h1, h2⟩ := bind_ok hs
          rw [h.round] at h1
          obtain ⟨o, ho, h1⟩ := bind_ok h1
          obtain rfl := Except.ok.inj h1
          have hb : it = .conv .b → l.length ≤ MAX_INT_STR := fun he => by
            by_contra hlen
            rw [h.bounds he (Nat.not_le.mp hlen)] at ho
            cases ho
          have hle : text.length + l.length ≤ len := by
            by_contra hlen
            have hpast := (h.emits hb).past hw (Nat.not_le.mp hlen) n o ho
            exact absurd (hpast.trans_le (writeLoop_mono h2)) (Nat.not_lt.mpr hret)
          refine ⟨hb, hle, ?_⟩
          obtain ⟨o₁, hr₁, hw₁⟩ := (h.emits hb).fits hw hle
          obtain rfl := (((h.emits hb).steady _).returns ho).unique hr₁
          have := @ih n ⟨f', args', o⟩ fmt' (text ++ l) h.format h.renders hw₁ h2
          rwa [List.length_append] at this

end round

/-! ### Whole calls -/

/-- The arguments for binary numbers have at most 32 bits. -/
def BinaryArgs : List Item → List ℕ → Prop
  | [], _ => True
  | .lit _ :: its, args => BinaryArgs its args
  | .conv _ :: _, [] => True
  | .conv k :: its, arg :: args => (k = .b → arg < 2 ^ 32) ∧ BinaryArgs its args

/-- The call returns the length of the text, which is at the start of the destination then. -/
def WritesText (m : Mem) (tmp dest len format : ℕ) (args : List ℕ) (text : List UInt8) : Prop :=
  ∃ m' rest, Returns (fun n => writeF m tmp dest len format args n) (m', text.length, rest) ∧
    ∀ i, (h : i < text.length) → m' (dest + i) = text[i]

section calls

variable {m : Mem} {tmp dest cap len format : ℕ} {P : ℕ → Prop} {its : List Item}
  {args rest : List ℕ} {fmt : List UInt8} {ps : List (Item × List UInt8)} {s : WriteState}

theorem toInt64_of_lt {w : ℕ} (h : w < 2 ^ 63) : toInt64 w = w := by
  unfold toInt64
  rw [Int.bmod_eq_of_le] <;> omega

theorem toInt64_of_ge {w : ℕ} (h : 2 ^ 63 ≤ w) (h' : w < 2 ^ 64) : toInt64 w = w - 2 ^ 64 := by
  unfold toInt64
  rw [Int.bmod_def]
  omega

theorem BinaryArgs.fits (hr : Renders m P its args ps rest) (hb : BinaryArgs its args) :
    ∀ p ∈ ps, p.1 = .conv .b → p.2.length ≤ MAX_INT_STR := by
  induction hr with
  | nil rest => exact fun p hp => absurd hp List.not_mem_nil
  | lit c h ih =>
      intro p hp he
      rcases List.mem_cons.mp hp with rfl | hp
      · cases he
      · exact ih hb p hp he
  | @conv its args rest ps k arg l hl h ih =>
      intro p hp he
      rcases List.mem_cons.mp hp with rfl | hp
      · obtain rfl : k = .b := Item.conv.inj he
        have harg : arg < 2 ^ 32 := hb.1 rfl
        rw [show l = numeral (toInt64 arg) 2 from hl, toInt64_of_lt (by omega),
          numeral_eq_digits (.inl (by omega)), List.length_map, Int.natAbs_natCast]
        exact digitsOf_length le_rfl (by decide) harg
      · exact ih hb.2 p hp he

theorem Wrote.start (m : Mem) (tmp dest cap : ℕ) : Wrote m tmp dest cap [] ⟨m, dest, 0⟩ :=
  ⟨rfl, rfl, Nat.zero_le _, fun i hi => absurd hi (Nat.not_lt_zero i), AgreeOff.refl m _⟩

theorem writeF_returns (h : Returns (fun n => writeLoop tmp len n ⟨format, args, ⟨m, dest, 0⟩⟩) s) :
    Returns (fun n => writeF m tmp dest len format args n) (s.out.mem, s.out.ret, s.args) := by
  filter_upwards [h] with n hn
  unfold writeF
  rw [hn]
  rfl

/-- **A format whose text has less than `len` characters is written as this text, at the start of the
destination and nowhere else; each specifier takes one argument, and the count is the length.** -/
theorem write_f (hapart : dest + (textOf ps).length ≤ tmp ∨ tmp + (MAX_INT_STR + 1) ≤ dest)
    (hf : ConstText m (Scratch tmp dest (textOf ps).length) format fmt)
    (hr : Renders m (Scratch tmp dest (textOf ps).length) (items fmt) args ps rest)
    (hlen : (textOf ps).length < len) (hb : BinaryArgs (items fmt) args) :
    ∃ m', Returns (fun n => writeF m tmp dest len format args n) (m', (textOf ps).length, rest) ∧
      (∀ i, (h : i < (textOf ps).length) → m' (dest + i) = (textOf ps)[i]) ∧
      AgreeOff m m' (Scratch tmp dest (textOf ps).length) := by
  obtain ⟨s, h, hw, hrest⟩ := @writeLoop_all m tmp dest (textOf ps).length len
    ⟨format, args, ⟨m, dest, 0⟩⟩ rest fmt [] ps hapart hf hr (.start m tmp dest _)
    (Nat.zero_add _).le (by rwa [List.length_nil, Nat.zero_add]) (BinaryArgs.fits hr hb)
  rw [List.nil_append] at hw
  have hret := writeF_returns h
  rw [hw.ret, hrest] at hret
  exact ⟨s.out.mem, hret, hw.bytes, hw.off⟩

/-- `"a%c%"` with the argument `'B'`. -/
theorem write_f_char : ∃ m',
    Returns (fun n => writeF (put (fun _ => 0) 100 [0x61, 0x25, 0x63, 0x25]) 0 1000 4 100 [0x42] n)
      (m', 3, []) ∧
      (∀ i, (h : i < [0x61, 0x42, (0x25 : UInt8)].length) →
        m' (1000 + i) = [0x61, 0x42, (0x25 : UInt8)][i]) ∧
      AgreeOff (put (fun _ => 0) 100 [0x61, 0x25, 0x63, 0x25]) m' (Scratch 0 1000 3) :=
  @write_f (put (fun _ => 0) 100 [0x61, 0x25, 0x63, 0x25]) 0 1000 4 100 [0x42] []
    [0x61, 0x25, 0x63, 0x25] [(.lit 0x61, [0x61]), (.conv .c, [0x42]), (.lit 0x25, [0x25])] (.inr (by decide))
    (.put (by simp) rfl (by decide) (by decide))
    (.lit 0x61 (.conv rfl (.lit 0x25 (.nil [])))) (by decide) ⟨fun h => (nomatch h), trivial⟩

/-- **Nothing is written at or behind `dest + len`, and the count is at most `len`, iff no item that
begins before position `len` crosses it, and no binary number among these has more than 32 digits.** -/
theorem write_f_bounded (hapart : dest + len ≤ tmp ∨ tmp + (MAX_INT_STR + 1) ≤ dest)
    (hf : ConstText m (Scratch tmp dest len) format fmt)
    (hr : Renders m (Scratch tmp dest len) (items fmt) args ps rest) :
    (∃ m' ret args', Returns (fun n => writeF m tmp dest len format args n) (m', ret, args') ∧
      ret ≤ len ∧ AgreeOff m m' (Scratch tmp dest len)) ↔ Within len 0 ps := by
  have hstart := Wrote.start m tmp dest len
  constructor
  · rintro ⟨m', ret, args', hret, hle, -⟩
    obtain ⟨n, hn⟩ := hret.exists
    obtain ⟨s, hs, he⟩ := bind_ok hn
    have hcount : s.out.ret = ret := congrArg (fun r => r.2.1) (Except.ok.inj he)
    exact @within_of_writeLoop m tmp dest len n ⟨format, args, ⟨m, dest, 0⟩⟩ s rest fmt [] ps hapart hf hr
      hstart hs (hcount.trans_le hle)
  · intro h
    obtain ⟨s, text, hs, hw⟩ := @writeLoop_within m tmp dest len ⟨format, args, ⟨m, dest, 0⟩⟩ rest fmt []
      ps hapart hf hr hstart h
    exact ⟨_, _, _, writeF_returns hs, hw.ret.trans_le hw.le, hw.off⟩

/-- `"a%c%"` in three bytes. -/
theorem write_f_bounded_char : ∃ m' ret args',
    Returns (fun n => writeF (put (fun _ => 0) 100 [0x61, 0x25, 0x63, 0x25]) 0 1000 3 100 [0x42] n)
      (m', ret, args') ∧ ret ≤ 3 ∧
      AgreeOff (put (fun _ => 0) 100 [0x61, 0x25, 0x63, 0x25]) m' (Scratch 0 1000 3) :=
  (@write_f_bounded (put (fun _ => 0) 100 [0x61, 0x25, 0x63, 0x25]) 0 1000 3 100 [0x42] []
    [0x61, 0x25, 0x63, 0x25] [(.lit 0x61, [0x61]), (.conv .c, [0x42]), (.lit 0x25, [0x25])] (.inr (by decide))
    (.put (by simp) rfl (by decide) (by decide))
    (.lit 0x61 (.conv rfl (.lit 0x25 (.nil []))))).mpr (by simp [Within])

/-- A call writes one text. -/
theorem WritesText.unique {t₁ t₂ : List UInt8} (h₁ : WritesText m tmp dest len format args t₁)
    (h₂ : WritesText m tmp dest len format args t₂) : t₁ = t₂ := by
  obtain ⟨m₁, rest₁, hr₁, hb₁⟩ := h₁
  obtain ⟨m₂, rest₂, hr₂, hb₂⟩ := h₂
  obtain ⟨hm, hrest⟩ := Prod.mk.inj (hr₁.unique hr₂)
  obtain ⟨hcount, -⟩ := Prod.mk.inj hrest
  refine List.ext_getElem hcount fun i hi hi' => ?_
  rw [← hb₁ i hi, hm, hb₂ i hi']

end calls

/-! ### Formats of one item -/

/-- The character of a specifier. -/
def Conv.byte : Conv → UInt8
  | .d => 0x64
  | .u => 0x75
  | .x => 0x78
  | .b => 0x62
  | .c => 0x63
  | .s => 0x73
  | .g => 0x67

theorem Conv.ofByte_byte (k : Conv) : Conv.ofByte k.byte = some k := by
  cases k <;> rfl

section one

variable {m : Mem} {tmp dest cap len format arg : ℕ} {k : Conv} {l text : List UInt8}

/-- The call of a format with one specifier, its argument, and `cap` bytes of room. -/
structure OneItem (m : Mem) (tmp dest cap len format : ℕ) (k : Conv) (arg : ℕ) (l : List UInt8) :
    Prop where
  room : 0 < len
  apart : dest + cap ≤ tmp ∨ tmp + (MAX_INT_STR + 1) ≤ dest
  format : ConstText m (Scratch tmp dest cap) format [0x25, k.byte]
  arg : ArgText m (Scratch tmp dest cap) k arg l

theorem OneItem.round (h : OneItem m tmp dest cap len format k arg l) :
    (m format ≠ 0 ∧ 0 < len) ∧ ∃ f' fmt' args' step, RoundSpec m tmp dest cap
      ⟨format, [arg], ⟨m, dest, 0⟩⟩ (.conv k) l [] [] f' fmt' args' step := by
  have hitems : items [0x25, k.byte] = [.conv k] := by
    rw [items, if_pos rfl, Conv.ofByte_byte]
    rfl
  have hr : Renders m (Scratch tmp dest cap) (items [0x25, k.byte]) [arg] [(.conv k, l)] [] := by
    rw [hitems]
    exact .conv h.arg (.nil [])
  refine ⟨⟨?_, h.room⟩, writeRound_spec h.apart h.format hr (.start m tmp dest cap)⟩
  rw [h.format.text.head]
  decide

/-- A text for which there is room is written. -/
theorem OneItem.writes (h : OneItem m tmp dest cap len format k arg l) (hcap : l.length ≤ cap)
    (hb : k = .b → l.length ≤ MAX_INT_STR) : WritesText m tmp dest len format [arg] l := by
  obtain ⟨hcond, f', fmt', args', step, hround⟩ := h.round
  obtain ⟨o, ho, hw⟩ := (hround.emits fun he => hb (Item.conv.inj he)).fits (.start m tmp dest cap)
    ((Nat.zero_add _).trans_le hcap)
  rw [List.nil_append] at hw
  have hend := @writeLoop_end tmp len ⟨f', args', o⟩ fun hc =>
    hc.1 ((@format_end m tmp dest cap ⟨f', args', o⟩ _ _ _ _ _ hround.format hround.renders hw).mpr rfl)
  have hret := writeF_returns (writeLoop_next hcond (hround.returns ho) hend)
  rw [hw.ret] at hret
  exact ⟨o.mem, args', hret, hw.bytes⟩

/-- `"%s"` with `"AB"` in one byte: both characters are written, and counted. -/
theorem write_f_overruns : ∃ m' rest,
    Returns (fun n =>
      writeF (put (put (fun _ => 0) 200 [0x41, 0x42]) 100 [0x25, 0x73]) 0 1000 1 100 [200] n)
      (m', 2, rest) ∧ m' (1000 + 1) = 0x42 := by
  have h : OneItem (put (put (fun _ => 0) 200 [0x41, 0x42]) 100 [0x25, 0x73]) 0 1000 2 1 100 .s 200
      [0x41, 0x42] := by
    have hstop : put (fun _ => 0) 200 [0x41, 0x42] (100 + [0x25, (0x73 : UInt8)].length) = 0 :=
      put_off (.inl (by decide))
    refine ⟨Nat.one_pos, .inr (by decide), .put (by simp) hstop (by decide) (by decide), ?_,
      fun i hi => ?_⟩
    · refine ⟨fun i hi => ?_, by simp, ?_⟩
      · rw [put_off (.inr (by simp; omega)), put_at hi]
      · rw [put_off (.inr (by simp)), put_off (.inr (by simp))]
    · have hi : i ≤ 2 := hi
      unfold Scratch MAX_INT_STR
      omega
  obtain ⟨m', rest, hret, hbytes⟩ := h.writes le_rfl fun he => by cases he
  exact ⟨m', rest, hret, hbytes 1 (by decide)⟩

/-- With a binary number that is too long nothing is returned. -/
theorem OneItem.not_writes (h : OneItem m tmp dest cap len format .b arg l)
    (hlen : MAX_INT_STR < l.length) : ¬ WritesText m tmp dest len format [arg] text := by
  rintro ⟨m', rest, hret, -⟩
  obtain ⟨hcond, f', fmt', args', step, hround⟩ := h.round
  obtain ⟨n, hn⟩ := hret.exists
  obtain ⟨s, hs, -⟩ := bind_ok hn
  cases n with
  | zero => cases hs
  | succ n =>
      rw [writeLoop, if_pos hcond] at hs
      obtain ⟨s₁, h1, -⟩ := bind_ok hs
      rw [hround.round, hround.bounds rfl hlen] at h1
      cases h1

end one

end Dawos
